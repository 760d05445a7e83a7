import Revix.AgentRouting
import Revix.ConcurrentSwarm
import Revix.EffectCosts

/-! The calls of a review are bounded by the two budgets of the settings and the number of tool
calls in a message. -/
namespace Revix
open EffectPrograms EffectSessions EffectCosts LabelledRuns GatheredPrograms

/-- A weight for the completions, and one for the runs of the sandbox. -/
def callWeight (completions sandboxes : ℕ) : SwarmCall → ℕ
  | .completion _ => completions
  | .sandbox _ => sandboxes

def ToolsWithin (tools : ℕ) (reply : SwarmReply) : Prop :=
  ∀ c message, reply (.completion c) = .ok message → message.toolCalls.length ≤ tools

def agentLimit (cfg : SwarmSettings) : ℕ :=
  if 0 ≤ cfg.reviewMaxAgentsPerChunk then min cfg.reviewMaxAgentsPerChunk.toNat 5 else 5

section Costs

variable {lib : Libraries} {models : Settings} {cfg : SwarmSettings} {k s tools : ℕ}

abbrev SwarmSpends {α : Type} (k s tools n : ℕ) (R : α → Prop) (x : SwarmScript α) : Prop :=
  Spends (callWeight k s) (ToolsWithin tools) n R x

theorem spends_tryExcept {α : Type} {n m : ℕ} {R : α → Prop} {x : SwarmScript α}
    {handler : PyError → SwarmScript α} (hx : SwarmSpends k s tools n R x)
    (hh : ∀ e, SwarmSpends k s tools m R (handler e)) :
    SwarmSpends k s tools (n + m) R (tryExcept x handler) := by
  refine hx.tryCatch fun e => ?_
  cases e with
  | exception e => exact hh e
  | cancelled => exact spends_throw _

theorem spends_orRaise {α : Type} (x : Except String α) :
    SwarmSpends k s tools 0 (fun _ => True) (orRaise x) := by
  cases x with
  | error text => exact spends_throw _
  | ok a => exact spends_pure trivial

theorem spends_complete (c : Completion) :
    SwarmSpends k s tools k (fun m => m.toolCalls.length ≤ tools) (complete c) :=
  spends_request fun _ hreply message hmessage => hreply c message hmessage

theorem spends_sandbox (script : Json) :
    SwarmSpends k s tools s (fun _ => True)
      (Script.request (SwarmCall.sandbox script) : SwarmScript Dict) :=
  spends_request (q := SwarmCall.sandbox script) fun _ _ _ _ => trivial

variable (cfg) in
theorem length_capAgentIds_le (agents : List String) :
    (capAgentIds cfg agents).length ≤ agents.length := by
  unfold capAgentIds sliceTo
  split
  · exact Nat.le_refl _
  · split <;> exact (List.length_take_le' _ _).trans (List.length_insertionSort _ _).le

variable (cfg) in
theorem length_capAgentIds_limit {agents : List String} (h : agents.length ≤ 5) :
    (capAgentIds cfg agents).length ≤ agentLimit cfg := by
  have hle := (length_capAgentIds_le cfg agents).trans h
  unfold agentLimit
  split_ifs with hcap
  · have := length_capAgentIds hcap agents
    omega
  · exact hle

theorem length_normalizeAgentIds (reply : Json) (chunk : String) :
    (normalizeAgentIds cfg reply chunk).length ≤ 5 := by
  have hsub : normalizeAgentIds cfg reply chunk ⊆ validAgentIds :=
    fun a ha => valid_of_mem_normalizeAgentIds ha
  exact (List.subperm_of_subset nodup_normalizeAgentIds hsub).length_le

theorem length_agentTasks {chunks : List String} {routing : List (List String)}
    (h : ∀ decision ∈ routing, decision.length ≤ 5) :
    (agentTasks cfg chunks routing).length ≤ chunks.length * agentLimit cfg := by
  induction chunks generalizing routing with
  | nil => simp [agentTasks]
  | cons chunk chunks ih =>
    cases routing with
    | nil => simp [agentTasks]
    | cons decision routing =>
      have hfirst := length_capAgentIds_limit cfg (h decision (.head _))
      have hrest := ih fun d hd => h d (.tail _ hd)
      simp only [agentTasks, List.zip_cons_cons, List.flatMap_cons, List.length_append,
        List.length_map, List.length_cons, Nat.succ_mul] at hrest ⊢
      omega

theorem spends_coordinateRouting (chunk intent : String) :
    SwarmSpends k s tools k (fun decision => decision.length ≤ 5)
      (coordinateRouting lib models cfg chunk intent) := by
  refine (spends_tryExcept (m := 0) ((spends_complete _).bind (m := 0) fun message _ => ?_)
    fun e => spends_pure (by decide)).mono (Nat.le_refl _) fun _ h => h
  split
  · exact spends_throw _
  · refine ((spends_orRaise _).bind (m := 0) fun data _ => spends_pure ?_).mono (Nat.le_refl _)
      fun _ h => h
    exact (length_capAgentIds_le _ _).trans (length_normalizeAgentIds _ _)

/-- Each run of the sandbox is followed by a completion. -/
theorem spends_runToolCalls (request : Completion) (message : AssistantMessage)
    (calls : List ToolCall) :
    SwarmSpends k s tools (calls.length * (k + s)) (fun _ => True)
      (runToolCalls lib request message calls) := by
  induction calls generalizing request message with
  | nil => exact spends_pure trivial
  | cons call calls ih =>
    unfold runToolCalls
    rw [List.length_cons, Nat.succ_mul]
    split
    · refine ((spends_orRaise _).bind fun arguments _ => (spends_orRaise _).bind fun script _ =>
        (spends_sandbox _).bind fun sandboxRes _ => (spends_complete _).bind fun reply _ =>
          ih _ reply).mono ?_ fun _ h => h
      omega
    · exact (ih request message).mono (Nat.le_add_right _ _) fun _ h => h

/-- An agent makes one call, and two more for each run of the sandbox. -/
theorem spends_executeAgent (agentId chunk intent : String) :
    SwarmSpends k s tools (k + tools * (k + s)) (fun _ => True)
      (executeAgent lib models agentId chunk intent) := by
  rw [executeAgent, analyzeChunkWithAgent_eq]
  refine (spends_tryExcept (n := k + tools * (k + s)) (m := 0) ?_
    fun e => spends_pure trivial).mono (Nat.le_refl _) fun _ h => h
  refine (spends_complete _).bind fun first hfirst => ?_
  have hcalls : SwarmSpends k s tools (first.toolCalls.length * (k + s)) (fun _ => True)
      (runToolCalls lib (firstRequest models agentId (agentPrompt agentId) chunk intent) first
        first.toolCalls) := spends_runToolCalls _ _ _
  have hreview (message : AssistantMessage) :
      SwarmSpends k s tools 0 (fun _ => True) (reviewIn lib agentId message) := by
    rw [reviewIn_eq]
    exact spends_orRaise _
  exact (hcalls.bind fun message _ => hreview message).mono (Nat.mul_le_mul_right _ hfirst)
    fun _ h => h

theorem spends_reduceSummaries (summaries : List String) (comments : List ReviewComment) :
    SwarmSpends k s tools (2 * k) (fun _ => True)
      (reduceSummaries lib models summaries comments) := by
  have hcall (c : Completion) (α : Type) (f : AssistantMessage → Except String α) :
      SwarmSpends k s tools k (fun _ => True) (do
        let message ← complete c
        orRaise (f message)) :=
    (spends_complete c).bind fun message _ => spends_orRaise _
  have hfallback : SwarmSpends k s tools k (fun _ => True)
      (fallbackSynthesis lib models summaries comments) := by
    have hreply := spends_tryExcept (m := 0) (hcall (fallbackRequest models summaries) _
      fun message => fallbackResult lib message comments) fun e => spends_pure (a := none) trivial
    have hresult (res : Option ReviewResult) : SwarmSpends k s tools 0 (fun _ => True)
        (Script.pure (res.getD (synthesisFailed comments)) : SwarmScript ReviewResult) :=
      spends_pure trivial
    exact hreply.bind fun res _ => hresult res
  exact (spends_tryExcept (hcall _ _ _) fun e => hfallback).mono (by omega) fun _ h => h

theorem spends_synthesize (results : List (Option ReviewResult)) :
    SwarmSpends k s tools (2 * k) (fun _ => True) (synthesize lib models results) := by
  unfold synthesize
  split
  · exact spends_pure trivial
  · exact spends_reduceSummaries _ _

theorem length_buildReviewChunks {chunkByAst : String → String → String → List String}
    {files : List PullFile} {chunks : List String}
    (h : buildReviewChunks chunkByAst cfg files = .ok chunks) :
    chunks.length ≤ (max cfg.reviewMaxChunks 1).toNat := by
  simp only [buildReviewChunks] at h
  cases hcollect : collectChunks chunkByAst (max cfg.reviewMaxChunks 1).toNat []
      (rankFiles files) with
  | error text =>
    rw [hcollect] at h
    cases h
  | ok all =>
    rw [hcollect] at h
    cases h
    exact List.length_take_le _ _

/-- What a review costs at most, per completion and per run of the sandbox. -/
def reviewBudget (cfg : SwarmSettings) (completion sandbox tools : ℕ) : ℕ :=
  (max cfg.reviewMaxChunks 1).toNat *
    (completion + agentLimit cfg * (completion + tools * (completion + sandbox))) + 2 * completion

theorem spends_runSwarm {prFiles : List PullFile} {prDetails : Dict} {chunks : List String}
    (hchunks : buildReviewChunks lib.chunkByAst cfg prFiles = .ok chunks) :
    SwarmSpends k s tools
      (chunks.length * (k + agentLimit cfg * (k + tools * (k + s)))) (fun _ => True)
      (runSwarm lib models cfg prFiles prDetails) := by
  rw [runSwarm_eq hchunks]
  have hrouting : SwarmSpends k s tools (chunks.length * k)
      (fun routing => routing.length = chunks.length ∧ ∀ decision ∈ routing, decision.length ≤ 5)
      (Script.collect (fun chunk => coordinateRouting lib models cfg chunk
        (reviewIntent lib prDetails)) chunks) :=
    Spends.collect fun chunk => spends_coordinateRouting chunk _
  refine (hrouting.bind (m := chunks.length * agentLimit cfg * (k + tools * (k + s)))
    fun routing hr => ?_).mono (by rw [Nat.mul_assoc, ← Nat.mul_add]) fun _ h => h
  refine (Spends.collect fun task => spends_executeAgent _ _ _).mono ?_ fun _ _ => trivial
  exact Nat.mul_le_mul_right _ (length_agentTasks hr.2)

/-- Whatever the models reply, one call after the other. -/
theorem spends_analyzeDiff (prFiles : List PullFile) (prDetails : Dict) :
    SwarmSpends k s tools (reviewBudget cfg k s tools) (fun _ => True)
      (analyzeDiff lib models cfg prFiles prDetails) := by
  refine Spends.bind (R := fun _ => True) ?_ fun results _ => spends_synthesize results
  cases hchunks : buildReviewChunks lib.chunkByAst cfg prFiles with
  | error text =>
    have hfails : runSwarm lib models cfg prFiles prDetails =
        Script.throw (.exception ⟨text, none⟩) := by
      unfold runSwarm
      rw [hchunks]
      rfl
    rw [hfails]
    exact spends_throw _
  | ok chunks =>
    exact (spends_runSwarm hchunks).mono
      (Nat.mul_le_mul_right _ (length_buildReviewChunks hchunks)) fun _ h => h

end Costs

section Reviews

variable {lib : Libraries} {models : Settings} {cfg : SwarmSettings} {aiConcurrency : ℕ}
  {reviews : List (List PullFile × Dict)} {p : SwarmPool}
  {es : List (ℕ × Action SwarmCall (fun q => Except Raised q.Answer))}

/-- However the calls of the reviews interleave and whatever the models reply, no review of a
worker ever makes more calls than its budget. -/
theorem review_within_budget (tools : ℕ)
    (h : Run ReviewStep (startReviews lib models cfg aiConcurrency reviews) es p)
    (huncancelled : NoneCancelled es)
    (htools : ∀ e ∈ es, ∀ reply ∈ e.2.replies, ToolsWithin tools reply) {i : ℕ}
    (hi : i < reviews.length) : requestsOf i es ≤ reviewBudget cfg 1 1 tools := by
  let failing : SwarmReply := fun _ => .error (.exception ⟨"", none⟩)
  obtain ⟨n, replies, r, hperm, hend, hle⟩ := Pool.exists_completion failing h
    (i := i) (by rw [List.getElem?_map, List.getElem?_eq_getElem hi, Option.map_some])
  have hreplies : ∀ reply ∈ replies, (∀ q, reply q ≠ .error .cancelled) ∧
      ToolsWithin tools reply := by
    intro reply hreply
    rcases List.mem_append.1 (hperm.subset hreply) with hreply | hreply
    · obtain ⟨e, he, hmem⟩ := List.mem_flatMap.1 hreply
      split_ifs at hmem
      · exact ⟨huncancelled e he reply hmem, htools e he reply hmem⟩
      · cases hmem
    · rw [List.eq_of_mem_replicate hreply]
      exact ⟨fun q => nofun, fun c message => nofun⟩
  have hrun := completes_analyzeDiff (fun reply hreply => (hreplies reply hreply).1) hend
  obtain ⟨spent, hmetered, hleast⟩ :=
    exists_metered (callWeight 1 1) (fun _ _ _ => rfl) hrun 0
  have hspent := (spends_analyzeDiff reviews[i].1 reviews[i].2).complete hmetered
    fun reply hreply => (hreplies reply hreply).2
  have hall := hleast 1 fun q => by cases q <;> exact Nat.le_refl 1
  omega

theorem review_within_budget_both : ∃ es p, Run ReviewStep Sample.bothReviews es p ∧
    (∀ f ∈ p.flows, f.isDone = true) ∧ requestsOf 1 es ≤ 86 := by
  obtain ⟨es, p, hrun, hdone, hreplies⟩ :=
    Pool.exists_run Sample.reporting (show 1 ≤ Sample.bothReviews.permits +
      Sample.bothReviews.inFlight.countP isCompletion by decide)
  refine ⟨es, p, hrun, hdone, ?_⟩
  refine review_within_budget 1 hrun (fun e he reply hreply q => ?_)
    (fun e he reply hreply => ?_) (show 1 < 2 by decide)
  · rw [hreplies e he reply hreply]
    exact Sample.reporting_uncancelled q
  · rw [hreplies e he reply hreply]
    intro c message hmessage
    simp only [Sample.reporting] at hmessage
    split_ifs at hmessage
    all_goals
      cases hmessage
      decide

end Reviews

end Revix
