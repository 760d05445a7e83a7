import Revix.AgentMessages
import Revix.SwarmVerdicts

namespace Revix
open EffectPrograms EffectSessions LabelledRuns

def Uncancelled (_ : Unit) (q : SwarmCall) (reply : SwarmReply) : Prop :=
  reply q ≠ .error .cancelled

section Swarm

variable {lib : Libraries} {models : Settings} {cfg : SwarmSettings}

/-- What the agents are told a pull request is for. -/
def reviewIntent (lib : Libraries) (prDetails : Dict) : String :=
  "TITLE: " ++ detail lib prDetails "title" ++ "\nBODY: " ++ detail lib prDetails "body"

theorem runSwarm_eq {prFiles : List PullFile} {prDetails : Dict} {chunks : List String}
    (hchunks : buildReviewChunks lib.chunkByAst cfg prFiles = .ok chunks) :
    runSwarm lib models cfg prFiles prDetails = (do
      let routing ← Script.collect
        (fun chunk => coordinateRouting lib models cfg chunk (reviewIntent lib prDetails)) chunks
      Script.collect
        (fun (agentId, chunk) =>
          executeAgent lib models agentId chunk (reviewIntent lib prDetails))
        (agentTasks cfg chunks routing)) := by
  unfold runSwarm
  rw [hchunks]
  rfl

theorem raises_call (q : SwarmCall) :
    Script.Raises swarm Uncancelled (· ≠ .cancelled)
      (Script.request q : SwarmScript q.Answer) := by
  refine Script.raises_request fun _ reply hreply e he heq => hreply ?_
  rw [← heq]
  exact he

theorem raises_orRaise {α : Type} (x : Except String α) :
    Script.Raises swarm Uncancelled (· ≠ .cancelled) (orRaise x) := by
  cases x with
  | error text => exact Script.raises_throw (nofun)
  | ok a => exact Script.raises_pure a

theorem raises_coordinateRouting {P : Raised → Prop} (chunk intent : String) :
    Script.Raises swarm Uncancelled P (coordinateRouting lib models cfg chunk intent) := by
  refine raises_tryExcept ((raises_call _).bind fun message => ?_) fun e => Script.raises_pure _
  split
  · exact Script.raises_throw (nofun)
  · exact (raises_orRaise _).bind fun data => Script.raises_pure _

theorem raises_runToolCalls (request : Completion) (message : AssistantMessage)
    (calls : List ToolCall) :
    Script.Raises swarm Uncancelled (· ≠ .cancelled)
      (runToolCalls lib request message calls) := by
  induction calls generalizing request message with
  | nil => exact Script.raises_pure message
  | cons call calls ih =>
    unfold runToolCalls
    split
    · exact (raises_orRaise _).bind fun arguments => (raises_orRaise _).bind fun script =>
        (raises_call _).bind fun sandboxRes => (raises_call _).bind fun reply => ih _ reply
    · exact ih request message

theorem raises_executeAgent {P : Raised → Prop} (agentId chunk intent : String) :
    Script.Raises swarm Uncancelled P (executeAgent lib models agentId chunk intent) := by
  rw [executeAgent, analyzeChunkWithAgent_eq]
  refine raises_tryExcept ?_ fun e => Script.raises_pure none
  refine (raises_call _).bind fun first => (raises_runToolCalls _ first _).bind fun message => ?_
  rw [reviewIn_eq]
  exact raises_orRaise _

theorem raises_reduceSummaries {P : Raised → Prop} (summaries : List String)
    (comments : List ReviewComment) :
    Script.Raises swarm Uncancelled P (reduceSummaries lib models summaries comments) := by
  refine raises_tryExcept ((raises_call _).bind fun message => raises_orRaise _) fun e => ?_
  refine Script.Raises.bind ?_ fun res => Script.raises_pure _
  exact raises_tryExcept ((raises_call _).bind fun message => raises_orRaise _) fun e =>
    Script.raises_pure none

theorem raises_synthesize {P : Raised → Prop} (results : List (Option ReviewResult)) :
    Script.Raises swarm Uncancelled P (synthesize lib models results) := by
  unfold synthesize
  split
  · exact Script.raises_pure nothingFound
  · exact raises_reduceSummaries _ _

theorem raises_analyzeDiff {P : Raised → Prop} {prFiles : List PullFile} {chunks : List String}
    (hchunks : buildReviewChunks lib.chunkByAst cfg prFiles = .ok chunks) (prDetails : Dict) :
    Script.Raises swarm Uncancelled P (analyzeDiff lib models cfg prFiles prDetails) := by
  refine Script.Raises.bind ?_ fun results => raises_synthesize results
  rw [runSwarm_eq hchunks]
  refine (Script.Raises.collect (fun chunk => raises_coordinateRouting chunk _) chunks).bind
    fun routing => ?_
  exact Script.Raises.collect (fun task => raises_executeAgent _ _ _) _

variable {fits : Unit → SwarmCall → SwarmReply → Prop}

theorem returns_orRaise {α : Type} {P : α → Prop} {x : Except String α}
    (h : ∀ a, x = .ok a → P a) : Script.Returns swarm fits P (orRaise x) := by
  cases x with
  | error text => exact Script.returns_throw _
  | ok a => exact Script.returns_pure (h a rfl)

theorem constructResult_comments {summary score : Json} {comments : List ReviewComment}
    {r : ReviewResult} (h : constructResult lib summary score comments = .ok r) :
    r.comments = comments := by
  unfold constructResult at h
  simp only [except_bind_eq_ok] at h
  obtain ⟨text, -, n, -, hr⟩ := h
  split at hr
  · cases hr
    rfl
  · cases hr

theorem structuredResult_comments {message : AssistantMessage} {comments : List ReviewComment}
    {r : ReviewResult} (h : structuredResult lib message comments = .ok r) :
    r.comments = comments := by
  unfold structuredResult at h
  split at h
  · cases h
  · simp only [except_bind_eq_ok] at h
    obtain ⟨output, -, summary, -, score, -, hr⟩ := h
    exact constructResult_comments hr

theorem fallbackResult_comments {message : AssistantMessage} {comments : List ReviewComment}
    {r : ReviewResult} (h : fallbackResult lib message comments = .ok (some r)) :
    r.comments = comments := by
  unfold fallbackResult at h
  split at h
  · cases h
  · simp only [except_bind_eq_ok] at h
    obtain ⟨data, -, summary, -, score, -, n, -, res, hres, hr⟩ := h
    cases hr
    exact constructResult_comments hres

/-- However the two calls of the synthesis are answered, the comments are those it was given. -/
theorem returns_reduceSummaries (summaries : List String) (comments : List ReviewComment) :
    Script.Returns swarm fits (fun r => r.comments = comments)
      (reduceSummaries lib models summaries comments) := by
  refine returns_tryExcept ((Script.returns_true _).bind fun message _ =>
    returns_orRaise fun r hr => structuredResult_comments hr) fun e => ?_
  have hfallback : Script.Returns swarm fits (fun res => ∀ r, res = some r → r.comments = comments)
      (tryExcept (do
          let message ← complete (fallbackRequest models summaries)
          orRaise (fallbackResult lib message comments))
        fun _ => Script.pure none) := by
    refine returns_tryExcept ((Script.returns_true _).bind fun message _ =>
      returns_orRaise fun res hres r hr => ?_) fun e => Script.returns_pure (nofun)
    rw [hr] at hres
    exact fallbackResult_comments hres
  refine hfallback.bind fun res hres => Script.returns_pure ?_
  cases res with
  | none => rfl
  | some r => exact hres r rfl

theorem returns_synthesize (results : List (Option ReviewResult)) :
    Script.Returns swarm fits
      (fun r => r.comments = (results.filterMap id).flatMap ReviewResult.comments)
      (synthesize lib models results) := by
  unfold synthesize
  split
  · rename_i hnil
    rw [List.isEmpty_iff.1 hnil]
    exact Script.returns_pure rfl
  · exact returns_reduceSummaries _ _

/-- The replies route every chunk and give the outcome of every agent call; `rest` is left for
the synthesis. -/
def SwarmRuns (lib : Libraries) (models : Settings) (cfg : SwarmSettings) (intent : String)
    (chunks : List String) (replies rest : List SwarmReply)
    (outcomes : List (Option ReviewResult)) : Prop :=
  ∃ routing replies₁ replies₂, replies = replies₁ ++ replies₂ ++ rest ∧
    Script.Collects swarm (fun chunk => coordinateRouting lib models cfg chunk intent) ((), ())
      chunks replies₁ routing ((), ()) ∧
    Script.Collects swarm (fun (agentId, chunk) => executeAgent lib models agentId chunk intent)
      ((), ()) (agentTasks cfg chunks routing) replies₂ outcomes ((), ())

/-- Unless a call is cancelled, the analysis returns a review with the comments of all agents that
returned a result. -/
theorem findings_survive {prFiles : List PullFile} {prDetails : Dict} {chunks : List String}
    (hchunks : buildReviewChunks lib.chunkByAst cfg prFiles = .ok chunks) (stream : ℕ → SwarmReply)
    (hstream : ∀ i q, stream i q ≠ .error .cancelled) : ∃ n rest outcomes r,
    Run (Session swarm) ((), analyzeDiff lib models cfg prFiles prDetails ())
      ((List.range n).map stream) ((), .done (.ok r, ())) ∧
    SwarmRuns lib models cfg (reviewIntent lib prDetails) chunks ((List.range n).map stream) rest
      outcomes ∧
    r.comments = (outcomes.filterMap id).flatMap ReviewResult.comments ∧
    0 ≤ r.score ∧ r.score ≤ 100 := by
  obtain ⟨n, ⟨⟩, ⟨r, ⟨⟩⟩, hrun⟩ := exists_run_done swarm stream ()
    (analyzeDiff lib models cfg prFiles prDetails ())
  have hguard : Run (Guarded (Session swarm) (Fits Uncancelled))
      ((), analyzeDiff lib models cfg prFiles prDetails ()) ((List.range n).map stream)
      ((), .done (r, ())) := by
    refine guard_session hrun fun reply hreply _ q => ?_
    obtain ⟨i, -, rfl⟩ := List.mem_map.1 hreply
    exact hstream i q
  obtain ⟨r, rfl⟩ := (raises_analyzeDiff hchunks prDetails).complete hguard
  obtain ⟨agents, rest, _, _, outcomes, hsplit, hswarm, hsynthesis⟩ :=
    Script.exists_ok_of_run_bind hrun
  have hcomments : Script.Returns swarm (fun _ _ _ => True)
      (fun r => r.comments = (outcomes.filterMap id).flatMap ReviewResult.comments)
      (synthesize lib models outcomes) := returns_synthesize outcomes
  rw [runSwarm_eq hchunks] at hswarm
  obtain ⟨replies₁, replies₂, _, _, routing, rfl, hrouting, hagents⟩ :=
    Script.exists_ok_of_run_bind hswarm
  refine ⟨n, rest, outcomes, r, hrun, ⟨routing, replies₁, replies₂, hsplit, ?_, ?_⟩, ?_,
    r.score_nonneg, r.score_le⟩
  · exact Script.collects_of_run hrouting
  · exact Script.collects_of_run hagents
  · exact hcomments.complete (guard_session hsynthesis fun _ _ _ _ => trivial)

end Swarm

namespace Sample

def commentOf : Json → Except String ReviewComment
  | .obj [("path", .str path), ("line", .int line), ("body", .str body)] =>
    if h : path ≠ "" ∧ 1 ≤ line then
      .ok { path := path, line := line, body := body, path_ne := h.1, line_pos := h.2 }
    else .error "1 validation error for ReviewResult"
  | _ => .error "Field required"

def reviewOf : Json → Except String ReviewResult
  | .obj [("summary", .str summary), ("score", .int score), ("comments", .arr comments)] => do
    let comments ← comments.mapM commentOf
    if hnonneg : 0 ≤ score then
      if hle : score ≤ 100 then
        .ok { summary := summary, score := score, comments := comments, score_nonneg := hnonneg,
              score_le := hle }
      else .error "1 validation error for ReviewResult"
    else .error "1 validation error for ReviewResult"
  | _ => .error "Field required"

def reviewing : Libraries := { libraries with validateResult := reviewOf }

def eviction : Json := .obj
  [("path", .str "lru.py"), ("line", .int 1), ("body", .str "The key is never evicted.")]

/-- Every agent submits a finding. The routing is no JSON, and the synthesis is without a score. -/
def reporting : SwarmReply
  | .completion c =>
    if c.tools = ["synthesize_review"] then
      .ok ⟨none, [⟨"call_1", "synthesize_review", .obj [("global_summary", .str "LGTM")]⟩]⟩
    else if c.tools = ["submit_review"] then
      .ok ⟨none, [⟨"call_1", "submit_review", .obj
        [("summary", .str "One defect."), ("score", .int 60), ("comments", .arr [eviction])]⟩]⟩
    else .ok ⟨some "Both agents.", []⟩
  | .sandbox _ => .ok []

def reporters (r : ReviewResult) : List (String × Option String) :=
  r.comments.map fun c => (c.path, c.agentId)

def bothReporters : List (String × Option String) :=
  [("lru.py", some "ReviewAgent"), ("lru.py", some "SecurityAgent")]

theorem reporting_uncancelled (q : SwarmCall) : reporting q ≠ .error .cancelled := by
  cases q with
  | sandbox script => nofun
  | completion c =>
    simp only [reporting]
    split_ifs <;> nofun

end Sample

/-- The findings of two agents outlive a synthesis that cannot be read. -/
theorem findings_survive_reporting :
    (∃ r, Run (Session swarm) ((), analyzeDiff Sample.reviewing {} {} [Sample.changed] [] ())
        (List.replicate 5 Sample.reporting) ((), .done (.ok r, ())) ∧
      Sample.reporters r = Sample.bothReporters) ∧
    ∃ n rest outcomes r,
      Run (Session swarm) ((), analyzeDiff Sample.reviewing {} {} [Sample.changed] [] ())
        ((List.range n).map fun _ => Sample.reporting) ((), .done (.ok r, ())) ∧
      SwarmRuns Sample.reviewing {} {} (reviewIntent Sample.reviewing [])
        ["FILE: lru.py\n@@ -1 +1 @@"] ((List.range n).map fun _ => Sample.reporting) rest outcomes ∧
      r.comments = (outcomes.filterMap id).flatMap ReviewResult.comments ∧
      0 ≤ r.score ∧ r.score ≤ 100 := by
  refine ⟨?_, findings_survive rfl (fun _ => Sample.reporting) fun _ =>
    Sample.reporting_uncancelled⟩
  obtain ⟨_, ⟨_ | r, _⟩, hrun, hr⟩ := exists_result swarm (s := ())
    (p := analyzeDiff Sample.reviewing {} {} [Sample.changed] [] ())
    (fun _ r => r.1.toOption.any fun r => Sample.reporters r = Sample.bothReporters)
    (show (replay (advance swarm) _ (List.replicate 5 Sample.reporting)).any _ = true by decide)
  · cases hr
  · exact ⟨r, hrun, of_decide_eq_true hr⟩

end Revix
