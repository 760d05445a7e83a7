import Revix.ReviewSwarm
import Revix.WorkerFleet

namespace Revix
open EffectPrograms EffectSessions LabelledRuns

abbrev SwarmReply := (q : SwarmCall) → Except Raised q.Answer

def swarm : Server SwarmCall (fun q => Except Raised q.Answer) Unit SwarmReply :=
  fun _ q reply => (reply q, ())

section Routing

variable {cfg : SwarmSettings}

theorem eraseDups_ne_nil {α : Type} [BEq α] {xs : List α} (h : xs ≠ []) : xs.eraseDups ≠ [] := by
  cases xs with
  | nil => exact absurd rfl h
  | cons x xs => simp [List.eraseDups_cons]

theorem normalizeAgentIds_ne_nil (agents : Json) (chunk : String) :
    normalizeAgentIds cfg agents chunk ≠ [] := by
  have hnamed : (if (namedAgents agents).isEmpty then ["ReviewAgent"] else namedAgents agents) ≠
      [] := by
    split
    · exact List.cons_ne_nil _ _
    · rename_i hne
      simpa using hne
  unfold normalizeAgentIds
  apply eraseDups_ne_nil
  generalize (if (namedAgents agents).isEmpty then ["ReviewAgent"] else namedAgents agents) =
    normalized at hnamed ⊢
  split
  · exact List.append_ne_nil_of_left_ne_nil hnamed _
  · exact hnamed

theorem capAgentIds_ne_nil (hcap : 1 ≤ cfg.reviewMaxAgentsPerChunk) {agents : List String}
    (h : agents ≠ []) : capAgentIds cfg agents ≠ [] := by
  unfold capAgentIds
  split
  · exact h
  · have hlen : 0 < (agents.insertionSort
        (fun a b => agentPriority a ≤ agentPriority b)).length := by
      rw [List.length_insertionSort]
      exact List.length_pos_of_ne_nil h
    have hnonneg : 0 ≤ cfg.reviewMaxAgentsPerChunk := by omega
    rw [sliceTo, if_pos hnonneg]
    apply List.ne_nil_of_length_pos
    rw [List.length_take]
    omega

theorem agentTasks_ne_nil (hcap : 1 ≤ cfg.reviewMaxAgentsPerChunk) {chunks : List String}
    {routing : List (List String)} (hne : chunks ≠ [])
    (h : List.Forall₂ (fun _ decision => decision ≠ []) chunks routing) :
    agentTasks cfg chunks routing ≠ [] := by
  cases h with
  | nil => exact absurd rfl hne
  | @cons chunk decision chunks routing hd htail =>
    simp only [agentTasks, List.zip_cons_cons, List.flatMap_cons]
    refine List.append_ne_nil_of_left_ne_nil ?_ _
    simpa using capAgentIds_ne_nil hcap hd

end Routing

section Swarm

variable {lib : Libraries} {models : Settings} {cfg : SwarmSettings}
  {fits : Unit → SwarmCall → SwarmReply → Prop}

/-- However the coordinator replies, some agent looks at the chunk. -/
theorem returns_coordinateRouting (hcap : 1 ≤ cfg.reviewMaxAgentsPerChunk)
    (chunk intent : String) :
    Script.Returns swarm fits (fun ids => ids ≠ [])
      (coordinateRouting lib models cfg chunk intent) := by
  refine returns_tryExcept ((Script.returns_true _).bind fun message _ => ?_) fun e =>
    Script.returns_pure (List.cons_ne_nil _ _)
  split
  · exact Script.returns_throw _
  · refine (Script.returns_true _).bind fun data _ => Script.returns_pure ?_
    exact capAgentIds_ne_nil hcap (normalizeAgentIds_ne_nil data chunk)

/-- With a chunk to review there is a result, if only `None`. -/
theorem returns_runSwarm (hcap : 1 ≤ cfg.reviewMaxAgentsPerChunk) {prFiles : List PullFile}
    {chunks : List String} (hchunks : buildReviewChunks lib.chunkByAst cfg prFiles = .ok chunks)
    (hne : chunks ≠ []) (prDetails : Dict) :
    Script.Returns swarm fits (fun results => results ≠ [])
      (runSwarm lib models cfg prFiles prDetails) := by
  unfold runSwarm
  rw [hchunks]
  refine Script.Returns.bind (P := fun cs => cs = chunks) (Script.returns_pure rfl) ?_
  rintro _ rfl
  refine (Script.returns_collect (fun chunk => returns_coordinateRouting hcap chunk _) _).bind
    fun routing hrouting => ?_
  have htasks := agentTasks_ne_nil hcap hne hrouting
  intro s l
  refine (Script.returns_collect (R := fun _ _ => True) (fun task => Script.returns_true _) _ s l).mono
    fun s l r hr results hresults hnil => ?_
  have hlength := (hr results hresults).length_eq
  rw [hnil] at hlength
  exact htasks (List.length_eq_zero_iff.1 hlength)

theorem except_bind_eq_ok {ε α β : Type} {x : Except ε α} {f : α → Except ε β} {b : β} :
    (x >>= f) = .ok b ↔ ∃ a, x = .ok a ∧ f a = .ok b := by
  constructor
  · intro h
    cases x with
    | error e => cases h
    | ok a => exact ⟨a, rfl, h⟩
  · rintro ⟨a, rfl, h⟩
    exact h

variable (lib models)

/-- A summary and a score that validate, the score being `n`. -/
def ValidScore (summary score : Json) (n : ℤ) : Prop :=
  (∃ text, lib.textField summary = .ok text) ∧ lib.intField score = .ok n ∧ 0 ≤ n ∧ n ≤ 100

/-- The first tool call of a reply gives the score `n`. -/
def StructuredScore (message : AssistantMessage) (n : ℤ) : Prop :=
  ∃ call calls output summary score, message.toolCalls = call :: calls ∧
    parseToolArguments lib.python call.arguments = .ok output ∧
    getItem output "global_summary" = .ok summary ∧ getItem output "global_score" = .ok score ∧
    ValidScore lib summary score n

def FallbackScore (message : AssistantMessage) (n : ℤ) : Prop :=
  ∃ content data summary score k, message.content = some content ∧ content ≠ "" ∧
    extractJsonPayload lib.python content = .ok data ∧
    subscript data "global_summary" = .ok summary ∧ subscript data "global_score" = .ok score ∧
    lib.python.int score = .ok k ∧ ValidScore lib summary (.int k) n

/-- The reply that decides the synthesis gives a score of 80 or more: the first one if it gives
a score at all, and otherwise the second one. -/
def Approved (replies : List SwarmReply) : Prop :=
  ∃ first rest, replies = first :: rest ∧
    ((∃ message n, first (.completion (structuredRequest models [])) = .ok message ∧
        StructuredScore lib message n ∧ 80 ≤ n) ∨
      ((∀ message n, first (.completion (structuredRequest models [])) = .ok message →
          ¬ StructuredScore lib message n) ∧
        ∃ second rest' message n, rest = second :: rest' ∧
          second (.completion (fallbackRequest models [])) = .ok message ∧
          FallbackScore lib message n ∧ 80 ≤ n))

variable {lib models}

theorem constructResult_ok_iff {summary score : Json} {comments : List ReviewComment} {n : ℤ} :
    (∃ r, constructResult lib summary score comments = .ok r ∧ r.score = n) ↔
      ValidScore lib summary score n := by
  unfold constructResult
  simp only [except_bind_eq_ok]
  constructor
  · rintro ⟨r, ⟨text, htext, k, hk, hr⟩, rfl⟩
    split at hr
    · rename_i hbounds
      cases hr
      exact ⟨⟨text, htext⟩, hk, hbounds⟩
    · cases hr
  · rintro ⟨⟨text, htext⟩, hn, hbounds⟩
    exact ⟨⟨text, n, comments, [], hbounds.1, hbounds.2⟩, ⟨text, htext, n, hn, dif_pos hbounds⟩, rfl⟩

theorem structuredResult_ok_iff {message : AssistantMessage} {comments : List ReviewComment}
    {n : ℤ} : (∃ r, structuredResult lib message comments = .ok r ∧ r.score = n) ↔
      StructuredScore lib message n := by
  unfold structuredResult StructuredScore
  cases hcalls : message.toolCalls with
  | nil =>
    constructor
    · rintro ⟨r, hr, -⟩
      cases hr
    · rintro ⟨call, calls, output, summary, score, hnil, -⟩
      cases hnil
  | cons call calls =>
    simp only [except_bind_eq_ok]
    constructor
    · rintro ⟨r, ⟨output, hargs, summary, hsummary, score, hscore, hr⟩, hn⟩
      exact ⟨call, calls, output, summary, score, rfl, hargs, hsummary, hscore,
        constructResult_ok_iff.1 ⟨r, hr, hn⟩⟩
    · rintro ⟨_, _, output, summary, score, hcons, hargs, hsummary, hscore, hvalid⟩
      cases hcons
      have hresult : ∃ r, constructResult lib summary score comments = .ok r ∧ r.score = n :=
        constructResult_ok_iff.2 hvalid
      obtain ⟨r, hr, hn⟩ := hresult
      exact ⟨r, ⟨output, hargs, summary, hsummary, score, hscore, hr⟩, hn⟩

theorem fallbackResult_ok_iff {message : AssistantMessage} {comments : List ReviewComment}
    {n : ℤ} : (∃ r, fallbackResult lib message comments = .ok (some r) ∧ r.score = n) ↔
      FallbackScore lib message n := by
  unfold fallbackResult FallbackScore
  cases hcontent : message.content.filter (· ≠ "") with
  | none =>
    constructor
    · rintro ⟨r, hr, -⟩
      cases hr
    · rintro ⟨content, _, _, _, _, hsome, hne, -⟩
      simp [hsome, hne] at hcontent
  | some content =>
    obtain ⟨hsome, hne⟩ := Option.filter_eq_some_iff.1 hcontent
    simp only [except_bind_eq_ok]
    constructor
    · rintro ⟨r, ⟨data, hdata, summary, hsummary, score, hscore, k, hk, res, hres, hr⟩, hn⟩
      have hsame : res = r := by
        cases hr
        rfl
      exact ⟨content, data, summary, score, k, hsome, of_decide_eq_true hne, hdata, hsummary,
        hscore, hk, constructResult_ok_iff.1 ⟨res, hres, hsame ▸ hn⟩⟩
    · rintro ⟨content', data, summary, score, k, hsome', -, hdata, hsummary, hscore, hk, hvalid⟩
      rw [hsome] at hsome'
      cases hsome'
      have hresult : ∃ r, constructResult lib summary (.int k) comments = .ok r ∧ r.score = n :=
        constructResult_ok_iff.2 hvalid
      obtain ⟨r, hr, hn⟩ := hresult
      exact ⟨r, ⟨data, hdata, summary, hsummary, score, hscore, k, hk, r, hr, rfl⟩, hn⟩

/-- A reply in text gives the result, or none. -/
theorem run_fallbackSynthesis {replies : List SwarmReply} {summaries : List String}
    {comments : List ReviewComment} {r : ReviewResult}
    (h : Run (Session swarm) ((), fallbackSynthesis lib models summaries comments ()) replies
      ((), .done (.ok r, ()))) :
    ∃ second rest, replies = second :: rest ∧
      ((∃ message, second (.completion (fallbackRequest models summaries)) = .ok message ∧
          fallbackResult lib message comments = .ok (some r)) ∨
        ((∀ message res, second (.completion (fallbackRequest models summaries)) = .ok message →
            fallbackResult lib message comments ≠ .ok (some res)) ∧
          r = synthesisFailed comments)) := by
  rcases run_ask.1 h with ⟨-, hy⟩ | ⟨second, rest, rfl, hrest⟩
  · cases hy
  refine ⟨second, rest, rfl, ?_⟩
  simp only [swarm] at hrest
  generalize second (.completion (fallbackRequest models summaries)) = v at hrest ⊢
  rcases v with (e | _) | message
  · cases (run_done.1 hrest).2
    exact .inr ⟨fun _ _ hv => (nomatch hv), rfl⟩
  · cases (run_done.1 hrest).2
  · have hnext : Run (Session swarm) ((), ((tryExcept (orRaise (fallbackResult lib message comments))
        fun _ => Script.pure none) >>= fun res =>
          (pure (res.getD (synthesisFailed comments)) : SwarmScript ReviewResult)) ()) rest
        ((), .done (.ok r, ())) := hrest
    cases hres : fallbackResult lib message comments with
    | error text =>
      rw [hres] at hnext
      cases (run_done.1 hnext).2
      refine .inr ⟨fun message' res hv => ?_, rfl⟩
      cases hv
      simp [hres]
    | ok res =>
      rw [hres] at hnext
      have hr : r = res.getD (synthesisFailed comments) := by
        cases (run_done.1 hnext).2
        rfl
      cases res with
      | none =>
        refine .inr ⟨fun message' res hv => ?_, hr⟩
        cases hv
        simp [hres]
      | some res => exact .inl ⟨message, rfl, hr ▸ hres⟩

/-- A structured reply gives the result, or the reply in text does. -/
theorem run_reduceSummaries {replies : List SwarmReply} {summaries : List String}
    {comments : List ReviewComment} {r : ReviewResult}
    (h : Run (Session swarm) ((), reduceSummaries lib models summaries comments ()) replies
      ((), .done (.ok r, ()))) :
    ∃ first rest, replies = first :: rest ∧
      ((∃ message, first (.completion (structuredRequest models summaries)) = .ok message ∧
          structuredResult lib message comments = .ok r) ∨
        ((∀ message res, first (.completion (structuredRequest models summaries)) = .ok message →
            structuredResult lib message comments ≠ .ok res) ∧
          Run (Session swarm) ((), fallbackSynthesis lib models summaries comments ()) rest
            ((), .done (.ok r, ())))) := by
  rcases run_ask.1 h with ⟨-, hy⟩ | ⟨first, rest, rfl, hrest⟩
  · cases hy
  refine ⟨first, rest, rfl, ?_⟩
  simp only [swarm] at hrest
  generalize first (.completion (structuredRequest models summaries)) = v at hrest ⊢
  rcases v with (e | _) | message
  · exact .inr ⟨fun _ _ hv => (nomatch hv), hrest⟩
  · cases (run_done.1 hrest).2
  · have hnext : Run (Session swarm) ((), (tryExcept (orRaise (structuredResult lib message comments))
        fun _ => fallbackSynthesis lib models summaries comments) ()) rest
        ((), .done (.ok r, ())) := hrest
    cases hres : structuredResult lib message comments with
    | error text =>
      rw [hres] at hnext
      refine .inr ⟨fun message' res hv => ?_, hnext⟩
      cases hv
      simp [hres]
    | ok res =>
      rw [hres] at hnext
      cases (run_done.1 hnext).2
      exact .inl ⟨message, rfl, hres⟩

/-- The score is decided by the replies to the synthesis alone. -/
theorem approving_iff {replies : List SwarmReply} {r : ReviewResult}
    (h : Run (Session swarm) ((), reduceSummaries lib models [] [] ()) replies
      ((), .done (.ok r, ()))) : 80 ≤ r.score ↔ Approved lib models replies := by
  obtain ⟨first, rest, rfl, ⟨message, hv, hres⟩ | ⟨hno, hfallback⟩⟩ := run_reduceSummaries h
  · have hscore : StructuredScore lib message r.score := structuredResult_ok_iff.1 ⟨r, hres, rfl⟩
    constructor
    · exact fun happ => ⟨first, rest, rfl, .inl ⟨message, _, hv, hscore, happ⟩⟩
    · rintro ⟨_, _, heq, ⟨message', n, hv', hscore', hn⟩ | ⟨hno, -⟩⟩
      · cases heq
        cases hv.symm.trans hv'
        have hresult : ∃ r', structuredResult lib message [] = .ok r' ∧ r'.score = n :=
          structuredResult_ok_iff.2 hscore'
        obtain ⟨r', hr', rfl⟩ := hresult
        cases hres.symm.trans hr'
        exact hn
      · cases heq
        exact absurd hscore (hno _ _ hv)
  · have hno' : ∀ message n, first (.completion (structuredRequest models [])) = .ok message →
        ¬ StructuredScore lib message n := by
      intro message n hv hscore
      have hresult : ∃ r', structuredResult lib message [] = .ok r' ∧ r'.score = n :=
        structuredResult_ok_iff.2 hscore
      obtain ⟨r', hr', -⟩ := hresult
      exact hno message r' hv hr'
    obtain ⟨second, rest', rfl, ⟨message, hv, hres⟩ | ⟨hnone, rfl⟩⟩ := run_fallbackSynthesis hfallback
    · have hscore : FallbackScore lib message r.score := fallbackResult_ok_iff.1 ⟨r, hres, rfl⟩
      constructor
      · exact fun happ => ⟨first, _, rfl, .inr ⟨hno', second, rest', message, _, rfl, hv, hscore,
          happ⟩⟩
      · rintro ⟨_, _, heq, ⟨message', n, hv', hscore', -⟩ | ⟨-, _, _, message', n, heq', hv',
          hscore', hn⟩⟩
        · cases heq
          exact absurd hscore' (hno' _ _ hv')
        · cases heq
          cases heq'
          cases hv.symm.trans hv'
          have hresult : ∃ r', fallbackResult lib message [] = .ok (some r') ∧ r'.score = n :=
            fallbackResult_ok_iff.2 hscore'
          obtain ⟨r', hr', rfl⟩ := hresult
          cases hres.symm.trans hr'
          exact hn
    · constructor
      · exact fun happ => absurd happ (by decide)
      · rintro ⟨_, _, heq, ⟨message', n, hv', hscore', -⟩ | ⟨-, _, _, message', n, heq', hv',
          hscore', -⟩⟩
        · cases heq
          exact absurd hscore' (hno' _ _ hv')
        · cases heq
          cases heq'
          have hresult : ∃ r', fallbackResult lib message' [] = .ok (some r') ∧ r'.score = n :=
            fallbackResult_ok_iff.2 hscore'
          obtain ⟨r', hr', -⟩ := hresult
          exact absurd hr' (hnone _ _ hv')

/-- When every agent call returned `None`, the review is no approval exactly when the replies to
the synthesis do not make it one. -/
theorem lost_agents_iff (hcap : 1 ≤ cfg.reviewMaxAgentsPerChunk) {prFiles : List PullFile}
    {prDetails : Dict} {chunks : List String}
    (hchunks : buildReviewChunks lib.chunkByAst cfg prFiles = .ok chunks) (hne : chunks ≠ [])
    {replies replies' : List SwarmReply} {results : List (Option ReviewResult)} {r : ReviewResult}
    (hswarm : Run (Session swarm) ((), runSwarm lib models cfg prFiles prDetails ()) replies
      ((), .done (.ok results, ())))
    (hnone : ∀ res ∈ results, res = none)
    (h : Run (Session swarm) ((), analyzeDiff lib models cfg prFiles prDetails ())
      (replies ++ replies') ((), .done (.ok r, ()))) :
    r.score < 80 ↔ ¬ Approved lib models replies' := by
  have hresults : results ≠ [] := by
    have hreturns : Script.Returns swarm (fun _ _ _ => True) (fun results => results ≠ [])
        (runSwarm lib models cfg prFiles prDetails) := returns_runSwarm hcap hchunks hne prDetails
    exact hreturns.complete (guard_session hswarm fun _ _ _ _ => trivial)
  have hreviews : results.filterMap id = [] := by
    rw [List.filterMap_eq_nil_iff]
    exact hnone
  have hsynthesis : Run (Session swarm) ((), synthesize lib models results ()) replies'
      ((), .done (.ok r, ())) := Script.run_bind hswarm h
  simp only [synthesize, List.isEmpty_iff, hresults, ↓reduceIte, hreviews, List.map_nil,
    List.flatMap_nil] at hsynthesis
  rw [← approving_iff hsynthesis, not_le]

end Swarm

namespace Sample

def libraries : Libraries where
  python := python
  str
    | .str s => s
    | _ => "None"
  dumps _ := "null"
  textField
    | .str s => .ok s
    | _ => .error "Input should be a valid string"
  intField
    | .int n => .ok n
    | _ => .error "Input should be a valid integer"
  validateResult _ := .error "Field required"
  chunkByAst _ _ _ := []

def changed : PullFile := ⟨some "lru.py", none, [("patch", .str "@@ -1 +1 @@")]⟩

def silent : SwarmReply
  | .completion _ => .error (.exception ⟨"litellm.RateLimitError", some ⟨some 429, none⟩⟩)
  | .sandbox _ => .ok []

/-- The model answers the synthesis only. -/
def approving : SwarmReply
  | .completion c =>
    if c.tools = ["synthesize_review"] then
      .ok ⟨none, [⟨"call_1", "synthesize_review",
        .obj [("global_summary", .str "LGTM"), ("global_score", .int 95)]⟩]⟩
    else .error (.exception ⟨"litellm.Timeout", none⟩)
  | .sandbox _ => .ok []

end Sample

theorem lost_agents_iff_silent : ∃ results r,
    Run (Session swarm) ((), runSwarm Sample.libraries {} {} [Sample.changed] [] ())
      (List.replicate 3 Sample.silent) ((), .done (.ok results, ())) ∧
    Run (Session swarm) ((), analyzeDiff Sample.libraries {} {} [Sample.changed] [] ())
      (List.replicate 3 Sample.silent ++ List.replicate 2 Sample.silent) ((), .done (.ok r, ())) ∧
    (r.score < 80 ↔ ¬ Approved Sample.libraries {} (List.replicate 2 Sample.silent)) := by
  obtain ⟨_, ⟨_ | results, _⟩, hswarm, hnone⟩ := exists_result swarm (s := ())
    (p := runSwarm Sample.libraries {} {} [Sample.changed] [] ())
    (fun _ r => r.1.toOption.any fun results => results.all Option.isNone)
    (show (replay (advance swarm) _ (List.replicate 3 Sample.silent)).any _ = true by decide)
  · cases hnone
  obtain ⟨_, ⟨_ | r, _⟩, hrun, hok⟩ := exists_result swarm (s := ())
    (p := analyzeDiff Sample.libraries {} {} [Sample.changed] [] ())
    (fun _ r => r.1.isOk)
    (show (replay (advance swarm) _
      (List.replicate 3 Sample.silent ++ List.replicate 2 Sample.silent)).any _ = true by decide)
  · cases hok
  have hall : ∀ res ∈ results, res = none := by
    intro res hres
    exact Option.isNone_iff_eq_none.1 (List.all_eq_true.1 hnone res hres)
  have hchunks : buildReviewChunks Sample.libraries.chunkByAst {} [Sample.changed] =
      .ok ["FILE: lru.py\n@@ -1 +1 @@"] := rfl
  have hiff := lost_agents_iff (by decide) hchunks (by decide) hswarm hall hrun
  exact ⟨results, r, hswarm, hrun, hiff⟩

/-- Every agent call fails and the synthesis of nothing answers with a score of 95. -/
theorem approved_without_agents : ¬ ∀ (lib : Libraries) (models : Settings) (cfg : SwarmSettings)
    (prFiles : List PullFile) (prDetails : Dict) (chunks : List String)
    (replies replies' : List SwarmReply) (results : List (Option ReviewResult)) (r : ReviewResult),
    1 ≤ cfg.reviewMaxAgentsPerChunk →
    buildReviewChunks lib.chunkByAst cfg prFiles = .ok chunks → chunks ≠ [] →
    Run (Session swarm) ((), runSwarm lib models cfg prFiles prDetails ()) replies
      ((), .done (.ok results, ())) → (∀ res ∈ results, res = none) →
    Run (Session swarm) ((), analyzeDiff lib models cfg prFiles prDetails ())
      (replies ++ replies') ((), .done (.ok r, ())) → r.score < 80 := by
  intro hall
  obtain ⟨_, ⟨_ | results, _⟩, hswarm, hnone⟩ := exists_result swarm (s := ())
    (p := runSwarm Sample.libraries {} {} [Sample.changed] [] ())
    (fun _ r => r.1.toOption.any fun results => results.all Option.isNone)
    (show (replay (advance swarm) _ (List.replicate 3 Sample.approving)).any _ = true by decide)
  · cases hnone
  obtain ⟨_, ⟨_ | r, _⟩, hrun, hscore⟩ := exists_result swarm (s := ())
    (p := analyzeDiff Sample.libraries {} {} [Sample.changed] [] ())
    (fun _ r => r.1.toOption.any fun r => r.score = 95)
    (show (replay (advance swarm) _
      (List.replicate 3 Sample.approving ++ [Sample.approving])).any _ = true by decide)
  · cases hscore
  have hlow := hall Sample.libraries {} {} [Sample.changed] [] ["FILE: lru.py\n@@ -1 +1 @@"] _
    [Sample.approving] results r (by decide) rfl (by decide) hswarm
    (fun res hres => Option.isNone_iff_eq_none.1 (List.all_eq_true.1 hnone res hres)) hrun
  have h95 : r.score = 95 := of_decide_eq_true hscore
  omega

end Revix
