import Revix.GatheredPrograms
import Revix.SwarmFindings

/-! `analyze_diff` with its calls under way at the same time. The reviews of a worker share the
permits of one semaphore; a completion holds one until its answer, a run of the sandbox none. -/
namespace Revix
open EffectPrograms EffectSessions LabelledRuns GatheredPrograms

abbrev SwarmFlow : Type 1 :=
  Flow SwarmCall (fun q => Except Raised q.Answer) (Except Raised ReviewResult)

abbrev SwarmPool : Type 1 :=
  Pool SwarmCall (fun q => Except Raised q.Answer) (Except Raised ReviewResult)

/-- The calls in `async with self.semaphore`. -/
def isCompletion : SwarmCall → Bool
  | .completion _ => true
  | .sandbox _ => false

/-- What `asyncio.gather` returns. Only a cancelled call makes one of the tasks raise. -/
def gathered {α : Type} : List (Except Raised α × Unit) → Except Raised (List α)
  | [] => .ok []
  | (.ok a, ()) :: rest => (gathered rest).map (a :: ·)
  | (.error e, ()) :: _ => .error e

instance : Inhabited Raised := ⟨.cancelled⟩

section Swarm

variable (lib : Libraries) (models : Settings) (cfg : SwarmSettings)

/-- `asyncio.gather` of scripts, and how the analysis goes on with their results. -/
def gatherThen {α : Type} (scripts : List (SwarmScript α)) (next : List α → SwarmFlow) :
    SwarmFlow :=
  .gather (scripts.map fun x => x ()) fun results =>
    match gathered results with
    | .ok values => next values
    | .error e => .done (.error e)

/-- `analyze_diff`, as `analyzeDiff` but with its calls gathered. -/
def analysisFlow (prFiles : List PullFile) (prDetails : Dict) : SwarmFlow :=
  let intent :=
    "TITLE: " ++ detail lib prDetails "title" ++ "\nBODY: " ++ detail lib prDetails "body"
  match buildReviewChunks lib.chunkByAst cfg prFiles with
  | .error text => .done (.error (.exception ⟨text, none⟩))
  | .ok chunks =>
    gatherThen (chunks.map fun chunk => coordinateRouting lib models cfg chunk intent)
      fun routing => gatherThen ((agentTasks cfg chunks routing).map fun (agentId, chunk) =>
          executeAgent lib models agentId chunk intent) fun results =>
        .await (synthesize lib models results ()) fun r => .done r.1

def startReviews (aiConcurrency : ℕ) (reviews : List (List PullFile × Dict)) : SwarmPool :=
  .start aiConcurrency (reviews.map fun review => analysisFlow lib models cfg review.1 review.2)

abbrev ReviewStep : SwarmPool → ℕ × Action SwarmCall (fun q => Except Raised q.Answer) →
    SwarmPool → Prop :=
  Pool.Step isCompletion

end Swarm

section Swarm

variable {lib : Libraries} {models : Settings} {cfg : SwarmSettings}

theorem gathered_ok {α : Type} (values : List α) :
    gathered (values.map fun a => (.ok a, ())) = .ok values := by
  induction values with
  | nil => rfl
  | cons a values ih =>
    rw [List.map_cons, gathered, ih]
    rfl

theorem exists_of_gatherThen {α δ : Type} {body : δ → SwarmScript α}
    (hbody : ∀ d, Script.Raises swarm Uncancelled (fun _ => False) (body d)) {ds : List δ}
    {next : List α → SwarmFlow} {replies : List SwarmReply}
    (huncancelled : ∀ reply ∈ replies, ∀ q, reply q ≠ .error .cancelled)
    {r : Except Raised ReviewResult}
    (h : Completes (gatherThen (ds.map body) next).seq replies r) :
    ∃ rs₁ rs₂ values, replies = rs₁ ++ rs₂ ∧
      Completes (Script.collect body ds ()) rs₁ (.ok values, ()) ∧
      Completes (next values).seq rs₂ r := by
  obtain ⟨rs₁, rs₂, results, rfl, hgather, hnext⟩ := exists_of_completes_bind h
  rw [List.map_map] at hgather
  obtain ⟨values, rfl, hcollect⟩ := collect_of_collectAll hbody
    (fun reply hreply q => huncancelled reply (by simp [hreply]) q) hgather
  have hvalues : gathered (values.map fun a => (.ok a, PUnit.unit)) = .ok values :=
    gathered_ok values
  simp only [hvalues] at hnext
  exact ⟨rs₁, rs₂, values, rfl, hcollect, hnext⟩

theorem completes_await {x : SwarmScript ReviewResult} {replies : List SwarmReply}
    {r : Except Raised ReviewResult}
    (h : Completes (Flow.await (x ()) fun r => .done r.1 : SwarmFlow).seq replies r) :
    Completes (x ()) replies (r, ()) := by
  obtain ⟨rs₁, rs₂, results, rfl, hgather, hend⟩ := exists_of_completes_bind h
  obtain ⟨rs₁, rs₃, ⟨r', ⟨⟩⟩, rfl, hx, hlast⟩ := exists_of_completes_bind hgather
  cases run_done.1 hlast with
  | intro hnil hresults =>
    cases hnil
    cases hresults
    obtain ⟨rfl, hr⟩ := run_done.1 hend
    cases hr
    simpa only [List.append_nil] using hx

/-- Unless a call is cancelled, the gathered calls one after the other are the `analyzeDiff` of
one call after the other. -/
theorem completes_analyzeDiff {prFiles : List PullFile} {prDetails : Dict}
    {replies : List SwarmReply}
    (huncancelled : ∀ reply ∈ replies, ∀ q, reply q ≠ .error .cancelled)
    {r : Except Raised ReviewResult}
    (h : Completes (analysisFlow lib models cfg prFiles prDetails).seq replies r) :
    Completes (analyzeDiff lib models cfg prFiles prDetails ()) replies (r, ()) := by
  unfold analysisFlow at h
  cases hchunks : buildReviewChunks lib.chunkByAst cfg prFiles with
  | error text =>
    rw [hchunks] at h
    obtain ⟨rfl, hr⟩ := run_done.1 h
    cases hr
    have hfails : runSwarm lib models cfg prFiles prDetails () =
        .done (.error (.exception ⟨text, none⟩), ()) := by
      unfold runSwarm
      rw [hchunks]
      rfl
    have hanalysis : analyzeDiff lib models cfg prFiles prDetails () =
        .done (.error (.exception ⟨text, none⟩), ()) := by
      change (runSwarm lib models cfg prFiles prDetails ()).bind _ = _
      rw [hfails]
      rfl
    rw [hanalysis]
    exact .nil _
  | ok chunks =>
    rw [hchunks] at h
    obtain ⟨rs₁, rs₂, routing, rfl, hrouting, h⟩ := exists_of_gatherThen
      (fun chunk => raises_coordinateRouting chunk _) huncancelled h
    have hraises : ∀ task : String × String, Script.Raises swarm Uncancelled (fun _ => False)
        (executeAgent lib models task.1 task.2 (reviewIntent lib prDetails)) :=
      fun task => raises_executeAgent _ _ _
    obtain ⟨rs₂, rs₃, results, rfl, hagents, h⟩ := exists_of_gatherThen hraises
      (fun reply hreply => huncancelled reply (by simp [hreply])) h
    have hswarm : Completes (runSwarm lib models cfg prFiles prDetails ()) (rs₁ ++ rs₂)
        (.ok results, ()) := by
      rw [runSwarm_eq hchunks]
      exact completes_script_bind hrouting hagents
    rw [← List.append_assoc]
    exact completes_script_bind hswarm (completes_await h)

def NoneCancelled (es : List (ℕ × Action SwarmCall (fun q => Except Raised q.Answer))) : Prop :=
  ∀ e ∈ es, ∀ reply ∈ e.2.replies, ∀ q, reply q ≠ .error .cancelled

theorem NoneCancelled.repliesTo {es : List (ℕ × Action SwarmCall _)} (h : NoneCancelled es) (i : ℕ)
    {reply : SwarmReply} (hreply : reply ∈ repliesTo i es) (q : SwarmCall) :
    reply q ≠ .error .cancelled := by
  obtain ⟨e, he, hreply⟩ := List.mem_flatMap.1 hreply
  split_ifs at hreply
  · exact h e he reply hreply q
  · cases hreply

variable {aiConcurrency : ℕ} {reviews : List (List PullFile × Dict)} {p : SwarmPool}
  {es : List (ℕ × Action SwarmCall (fun q => Except Raised q.Answer))}

/-- However the calls of the reviews interleave, an analysis ends with what it would have ended
with alone and one call after the other, on the same replies. -/
theorem concurrent_analysis_sequential
    (h : Run ReviewStep (startReviews lib models cfg aiConcurrency reviews) es p)
    (huncancelled : NoneCancelled es) {i : ℕ} {r : Except Raised ReviewResult}
    (hdone : p.flows[i]? = some (.done r)) : ∃ prFiles prDetails replies,
    reviews[i]? = some (prFiles, prDetails) ∧ replies.Perm (repliesTo i es) ∧
    Run (Session swarm) ((), analyzeDiff lib models cfg prFiles prDetails ()) replies
      ((), .done (r, ())) := by
  obtain ⟨f, hflow, replies, hperm, hend⟩ := Pool.completes_of_run h hdone
  rw [List.getElem?_map] at hflow
  obtain ⟨⟨prFiles, prDetails⟩, hreview, rfl⟩ := Option.map_eq_some_iff.1 hflow
  refine ⟨prFiles, prDetails, replies, hreview, hperm, completes_analyzeDiff ?_ hend⟩
  exact fun reply hreply => huncancelled.repliesTo i (hperm.subset hreply)

theorem findings_of_run {prFiles : List PullFile} {prDetails : Dict} {chunks : List String}
    (hchunks : buildReviewChunks lib.chunkByAst cfg prFiles = .ok chunks)
    {replies : List SwarmReply} (huncancelled : ∀ reply ∈ replies, ∀ q, reply q ≠ .error .cancelled)
    {r : Except Raised ReviewResult}
    (h : Run (Session swarm) ((), analyzeDiff lib models cfg prFiles prDetails ()) replies
      ((), .done (r, ()))) : ∃ rest outcomes review, r = .ok review ∧
    SwarmRuns lib models cfg (reviewIntent lib prDetails) chunks replies rest outcomes ∧
    review.comments = (outcomes.filterMap id).flatMap ReviewResult.comments := by
  obtain ⟨review, rfl⟩ := (raises_analyzeDiff hchunks prDetails).complete
    (guard_session h fun reply hreply _ q => huncancelled reply hreply q)
  obtain ⟨agents, rest, _, _, outcomes, rfl, hswarm, hsynthesis⟩ := Script.exists_ok_of_run_bind h
  rw [runSwarm_eq hchunks] at hswarm
  obtain ⟨replies₁, replies₂, _, _, routing, rfl, hrouting, hagents⟩ :=
    Script.exists_ok_of_run_bind hswarm
  have hcomments : Script.Returns swarm (fun _ _ _ => True)
      (fun r => r.comments = (outcomes.filterMap id).flatMap ReviewResult.comments)
      (synthesize lib models outcomes) := returns_synthesize outcomes
  refine ⟨rest, outcomes, review, rfl, ⟨routing, replies₁, replies₂, rfl, ?_, ?_⟩,
    hcomments.complete (guard_session hsynthesis fun _ _ _ _ => trivial)⟩
  · exact Script.collects_of_run hrouting
  · exact Script.collects_of_run hagents

/-- Whichever call is answered first, a finished analysis has returned a review, with the comments
of its agents in the order in which the agents were started. -/
theorem concurrent_findings
    (h : Run ReviewStep (startReviews lib models cfg aiConcurrency reviews) es p)
    (huncancelled : NoneCancelled es) {i : ℕ} {r : Except Raised ReviewResult}
    (hdone : p.flows[i]? = some (.done r)) {prFiles : List PullFile} {prDetails : Dict}
    (hreview : reviews[i]? = some (prFiles, prDetails)) {chunks : List String}
    (hchunks : buildReviewChunks lib.chunkByAst cfg prFiles = .ok chunks) :
    ∃ replies rest outcomes review, replies.Perm (repliesTo i es) ∧ r = .ok review ∧
      SwarmRuns lib models cfg (reviewIntent lib prDetails) chunks replies rest outcomes ∧
      review.comments = (outcomes.filterMap id).flatMap ReviewResult.comments := by
  obtain ⟨f, hflow, replies, hperm, hend⟩ := Pool.completes_of_run h hdone
  rw [List.getElem?_map, hreview] at hflow
  cases hflow
  have hreplies : ∀ reply ∈ replies, ∀ q, reply q ≠ .error .cancelled :=
    fun reply hreply => huncancelled.repliesTo i (hperm.subset hreply)
  obtain ⟨rest, outcomes, review, hr, hruns, hcomments⟩ :=
    findings_of_run hchunks hreplies (completes_analyzeDiff hreplies hend)
  exact ⟨replies, rest, outcomes, review, hperm, hr, hruns, hcomments⟩

/-- At every moment a permit is free or held by one completion on its way. As long as a review is
not done, something can happen, whatever is going to be replied, and no schedule goes on for
ever. -/
theorem reviews_never_stall (hconcurrency : 1 ≤ aiConcurrency)
    (h : Run ReviewStep (startReviews lib models cfg aiConcurrency reviews) es p) :
    p.permits + p.inFlight.countP isCompletion = aiConcurrency ∧
    (∀ f ∈ p.flows, f.isDone = false → ∀ reply : SwarmReply,
      ∃ e p', ReviewStep p e p' ∧ ∀ r ∈ e.2.replies, r = reply) ∧
    ∀ schedule : ℕ → SwarmPool, schedule 0 = p →
      ∃ n, ∀ e, ¬ ReviewStep (schedule n) e (schedule (n + 1)) := by
  have hpermits := Pool.permits_of_run h
  refine ⟨hpermits, fun f hf hdone reply => ?_, fun schedule _ => Pool.ends schedule⟩
  exact Pool.exists_step reply (hpermits ▸ hconcurrency) hf hdone

end Swarm

namespace Sample

def bothReviews : SwarmPool :=
  startReviews reviewing {} {} 2 [([changed], []), ([changed], [])]

def bothRouting : List (ℕ × Action SwarmCall (fun q => Except Raised q.Answer)) :=
  [(0, .sent 0), (1, .sent 0)]

/-- The second review overtakes the first one, and its agents are answered in reverse. -/
def overtaking : List (ℕ × Action SwarmCall (fun q => Except Raised q.Answer)) :=
  bothRouting ++ [(1, .answered 0 reporting), (1, .joined), (1, .sent 0),
    (0, .answered 0 reporting), (0, .joined), (1, .sent 1), (1, .answered 1 reporting),
    (0, .sent 0), (1, .answered 0 reporting), (1, .joined), (1, .sent 0),
    (1, .answered 0 reporting), (1, .sent 0), (1, .answered 0 reporting), (1, .joined)]

theorem exists_overtaken : ∃ p review, Run ReviewStep bothReviews overtaking p ∧
    p.flows[1]? = some (.done (.ok review)) ∧ reporters review = bothReporters := by
  obtain ⟨p, hrun, hp⟩ := exists_run_of_replay (Pool.next isCompletion)
    (p := fun p => (p.flows[1]?.bind Running.outcome).any fun r => r.toOption.any fun review =>
      reporters review = bothReporters)
    (show (replay (Pool.next isCompletion) bothReviews overtaking).any _ = true by decide)
  obtain ⟨_ | review, hr, hreporters⟩ := (Option.any_eq_true _ _).1 hp
  · cases hreporters
  obtain ⟨f, hf, hdone⟩ := Option.bind_eq_some_iff.1 hr
  exact ⟨p, review, hrun, by rw [hf, Running.eq_done_of_outcome hdone],
    of_decide_eq_true hreporters⟩

theorem overtaking_uncancelled : NoneCancelled overtaking := by
  have hreporting : ∀ e ∈ overtaking, ∀ reply ∈ e.2.replies, reply = reporting := by
    simp [overtaking, bothRouting, Action.replies]
  intro e he reply hreply q
  rw [hreporting e he reply hreply]
  exact reporting_uncancelled q

end Sample

theorem concurrent_analysis_sequential_both : ∃ p r prFiles prDetails replies,
    Run ReviewStep Sample.bothReviews Sample.overtaking p ∧ p.flows[1]? = some (.done r) ∧
    [([Sample.changed], []), ([Sample.changed], [])][1]? = some (prFiles, prDetails) ∧
    replies.Perm (repliesTo 1 Sample.overtaking) ∧
    Run (Session swarm) ((), analyzeDiff Sample.reviewing {} {} prFiles prDetails ()) replies
      ((), .done (r, ())) := by
  obtain ⟨p, review, hrun, hdone, -⟩ := Sample.exists_overtaken
  obtain ⟨prFiles, prDetails, replies, h⟩ :=
    concurrent_analysis_sequential hrun Sample.overtaking_uncancelled hdone
  exact ⟨p, .ok review, prFiles, prDetails, replies, hrun, hdone, h⟩

/-- Both agents' findings are in the review, in the order in which the agents were started. -/
theorem concurrent_findings_both : ∃ p replies rest outcomes review,
    Run ReviewStep Sample.bothReviews Sample.overtaking p ∧
    p.flows[1]? = some (.done (.ok review)) ∧
    Sample.reporters review = Sample.bothReporters ∧
    replies.Perm (repliesTo 1 Sample.overtaking) ∧
    SwarmRuns Sample.reviewing {} {} (reviewIntent Sample.reviewing [])
      ["FILE: lru.py\n@@ -1 +1 @@"] replies rest outcomes ∧
    review.comments = (outcomes.filterMap id).flatMap ReviewResult.comments := by
  obtain ⟨p, review, hrun, hdone, hreporters⟩ := Sample.exists_overtaken
  have hreview : ([([Sample.changed], []), ([Sample.changed], [])] :
      List (List PullFile × Dict))[1]? = some ([Sample.changed], []) := rfl
  obtain ⟨replies, rest, outcomes, review', hperm, hr, hruns⟩ :=
    concurrent_findings hrun Sample.overtaking_uncancelled hdone hreview rfl
  cases hr
  exact ⟨p, replies, rest, outcomes, review, hrun, hdone, hreporters, hperm, hruns⟩

/-- Both completions are on their way and hold the two permits. -/
theorem reviews_never_stall_both : ∃ p, Run ReviewStep Sample.bothReviews Sample.bothRouting p ∧
    p.inFlight.length = 2 ∧ p.permits + p.inFlight.countP isCompletion = 2 ∧
    (∀ f ∈ p.flows, f.isDone = false → ∀ reply : SwarmReply,
      ∃ e p', ReviewStep p e p' ∧ ∀ r ∈ e.2.replies, r = reply) ∧
    ∀ schedule : ℕ → SwarmPool, schedule 0 = p →
      ∃ n, ∀ e, ¬ ReviewStep (schedule n) e (schedule (n + 1)) := by
  obtain ⟨p, hrun, hp⟩ := exists_run_of_replay (Pool.next isCompletion)
    (p := fun p => p.inFlight.length = 2)
    (show (replay (Pool.next isCompletion) Sample.bothReviews Sample.bothRouting).any _ = true by
      decide)
  exact ⟨p, hrun, of_decide_eq_true hp, reviews_never_stall (by decide) hrun⟩

end Revix
