import Revix.SwarmVerdicts
import Revix.WorkerCheckRuns

namespace Revix
open EffectPrograms EffectSessions LabelledRuns

/-- Every completion is answered by an exception whose response has the status 429. -/
def ModelsLimited (_ : Unit) (q : SwarmCall) (reply : SwarmReply) : Prop :=
  match q with
  | .completion c => ∃ e : PyError, reply (.completion c) = .error (.exception e) ∧
      e.response.bind Response.statusCode = some 429
  | .sandbox script => (reply (.sandbox script)).isOk

section Swarm

variable {lib : Libraries} {models : Settings} {cfg : SwarmSettings}

theorem ensures_limited {c : Completion} {post : Unit → Unit → Except Raised AssistantMessage → Prop}
    (h : ∀ e, post () () (.error (.exception e))) :
    Script.Ensures swarm ModelsLimited (fun _ => True) post (complete c) () () := by
  refine (Script.ensures_request (q := SwarmCall.completion c)).2 ⟨trivial, fun reply hreply => ?_⟩
  obtain ⟨e, he, -⟩ := hreply
  have hanswer : (swarm () (.completion c) reply).1 = .error (.exception e) := he
  rw [hanswer]
  exact h e

theorem ensures_tryExcept_limited {α : Type} {c : Completion} {f : AssistantMessage → SwarmScript α}
    {handler : PyError → SwarmScript α} {post : Unit → Unit → Except Raised α → Prop}
    (h : ∀ e, Script.Ensures swarm ModelsLimited (fun _ => True) post (handler e) () ()) :
    Script.Ensures swarm ModelsLimited (fun _ => True) post
      (tryExcept (complete c >>= f) handler) () () :=
  ensures_tryExcept.2 (Script.ensures_bind.2 (ensures_limited h))

theorem ensures_collect_ok {α β : Type} {P : β → Prop} {body : α → SwarmScript β}
    (hbody : ∀ a, Script.Ensures swarm ModelsLimited (fun _ => True)
      (fun _ _ r => ∃ b, r = .ok b ∧ P b) (body a) () ()) (as : List α) :
    Script.Ensures swarm ModelsLimited (fun _ => True)
      (fun _ _ r => ∃ bs, r = .ok bs ∧ ∀ b ∈ bs, P b) (Script.collect body as) () () := by
  induction as with
  | nil => exact ⟨[], rfl, fun b hb => nomatch hb⟩
  | cons a as ih =>
    refine (hbody a).andThen (fun b _ _ hb => ?_) fun e _ _ ⟨_, he, _⟩ => nomatch he
    refine ih.andThen (fun bs _ _ hbs => ?_) fun e _ _ ⟨_, he, _⟩ => nomatch he
    obtain ⟨b', hb', hP⟩ := hb
    obtain ⟨bs', hbs', hall⟩ := hbs
    cases hb'
    cases hbs'
    exact ⟨b :: bs, rfl, fun b' hmem => by
      rcases List.mem_cons.1 hmem with rfl | hmem
      · exact hP
      · exact hall b' hmem⟩

theorem ensures_executeAgent (agentId chunk intent : String) :
    Script.Ensures swarm ModelsLimited (fun _ => True) (fun _ _ r => ∃ res, r = .ok res ∧ res = none)
      (executeAgent lib models agentId chunk intent) () () :=
  ensures_tryExcept_limited fun _ => ⟨none, rfl, rfl⟩

theorem ensures_coordinateRouting (chunk intent : String) :
    Script.Ensures swarm ModelsLimited (fun _ => True) (fun _ _ r => ∃ ids, r = .ok ids ∧ True)
      (coordinateRouting lib models cfg chunk intent) () () :=
  ensures_tryExcept_limited fun _ => ⟨_, rfl, trivial⟩

theorem ensures_reduceSummaries (summaries : List String) (comments : List ReviewComment) :
    Script.Ensures swarm ModelsLimited (fun _ => True)
      (fun _ _ r => r = .ok (synthesisFailed comments))
      (reduceSummaries lib models summaries comments) () () := by
  apply ensures_tryExcept_limited
  intro _
  refine Script.ensures_bind.2 (ensures_tryExcept_limited fun _ => ?_)
  exact rfl

theorem ensures_runSwarm {prFiles : List PullFile} {chunks : List String}
    (hchunks : buildReviewChunks lib.chunkByAst cfg prFiles = .ok chunks) (prDetails : Dict) :
    Script.Ensures swarm ModelsLimited (fun _ => True)
      (fun _ _ r => ∃ results, r = .ok results ∧ ∀ res ∈ results, res = none)
      (runSwarm lib models cfg prFiles prDetails) () () := by
  unfold runSwarm
  rw [hchunks]
  refine Script.ensures_bind.2 (Script.ensures_pure.2 ?_)
  dsimp only
  refine (ensures_collect_ok (P := fun _ => True)
    (fun chunk => ensures_coordinateRouting chunk _) chunks).andThen (fun routing _ _ _ => ?_)
      fun e _ _ ⟨_, he, _⟩ => nomatch he
  exact ensures_collect_ok (fun task : String × String => ensures_executeAgent task.1 task.2 _) _

/-- The analysis ends with the score 0, not with the rate limit. -/
theorem ensures_analyzeDiff (hcap : 1 ≤ cfg.reviewMaxAgentsPerChunk) {prFiles : List PullFile}
    {chunks : List String} (hchunks : buildReviewChunks lib.chunkByAst cfg prFiles = .ok chunks)
    (hne : chunks ≠ []) (prDetails : Dict) :
    Script.Ensures swarm ModelsLimited (fun _ => True) (fun _ _ r => r = .ok (synthesisFailed []))
      (analyzeDiff lib models cfg prFiles prDetails) () () := by
  have hswarm : Script.Returns swarm ModelsLimited (fun results => results ≠ [])
      (runSwarm lib models cfg prFiles prDetails) := returns_runSwarm hcap hchunks hne prDetails
  have hreturns := hswarm () ()
  refine ((ensures_runSwarm hchunks prDetails).and hreturns).andThen
    (fun results _ _ ⟨⟨results', hok, hnone⟩, hsome⟩ => ?_) fun e _ _ ⟨⟨_, he, _⟩, _⟩ => nomatch he
  cases hok
  have hreviews : results.filterMap id = [] := by
    rw [List.filterMap_eq_nil_iff]
    exact hnone
  have hresults : results ≠ [] := hsome results rfl
  simp only [synthesize, List.isEmpty_iff, hresults, ↓reduceIte, hreviews, List.map_nil,
    List.flatMap_nil]
  exact ensures_reduceSummaries [] []

end Swarm

/-- What `analyze_diff` ends with while the models are limited. -/
def LimitedAnalysis (lib : Libraries) (models : Settings) (cfg : SwarmSettings)
    (prFiles : List PullFile) (prDetails : Dict) (r : Except Raised ReviewResult) : Prop :=
  ∃ replies, Run (Guarded (Session swarm) (Fits ModelsLimited))
    ((), analyzeDiff lib models cfg prFiles prDetails ()) replies ((), .done (r, ()))

/-- Every call to GitHub and to the database succeeds, GitHub names the files of the pull request
and they give a chunk to review; the analysis runs while the models are limited. -/
def OnlyModelsLimited (lib : Libraries) (models : Settings) (cfg : SwarmSettings) (_ : Transcript)
    (q : Request) (reply : Reply) : Prop :=
  match q with
  | .analyzeDiff diff repo prFiles prDetails =>
    LimitedAnalysis lib models cfg prFiles prDetails (reply (.analyzeDiff diff repo prFiles prDetails))
  | .fetchPullFiles repo pullNumber token headSha => ∃ prFiles chunks,
      reply (.fetchPullFiles repo pullNumber token headSha) = .ok prFiles ∧
      (∀ f ∈ prFiles, f.filename.isSome) ∧
      buildReviewChunks lib.chunkByAst cfg prFiles = .ok chunks ∧ chunks ≠ []
  | q => (reply q).isOk

namespace Exchange

def released : Exchange → Bool
  | ⟨.releaseJob _ _ _, _⟩ => true
  | _ => false

/-- A commit of `SUCCESS`. -/
def succeeded : Exchange → Bool
  | ⟨.finalizeJob _ _ .success _, .ok _⟩ => true
  | _ => false

end Exchange

namespace Transcript

def released (t : Transcript) : Bool := t.any Exchange.released

def succeeded (t : Transcript) : Bool := t.any Exchange.succeeded

end Transcript

section Worker

variable {lib : Libraries} {models : Settings} {cfg : SwarmSettings} {py : Python} {job : Job}
  {t : Transcript} {l : Locals}

/-- Nothing is released, and with `b` the review is posted. -/
def Unreleased (b : Bool) (t : Transcript) : Prop :=
  t.released = false ∧ (b = true → t.posted = true)

/-- A step that returns and keeps `Unreleased b`. -/
def Calm (b : Bool) {α : Type} (t : Transcript) (_ : Locals) (r : Except Raised α) : Prop :=
  Unreleased b t ∧ ∃ a, r = .ok a

variable {b : Bool}

theorem Unreleased.cons {x : Exchange} (h : Unreleased b t) (hx : x.released = false) :
    Unreleased b (x :: t) := by
  have hreleased : Transcript.released (x :: t) = (x.released || t.released) := rfl
  have hposted : Transcript.posted (x :: t) = (x.posted || t.posted) := rfl
  refine ⟨by rw [hreleased, hx, h.1]; rfl, fun hb => ?_⟩
  rw [hposted, h.2 hb, Bool.or_true]

theorem ensures_ok {q : Request} {post : Transcript → Locals → Except Raised q.Answer → Prop}
    (hq : ∀ t reply, OnlyModelsLimited lib models cfg t q reply → ∃ a, reply q = .ok a)
    (h : ∀ a, post (⟨q, .ok a⟩ :: t) l (.ok a)) :
    Script.Ensures transcribe (OnlyModelsLimited lib models cfg) (fun _ => True) post (ask q)
      t l := by
  refine Script.ensures_request.2 ⟨trivial, fun reply hreply => ?_⟩
  obtain ⟨a, ha⟩ := hq t reply hreply
  simp only [transcribe, ha]
  exact h a

theorem ensures_calm {q : Request}
    (hq : ∀ t reply, OnlyModelsLimited lib models cfg t q reply → ∃ a, reply q = .ok a)
    (hr : ∀ a, Exchange.released ⟨q, .ok a⟩ = false) (h : Unreleased b t) :
    Script.Ensures transcribe (OnlyModelsLimited lib models cfg) (fun _ => True) (Calm b) (ask q)
      t l :=
  ensures_ok hq fun a => ⟨h.cons (hr a), a, rfl⟩

theorem calm_andThen {α β : Type} {x : JobScript α} {f : α → JobScript β}
    {post : Transcript → Locals → Except Raised β → Prop}
    (hx : Script.Ensures transcribe (OnlyModelsLimited lib models cfg) (fun _ => True) (Calm b) x
      t l)
    (hf : ∀ a t l, Unreleased b t → Script.Ensures transcribe
      (OnlyModelsLimited lib models cfg) (fun _ => True) post (f a) t l) :
    Script.Ensures transcribe (OnlyModelsLimited lib models cfg) (fun _ => True) post
      (x >>= f) t l :=
  hx.andThen (fun a t l ht => hf a t l ht.1) fun _ _ _ ⟨_, _, he⟩ => nomatch he

theorem calm_createCheckRun (token : String) (h : Unreleased b t) :
    Script.Ensures transcribe (OnlyModelsLimited lib models cfg) (fun _ => True) (Calm b)
      (createCheckRun job token) t l := by
  refine ensures_suppress.2 (calm_andThen (ensures_calm (fun _ _ hok => ok_of_isOk hok)
    (fun _ => rfl) h) fun checkRunId t l ht => ?_)
  refine Script.ensures_modify.2 ((ensures_calm (q := .setCheckRunId job.id checkRunId)
    (fun _ _ hok => ok_of_isOk hok) (fun _ => rfl) ht).mono fun t l r hr => ?_)
  obtain ⟨ht, a, rfl⟩ := hr
  exact ⟨ht, a, rfl⟩

theorem calm_indexFile {file : PullFile} (hfile : file.filename.isSome) (h : Unreleased b t) :
    Script.Ensures transcribe (OnlyModelsLimited lib models cfg) (fun _ => True) (Calm b)
      (indexFile file) t l := by
  obtain ⟨filename, hname⟩ := Option.isSome_iff_exists.1 hfile
  unfold indexFile
  split
  · exact ⟨h, _, rfl⟩
  · simp only [hname]
    exact ensures_calm (fun _ _ hok => ok_of_isOk hok) (fun _ => rfl) h

theorem calm_collect {prFiles : List PullFile} (hfiles : ∀ f ∈ prFiles, f.filename.isSome)
    (h : Unreleased b t) :
    Script.Ensures transcribe (OnlyModelsLimited lib models cfg) (fun _ => True) (Calm b)
      (EffectPrograms.Script.collect indexFile prFiles) t l := by
  induction prFiles generalizing t l with
  | nil => exact ⟨h, _, rfl⟩
  | cons f fs ih =>
    refine calm_andThen (calm_indexFile (hfiles f (.head _)) h) fun _ t l ht => ?_
    refine calm_andThen (ih (fun f hf => hfiles f (.tail _ hf)) ht) fun _ t l ht => ?_
    exact ⟨ht, _, rfl⟩

theorem calm_indexFiles {prFiles : List PullFile} (hfiles : ∀ f ∈ prFiles, f.filename.isSome)
    (h : Unreleased b t) :
    Script.Ensures transcribe (OnlyModelsLimited lib models cfg) (fun _ => True) (Calm b)
      (indexFiles job prFiles) t l := by
  unfold indexFiles
  refine calm_andThen (calm_collect hfiles h) fun indexed t l ht => ?_
  dsimp only
  split
  · exact ensures_calm (fun _ _ hok => ok_of_isOk hok) (fun _ => rfl) ht
  · exact ⟨ht, _, rfl⟩

theorem calm_completeCheckRun (result : ReviewResult) (token : String) (h : Unreleased b t) :
    Script.Ensures transcribe (OnlyModelsLimited lib models cfg) (fun _ => True) (Calm b)
      (completeCheckRun job result token) t l := by
  unfold completeCheckRun
  apply Script.ensures_get.2
  split
  · exact ⟨h, _, rfl⟩
  · exact ensures_calm (fun _ _ hok => ok_of_isOk hok) (fun _ => rfl) h

def Passed (t : Transcript) (_ : Locals) (r : Except Raised Unit) : Prop :=
  Unreleased true t ∧ t.succeeded = true ∧ r = .ok ()

theorem passed_review (hcap : 1 ≤ cfg.reviewMaxAgentsPerChunk) (installationId : ℤ)
    (h : Unreleased false t) :
    Script.Ensures transcribe (OnlyModelsLimited lib models cfg) (fun _ => True) Passed
      (review models job installationId) t l := by
  unfold review
  refine calm_andThen (ensures_calm (fun _ _ hok => ok_of_isOk hok) (fun _ => rfl) h)
    fun token t l ht => Script.ensures_modify.2 ?_
  refine calm_andThen (calm_createCheckRun token ht) fun _ t l ht => ?_
  refine calm_andThen (ensures_calm (fun _ _ hok => ok_of_isOk hok) (fun _ => rfl) ht)
    fun diff t l ht => ?_
  -- the files name themselves and give a chunk
  refine Script.ensures_bind.2 (Script.ensures_request.2 ⟨trivial, fun reply hreply => ?_⟩)
  obtain ⟨prFiles, chunks, hfetched, hfiles, hchunks, hne⟩ := hreply
  simp only [transcribe, hfetched]
  have ht := Unreleased.cons (x := ⟨.fetchPullFiles job.repoFullName job.prNumber token
    job.commitSha, .ok prFiles⟩) ht rfl
  refine calm_andThen (ensures_calm (fun _ _ hok => ok_of_isOk hok) (fun _ => rfl) ht)
    fun prDetails t l ht => ?_
  refine calm_andThen (calm_indexFiles hfiles ht) fun _ t l ht => ?_
  -- the rate limit does not reach the worker
  have hanalysis : ∀ t reply, OnlyModelsLimited lib models cfg t
      (.analyzeDiff diff job.repoFullName prFiles prDetails) reply →
      ∃ a, reply (.analyzeDiff diff job.repoFullName prFiles prDetails) = .ok a := by
    rintro t reply ⟨replies, hrun⟩
    exact ⟨_, (ensures_analyzeDiff hcap hchunks hne prDetails).complete hrun⟩
  refine calm_andThen (ensures_calm hanalysis (fun _ => rfl) ht) fun result t l ht => ?_
  let inlineComments := selectInlineComments models result.comments
  refine Script.ensures_bind.2 (ensures_ok (q := .postReview job.repoFullName job.prNumber
    job.commitSha (inlineComments.map fun c => ⟨c.path, c.line, c.side, formatInlineComment c⟩)
    token (formatReviewBody result inlineComments prFiles))
    (fun _ _ hok => ok_of_isOk hok) fun a => ?_)
  refine calm_andThen (b := true) (calm_completeCheckRun result token ⟨ht.1, fun _ => rfl⟩)
    fun _ t l ht => ?_
  exact ensures_ok (q := .finalizeJob job.id job.fenceToken .success (some result.modelDump))
    (fun _ _ hok => ok_of_isOk hok) fun a => ⟨ht.cons rfl, rfl, rfl⟩

theorem passed_processJob (hcap : 1 ≤ cfg.reviewMaxAgentsPerChunk) :
    Script.Ensures transcribe (OnlyModelsLimited lib models cfg) (fun _ => True)
      (fun t _ _ => t.released = false ∧
        ((parseJob py job).isOk → t.posted = true ∧ t.succeeded = true))
      (processJob py models job) [] {} := by
  have hblank : Unreleased false [] := ⟨rfl, fun hb => nomatch hb⟩
  unfold processJob
  split
  · rename_i text hparse
    refine ensures_suppress.2 ((ensures_calm (b := false) (q := .finalizeJob job.id job.fenceToken
      .failure (some [("error", .str ("Invalid job payload: " ++ text))]))
      (fun _ _ hok => ok_of_isOk hok) (fun _ => rfl) hblank).mono fun t l r hr => ?_)
    obtain ⟨ht, a, rfl⟩ := hr
    exact ⟨ht.1, fun hok => nomatch hparse ▸ hok⟩
  · rename_i installationId hparse
    refine calm_andThen (ensures_calm (fun _ _ hok => ok_of_isOk hok) (fun _ => rfl) hblank)
      fun _ t l ht => ?_
    have hbody : Script.Ensures transcribe (OnlyModelsLimited lib models cfg) (fun _ => True) Passed
        (exceptException (review models job installationId) (handleError py job)) t l := by
      refine ensures_exceptException.2 ((passed_review hcap installationId ht).mono
        fun t l r hr => ?_)
      obtain ⟨ht, hsucceeded, rfl⟩ := hr
      exact ⟨ht, hsucceeded, rfl⟩
    refine Script.ensures_finallyDo.2 (hbody.mono fun t l r hr => ?_)
    obtain ⟨ht, hsucceeded, rfl⟩ := hr
    exact ensures_ok (q := .close) (fun _ _ hok => ok_of_isOk hok) fun _ =>
      ⟨ht.1, fun _ => ⟨ht.2 rfl, hsucceeded⟩⟩

/-- While the models are limited and all else succeeds, a job is never released: its review is
posted and `SUCCESS` committed. -/
theorem posted_while_limited (hcap : 1 ≤ cfg.reviewMaxAgentsPerChunk) {replies : List Reply}
    {r : Except Raised Unit × Locals}
    (h : Run (Guarded (Session transcribe) (Fits (OnlyModelsLimited lib models cfg)))
      ([], processJob py models job {}) replies (t, .done r)) :
    t.released = false ∧ ((parseJob py job).isOk → t.posted = true ∧ t.succeeded = true) :=
  (passed_processJob hcap).complete h

end Worker

namespace Sample

theorem silent_limited (q : SwarmCall) : ModelsLimited () q silent := by
  cases q with
  | completion c => exact ⟨_, rfl, rfl⟩
  | sandbox script => rfl

/-- GitHub and the database answer, and the analysis runs without an answer of the models. -/
def limitedModels : Reply
  | .fetchPullFiles _ _ _ _ => .ok [changed]
  | .analyzeDiff _ _ prFiles prDetails =>
    (play silent (analyzeDiff libraries {} {} prFiles prDetails ())).1
  | q => reply q

theorem limitedModels_fits (t : Transcript) (q : Request) :
    OnlyModelsLimited libraries {} {} t q limitedModels := by
  cases q with
  | fetchPullFiles =>
    have hfiles : ∀ f ∈ [changed], f.filename.isSome := by simp [changed]
    exact ⟨[changed], _, rfl, hfiles, rfl, by simp⟩
  | analyzeDiff diff repo prFiles prDetails =>
    have hanswers : ∀ s q, (swarm s q silent).1 = silent q := fun _ _ => rfl
    obtain ⟨n, _, hrun⟩ := exists_run_play hanswers ()
      (analyzeDiff libraries {} {} prFiles prDetails ())
    refine ⟨_, guard_session hrun fun c hc _ q => ?_⟩
    rw [List.eq_of_mem_replicate hc]
    exact silent_limited q
  | _ => rfl

theorem exists_limited_run : ∃ n t r,
    Run (Guarded (Session transcribe) (Fits (OnlyModelsLimited libraries {} {})))
      ([], processJob python {} row {}) (List.replicate n limitedModels) (t, .done r) := by
  have hanswers : ∀ t q, (transcribe t q limitedModels).1 = limitedModels q := fun _ _ => rfl
  obtain ⟨n, t, hsession⟩ := exists_run_play hanswers [] (processJob python {} row {})
  exact ⟨n, t, _, guard_session hsession fun c hc t q =>
    (List.eq_of_mem_replicate hc).symm ▸ limitedModels_fits t q⟩

end Sample

theorem posted_while_limited_sample : ∃ n t r,
    Run (Guarded (Session transcribe) (Fits (OnlyModelsLimited Sample.libraries {} {})))
      ([], processJob Sample.python {} Sample.row {}) (List.replicate n Sample.limitedModels)
      (t, .done r) ∧ t.posted = true ∧ t.succeeded = true ∧ t.released = false := by
  obtain ⟨n, t, r, hrun⟩ := Sample.exists_limited_run
  have hpassed := posted_while_limited (by decide) hrun
  have hparsed : (parseJob Sample.python Sample.row).isOk = true := rfl
  exact ⟨n, t, r, hrun, (hpassed.2 hparsed).1, (hpassed.2 hparsed).2, hpassed.1⟩

/-- A job whose models are limited is reviewed and finished instead of released. -/
theorem not_released_while_limited : ¬ ∀ (lib : Libraries) (models : Settings)
    (cfg : SwarmSettings) (py : Python) (job : Job) (replies : List Reply) (t : Transcript)
    (r : Except Raised Unit × Locals), 1 ≤ cfg.reviewMaxAgentsPerChunk →
    Run (Guarded (Session transcribe) (Fits (OnlyModelsLimited lib models cfg)))
      ([], processJob py models job {}) replies (t, .done r) →
    t.posted = false ∧ t.released = true := by
  intro hall
  obtain ⟨n, t, r, hrun⟩ := Sample.exists_limited_run
  have hclaim := hall Sample.libraries {} {} Sample.python Sample.row _ t r (by decide) hrun
  have hpassed := (passed_processJob (by decide)).complete hrun
  rw [hpassed.1] at hclaim
  cases hclaim.2

end Revix
