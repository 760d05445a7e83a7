import Revix.SharedQueues
import Revix.WorkerCheckRuns

namespace Revix
open LabelledRuns EffectPrograms EffectSessions

section Scripts

variable {py : Python} {cfg : Settings} {job : Job} {id : Uuid} {token : ℕ} {s : Shared}
  {l : Locals} {α β : Type}

/-- A script that leaves an open claim open, and is not cancelled. -/
def KeepsOpen (cfg : Settings) (id : Uuid) (token : ℕ) (x : JobScript α) : Prop :=
  ∀ s l, Open cfg id token s → Script.Ensures (shared cfg) (Undisturbed cfg id token)
    (fun _ => True) (fun s _ r => Open cfg id token s ∧ r ≠ .error .cancelled) x s l

def Disposes (cfg : Settings) (id : Uuid) (token : ℕ) (x : JobScript α) : Prop :=
  ∀ s l, Open cfg id token s → Script.Ensures (shared cfg) (Undisturbed cfg id token)
    (fun _ => True) (fun s _ _ => Disposed cfg id token s) x s l

theorem keepsOpen_pure (a : α) : KeepsOpen cfg id token (Script.pure a) :=
  fun _ _ h => ⟨h, fun hr => nomatch hr⟩

theorem keepsOpen_raise (e : PyError) :
    KeepsOpen cfg id token (Script.throw (.exception e) : JobScript α) :=
  fun _ _ h => ⟨h, fun hr => nomatch hr⟩

theorem keepsOpen_modify (f : Locals → Locals) : KeepsOpen cfg id token (Script.modify f) :=
  fun _ _ h => ⟨h, fun hr => nomatch hr⟩

theorem keepsOpen_get : KeepsOpen cfg id token Script.get :=
  fun _ _ h => ⟨h, fun hr => nomatch hr⟩

theorem keepsOpen_ask {q : Request} (hq : q.plain = true) : KeepsOpen cfg id token (ask q) := by
  intro s l h
  refine Script.ensures_request.2 ⟨trivial, fun c hc => ?_⟩
  have hopen : Open cfg id token (s.others cfg c.others) := h.others hc.1
  cases q with
  | finalizeJob => cases hq
  | releaseJob => cases hq
  | setCheckRunId id' checkRunId => exact ⟨hopen.mark id' checkRunId, fun hr => nomatch hr⟩
  | _ => exact ⟨hopen, hc.2.2.2 _⟩

theorem KeepsOpen.bind {x : JobScript α} {f : α → JobScript β} (hx : KeepsOpen cfg id token x)
    (hf : ∀ a, KeepsOpen cfg id token (f a)) : KeepsOpen cfg id token (x >>= f) := by
  intro s l h
  refine (hx s l h).andThen (fun a s l hs => hf a s l hs.1) fun e s l hs => ⟨hs.1, fun hr => ?_⟩
  cases hr
  exact hs.2 rfl

theorem KeepsOpen.collect {body : α → JobScript β} (h : ∀ a, KeepsOpen cfg id token (body a)) :
    ∀ as : List α, KeepsOpen cfg id token (Script.collect body as)
  | [] => keepsOpen_pure []
  | a :: as => (h a).bind fun b => (KeepsOpen.collect h as).bind fun bs => keepsOpen_pure (b :: bs)

theorem KeepsOpen.suppress {x : JobScript Unit} (hx : KeepsOpen cfg id token x)
    (h : Open cfg id token s) :
    Script.Ensures (shared cfg) (Undisturbed cfg id token) (fun _ => True)
      (fun s _ r => Open cfg id token s ∧ r = .ok ()) (suppress x) s l := by
  refine ensures_suppress.2 ((hx s l h).mono fun s l r hr => ?_)
  rcases r with (e | _) | _
  · exact ⟨hr.1, rfl⟩
  · exact absurd rfl hr.2
  · exact ⟨hr.1, rfl⟩

theorem keepsOpen_suppress {x : JobScript Unit} (hx : KeepsOpen cfg id token x) :
    KeepsOpen cfg id token (suppress x) :=
  fun _ _ h => (hx.suppress h).mono fun _ _ _ hr => ⟨hr.1, fun hc => nomatch hr.2.symm.trans hc⟩

theorem keepsOpen_createCheckRun (token' : String) :
    KeepsOpen cfg id token (createCheckRun job token') := by
  refine keepsOpen_suppress ((keepsOpen_ask rfl).bind fun checkRunId => ?_)
  exact (keepsOpen_modify _).bind fun _ => keepsOpen_ask rfl

theorem keepsOpen_indexFile (file : PullFile) : KeepsOpen cfg id token (indexFile file) := by
  unfold indexFile
  split
  · exact keepsOpen_pure _
  · split
    · exact keepsOpen_ask rfl
    · exact keepsOpen_raise _

theorem keepsOpen_indexFiles (prFiles : List PullFile) :
    KeepsOpen cfg id token (indexFiles job prFiles) := by
  unfold indexFiles
  refine (KeepsOpen.collect keepsOpen_indexFile prFiles).bind fun indexed => ?_
  dsimp only
  split
  · exact keepsOpen_ask rfl
  · exact keepsOpen_pure _

theorem keepsOpen_completeCheckRun (result : ReviewResult) (token' : String) :
    KeepsOpen cfg id token (completeCheckRun job result token') := by
  unfold completeCheckRun
  refine keepsOpen_get.bind fun l => ?_
  split
  · exact keepsOpen_pure _
  · exact keepsOpen_ask rfl

/-- The error handler gets past the update of the check run. -/
theorem Open.failCheckRun (h : Open cfg id token s) (e : PyError) :
    Script.Ensures (shared cfg) (Undisturbed cfg id token) (fun _ => True)
      (fun s _ r => Open cfg id token s ∧ r = .ok ()) (Revix.failCheckRun job e) s l := by
  unfold Revix.failCheckRun
  apply Script.ensures_get.2
  split
  · exact (keepsOpen_ask rfl).suppress h
  · exact ⟨h, rfl⟩

theorem Open.retryDelayFor (h : Open cfg id token s) (e : PyError) (attemptCount : ℤ) :
    Script.Ensures (shared cfg) (Undisturbed cfg id token) (fun _ => True)
      (fun s _ r => Open cfg id token s ∧ ∃ delay, r = .ok delay)
      (Revix.retryDelayFor py e attemptCount) s l := by
  unfold Revix.retryDelayFor
  dsimp only
  split
  · exact ⟨h, _, rfl⟩
  · split
    · refine Script.ensures_bind.2 (Script.ensures_request.2 ⟨trivial, fun c hc => ?_⟩)
      have hopen : Open cfg id token (s.others cfg c.others) := h.others hc.1
      obtain ⟨now, hnow⟩ := ok_of_isOk hc.2.2.1
      have hanswer : (shared cfg s .time c).1 = .ok now := hnow
      rw [hanswer]
      exact ⟨hopen, _, rfl⟩
    · exact ⟨h, _, rfl⟩

theorem ensures_finalize {verdict : Verdict} {aiFeedback : Option Dict}
    {post : Shared → Locals → Except Raised Unit → Prop} (h : Open cfg id token s)
    (hok : ∀ s, Disposed cfg id token s → post s l (.ok ()))
    (hraised : ∀ s e, Open cfg id token s → Disposed cfg id token s →
      post s l (.error (.exception e))) :
    Script.Ensures (shared cfg) (Undisturbed cfg id token) (fun _ => True) post
      (ask (.finalizeJob id token verdict aiFeedback)) s l := by
  refine (Script.ensures_request (q := Request.finalizeJob id token verdict aiFeedback)).2
    ⟨trivial, fun c hc => ?_⟩
  have hopen : Open cfg id token (s.others cfg c.others) := h.others hc.1
  have hdisposed := hopen.disposed_finalize verdict aiFeedback c.now
  simp only [shared]
  cases hdb : finalizeJob cfg id token verdict.status aiFeedback c.now
      (s.others cfg c.others).queue.db with
  | ok db => exact hok _ hdisposed
  | error e => exact hraised _ _ (hopen.finalize_raised hdb) hdisposed

theorem ensures_release {delaySeconds : ℤ} {post : Shared → Locals → Except Raised Unit → Prop}
    (h : Open cfg id token s) (hpost : ∀ s, Disposed cfg id token s → post s l (.ok ())) :
    Script.Ensures (shared cfg) (Undisturbed cfg id token) (fun _ => True) post
      (ask (.releaseJob id token delaySeconds)) s l := by
  refine (Script.ensures_request (q := Request.releaseJob id token delaySeconds)).2
    ⟨trivial, fun c hc => ?_⟩
  have hopen : Open cfg id token (s.others cfg c.others) := h.others hc.1
  exact hpost _ (hopen.disposed_release delaySeconds c.now)

theorem disposes_finalize (verdict : Verdict) (aiFeedback : Option Dict) :
    Disposes cfg id token (suppress (ask (.finalizeJob id token verdict aiFeedback))) := by
  intro s l h
  refine ensures_suppress.2 (ensures_finalize h (fun s hs => hs) fun s e _ hs => ?_)
  exact hs

/-- However the handler leaves the job, the claim is disposed of. -/
theorem disposes_handleError (e : PyError) :
    Disposes cfg job.id job.fenceToken (handleError py job e) := by
  intro s l h
  unfold handleError
  refine (h.retryDelayFor e job.attemptCount).andThen (fun delay s l hs => ?_)
    fun _ _ _ ⟨_, _, hr⟩ => nomatch hr
  split
  · exact ensures_release hs.1 fun s hs => hs
  · refine (hs.1.failCheckRun e).andThen (fun _ s l hs => ?_) fun _ _ _ ⟨_, hr⟩ => nomatch hr
    exact disposes_finalize .failure _ s l hs.1

/-- The review ends with its commit, or with an exception for the handler. -/
theorem Open.review (h : Open cfg job.id job.fenceToken s) (installationId : ℤ) :
    Script.Ensures (shared cfg) (Undisturbed cfg job.id job.fenceToken) (fun _ => True)
      (fun s _ r => match r with
        | .ok _ => Disposed cfg job.id job.fenceToken s
        | .error e => Open cfg job.id job.fenceToken s ∧ e ≠ .cancelled)
      (Revix.review cfg job installationId) s l := by
  have hstep : ∀ {α : Type} {x : JobScript α} {f : α → JobScript Unit} {s l},
      KeepsOpen cfg job.id job.fenceToken x → Open cfg job.id job.fenceToken s →
      (∀ a s l, Open cfg job.id job.fenceToken s →
        Script.Ensures (shared cfg) (Undisturbed cfg job.id job.fenceToken) (fun _ => True)
          (fun s _ r => match r with
            | .ok _ => Disposed cfg job.id job.fenceToken s
            | .error e => Open cfg job.id job.fenceToken s ∧ e ≠ .cancelled) (f a) s l) →
      Script.Ensures (shared cfg) (Undisturbed cfg job.id job.fenceToken) (fun _ => True)
        (fun s _ r => match r with
          | .ok _ => Disposed cfg job.id job.fenceToken s
          | .error e => Open cfg job.id job.fenceToken s ∧ e ≠ .cancelled) (x >>= f) s l := by
    intro α x f s l hx hs hf
    exact (hx s l hs).andThen (fun a s l ha => hf a s l ha.1) fun e s l he =>
      ⟨he.1, fun hc => he.2 (congrArg Except.error hc)⟩
  unfold Revix.review
  refine hstep (keepsOpen_ask rfl) h fun token s l h => ?_
  refine hstep (keepsOpen_modify _) h fun _ s l h => ?_
  refine hstep (keepsOpen_createCheckRun token) h fun _ s l h => ?_
  refine hstep (keepsOpen_ask rfl) h fun diff s l h => ?_
  refine hstep (keepsOpen_ask rfl) h fun prFiles s l h => ?_
  refine hstep (keepsOpen_ask rfl) h fun prDetails s l h => ?_
  refine hstep (keepsOpen_indexFiles prFiles) h fun _ s l h => ?_
  refine hstep (keepsOpen_ask rfl) h fun result s l h => ?_
  refine hstep (keepsOpen_ask rfl) h fun _ s l h => ?_
  refine hstep (keepsOpen_completeCheckRun result token) h fun _ s l h => ?_
  exact ensures_finalize h (fun s hs => hs) fun s e hs _ => ⟨hs, fun hc => nomatch hc⟩

theorem disposes_review (installationId : ℤ) :
    Disposes cfg job.id job.fenceToken
      (exceptException (review cfg job installationId) (handleError py job)) := by
  intro s l h
  refine ensures_exceptException.2 ((h.review installationId).mono fun s l r hr => ?_)
  rcases r with (e | _) | _
  · exact disposes_handleError e s l hr.1
  · exact absurd rfl hr.2
  · exact hr

theorem disposes_processJob : Disposes cfg job.id job.fenceToken (processJob py cfg job) := by
  intro s l h
  unfold processJob
  split
  · exact disposes_finalize .failure _ s l h
  · rename_i installationId _
    refine Script.ensures_bind.2
      ((Script.ensures_request (q := Request.newGitHubService)).2 ⟨trivial, fun c hc => ?_⟩)
    have hopen : Open cfg job.id job.fenceToken (s.others cfg c.others) := h.others hc.1
    obtain ⟨_, hnew⟩ := ok_of_isOk hc.2.1
    have hanswer : (shared cfg s .newGitHubService c).1 = .ok () := hnew
    rw [hanswer]
    have hbody : Disposes cfg job.id job.fenceToken
        (exceptException (review cfg job installationId) (handleError py job)) :=
      disposes_review installationId
    refine Script.ensures_finallyDo.2 ((hbody _ l hopen).mono fun s l r hs => ?_)
    refine (Script.ensures_request (q := Request.close)).2 ⟨trivial, fun c hc => ?_⟩
    have hclosed : Disposed cfg job.id job.fenceToken (shared cfg s .close c).2 := hs.others hc.1
    split
    · exact hclosed
    · exact hclosed

theorem open_claimed {s₀ : Queue} (hr : Reachable (Queue.Step cfg) .empty s₀) {worker : String}
    {scan : Scan} {now : Timestamp} (hclaim : (claimJob worker scan now s₀.db).1 = some job) :
    Open cfg job.id job.fenceToken (.start (s₀.exec cfg (.claimJob worker scan now))) := by
  obtain ⟨c, hc, hrow⟩ := claimJob_fst_eq_some hclaim
  have hclaims : (s₀.exec cfg (.claimJob worker scan now)).claims = job :: s₀.claims := by
    simp only [Queue.exec, hclaim]
    rfl
  have hissued : job.fenceToken ∈ (s₀.exec cfg (.claimJob worker scan now)).tokens job.id := by
    simp [Queue.tokens, hclaims]
  have hunsettled : (s₀.exec cfg (.claimJob worker scan now)).Unsettled job.id job.fenceToken := by
    intro j hj _
    have hid : job.id = c.id := by rw [hrow]; rfl
    have hjob : (s₀.exec cfg (.claimJob worker scan now)).db.job job.id = _ :=
      job_claimJob hc job.id
    rw [if_pos hid, hj] at hjob
    rw [Option.some.inj hjob]
    rfl
  have hs : Queue.Step cfg s₀ (.claimJob worker scan now)
      (s₀.exec cfg (.claimJob worker scan now)) :=
    Queue.step_exec (e := .claimJob worker scan now) trivial
  exact ⟨hr.next hs, hissued, hunsettled, rfl⟩

end Scripts

/-- However GitHub, the agents and the other parts of the system answer, and whatever the others
do to the queue meanwhile, a run of `process_job` that ends has disposed of its claim. -/
theorem claim_disposed (py : Python) (cfg : Settings) {s₀ : Queue}
    (hr : Reachable (Queue.Step cfg) .empty s₀) {worker : String} {scan : Scan} {now : Timestamp}
    {row : Job} (hclaim : (claimJob worker scan now s₀.db).1 = some row) {turns : List Turn}
    {s : Shared} {r : Except Raised Unit × Locals}
    (hrun : Run (Guarded (Session (shared cfg)) (Fits (Undisturbed cfg row.id row.fenceToken)))
      (.start (s₀.exec cfg (.claimJob worker scan now)), processJob py cfg row {}) turns
      (s, .done r)) : Disposed cfg row.id row.fenceToken s := by
  have hopen : Open cfg row.id row.fenceToken (.start (s₀.exec cfg (.claimJob worker scan now))) :=
    open_claimed hr hclaim
  have hdisposes : Disposes cfg row.id row.fenceToken (processJob py cfg row) :=
    disposes_processJob
  exact (hdisposes _ {} hopen).complete hrun

namespace Sample

def turn (es : List Transaction) (now : Timestamp) : Turn := ⟨es, limitedReply, now⟩

def enqueued : Queue := Queue.empty.exec {} enqueue

/-- The others claim and reconcile. -/
def Mild : Transaction → Prop
  | .claimJob _ _ _ => True
  | .reconcileStaleJobs _ _ => True
  | _ => False

theorem undisturbed {es : List Transaction} (hes : ∀ e ∈ es, Mild e) (now : Timestamp)
    (s : Shared) (q : Request) : Undisturbed {} jobId 0 s q (turn es now) := by
  have hothers : ∀ es : List Transaction, (∀ e ∈ es, Mild e) → ∀ q : Queue,
      Run (Guarded (Queue.Step {}) fun _ e _ => e.ofAnother jobId 0) q es
        (es.foldl (Queue.exec {}) q) := by
    intro es
    induction es with
    | nil => exact fun _ q => .nil q
    | cons e es ih =>
      intro hes q
      have he : Mild e := hes e List.mem_cons_self
      refine .cons ⟨Queue.step_exec ?_, ?_⟩ (ih (fun e he => hes e (List.mem_cons_of_mem _ he)) _)
      · cases e with
        | claimJob => trivial
        | reconcileStaleJobs => trivial
        | _ => cases he
      · rintro verdict aiFeedback now rfl
        cases he
  refine ⟨hothers es hes s.queue, rfl, rfl, fun q => ?_⟩
  cases q <;> simp [turn, limitedReply, reply]

/-- A complete session in which the others claim and reconcile. -/
theorem exists_disturbed (turns : List Turn) (good : Shared → Bool)
    (hmild : ∀ c ∈ turns, (∃ es now, c = turn es now ∧ ∀ e ∈ es, Mild e))
    (h : (replay (advance (shared {})) (.start (enqueued.exec {} (claim "w1" second)),
      processJob python {} row {}) turns).any
        (fun y => (EffectSessions.result y.2).any fun _ => good y.1) = true) :
    ∃ s r, Run (Guarded (Session (shared {})) (Fits (Undisturbed {} row.id row.fenceToken)))
      (.start (enqueued.exec {} (claim "w1" second)), processJob python {} row {}) turns
      (s, .done r) ∧ good s = true := by
  obtain ⟨s, r, hsession, hgood⟩ := exists_result (shared {}) (fun s _ => good s) h
  refine ⟨s, r, guard_session hsession fun c hc s q => ?_, hgood⟩
  obtain ⟨es, now, rfl, hes⟩ := hmild c hc
  exact undisturbed hes now s q

end Sample

/-- Limited by GitHub, the worker gives its claim back. -/
theorem claim_disposed_released : ∃ s, Disposed {} Sample.jobId 0 s ∧
    (s.queue.db.job Sample.jobId).map Job.status = some .pending := by
  obtain ⟨s, r, hrun, hpending⟩ := Sample.exists_disturbed
    (List.replicate 7 (Sample.turn [] second))
    (fun s => (s.queue.db.job Sample.jobId).map Job.status = some .pending)
    (fun c hc => ⟨[], second, List.eq_of_mem_replicate hc,
      fun _ he => absurd he List.not_mem_nil⟩) (by decide)
  have hreachable : Reachable (Queue.Step {}) .empty Sample.enqueued :=
    (Reachable.refl _).next (Queue.step_exec (e := Sample.enqueue) trivial)
  have hclaim : (claimJob "w1" .idle second Sample.enqueued.db).1 = some Sample.row := rfl
  exact ⟨s, claim_disposed Sample.python {} hreachable hclaim hrun, of_decide_eq_true hpending⟩

/-- When a run returns, the job it released may be worked on by another worker already; and the
release of a superseded run takes the heartbeat of the new claim, which a reconciliation then
ends. -/
theorem claim_disposal_disturbed :
    (∃ turns s r call,
      Run (Guarded (Session (shared {})) (Fits (Undisturbed {} Sample.row.id Sample.row.fenceToken)))
        (.start (Sample.enqueued.exec {} (Sample.claim "w1" second)),
          processJob Sample.python {} Sample.row {}) turns (s, .done r) ∧
      s.last = some call ∧ call.before.Holds Sample.jobId 0 ∧
      (s.queue.db.job Sample.jobId).map Job.status = some .processing) ∧
    ∃ turns s r call,
      Run (Guarded (Session (shared {})) (Fits (Undisturbed {} Sample.row.id Sample.row.fenceToken)))
        (.start (Sample.enqueued.exec {} (Sample.claim "w1" second)),
          processJob Sample.python {} Sample.row {}) turns (s, .done r) ∧
      s.last = some call ∧ ¬ call.before.Holds Sample.jobId 0 ∧
      (s.alone.db.job Sample.jobId).map Job.fenceToken = some 1 ∧
      (s.queue.db.job Sample.jobId).map Job.fenceToken = some 2 := by
  constructor
  · let turns := List.replicate 6 (Sample.turn [] second) ++
      [Sample.turn [Sample.claim "w2" (100 * second)] (100 * second)]
    have hmild : ∀ c ∈ turns, ∃ es now, c = Sample.turn es now ∧ ∀ e ∈ es, Sample.Mild e := by
      intro c hc
      rcases List.mem_append.1 hc with hc | hc
      · exact ⟨[], second, List.eq_of_mem_replicate hc, fun _ he => absurd he List.not_mem_nil⟩
      · refine ⟨_, _, List.mem_singleton.1 hc, fun e he => ?_⟩
        rw [List.mem_singleton.1 he]
        trivial
    obtain ⟨s, r, hrun, hgood⟩ := Sample.exists_disturbed turns
      (fun s => s.last.any (fun call => (call.before.db.job Sample.jobId).any (Job.holds 0)) &&
        (s.queue.db.job Sample.jobId).map Job.status = some .processing) hmild (by decide)
    simp only [Bool.and_eq_true, decide_eq_true_eq] at hgood
    obtain ⟨call, hlast, hheld⟩ := (Option.any_eq_true _ _).1 hgood.1
    exact ⟨turns, s, r, call, hrun, hlast, (Option.any_eq_true _ _).1 hheld, hgood.2⟩
  · let turns := List.replicate 4 (Sample.turn [] second) ++
      [Sample.turn [.reconcileStaleJobs [] (100 * second), Sample.claim "w2" (300 * second)]
        (300 * second), Sample.turn [] (300 * second),
        Sample.turn [.reconcileStaleJobs [] (301 * second)] (301 * second)]
    have hmild : ∀ c ∈ turns, ∃ es now, c = Sample.turn es now ∧ ∀ e ∈ es, Sample.Mild e := by
      intro c hc
      rcases List.mem_append.1 hc with hc | hc
      · exact ⟨[], second, List.eq_of_mem_replicate hc, fun _ he => absurd he List.not_mem_nil⟩
      · simp only [List.mem_cons, List.not_mem_nil, or_false] at hc
        rcases hc with rfl | rfl | rfl
        all_goals exact ⟨_, _, rfl, by simp [Sample.Mild, Sample.claim]⟩
    obtain ⟨s, r, hrun, hgood⟩ := Sample.exists_disturbed turns
      (fun s => s.last.any (fun call => !(call.before.db.job Sample.jobId).any (Job.holds 0)) &&
        ((s.alone.db.job Sample.jobId).map Job.fenceToken = some 1 &&
          (s.queue.db.job Sample.jobId).map Job.fenceToken = some 2)) hmild (by decide)
    simp only [Bool.and_eq_true, decide_eq_true_eq] at hgood
    obtain ⟨call, hlast, hlost⟩ := (Option.any_eq_true _ _).1 hgood.1
    refine ⟨turns, s, r, call, hrun, hlast, ?_, hgood.2⟩
    rintro ⟨j, hj, hheld⟩
    simp [hj, hheld] at hlost

end Revix
