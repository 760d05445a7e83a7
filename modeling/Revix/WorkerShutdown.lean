import Revix.QueueOwners
import Revix.WorkerClaims
import Revix.WorkerLoop

namespace Revix
open LabelledRuns

namespace WorkerHost

/-- No call of the database fails from `stop` on. -/
def databaseUp (s : WorkerHost) : WorkerEvent → Bool
  | .claimFailed _ _ _ => s.worker.running
  | .released committed _ => committed
  | _ => true

/-- No claim is committed without its row being returned, and no task that ends takes the entry of
a claim that holds the job out of the dictionary before the shutdown has read it. -/
def keepsRecord (s : WorkerHost) : WorkerEvent → Bool
  | .claimFailed committed scan now =>
    !committed || (claimCandidate scan now s.fleet.queue.db).isNone
  | .finished n => !s.worker.recording || (s.fleet.tasks[n]?).all fun task =>
      s.worker.activeJobs.all fun a =>
        a.1 ≠ task.id || !(s.fleet.queue.db.job a.1).any (Job.holds a.2)
  | _ => true

def Accounted (s : WorkerHost) : Prop :=
  ∀ id j, s.fleet.queue.db.job id = some j → j.heldBy s.worker.workerId = true →
    (id, j.fenceToken) ∈ s.worker.recorded

end WorkerHost

namespace Fleet

variable {py : Python} {cfg : Settings} {f g : Fleet} {id : Uuid} {j : Job} {worker : String}

/-- A worker holds a job that it has just claimed, or that it held before with the same token. -/
theorem held_before {e : FleetEvent} (h : f.Coupled cfg) (hs : Step py cfg f e g)
    (hne : ∀ scan now delivered, e ≠ .claimed worker scan now delivered)
    (hj : g.queue.db.job id = some j) (hheld : j.heldBy worker = true) :
    ∃ j₀, f.queue.db.job id = some j₀ ∧ j₀.heldBy worker = true ∧
      j₀.fenceToken = j.fenceToken := by
  obtain ⟨hw, hp⟩ := Job.heldBy_iff.1 hheld
  rcases queue_step h.bound hs with hsame | ⟨e', hq, hclaim⟩
  · exact ⟨j, hsame ▸ hj, hheld, rfl⟩
  · have hjob : (g.queue.life id).job = some j := hj
    rcases Life.processing_step (Queue.life_step hq id) hjob hp with
      ⟨worker', now, j₀, hlocal, -, -, rfl⟩ | ⟨checkRunId, j₀, -, hj₀, rfl⟩ | ⟨hj₀, -⟩
    · obtain ⟨scan, c, he', -⟩ := Queue.localize_claimed hlocal
      obtain ⟨delivered, he⟩ := hclaim worker' scan now he'
      have hsame : worker' = worker := Option.some.inj hw
      exact absurd (hsame ▸ he) (hne scan now delivered)
    · exact ⟨j₀, hj₀, Job.heldBy_iff.2 ⟨hw, hp⟩, rfl⟩
    · exact ⟨j, hj₀, hheld, rfl⟩

theorem job_claimed {scan : Scan} {now : Timestamp} {delivered : Bool}
    (hs : Step py cfg f (.claimed worker scan now delivered) g)
    (hj : g.queue.db.job id = some j) :
    (∃ c, claimCandidate scan now f.queue.db = some c ∧ id = c.id ∧ j = c.claimed worker now) ∨
      f.queue.db.job id = some j := by
  obtain ⟨hq, -⟩ := step_claimed hs
  have hdb : g.queue.db = (claimJob worker scan now f.queue.db).2 := by
    rw [← (Queue.step_iff.1 hq).2]
    rfl
  rw [hdb] at hj
  cases hc : claimCandidate scan now f.queue.db with
  | none =>
    rw [claimJob_none hc] at hj
    exact .inr hj
  | some c =>
    rw [job_claimJob hc] at hj
    split_ifs at hj with hid
    · exact .inl ⟨c, rfl, hid, (Option.some.inj hj).symm⟩
    · exact .inr hj

end Fleet

namespace WorkerHost

variable {py : Python} {cfg : Settings} {s t : WorkerHost} {e : WorkerEvent} {f : Fleet}
  {w : ReviewWorker}

/-- What the worker does by itself keeps what is recorded. -/
theorem Accounted.worker (h : s.Accounted) (hid : w.workerId = s.worker.workerId)
    (hrecorded : w.recorded = s.worker.recorded) : Accounted ⟨s.fleet, w⟩ := by
  intro id j hj hheld
  rw [hid] at hheld
  rw [hrecorded]
  exact h id j hj hheld

/-- So does a step of the fleet that is no claim of this worker. -/
theorem Accounted.other {e : FleetEvent} (h : s.Accounted) (hc : s.fleet.Coupled cfg)
    (hs : Fleet.Step py cfg s.fleet e f)
    (hne : ∀ scan now delivered, e ≠ .claimed s.worker.workerId scan now delivered) :
    Accounted ⟨f, s.worker⟩ := by
  intro id j hj hheld
  obtain ⟨j₀, hj₀, hheld₀, hfence⟩ := Fleet.held_before hc hs hne hj hheld
  rw [← hfence]
  exact h id j₀ hj₀ hheld₀

/-- A job that is claimed is recorded, in the place of what was recorded for it. -/
theorem Accounted.claimed {scan : Scan} {now : Timestamp} (h : s.Accounted)
    (hpoint : s.worker.point = .claiming)
    (hs : Fleet.Step py cfg s.fleet (.claimed s.worker.workerId scan now true) f)
    {row : Job} (hrow : (claimJob s.worker.workerId scan now s.fleet.queue.db).1 = some row) :
    Accounted ⟨f, s.worker.begin row s.fleet.tasks.length⟩ := by
  have hrecorded : s.worker.recorded = s.worker.activeJobs := by
    simp only [ReviewWorker.recorded, hpoint]
  intro id j hj hheld
  rw [ReviewWorker.begin_facts.2] at hheld
  rw [ReviewWorker.begin_facts.1]
  rcases Fleet.job_claimed hs hj with ⟨c, hc, rfl, rfl⟩ | hj₀
  · rw [claimJob_fst hc] at hrow
    rw [← Option.some.inj hrow]
    exact ActiveJobs.mem_set_self
  · by_cases hid : id = row.id
    · -- the claimed row was pending, and now it is not the row before
      obtain ⟨c, hc, hclaimed⟩ := claimJob_fst_eq_some hrow
      obtain ⟨hcj, hclaimable, -⟩ := claimCandidate_spec hc
      have hcid : id = c.id := by
        rw [hid, hclaimed]
        rfl
      obtain rfl := Option.some.inj (hj₀.symm.trans (hcid ▸ hcj))
      have hpending := (Job.claimable_iff.1 hclaimable).1
      have hprocessing := (Job.heldBy_iff.1 hheld).2
      rw [hpending] at hprocessing
      cases hprocessing
    · exact ActiveJobs.mem_set_of_ne hid (hrecorded ▸ h id j hj₀ hheld)

theorem Accounted.unclaimed {scan : Scan} {now : Timestamp} {delivered : Bool}
    (h : s.Accounted)
    (hs : Fleet.Step py cfg s.fleet (.claimed s.worker.workerId scan now delivered) f)
    (hnone : claimCandidate scan now s.fleet.queue.db = none) : Accounted ⟨f, s.worker⟩ := by
  intro id j hj hheld
  rcases Fleet.job_claimed hs hj with ⟨c, hc, -⟩ | hj₀
  · cases hnone.symm.trans hc
  · exact h id j hj₀ hheld

theorem Accounted.finished {n : ℕ} {task : Task} (h : s.Accounted)
    (htask : s.fleet.tasks[n]? = some task) (hkeeps : s.keepsRecord (.finished n) = true) :
    Accounted ⟨s.fleet, { s.worker with
      activeJobs := s.worker.activeJobs.pop task.id
      permits := s.worker.permits + 1
      tasks := s.worker.tasks.erase n }⟩ := by
  intro id j hj hheld
  have hmem := h id j hj hheld
  simp only [keepsRecord, htask, Option.all_some, Bool.or_eq_true, Bool.not_eq_true'] at hkeeps
  by_cases hrecording : s.worker.recording = true
  · have hall := hkeeps.resolve_left (by rw [hrecording]; decide)
    rw [ReviewWorker.recorded_of_recording hrecording] at hmem
    rw [ReviewWorker.recorded_of_recording (by exact hrecording)]
    refine ActiveJobs.mem_pop.2 ⟨hmem, fun hid => ?_⟩
    have hentry := List.all_eq_true.1 hall _ hmem
    have hholds : j.holds j.fenceToken = true :=
      Job.holds_iff.2 ⟨rfl, (Job.heldBy_iff.1 hheld).2⟩
    simp [hid, hid ▸ hj, hholds] at hentry
  · rw [ReviewWorker.recorded_of_not_recording (Bool.eq_false_iff.2 hrecording)]
    exact hmem

theorem Accounted.released {id : Uuid} {token : ℕ} {items : ActiveJobs} {now : Timestamp}
    (h : s.Accounted) (hc : s.fleet.Coupled cfg)
    (hpoint : s.worker.point = .releasing ((id, token) :: items))
    (hs : Fleet.Step py cfg s.fleet (.environment (.releaseJob id token 0 now)) f) :
    Accounted ⟨f, s.worker.release items⟩ := by
  intro i j hj hheld
  rw [ReviewWorker.release_facts.2] at hheld
  rw [ReviewWorker.release_facts.1]
  obtain ⟨j₀, hj₀, hheld₀, hfence⟩ := Fleet.held_before hc hs (by simp) hj hheld
  have hmem := h i j₀ hj₀ hheld₀
  have hrecorded : s.worker.recorded = (id, token) :: items := by
    simp only [ReviewWorker.recorded, hpoint]
  rw [hrecorded, hfence] at hmem
  apply (List.mem_cons.1 hmem).resolve_left
  intro heq
  -- the entry is the claim that held the job: the release made the job pending
  obtain ⟨rfl, htoken⟩ := Prod.mk.inj heq
  obtain ⟨-, hq, -⟩ := Fleet.step_environment hs
  have hdb : f.queue.db = releaseJob i token 0 now s.fleet.queue.db := by
    rw [← (Queue.step_iff.1 hq).2]
    rfl
  have hholds : j₀.holds token = true :=
    Job.holds_iff.2 ⟨hfence.trans htoken, (Job.heldBy_iff.1 hheld₀).2⟩
  rw [hdb, job_releaseJob, if_pos rfl, hj₀, Option.map_some, if_pos hholds] at hj
  have hprocessing := (Job.heldBy_iff.1 hheld).2
  rw [← Option.some.inj hj] at hprocessing
  cases hprocessing

/-- Every step of the worker is at most one step of its fleet, and it keeps its name. -/
theorem fleet_step (hs : Step py cfg s e t) : t.worker.workerId = s.worker.workerId ∧
    (t.fleet = s.fleet ∨ ∃ e', Fleet.Step py cfg s.fleet e' t.fleet) := by
  cases step_outcome hs with
  | alone hfleet hid _ => exact ⟨hid, .inl hfleet⟩
  | other _ hf hw => exact ⟨by rw [hw], .inr ⟨_, hf⟩⟩
  | claimed _ hf _ hw => exact ⟨by rw [hw, ReviewWorker.begin_facts.2], .inr ⟨_, hf⟩⟩
  | unclaimed hf _ hid _ => exact ⟨hid, .inr ⟨_, hf⟩⟩
  | undelivered hf hid _ => exact ⟨hid, .inr ⟨_, hf⟩⟩
  | finished _ ht =>
    subst ht
    exact ⟨rfl, .inl rfl⟩
  | released _ hf hw => exact ⟨by rw [hw, ReviewWorker.release_facts.2], .inr ⟨_, hf⟩⟩
  | releaseFailed hfleet hw => exact ⟨by rw [hw, ReviewWorker.release_facts.2], .inl hfleet⟩

theorem coupled_step (h : s.fleet.Coupled cfg) (hs : Step py cfg s e t) :
    t.fleet.Coupled cfg := by
  rcases (fleet_step hs).2 with hsame | ⟨e', hf⟩
  · exact hsame ▸ h
  · exact Fleet.coupled_step h hf

/-- Whatever the worker holds stays recorded. -/
theorem accounted_step (h : s.Accounted) (hc : s.fleet.Coupled cfg) (hs : Step py cfg s e t)
    (hup : s.databaseUp e = true) (hkeeps : s.keepsRecord e = true) : t.Accounted := by
  cases step_outcome hs with
  | alone hfleet hid hrecorded =>
    have halone := h.worker hid hrecorded
    rw [← hfleet] at halone
    exact halone
  | other hadmits hf hw =>
    rename_i e
    have hne : ∀ scan now delivered, e ≠ .claimed s.worker.workerId scan now delivered := by
      rintro scan now delivered rfl
      simp [ReviewWorker.admits] at hadmits
    have hother := h.other hc hf hne
    rw [← hw] at hother
    exact hother
  | claimed hpoint hf hrow hw =>
    have hclaimed := h.claimed hpoint hf hrow
    rw [← hw] at hclaimed
    exact hclaimed
  | unclaimed hf hnone hid hrecorded => exact (h.unclaimed hf hnone).worker hid hrecorded
  | undelivered hf hid hrecorded =>
    rename_i scan now
    have hnone : claimCandidate scan now s.fleet.queue.db = none := by
      simpa [keepsRecord] using hkeeps
    exact (h.unclaimed hf hnone).worker hid hrecorded
  | finished htask ht =>
    rw [ht]
    exact h.finished htask hkeeps
  | released hpoint hf hw =>
    have hreleased := h.released hc hpoint hf
    rw [← hw] at hreleased
    exact hreleased
  | releaseFailed => cases hup

theorem exists_run (py : Python) (cfg : Settings) (guard : WorkerHost → WorkerEvent → Bool)
    (s : WorkerHost) (es : List WorkerEvent) (p : WorkerHost → Bool)
    (h : (replay (fun s e => if guard s e then next py cfg s e else none) s es).any p = true) :
    ∃ t, Run (Guarded (Step py cfg) fun s e _ => guard s e = true) s es t ∧ p t = true :=
  exists_guarded_run_of_replay (next py cfg) guard h

end WorkerHost

/-- A run in which the shutdown reads all that the worker holds from its dictionary, and the
database does not fail from `stop` on: when the shutdown returns, the worker holds no job. -/
theorem shutdown_hands_back (py : Python) (cfg : Settings) (workerId : String) (concurrency : ℕ)
    {es : List WorkerEvent} {s : WorkerHost}
    (h : Run (Guarded (WorkerHost.Step py cfg) fun s e _ =>
      (s.databaseUp e && s.keepsRecord e) = true) (.start workerId concurrency) es s)
    (hreturned : s.worker.point = .returned) :
    ∀ id j, s.fleet.queue.db.job id = some j → j.status = .processing →
      j.workerId ≠ some workerId := by
  let I : WorkerHost → Prop := fun s =>
    s.fleet.Coupled cfg ∧ s.Accounted ∧ s.worker.workerId = workerId
  have hstart : I (.start workerId concurrency) :=
    ⟨Fleet.coupled_empty, fun _ _ hj => (nomatch hj), rfl⟩
  have hstep : ∀ s e t, I s → Guarded (WorkerHost.Step py cfg) (fun s e _ =>
      (s.databaseUp e && s.keepsRecord e) = true) s e t → I t := by
    rintro s e t ⟨hc, ha, hid⟩ ⟨hs, hguard⟩
    obtain ⟨hup, hkeeps⟩ := Bool.and_eq_true_iff.1 hguard
    exact ⟨WorkerHost.coupled_step hc hs, WorkerHost.accounted_step ha hc hs hup hkeeps,
      (WorkerHost.fleet_step hs).1.trans hid⟩
  obtain ⟨-, haccounted, hid⟩ := h.invariant hstep hstart
  intro id j hj hp hw
  have hmem := haccounted id j hj (Job.heldBy_iff.2 ⟨hw.trans (congrArg some hid.symm), hp⟩)
  have hnone : s.worker.recorded = [] := by
    simp only [ReviewWorker.recorded, hreturned]
  rw [hnone] at hmem
  cases hmem

/-- A worker that is stopped while it reviews a job releases the job. -/
theorem shutdown_hands_back_released : ∃ s : WorkerHost, s.worker.point = .returned ∧
    (s.fleet.queue.db.job Sample.jobId).map Job.status = some .pending ∧
    ∀ id j, s.fleet.queue.db.job id = some j → j.status = .processing →
      j.workerId ≠ some "w1" := by
  obtain ⟨s, hr, hp⟩ := WorkerHost.exists_run Sample.python {}
    (fun s e => s.databaseUp e && s.keepsRecord e) (.start "w1" 4)
    [.other (.environment Sample.enqueue), .acquired, .claimed .idle 0, .stop, .acquired,
      .waited, .released true second, .other (.killed 0), .finished 0, .gathered]
    (fun s => s.worker.point = .returned ∧
      (s.fleet.queue.db.job Sample.jobId).map Job.status = some .pending) (by decide)
  obtain ⟨hreturned, hpending⟩ := of_decide_eq_true hp
  exact ⟨s, hreturned, hpending, shutdown_hands_back Sample.python {} "w1" 4 hr hreturned⟩

namespace Sample

/-- A worker that gets no token for GitHub and whose job has been reclaimed. -/
def reclaimedReply : Reply
  | .getToken _ => .error (.exception ⟨"401 Client Error: Unauthorized", some ⟨some 401, none⟩⟩)
  | .finalizeJob id token _ _ => .error (.exception ⟨staleMessage id token, none⟩)
  | q => reply q

/-- A worker loses its job, claims it again, and ends its first task for it before it is stopped. -/
def reclaimedShutdown : List WorkerEvent :=
  [.other (.environment enqueue), .acquired, .claimed .idle 0,
    .other (.environment (.reconcileStaleJobs [] (100 * second))), .acquired,
    .claimed .idle (300 * second)] ++
  List.replicate 4 (.other (.answered 0 reclaimedReply false (301 * second))) ++
  [.finished 0, .stop, .acquired, .other (.killed 1), .finished 1, .gathered]

end Sample

/-- The end of the first task deletes the entry of the second claim. The shutdown returns while
the job is still `processing` under that claim. -/
theorem shutdown_keeps_job : ∃ s j,
    Run (Guarded (WorkerHost.Step Sample.python {}) fun s e _ => s.databaseUp e = true)
      (.start "w1" 4) Sample.reclaimedShutdown s ∧
    s.worker.point = .returned ∧ s.fleet.queue.db.job Sample.jobId = some j ∧
    j.status = .processing ∧ j.workerId = some "w1" ∧
    s.fleet.queue.ClaimedBy Sample.jobId j.fenceToken "w1" := by
  obtain ⟨s, hr, hp⟩ := WorkerHost.exists_run Sample.python {} (fun s e => s.databaseUp e)
    (.start "w1" 4) Sample.reclaimedShutdown
    (fun s => s.worker.point = .returned ∧
      (s.fleet.queue.db.job Sample.jobId).map (fun j => (j.status, j.workerId, j.fenceToken)) =
        some (.processing, some "w1", 1) ∧
      (s.fleet.queue.claims.map fun row => (row.id, row.fenceToken, row.workerId)) =
        [(Sample.jobId, 1, some "w1"), (Sample.jobId, 0, some "w1")]) (by decide)
  obtain ⟨hreturned, hjob, hclaims⟩ := of_decide_eq_true hp
  obtain ⟨j, hj, hfields⟩ := Option.map_eq_some_iff.1 hjob
  simp only [Prod.mk.injEq] at hfields
  obtain ⟨hst, hworker, hfence⟩ := hfields
  refine ⟨s, j, hr, hreturned, hj, hst, hworker, ?_⟩
  have hmem : (Sample.jobId, 1, some "w1") ∈
      s.fleet.queue.claims.map fun row => (row.id, row.fenceToken, row.workerId) := by
    rw [hclaims]
    exact .head _
  obtain ⟨row, hrow, hrowfields⟩ := List.mem_map.1 hmem
  simp only [Prod.mk.injEq] at hrowfields
  obtain ⟨hrowid, hrowfence, hrowworker⟩ := hrowfields
  exact ⟨row, hrow, hrowid, hrowfence.trans hfence.symm, hrowworker⟩

end Revix
