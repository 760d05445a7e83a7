import Revix.WorkerFleet

/-! `run_forever` with its semaphore and the dictionary of its active jobs, the tasks it starts,
and its shutdown, from one await to the next. -/
namespace Revix

/-- `_active_jobs`: the fence token of each job, in the order of insertion. -/
abbrev ActiveJobs := List (Uuid × ℕ)

namespace ActiveJobs

/-- `self._active_jobs[job_id] = ..`: a key that is there keeps its place. -/
def set (id : Uuid) (token : ℕ) (jobs : ActiveJobs) : ActiveJobs :=
  if jobs.any fun a => a.1 = id then
    jobs.map fun a => if a.1 = id then (id, token) else a
  else jobs ++ [(id, token)]

/-- `self._active_jobs.pop(job_id, None)` -/
def pop (id : Uuid) (jobs : ActiveJobs) : ActiveJobs := jobs.filter fun a => a.1 ≠ id

variable {id i : Uuid} {token t : ℕ} {jobs : ActiveJobs}

theorem mem_set_self : (id, token) ∈ set id token jobs := by
  unfold set
  split_ifs with hany
  · obtain ⟨a, ha, hid⟩ := List.any_eq_true.1 hany
    exact List.mem_map.2 ⟨a, ha, if_pos (of_decide_eq_true hid)⟩
  · simp

theorem mem_set_of_ne (hne : i ≠ id) (h : (i, t) ∈ jobs) : (i, t) ∈ set id token jobs := by
  unfold set
  split_ifs
  · exact List.mem_map.2 ⟨(i, t), h, if_neg hne⟩
  · exact List.mem_append_left _ h

theorem mem_pop : (i, t) ∈ pop id jobs ↔ (i, t) ∈ jobs ∧ i ≠ id := by
  simp [pop]

end ActiveJobs

/-- What `run_forever` and then `shutdown` wait for. -/
inductive LoopPoint
  | acquiring
  | claiming
  | sleeping
  /-- `asyncio.wait(processing_tasks, ..)` -/
  | waiting
  /-- The loop over a copy of `_active_jobs`. -/
  | releasing (items : ActiveJobs)
  | gathering
  | returned
  deriving DecidableEq

structure ReviewWorker where
  workerId : String
  running : Bool
  /-- The value of `_semaphore`. -/
  permits : ℕ
  activeJobs : ActiveJobs
  /-- Its unfinished tasks of `_safe_process_job`, by their place in the fleet. -/
  tasks : List ℕ
  /-- The shutdown has cancelled its tasks. -/
  cancelled : Bool
  point : LoopPoint

inductive WorkerEvent
  /-- A step of a task, of another worker, or of anything else. -/
  | other (e : FleetEvent)
  | acquired
  | claimed (scan : Scan) (now : Timestamp)
  /-- `claim_job` raises; it may have been committed all the same. -/
  | claimFailed (committed : Bool) (scan : Scan) (now : Timestamp)
  | woken
  | stop
  /-- A task gets to the `finally` of `_safe_process_job`. One that is cancelled before its first
  step has none, but then the dictionary is not read any more. -/
  | finished (n : ℕ)
  | waited
  /-- `release_job` in the loop of `shutdown`, whose exceptions are logged. -/
  | released (committed : Bool) (now : Timestamp)
  | gathered

namespace ReviewWorker

def start (workerId : String) (concurrency : ℕ) : ReviewWorker :=
  ⟨workerId, true, concurrency, [], [], false, .acquiring⟩

/-- The loop over the copied entries, and what comes after it. -/
def release (w : ReviewWorker) : ActiveJobs → ReviewWorker
  | [] => { w with cancelled := true, point := .gathering }
  | item :: items => { w with point := .releasing (item :: items) }

/-- `shutdown` up to what it first waits for. -/
def shutdown (w : ReviewWorker) : ReviewWorker :=
  if w.activeJobs.isEmpty then w.release []
  else if w.tasks.isEmpty then w.release w.activeJobs
  else { w with point := .waiting }

/-- `while self.running` -/
def loop (w : ReviewWorker) : ReviewWorker :=
  if w.running then { w with point := .acquiring } else w.shutdown

/-- A row that was claimed is recorded and gets a task. -/
def begin (row : Job) (n : ℕ) (w : ReviewWorker) : ReviewWorker :=
  loop { w with
    activeJobs := ActiveJobs.set row.id row.fenceToken w.activeJobs
    tasks := n :: w.tasks }

/-- The claims of this worker and the cancellation of its tasks are steps of its own. -/
def admits (w : ReviewWorker) : FleetEvent → Bool
  | .claimed worker _ _ _ => worker ≠ w.workerId
  | .killed n => w.cancelled || !w.tasks.contains n
  | _ => true

/-- What the worker will hand back, as things stand. -/
def recorded (w : ReviewWorker) : ActiveJobs :=
  match w.point with
  | .releasing items => items
  | .gathering => []
  | .returned => []
  | _ => w.activeJobs

/-- The dictionary is still to be read. -/
def recording (w : ReviewWorker) : Bool :=
  match w.point with
  | .releasing _ => false
  | .gathering => false
  | .returned => false
  | _ => true

section Facts

variable {w : ReviewWorker} {row : Job} {n : ℕ} {items : ActiveJobs}

theorem release_facts : (w.release items).recorded = items ∧
    (w.release items).workerId = w.workerId := by
  cases items <;> exact ⟨rfl, rfl⟩

theorem shutdown_facts : w.shutdown.recorded = w.activeJobs ∧
    w.shutdown.workerId = w.workerId := by
  unfold shutdown
  split_ifs with hempty htasks
  · rw [List.isEmpty_iff.1 hempty]
    exact release_facts
  · exact release_facts
  · exact ⟨rfl, rfl⟩

theorem loop_facts : w.loop.recorded = w.activeJobs ∧ w.loop.workerId = w.workerId := by
  unfold loop
  split_ifs
  · exact ⟨rfl, rfl⟩
  · exact shutdown_facts

theorem begin_facts : (w.begin row n).recorded = w.activeJobs.set row.id row.fenceToken ∧
    (w.begin row n).workerId = w.workerId := loop_facts

theorem recorded_of_recording (h : w.recording = true) : w.recorded = w.activeJobs := by
  unfold recording at h
  unfold recorded
  split at h
  · cases h
  · cases h
  · cases h
  · rfl

/-- After the copy the dictionary is not read. -/
theorem recorded_of_not_recording (h : w.recording = false) (jobs : ActiveJobs) (permits : ℕ)
    (tasks : List ℕ) :
    recorded { w with activeJobs := jobs, permits := permits, tasks := tasks } = w.recorded := by
  unfold recording at h
  unfold recorded
  split at h
  · rename_i hpoint
    simp only [hpoint]
  · rename_i hpoint
    simp only [hpoint]
  · rename_i hpoint
    simp only [hpoint]
  · cases h

end Facts

end ReviewWorker

/-- A worker in the fleet that its tasks are part of. -/
structure WorkerHost where
  fleet : Fleet
  worker : ReviewWorker

namespace WorkerHost

def start (workerId : String) (concurrency : ℕ) : WorkerHost :=
  ⟨.empty, .start workerId concurrency⟩

section Steps

variable (py : Python) (cfg : Settings)

/-- A step of the fleet, and what the worker does with it. -/
def within (s : WorkerHost) (e : FleetEvent) (w : ReviewWorker) : Option WorkerHost :=
  (s.fleet.next py cfg e).map fun f => ⟨f, w⟩

def next (s : WorkerHost) : WorkerEvent → Option WorkerHost
  | .other e => if s.worker.admits e then s.within py cfg e s.worker else none
  | .acquired =>
    match s.worker.point, s.worker.permits with
    | .acquiring, permits + 1 =>
      if s.worker.running then
        some { s with worker := { s.worker with permits := permits, point := .claiming } }
      else some { s with worker := s.worker.shutdown }
    | _, _ => none
  | .claimed scan now =>
    match s.worker.point with
    | .claiming =>
      s.within py cfg (.claimed s.worker.workerId scan now true)
        (match (claimJob s.worker.workerId scan now s.fleet.queue.db).1 with
        | some row => s.worker.begin row s.fleet.tasks.length
        | none => { s.worker with permits := s.worker.permits + 1, point := .sleeping })
    | _ => none
  | .claimFailed committed scan now =>
    match s.worker.point with
    | .claiming =>
      let w := { s.worker with
        permits := if s.worker.running then s.worker.permits + 1 else s.worker.permits
        point := .sleeping }
      if committed then s.within py cfg (.claimed s.worker.workerId scan now false) w
      else some { s with worker := w }
    | _ => none
  | .woken =>
    match s.worker.point with
    | .sleeping => some { s with worker := s.worker.loop }
    | _ => none
  | .stop => some { s with worker := { s.worker with running := false } }
  | .finished n =>
    match s.fleet.tasks[n]? with
    | some ⟨id, _, .done _⟩ =>
      if s.worker.tasks.contains n then
        some { s with worker := { s.worker with
          activeJobs := s.worker.activeJobs.pop id
          permits := s.worker.permits + 1
          tasks := s.worker.tasks.erase n } }
      else none
    | _ => none
  | .waited =>
    match s.worker.point with
    | .waiting =>
      some { s with worker :=
        ReviewWorker.release { s.worker with cancelled := true } s.worker.activeJobs }
    | _ => none
  | .released committed now =>
    match s.worker.point with
    | .releasing ((id, token) :: items) =>
      if committed then
        s.within py cfg (.environment (.releaseJob id token 0 now)) (s.worker.release items)
      else some { s with worker := s.worker.release items }
    | _ => none
  | .gathered =>
    match s.worker.point with
    | .gathering =>
      if s.worker.tasks.isEmpty then
        some { s with worker := { s.worker with point := .returned } }
      else none
    | _ => none

def Step (s : WorkerHost) (e : WorkerEvent) (t : WorkerHost) : Prop := s.next py cfg e = some t

end Steps

variable {py : Python} {cfg : Settings} {s t : WorkerHost}

theorem step_within {e : FleetEvent} {w : ReviewWorker} (h : s.within py cfg e w = some t) :
    Fleet.Step py cfg s.fleet e t.fleet ∧ t.worker = w := by
  obtain ⟨f, hf, rfl⟩ := Option.map_eq_some_iff.1 h
  exact ⟨hf, rfl⟩

/-- The steps of the worker, each with the guards that it has passed. -/
inductive Passes (py : Python) (cfg : Settings) (s t : WorkerHost) : WorkerEvent → Prop
  | other {e : FleetEvent} (hadmits : s.worker.admits e = true)
      (hwithin : s.within py cfg e s.worker = some t) : Passes py cfg s t (.other e)
  | acquired {permits : ℕ} (hpoint : s.worker.point = .acquiring)
      (hpermits : s.worker.permits = permits + 1)
      (ht : t = { s with worker := { s.worker with permits := permits, point := .claiming } }) :
      Passes py cfg s t .acquired
  /-- The worker has been stopped while it waited for the permit. -/
  | dismissed (hpoint : s.worker.point = .acquiring)
      (ht : t = { s with worker := s.worker.shutdown }) : Passes py cfg s t .acquired
  | claimed {scan : Scan} {now : Timestamp} {row : Job} (hpoint : s.worker.point = .claiming)
      (hrow : (claimJob s.worker.workerId scan now s.fleet.queue.db).1 = some row)
      (hwithin : s.within py cfg (.claimed s.worker.workerId scan now true)
        (s.worker.begin row s.fleet.tasks.length) = some t) :
      Passes py cfg s t (.claimed scan now)
  | unclaimed {scan : Scan} {now : Timestamp} (hpoint : s.worker.point = .claiming)
      (hnone : (claimJob s.worker.workerId scan now s.fleet.queue.db).1 = none)
      (hwithin : s.within py cfg (.claimed s.worker.workerId scan now true)
        { s.worker with permits := s.worker.permits + 1, point := .sleeping } = some t) :
      Passes py cfg s t (.claimed scan now)
  | undelivered {scan : Scan} {now : Timestamp} (hpoint : s.worker.point = .claiming)
      (hwithin : s.within py cfg (.claimed s.worker.workerId scan now false)
        { s.worker with
          permits := if s.worker.running then s.worker.permits + 1 else s.worker.permits
          point := .sleeping } = some t) : Passes py cfg s t (.claimFailed true scan now)
  | failed {scan : Scan} {now : Timestamp} (hpoint : s.worker.point = .claiming)
      (ht : t = { s with worker := { s.worker with
        permits := if s.worker.running then s.worker.permits + 1 else s.worker.permits
        point := .sleeping } }) : Passes py cfg s t (.claimFailed false scan now)
  | woken (hpoint : s.worker.point = .sleeping) (ht : t = { s with worker := s.worker.loop }) :
      Passes py cfg s t .woken
  | stop (ht : t = { s with worker := { s.worker with running := false } }) :
      Passes py cfg s t .stop
  | finished {n : ℕ} {task : Task} (htask : s.fleet.tasks[n]? = some task)
      (hn : n ∈ s.worker.tasks)
      (ht : t = { s with worker := { s.worker with
        activeJobs := s.worker.activeJobs.pop task.id
        permits := s.worker.permits + 1
        tasks := s.worker.tasks.erase n } }) : Passes py cfg s t (.finished n)
  | waited (hpoint : s.worker.point = .waiting)
      (ht : t = { s with worker :=
        ReviewWorker.release { s.worker with cancelled := true } s.worker.activeJobs }) :
      Passes py cfg s t .waited
  | released {id : Uuid} {token : ℕ} {items : ActiveJobs} {now : Timestamp}
      (hpoint : s.worker.point = .releasing ((id, token) :: items))
      (hwithin : s.within py cfg (.environment (.releaseJob id token 0 now))
        (s.worker.release items) = some t) : Passes py cfg s t (.released true now)
  | releaseFailed {item : Uuid × ℕ} {items : ActiveJobs} {now : Timestamp}
      (hpoint : s.worker.point = .releasing (item :: items))
      (ht : t = { s with worker := s.worker.release items }) :
      Passes py cfg s t (.released false now)
  | gathered (hpoint : s.worker.point = .gathering)
      (ht : t = { s with worker := { s.worker with point := .returned } }) :
      Passes py cfg s t .gathered

theorem step_passes {e : WorkerEvent} (hs : Step py cfg s e t) : Passes py cfg s t e := by
  cases e with
  | other e =>
    simp only [Step, next] at hs
    split_ifs at hs with hadmits
    exact .other hadmits hs
  | acquired =>
    simp only [Step, next] at hs
    split at hs
    · rename_i permits hpoint hpermits
      split_ifs at hs <;> cases hs
      · exact .acquired hpoint hpermits rfl
      · exact .dismissed hpoint rfl
    · cases hs
  | claimed scan now =>
    simp only [Step, next] at hs
    split at hs
    · rename_i hpoint
      split at hs
      · rename_i row hrow
        exact .claimed hpoint hrow hs
      · rename_i hnone
        exact .unclaimed hpoint hnone hs
    · cases hs
  | claimFailed committed scan now =>
    simp only [Step, next] at hs
    split at hs
    · rename_i hpoint
      cases committed with
      | true => exact .undelivered hpoint hs
      | false =>
        cases hs
        exact .failed hpoint rfl
    · cases hs
  | woken =>
    simp only [Step, next] at hs
    split at hs
    · rename_i hpoint
      cases hs
      exact .woken hpoint rfl
    · cases hs
  | stop =>
    cases hs
    exact .stop rfl
  | finished n =>
    simp only [Step, next] at hs
    split at hs
    · rename_i id token result htask
      split_ifs at hs with hn
      cases hs
      exact .finished htask (by simpa using hn) rfl
    · cases hs
  | waited =>
    simp only [Step, next] at hs
    split at hs
    · rename_i hpoint
      cases hs
      exact .waited hpoint rfl
    · cases hs
  | released committed now =>
    simp only [Step, next] at hs
    split at hs
    · rename_i id token items hpoint
      cases committed with
      | true => exact .released hpoint hs
      | false =>
        cases hs
        exact .releaseFailed hpoint rfl
    · cases hs
  | gathered =>
    simp only [Step, next] at hs
    split at hs
    · rename_i hpoint
      split_ifs at hs
      cases hs
      exact .gathered hpoint rfl
    · cases hs

inductive Outcome (py : Python) (cfg : Settings) (s t : WorkerHost) : WorkerEvent → Prop
  /-- The worker moves, and its fleet does not. -/
  | alone {e : WorkerEvent} (hfleet : t.fleet = s.fleet)
      (hid : t.worker.workerId = s.worker.workerId)
      (hrecorded : t.worker.recorded = s.worker.recorded) : Outcome py cfg s t e
  | other {e : FleetEvent} (hadmits : s.worker.admits e = true)
      (hf : Fleet.Step py cfg s.fleet e t.fleet) (hw : t.worker = s.worker) :
      Outcome py cfg s t (.other e)
  | claimed {scan : Scan} {now : Timestamp} {row : Job} (hpoint : s.worker.point = .claiming)
      (hf : Fleet.Step py cfg s.fleet (.claimed s.worker.workerId scan now true) t.fleet)
      (hrow : (claimJob s.worker.workerId scan now s.fleet.queue.db).1 = some row)
      (hw : t.worker = s.worker.begin row s.fleet.tasks.length) :
      Outcome py cfg s t (.claimed scan now)
  | unclaimed {scan : Scan} {now : Timestamp}
      (hf : Fleet.Step py cfg s.fleet (.claimed s.worker.workerId scan now true) t.fleet)
      (hnone : claimCandidate scan now s.fleet.queue.db = none)
      (hid : t.worker.workerId = s.worker.workerId)
      (hrecorded : t.worker.recorded = s.worker.recorded) : Outcome py cfg s t (.claimed scan now)
  | undelivered {scan : Scan} {now : Timestamp}
      (hf : Fleet.Step py cfg s.fleet (.claimed s.worker.workerId scan now false) t.fleet)
      (hid : t.worker.workerId = s.worker.workerId)
      (hrecorded : t.worker.recorded = s.worker.recorded) :
      Outcome py cfg s t (.claimFailed true scan now)
  | finished {n : ℕ} {task : Task} (htask : s.fleet.tasks[n]? = some task)
      (ht : t = ⟨s.fleet, { s.worker with
        activeJobs := s.worker.activeJobs.pop task.id
        permits := s.worker.permits + 1
        tasks := s.worker.tasks.erase n }⟩) : Outcome py cfg s t (.finished n)
  | released {id : Uuid} {token : ℕ} {items : ActiveJobs} {now : Timestamp}
      (hpoint : s.worker.point = .releasing ((id, token) :: items))
      (hf : Fleet.Step py cfg s.fleet (.environment (.releaseJob id token 0 now)) t.fleet)
      (hw : t.worker = s.worker.release items) : Outcome py cfg s t (.released true now)
  | releaseFailed {items : ActiveJobs} {now : Timestamp} (hfleet : t.fleet = s.fleet)
      (hw : t.worker = s.worker.release items) : Outcome py cfg s t (.released false now)

theorem step_outcome {e : WorkerEvent} (hs : Step py cfg s e t) : Outcome py cfg s t e := by
  have hat : ∀ {point}, s.worker.point = point →
      s.worker.recorded = ReviewWorker.recorded { s.worker with point := point } := by
    rintro point rfl
    rfl
  cases step_passes hs with
  | other hadmits hwithin =>
    obtain ⟨hf, hw⟩ := step_within hwithin
    exact .other hadmits hf hw
  | acquired hpoint hpermits ht =>
    subst ht
    exact .alone rfl rfl (hat hpoint).symm
  | dismissed hpoint ht =>
    subst ht
    exact .alone rfl ReviewWorker.shutdown_facts.2
      (ReviewWorker.shutdown_facts.1.trans (hat hpoint).symm)
  | claimed hpoint hrow hwithin =>
    obtain ⟨hf, hw⟩ := step_within hwithin
    exact .claimed hpoint hf hrow hw
  | unclaimed hpoint hnone hwithin =>
    obtain ⟨hf, hw⟩ := step_within hwithin
    exact .unclaimed hf (claimJob_fst_eq_none hnone) (by rw [hw]) (by rw [hw, hat hpoint]; rfl)
  | undelivered hpoint hwithin =>
    obtain ⟨hf, hw⟩ := step_within hwithin
    exact .undelivered hf (by rw [hw]) (by rw [hw, hat hpoint]; rfl)
  | failed hpoint ht =>
    subst ht
    exact .alone rfl rfl (hat hpoint).symm
  | woken hpoint ht =>
    subst ht
    exact .alone rfl ReviewWorker.loop_facts.2
      (ReviewWorker.loop_facts.1.trans (hat hpoint).symm)
  | stop ht =>
    subst ht
    exact .alone rfl rfl rfl
  | finished htask hn ht => exact .finished htask ht
  | waited hpoint ht =>
    subst ht
    exact .alone rfl ReviewWorker.release_facts.2
      (ReviewWorker.release_facts.1.trans (hat hpoint).symm)
  | released hpoint hwithin =>
    obtain ⟨hf, hw⟩ := step_within hwithin
    exact .released hpoint hf hw
  | releaseFailed hpoint ht =>
    subst ht
    exact .releaseFailed rfl rfl
  | gathered hpoint ht =>
    subst ht
    exact .alone rfl rfl (hat hpoint).symm

end WorkerHost

end Revix
