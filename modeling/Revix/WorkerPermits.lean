import Revix.WorkerShutdown

/-! The loop acquires a permit of the semaphore for each claim, and gives it up itself or to a
task that releases it in its `finally`. -/
namespace Revix
open LabelledRuns

def ReviewWorker.held (w : ReviewWorker) : ℕ := if w.point = .claiming then 1 else 0

inductive LoopEvent
  | step (e : WorkerEvent)
  /-- An exception after `claim_job` has returned a row and before its task is created, with the
  row recorded in `_active_jobs` already or not yet. -/
  | interrupted (recorded : Bool) (scan : Scan) (now : Timestamp)

namespace WorkerHost

section Steps

variable (py : Python) (cfg : Settings)

def loopNext (s : WorkerHost) : LoopEvent → Option WorkerHost
  | .step e => s.next py cfg e
  | .interrupted recorded scan now =>
    match s.worker.point, (claimJob s.worker.workerId scan now s.fleet.queue.db).1 with
    | .claiming, some row =>
      -- no task starts with the row
      s.within py cfg (.claimed s.worker.workerId scan now false)
        { s.worker with
          activeJobs := if recorded then s.worker.activeJobs.set row.id row.fenceToken
            else s.worker.activeJobs
          permits := if s.worker.running then s.worker.permits + 1 else s.worker.permits
          point := .sleeping }
    | _, _ => none

def LoopStep (s : WorkerHost) (e : LoopEvent) (t : WorkerHost) : Prop :=
  s.loopNext py cfg e = some t

end Steps

/-- Every permit is accounted for. One may be missing once the worker has been stopped, and none is
ever there twice. -/
structure Conserved (concurrency : ℕ) (s : WorkerHost) : Prop where
  whole : s.worker.running = true →
    s.worker.permits + s.worker.tasks.length + s.worker.held = concurrency
  bounded : s.worker.permits + s.worker.tasks.length + s.worker.held ≤ concurrency
  distinct : s.worker.tasks.Nodup
  started : ∀ n ∈ s.worker.tasks, n < s.fleet.tasks.length

end WorkerHost

/-- Where the permits of a worker go in one step. -/
inductive Moves (s t : WorkerHost) : Prop
  | keeps (hrunning : t.worker.running = true → s.worker.running = true)
      (hpermits : t.worker.permits = s.worker.permits)
      (htasks : t.worker.tasks = s.worker.tasks) (hheld : t.worker.held = s.worker.held)
  | acquires (hrunning : t.worker.running = s.worker.running)
      (hpermits : s.worker.permits = t.worker.permits + 1)
      (htasks : t.worker.tasks = s.worker.tasks) (hbefore : s.worker.held = 0)
      (hafter : t.worker.held = 1)
  | handsOver (hrunning : t.worker.running = s.worker.running)
      (hpermits : t.worker.permits = s.worker.permits)
      (htasks : t.worker.tasks = s.fleet.tasks.length :: s.worker.tasks)
      (hfleet : s.fleet.tasks.length < t.fleet.tasks.length) (hbefore : s.worker.held = 1)
      (hafter : t.worker.held = 0)
  | releases (hrunning : t.worker.running = s.worker.running)
      (hpermits : t.worker.permits = s.worker.permits + 1)
      (htasks : t.worker.tasks = s.worker.tasks) (hbefore : s.worker.held = 1)
      (hafter : t.worker.held = 0)
  /-- The handler of the loop releases nothing once the worker has been stopped. -/
  | loses (hstopped : t.worker.running = false) (hpermits : t.worker.permits = s.worker.permits)
      (htasks : t.worker.tasks = s.worker.tasks) (hbefore : s.worker.held = 1)
      (hafter : t.worker.held = 0)
  | ends {n : ℕ} (hrunning : t.worker.running = s.worker.running) (hn : n ∈ s.worker.tasks)
      (hpermits : t.worker.permits = s.worker.permits + 1)
      (htasks : t.worker.tasks = s.worker.tasks.erase n) (hheld : t.worker.held = s.worker.held)

namespace ReviewWorker

variable {w : ReviewWorker} {items : ActiveJobs}

theorem held_of_claiming (h : w.point = .claiming) : w.held = 1 := if_pos h

theorem held_of_ne (h : w.point ≠ .claiming) : w.held = 0 := if_neg h

/-- `w'` has the permits and the tasks of `w`, and its loop holds none. -/
structure Idles (w w' : ReviewWorker) : Prop where
  running : w'.running = w.running
  permits : w'.permits = w.permits
  tasks : w'.tasks = w.tasks
  held : w'.held = 0

theorem idles_release : w.Idles (w.release items) := by
  cases items <;> exact ⟨rfl, rfl, rfl, rfl⟩

theorem idles_shutdown : w.Idles w.shutdown := by
  unfold shutdown
  split_ifs
  · exact idles_release
  · exact idles_release
  · exact ⟨rfl, rfl, rfl, rfl⟩

theorem idles_loop : w.Idles w.loop := by
  unfold loop
  split_ifs
  · exact ⟨rfl, rfl, rfl, rfl⟩
  · exact idles_shutdown

end ReviewWorker

namespace WorkerHost

variable {py : Python} {cfg : Settings} {s t : WorkerHost} {concurrency : ℕ}

theorem moves_idle (hw : s.worker.Idles t.worker) (hpoint : s.worker.point ≠ .claiming) :
    Moves s t :=
  .keeps (fun h => hw.running ▸ h) hw.permits hw.tasks
    (hw.held.trans (ReviewWorker.held_of_ne hpoint).symm)

/-- What the handler of the loop does. -/
theorem moves_failed (hpoint : s.worker.point = .claiming) (hafter : t.worker.point = .sleeping)
    (hrunning : t.worker.running = s.worker.running) (htasks : t.worker.tasks = s.worker.tasks)
    (hpermits : t.worker.permits =
      if s.worker.running then s.worker.permits + 1 else s.worker.permits) : Moves s t := by
  have hheld := ReviewWorker.held_of_claiming hpoint
  have hnone : t.worker.held = 0 := ReviewWorker.held_of_ne (by simp [hafter])
  by_cases hrun : s.worker.running = true
  · rw [if_pos hrun] at hpermits
    exact .releases hrunning hpermits htasks hheld hnone
  · rw [if_neg hrun] at hpermits
    exact .loses (by simpa [hrunning] using hrun) hpermits htasks hheld hnone

/-- A row that is returned is handed to a new task, with the permit. -/
theorem moves_claimed {scan : Scan} {now : Timestamp} {row : Job}
    (hpoint : s.worker.point = .claiming)
    (hrow : (claimJob s.worker.workerId scan now s.fleet.queue.db).1 = some row)
    (hwithin : s.within py cfg (.claimed s.worker.workerId scan now true)
      (s.worker.begin row s.fleet.tasks.length) = some t) : Moves s t := by
  obtain ⟨f, hf, rfl⟩ := Option.map_eq_some_iff.1 hwithin
  have hidle := ReviewWorker.idles_loop (w := { s.worker with
    activeJobs := s.worker.activeJobs.set row.id row.fenceToken
    tasks := s.fleet.tasks.length :: s.worker.tasks })
  refine .handsOver hidle.running hidle.permits hidle.tasks ?_
    (ReviewWorker.held_of_claiming hpoint) hidle.held
  simp only [Fleet.next, hrow, Option.filter_some, ↓reduceIte, Option.map_some,
    Option.toList_some, Option.some.injEq] at hf
  subst hf
  simp

theorem moves_step {e : WorkerEvent} (hs : Step py cfg s e t) : Moves s t := by
  cases step_passes hs with
  | other hadmits hwithin =>
    obtain ⟨-, hw⟩ := step_within hwithin
    exact .keeps (by simp [hw]) (by rw [hw]) (by rw [hw]) (by rw [hw])
  | acquired hpoint hpermits ht =>
    subst ht
    exact .acquires rfl hpermits rfl (ReviewWorker.held_of_ne (by simp [hpoint])) rfl
  | dismissed hpoint ht =>
    subst ht
    exact moves_idle ReviewWorker.idles_shutdown (by simp [hpoint])
  | claimed hpoint hrow hwithin => exact moves_claimed hpoint hrow hwithin
  | unclaimed hpoint hnone hwithin =>
    obtain ⟨-, hw⟩ := step_within hwithin
    exact .releases (by rw [hw]) (by rw [hw]) (by rw [hw]) (ReviewWorker.held_of_claiming hpoint)
      (by rw [hw]; rfl)
  | undelivered hpoint hwithin =>
    obtain ⟨-, hw⟩ := step_within hwithin
    exact moves_failed hpoint (by rw [hw]) (by rw [hw]) (by rw [hw]) (by rw [hw])
  | failed hpoint ht =>
    subst ht
    exact moves_failed hpoint rfl rfl rfl rfl
  | woken hpoint ht =>
    subst ht
    exact moves_idle ReviewWorker.idles_loop (by simp [hpoint])
  | stop ht =>
    subst ht
    exact .keeps (fun h => Bool.noConfusion h) rfl rfl rfl
  | finished htask hn ht =>
    subst ht
    exact .ends rfl hn rfl rfl rfl
  | waited hpoint ht =>
    subst ht
    have hidle : ReviewWorker.Idles { s.worker with cancelled := true }
        ({ s.worker with cancelled := true }.release s.worker.activeJobs) :=
      ReviewWorker.idles_release
    exact moves_idle ⟨hidle.running, hidle.permits, hidle.tasks, hidle.held⟩ (by simp [hpoint])
  | released hpoint hwithin =>
    obtain ⟨-, hw⟩ := step_within hwithin
    exact moves_idle (hw ▸ ReviewWorker.idles_release) (by simp [hpoint])
  | releaseFailed hpoint ht =>
    subst ht
    exact moves_idle ReviewWorker.idles_release (by simp [hpoint])
  | gathered hpoint ht =>
    subst ht
    exact moves_idle ⟨rfl, rfl, rfl, rfl⟩ (by simp [hpoint])

theorem moves_loopStep {e : LoopEvent} (hs : LoopStep py cfg s e t) : Moves s t := by
  cases e with
  | step e => exact moves_step hs
  | interrupted recorded scan now =>
    simp only [LoopStep, loopNext] at hs
    split at hs
    · rename_i hpoint _
      obtain ⟨-, hw⟩ := step_within hs
      exact moves_failed hpoint (by rw [hw]) (by rw [hw]) (by rw [hw]) (by rw [hw])
    · cases hs

theorem length_tasks_le_step {e : LoopEvent} (hs : LoopStep py cfg s e t) :
    s.fleet.tasks.length ≤ t.fleet.tasks.length := by
  cases e with
  | step e =>
    rcases (fleet_step hs).2 with hsame | ⟨e', hf⟩
    · rw [hsame]
    · exact Fleet.length_tasks_le hf
  | interrupted recorded scan now =>
    simp only [LoopStep, loopNext] at hs
    split at hs
    · exact Fleet.length_tasks_le (step_within hs).1
    · cases hs

theorem conserved_start (workerId : String) (concurrency : ℕ) :
    (start workerId concurrency).Conserved concurrency where
  whole _ := rfl
  bounded := le_rfl
  distinct := List.nodup_nil
  started _ hn := absurd hn List.not_mem_nil

/-- No task starts or ends. -/
theorem Conserved.sameTasks (h : s.Conserved concurrency)
    (hfleet : s.fleet.tasks.length ≤ t.fleet.tasks.length)
    (htasks : t.worker.tasks = s.worker.tasks)
    (hle : t.worker.permits + t.worker.held ≤ s.worker.permits + s.worker.held)
    (heq : t.worker.running = true → s.worker.running = true ∧
      t.worker.permits + t.worker.held = s.worker.permits + s.worker.held) :
    t.Conserved concurrency := by
  obtain ⟨hwhole, hbounded, hdistinct, hstarted⟩ := h
  constructor <;> rw [htasks]
  · intro hrun
    obtain ⟨hrun, hsum⟩ := heq hrun
    have hs := hwhole hrun
    omega
  · omega
  · exact hdistinct
  · exact fun n hn => (hstarted n hn).trans_le hfleet

theorem conserved_step {e : LoopEvent} (h : s.Conserved concurrency)
    (hs : LoopStep py cfg s e t) : t.Conserved concurrency := by
  have hfleet := length_tasks_le_step hs
  cases moves_loopStep hs with
  | keeps hrunning hpermits htasks hheld =>
    exact h.sameTasks hfleet htasks (by omega) fun hrun => ⟨hrunning hrun, by omega⟩
  | acquires hrunning hpermits htasks hbefore hafter =>
    exact h.sameTasks hfleet htasks (by omega) fun hrun => ⟨hrunning ▸ hrun, by omega⟩
  | releases hrunning hpermits htasks hbefore hafter =>
    exact h.sameTasks hfleet htasks (by omega) fun hrun => ⟨hrunning ▸ hrun, by omega⟩
  | loses hstopped hpermits htasks hbefore hafter =>
    exact h.sameTasks hfleet htasks (by omega) fun hrun => absurd hrun (by simp [hstopped])
  | handsOver hrunning hpermits htasks hgrown hbefore hafter =>
    obtain ⟨hwhole, hbounded, hdistinct, hstarted⟩ := h
    have hfresh : s.fleet.tasks.length ∉ s.worker.tasks := fun hmem => (hstarted _ hmem).false
    constructor <;> rw [htasks]
    · intro hrun
      have hs := hwhole (hrunning ▸ hrun)
      rw [List.length_cons]
      omega
    · rw [List.length_cons]
      omega
    · exact List.nodup_cons.2 ⟨hfresh, hdistinct⟩
    · exact List.forall_mem_cons.2 ⟨hgrown, fun n hn => (hstarted n hn).trans hgrown⟩
  | ends hrunning hn hpermits htasks hheld =>
    obtain ⟨hwhole, hbounded, hdistinct, hstarted⟩ := h
    have hlength := List.length_erase_of_mem hn
    have hpos := List.length_pos_of_mem hn
    constructor <;> rw [htasks]
    · intro hrun
      have hs := hwhole (hrunning ▸ hrun)
      omega
    · omega
    · exact hdistinct.erase _
    · exact fun n hn => (hstarted n (List.mem_of_mem_erase hn)).trans_le hfleet

end WorkerHost

/-- In every run of the main loop, whatever becomes of its claims and tasks: while the worker is
running, each permit is free, held by the loop or held by one unfinished task; and there are never
more unfinished tasks than permits. -/
theorem permits_conserved (py : Python) (cfg : Settings) (workerId : String) (concurrency : ℕ)
    {es : List LoopEvent} {s : WorkerHost}
    (h : Run (WorkerHost.LoopStep py cfg) (.start workerId concurrency) es s) :
    (s.worker.running = true →
      s.worker.permits + s.worker.tasks.length + s.worker.held = concurrency) ∧
      s.worker.tasks.Nodup ∧ s.worker.tasks.length ≤ concurrency := by
  have hc := h.invariant (I := WorkerHost.Conserved concurrency)
    (fun _ _ _ => WorkerHost.conserved_step) (WorkerHost.conserved_start workerId concurrency)
  refine ⟨hc.whole, hc.distinct, ?_⟩
  have hbounded := hc.bounded
  omega

theorem WorkerHost.exists_loopRun (py : Python) (cfg : Settings) (s : WorkerHost)
    (es : List LoopEvent) (p : WorkerHost → Bool)
    (h : (replay (loopNext py cfg) s es).any p = true) :
    ∃ t, Run (LoopStep py cfg) s es t ∧ p t = true := exists_run_of_replay (loopNext py cfg) h

/-- One task, the loop and two free permits, after a claim that was interrupted. -/
theorem permits_conserved_oneTask : ∃ s,
    Run (WorkerHost.LoopStep Sample.python {}) (.start "w1" 4)
      [.step (.other (.environment Sample.enqueue)), .step .acquired,
        .interrupted true .idle 0, .step .woken,
        .step (.other (.environment (.reconcileStaleJobs [] (300 * second)))), .step .acquired,
        .step (.claimed .idle (600 * second)), .step .acquired] s ∧
      s.worker.running = true ∧ s.worker.permits = 2 ∧ s.worker.tasks = [0] ∧
      (s.worker.running = true →
        s.worker.permits + s.worker.tasks.length + s.worker.held = 4) := by
  obtain ⟨s, hr, hp⟩ := WorkerHost.exists_loopRun Sample.python {} (.start "w1" 4)
    [.step (.other (.environment Sample.enqueue)), .step .acquired,
      .interrupted true .idle 0, .step .woken,
      .step (.other (.environment (.reconcileStaleJobs [] (300 * second)))), .step .acquired,
      .step (.claimed .idle (600 * second)), .step .acquired]
    (fun s => s.worker.running = true ∧ s.worker.permits = 2 ∧ s.worker.tasks = [0])
    (by decide)
  obtain ⟨hrunning, hpermits, htasks⟩ := of_decide_eq_true hp
  exact ⟨s, hr, hrunning, hpermits, htasks, (permits_conserved Sample.python {} "w1" 4 hr).1⟩

end Revix
