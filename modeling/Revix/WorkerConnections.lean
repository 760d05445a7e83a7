import Revix.AppSettings
import Revix.WorkerFleet

/-! How many connections of the pool a worker holds. Its main coroutine and its reconciliation use
one each; a task uses one for a call of its own and one for its heartbeat. -/
namespace Revix
open EffectPrograms LabelledRuns

def Request.usesDatabase : Request → Bool
  | .getToken _ | .setCheckRunId _ _ | .persistRepoGraph _ _ _ | .finalizeJob _ _ _ _
  | .releaseJob _ _ _ => true
  | _ => false

structure JobTask where
  /-- What `process_job` has still to do. -/
  program : Prog Request (fun q => Except Raised q.Answer) (Except Raised Unit × Locals)
  /-- The call it waits for has a connection. -/
  connected : Bool
  /-- Whether its heartbeat has a connection, until the heartbeat is done. -/
  heartbeat : Option Bool

inductive TaskEvent
  | connected
  | answered (reply : (q : Request) → Except Raised q.Answer)
  /-- The heartbeat takes a connection, gives it back or is done. -/
  | beat (heartbeat : Option Bool)

namespace JobTask

/-- The heartbeat has been cancelled and is awaited. -/
def closing (t : JobTask) : Bool :=
  match t.program with
  | .ask .close _ => true
  | _ => false

/-- The task can go on with this answer: the client is closed when the heartbeat is done. That
`GitHubService()` raises is an event of its own. -/
def admits (t : JobTask) : (q : Request) → Except Raised q.Answer → Bool
  | .close, _ => t.heartbeat.isNone
  | .newGitHubService, .error _ => false
  | _, _ => true

def next (t : JobTask) : TaskEvent → Option JobTask
  | .connected =>
    match t.program with
    | .ask q _ => if q.usesDatabase then some { t with connected := true } else none
    | .done _ => none
  | .answered reply =>
    match t.program with
    | .ask q resume =>
      if t.admits q (reply q) then some { t with program := resume (reply q), connected := false }
      else none
    | .done _ => none
  | .beat heartbeat =>
    if t.heartbeat.isSome && !(t.closing && heartbeat = some true) then
      some { t with heartbeat := heartbeat }
    else none

end JobTask

structure ConnectedWorker where
  permits : ℕ
  /-- The main loop holds a permit. -/
  claiming : Bool := false
  /-- The main coroutine has a connection. -/
  main : Bool := false
  reconciler : Bool := false
  tasks : List JobTask := []
  /-- The heartbeats that no task awaits any more. -/
  strays : List Bool := []

inductive ConnectionEvent
  | main (connected : Bool)
  | reconciler (connected : Bool)
  | acquired
  /-- A row has been claimed. -/
  | started (job : Job)
  /-- No row has, or the claim has failed. -/
  | released
  /-- The claim has failed and the worker has been stopped. -/
  | lost
  | task (i : ℕ) (e : TaskEvent)
  /-- `GitHubService()` raises, outside the `try` statement. -/
  | constructorFailed (i : ℕ) (e : Raised)
  | finished (i : ℕ)
  | stray (i : ℕ) (heartbeat : Option Bool)

/-- A heartbeat nobody awaits is made. -/
def ConnectionEvent.isFailure : ConnectionEvent → Bool
  | .constructorFailed _ _ => true
  | _ => false

namespace ConnectedWorker

section Steps

variable (py : Python) (cfg : Settings)

/-- The heartbeat is created when the row has been parsed. -/
def startTask (job : Job) : JobTask where
  program := processJob py cfg job {}
  connected := false
  heartbeat := if (parseJob py job).isOk then some false else none

def next (s : ConnectedWorker) : ConnectionEvent → Option ConnectedWorker
  | .main connected => some { s with main := connected }
  | .reconciler connected => some { s with reconciler := connected }
  | .acquired =>
    if 0 < s.permits && !s.claiming then
      some { s with permits := s.permits - 1, claiming := true }
    else none
  | .started job =>
    if s.claiming then
      some { s with claiming := false, tasks := s.tasks ++ [startTask py cfg job] }
    else none
  | .released =>
    if s.claiming then some { s with claiming := false, permits := s.permits + 1 } else none
  | .lost => if s.claiming then some { s with claiming := false } else none
  | .task i e => do
    let t ← s.tasks[i]?
    let t' ← t.next e
    return { s with tasks := s.tasks.set i t' }
  | .constructorFailed i e => do
    let t ← s.tasks[i]?
    match t.program with
    | .ask .newGitHubService resume =>
      some { s with
        tasks := s.tasks.set i
          { program := resume (.error e), connected := false, heartbeat := none }
        strays := s.strays ++ t.heartbeat.toList }
    | _ => none
  | .finished i => do
    let t ← s.tasks[i]?
    match t.program with
    | .done _ => some { s with
        tasks := s.tasks.eraseIdx i
        permits := s.permits + 1
        strays := s.strays ++ t.heartbeat.toList }
    | .ask _ _ => none
  | .stray i heartbeat =>
    match heartbeat with
    | some connected => some { s with strays := s.strays.set i connected }
    | none => some { s with strays := s.strays.eraseIdx i }

def Step (s : ConnectedWorker) (e : ConnectionEvent) (t : ConnectedWorker) : Prop :=
  s.next py cfg e = some t

end Steps

def inUse (s : ConnectedWorker) : ℕ :=
  s.main.toNat + s.reconciler.toNat + s.tasks.countP JobTask.connected +
    s.tasks.countP (fun t => t.heartbeat = some true) + s.strays.countP id

end ConnectedWorker

/-- Whether the heartbeat of a task may not be done yet. -/
def heartbeatMonitor : Monitor Request (fun q => Except Raised q.Answer) Bool where
  allows _ _ := True
  next beating q r := match q, r with
    | .close, _ => false
    | .newGitHubService, .error _ => false
    | _, _ => beating

theorem obeys_heartbeatMonitor {α : Type} (p : Prog Request (fun q => Except Raised q.Answer) α)
    (beating : Bool) : p.Obeys heartbeatMonitor (fun _ _ => True) beating := by
  induction p generalizing beating with
  | done a => trivial
  | ask q resume ih => exact ⟨trivial, fun r => ih r _⟩

/-- The processing of a job does not end before its heartbeat. -/
theorem processJob_awaits (py : Python) (cfg : Settings) (job : Job) :
    (processJob py cfg job).Obeys heartbeatMonitor (fun beating _ _ => beating = false)
      (parseJob py job).isOk {} := by
  unfold processJob
  cases hparse : parseJob py job with
  | error text =>
    have hquiet : (suppress (ask (.finalizeJob job.id job.fenceToken .failure
        (some [("error", .str ("Invalid job payload: " ++ text))])))).Quiet heartbeatMonitor
          false := by
      refine Script.Quiet.tryCatch (Script.quiet_request trivial fun r => rfl) fun e => ?_
      cases e with
      | exception e => exact Script.quiet_pure ()
      | cancelled => exact Script.quiet_throw _
    exact hquiet {}
  | ok installationId =>
    have hclosed : ((exceptException (review cfg job installationId) (handleError py job)).finallyDo
        (ask .close)).Obeys heartbeatMonitor (fun beating _ _ => beating = false) true {} := by
      refine Script.obeys_finallyDo.2 ?_
      refine Prog.Obeys.mono (fun beating r _ => ?_) (obeys_heartbeatMonitor _ _)
      refine (Script.obeys_request (q := Request.close)).2 ⟨trivial, fun r' => ?_⟩
      cases r' <;> rfl
    refine Script.obeys_bind.2 (And.intro trivial fun r => ?_)
    cases r with
    | error e => rfl
    | ok _ => exact hclosed

namespace JobTask

variable {t t' : JobTask}

/-- While the heartbeat is not done, neither is the task. -/
def Sound (t : JobTask) : Prop :=
  ∃ beating, t.program.Obeys heartbeatMonitor (fun beating _ => beating = false) beating ∧
    (t.heartbeat.isSome → beating = true)

theorem next_beating {q : Request} {r : Except Raised q.Answer} (h : t.admits q r = true)
    (hsome : t.heartbeat.isSome) : heartbeatMonitor.next true q r = true := by
  cases q with
  | close => simp [admits, Option.isSome_iff_ne_none.1 hsome] at h
  | newGitHubService =>
    cases r with
    | error e => cases h
    | ok _ => rfl
  | _ => rfl

theorem sound_next {e : TaskEvent} (ht : t.Sound) (h : t.next e = some t') : t'.Sound := by
  obtain ⟨beating, hobeys, hbeating⟩ := ht
  cases e with
  | connected =>
    simp only [next] at h
    split at h
    · split_ifs at h
      cases h
      exact ⟨beating, hobeys, hbeating⟩
    · cases h
  | answered reply =>
    simp only [next] at h
    split at h
    · rename_i q resume hprogram
      split_ifs at h with hadmits
      cases h
      rw [hprogram] at hobeys
      refine ⟨_, hobeys.2 (reply q), fun hsome => ?_⟩
      rw [hbeating hsome]
      exact next_beating hadmits hsome
    · cases h
  | beat heartbeat =>
    simp only [next] at h
    split_ifs at h with hbeat
    cases h
    simp only [Bool.and_eq_true] at hbeat
    exact ⟨beating, hobeys, fun _ => hbeating hbeat.1⟩

/-- A task that is done has awaited its heartbeat. -/
theorem Sound.heartbeat_done (ht : t.Sound) {r : Except Raised Unit × Locals}
    (hdone : t.program = .done r) : t.heartbeat = none := by
  obtain ⟨beating, hobeys, hbeating⟩ := ht
  rw [hdone] at hobeys
  have hended : beating = false := hobeys
  cases hheartbeat : t.heartbeat with
  | none => rfl
  | some b =>
    have := hbeating (by rw [hheartbeat]; rfl)
    rw [hended] at this
    cases this

end JobTask

namespace ConnectedWorker

variable {py : Python} {cfg : Settings} {s t : ConnectedWorker} {concurrency failures : ℕ}

theorem sound_startTask (job : Job) : (startTask py cfg job).Sound :=
  ⟨_, processJob_awaits py cfg job, fun h => by
    simp only [startTask] at h
    split_ifs at h with hok
    · exact hok
    · cases h⟩

/-- Each task has a permit, and each heartbeat a task that awaits it. -/
structure Accounted (concurrency failures : ℕ) (s : ConnectedWorker) : Prop where
  permits : s.permits + s.tasks.length + s.claiming.toNat ≤ concurrency
  sound : ∀ t ∈ s.tasks, t.Sound
  strays : s.strays.length ≤ failures

theorem accounted_start (concurrency : ℕ) :
    Accounted concurrency 0 { permits := concurrency } where
  permits := Nat.le_refl _
  sound _ ht := absurd ht List.not_mem_nil
  strays := Nat.le_refl _

/-- One task goes on. -/
theorem Accounted.setTask (hs : s.Accounted concurrency failures) {i : ℕ} {t' : JobTask}
    (ht' : t'.Sound) {strays : List Bool} {n : ℕ} (hstrays : strays.length ≤ n) :
    Accounted concurrency n { s with tasks := s.tasks.set i t', strays := strays } where
  permits := by
    rw [List.length_set]
    exact hs.permits
  sound t ht := by
    rcases List.mem_or_eq_of_mem_set ht with ht | rfl
    · exact hs.sound t ht
    · exact ht'
  strays := hstrays

theorem accounted_step {e : ConnectionEvent} (hs : s.Accounted concurrency failures)
    (h : Step py cfg s e t) :
    t.Accounted concurrency (if e.isFailure then failures + 1 else failures) := by
  have hpermits := hs.permits
  cases e with
  | main connected =>
    cases h
    exact ⟨hpermits, hs.sound, hs.strays⟩
  | reconciler connected =>
    cases h
    exact ⟨hpermits, hs.sound, hs.strays⟩
  | acquired =>
    simp only [Step, next] at h
    split_ifs at h with hfree
    cases h
    simp only [Bool.and_eq_true, decide_eq_true_eq, Bool.not_eq_true'] at hfree
    rw [hfree.2, Bool.toNat_false] at hpermits
    exact ⟨by simp only [Bool.toNat_true]; omega, hs.sound, hs.strays⟩
  | started job =>
    simp only [Step, next] at h
    split_ifs at h with hclaiming
    cases h
    rw [hclaiming, Bool.toNat_true] at hpermits
    refine ⟨?_, fun t ht => ?_, hs.strays⟩
    · simp only [List.length_append, List.length_singleton, Bool.toNat_false]
      omega
    · rcases List.mem_append.1 ht with ht | ht
      · exact hs.sound t ht
      · rw [List.mem_singleton.1 ht]
        exact sound_startTask job
  | released =>
    simp only [Step, next] at h
    split_ifs at h with hclaiming
    cases h
    rw [hclaiming, Bool.toNat_true] at hpermits
    exact ⟨by simp only [Bool.toNat_false]; omega, hs.sound, hs.strays⟩
  | lost =>
    simp only [Step, next] at h
    split_ifs at h with hclaiming
    cases h
    exact ⟨by simp only [Bool.toNat_false]; omega, hs.sound, hs.strays⟩
  | task i e =>
    obtain ⟨t₀, ht₀, h⟩ := Option.bind_eq_some_iff.1 h
    obtain ⟨t', ht', h⟩ := Option.bind_eq_some_iff.1 h
    cases h
    exact hs.setTask (JobTask.sound_next (hs.sound t₀ (List.mem_of_getElem? ht₀)) ht') hs.strays
  | constructorFailed i e =>
    obtain ⟨t₀, ht₀, h⟩ := Option.bind_eq_some_iff.1 h
    split at h
    · rename_i resume hprogram
      cases h
      obtain ⟨beating, hobeys, -⟩ := hs.sound t₀ (List.mem_of_getElem? ht₀)
      rw [hprogram] at hobeys
      refine hs.setTask ⟨false, hobeys.2 (.error e), fun h => by cases h⟩ ?_
      have hone : t₀.heartbeat.toList.length ≤ 1 := by cases t₀.heartbeat <;> simp
      have hstrays := hs.strays
      rw [List.length_append]
      change _ ≤ failures + 1
      omega
    · cases h
  | finished i =>
    obtain ⟨t₀, ht₀, h⟩ := Option.bind_eq_some_iff.1 h
    split at h
    · rename_i r hprogram
      cases h
      have hmem := List.mem_of_getElem? ht₀
      have hlt : i < s.tasks.length := (List.getElem?_eq_some_iff.1 ht₀).1
      have hended := (hs.sound t₀ hmem).heartbeat_done hprogram
      refine ⟨?_, fun t ht => hs.sound t (List.mem_of_mem_eraseIdx ht), ?_⟩
      · rw [List.length_eraseIdx_of_lt hlt]
        dsimp only
        omega
      · rw [hended, Option.toList_none, List.append_nil]
        exact hs.strays
    · cases h
  | stray i heartbeat =>
    cases heartbeat with
    | some connected =>
      cases h
      exact ⟨hpermits, hs.sound, by rw [List.length_set]; exact hs.strays⟩
    | none =>
      cases h
      exact ⟨hpermits, hs.sound, (List.length_eraseIdx_le _ _).trans hs.strays⟩

theorem accounted_run {es : List ConnectionEvent} (h : Run (Step py cfg) s es t)
    (hs : s.Accounted concurrency failures) :
    t.Accounted concurrency (failures + es.countP ConnectionEvent.isFailure) := by
  induction h generalizing failures with
  | nil => exact hs
  | @cons s t u e es first _ ih =>
    have hrest := ih (accounted_step hs first)
    cases hfailure : e.isFailure with
    | false =>
      simp only [hfailure, Bool.false_eq_true, if_false] at hrest
      rwa [List.countP_cons_of_neg (by simp [hfailure])]
    | true =>
      simp only [hfailure, if_true] at hrest
      rw [List.countP_cons_of_pos hfailure, ← Nat.add_assoc, Nat.add_right_comm]
      exact hrest

/-- A task uses one connection for its calls and one for its heartbeat. -/
theorem Accounted.inUse_le (hs : s.Accounted concurrency failures) :
    s.inUse ≤ 2 * concurrency + 2 + failures := by
  have hcalls : s.tasks.countP JobTask.connected ≤ s.tasks.length := List.countP_le_length
  have hbeats : s.tasks.countP (fun t => t.heartbeat = some true) ≤ s.tasks.length :=
    List.countP_le_length
  have hstrays : s.strays.countP id ≤ s.strays.length := List.countP_le_length
  have hmain := Bool.toNat_le s.main
  have hreconciler := Bool.toNat_le s.reconciler
  have hpermits := hs.permits
  have hfailures := hs.strays
  unfold inUse
  omega

end ConnectedWorker

/-- In every run of a worker, whatever its calls are answered and however its tasks interleave, it
holds at most two connections for each permit and two more, and one for each `GitHubService()` that
has raised. So the pool has one left for every call unless that has happened three times. -/
theorem connections_suffice (py : Python) (cfg : Settings) (settings : AppSettings)
    {concurrency : ℕ} (hconcurrency : settings.workerConcurrency = concurrency)
    {es : List ConnectionEvent} {s : ConnectedWorker}
    (h : Run (ConnectedWorker.Step py cfg) { permits := concurrency } es s) :
    s.inUse ≤ 2 * concurrency + 2 + es.countP ConnectionEvent.isFailure ∧
      (es.countP ConnectionEvent.isFailure < 3 → s.inUse < settings.dbPoolMaxSize) := by
  have haccounted := ConnectedWorker.accounted_run h (ConnectedWorker.accounted_start concurrency)
  rw [Nat.zero_add] at haccounted
  have hle := haccounted.inUse_le
  refine ⟨hle, fun hfew => ?_⟩
  rw [AppSettings.dbPoolMaxSize, hconcurrency]
  omega

namespace Sample

def startedJob : Job :=
  (Job.enqueued jobId sha "octo/widgets" 7 42 none 0).claimed "w1" 0

/-- A task whose call and heartbeat have a connection each, beside the loop and a
reconciliation. -/
def connecting : List ConnectionEvent :=
  [.acquired, .main true, .main false, .started startedJob, .task 0 (.answered reply),
    .task 0 .connected, .task 0 (.beat (some true)), .main true, .reconciler true]

end Sample

theorem connections_suffice_connecting : ∃ s,
    Run (ConnectedWorker.Step Sample.python {}) { permits := 1 } Sample.connecting s ∧
      s.inUse = 4 ∧ s.inUse < AppSettings.dbPoolMaxSize { workerConcurrency := 1 } := by
  have huse : (replay (ConnectedWorker.next Sample.python {}) { permits := 1 }
      Sample.connecting).any (fun s => s.inUse = 4) = true := by decide
  obtain ⟨s, hrun, huse⟩ := exists_run_of_replay (ConnectedWorker.next Sample.python {}) huse
  exact ⟨s, hrun, of_decide_eq_true huse,
    (connections_suffice _ _ { workerConcurrency := 1 } rfl hrun).2 (by decide)⟩

end Revix
