import Revix.QueueOwners
import Revix.WorkerFleet

/-! Every run of `process_job` has a task that renews its heartbeat until the answer is `False`.
The task names the job and the worker, not the claim. -/
namespace Revix
open KeyedTables LabelledRuns

/-- A task of `_run_heartbeat`, with the token of the claim it was started for. -/
structure HeartbeatTask where
  id : Uuid
  token : ℕ
  worker : String
  running : Bool

/-- One turn of the loop of `_run_heartbeat`: whether it goes on. -/
def runHeartbeat : Except Raised Bool → Bool
  | .ok alive => alive
  -- logged, and tried again after the next sleep
  | .error (.exception _) => true
  | .error .cancelled => false

structure Pulse where
  queue : Queue
  beats : List HeartbeatTask

inductive PulseEvent
  | transaction (e : Transaction)
  /-- `claim_job`, and the start of `process_job` when the row is delivered. -/
  | claimed (worker : String) (scan : Scan) (now : Timestamp) (delivered : Bool)
  /-- A call of `update_heartbeat`; an exception replaces its answer. -/
  | beaten (n : ℕ) (committed : Bool) (raised : Option Raised) (now : Timestamp)
  /-- `heartbeat.cancel()`, or the end of the process. -/
  | cancelled (n : ℕ)

/-- The transactions that neither claim nor renew. -/
def Transaction.ofOthers : Transaction → Bool
  | .claimJob _ _ _ => false
  | .updateHeartbeat _ _ _ => false
  | _ => true

namespace Pulse

def empty : Pulse := ⟨.empty, []⟩

section Steps

variable (py : Python) (cfg : Settings)

/-- The heartbeat task of a claimed row. A row that cannot be parsed has none. -/
def spawn (worker : String) (row : Job) : Option HeartbeatTask :=
  if (parseJob py row).isOk then some ⟨row.id, row.fenceToken, worker, true⟩ else none

def next (s : Pulse) : PulseEvent → Option Pulse
  | .transaction e =>
    if e.ofOthers then (s.queue.next cfg e).map fun q => { s with queue := q } else none
  | .claimed worker scan now delivered =>
    let row := (claimJob worker scan now s.queue.db).1
    some ⟨s.queue.exec cfg (.claimJob worker scan now),
      s.beats ++ ((row.filter fun _ => delivered).bind (spawn py worker)).toList⟩
  | .beaten n committed raised now =>
    match s.beats[n]? with
    | none => none
    | some b =>
      if b.running && (committed || raised.isSome) then
        let alive := (updateHeartbeat b.id b.worker now s.queue.db).1
        some
          { queue :=
              if committed then s.queue.exec cfg (.updateHeartbeat b.id b.worker now) else s.queue
            beats := s.beats.set n
              { b with running := runHeartbeat (raised.elim (.ok alive) .error) } }
      else none
  | .cancelled n =>
    (s.beats[n]?).map fun b => { s with beats := s.beats.set n { b with running := false } }

def Step (s : Pulse) (e : PulseEvent) (t : Pulse) : Prop := s.next py cfg e = some t

end Steps

variable {py : Python} {cfg : Settings} {s t : Pulse} {e : PulseEvent}

/-- Every step of the tasks is at most one transaction of the queue. -/
theorem queue_step (h : Step py cfg s e t) :
    t.queue = s.queue ∨ ∃ e', Queue.Step cfg s.queue e' t.queue := by
  cases e with
  | transaction e =>
    simp only [Step, next] at h
    split_ifs at h
    obtain ⟨q, hq, rfl⟩ := Option.map_eq_some_iff.1 h
    exact .inr ⟨e, hq⟩
  | claimed worker scan now delivered =>
    simp only [Step, next, Option.some.injEq] at h
    subst h
    exact .inr ⟨.claimJob worker scan now, Queue.step_exec trivial⟩
  | beaten n committed raised now =>
    simp only [Step, next] at h
    split at h
    · cases h
    · rename_i b hb
      split_ifs at h with hrunning hcommitted
      · cases h
        exact .inr ⟨.updateHeartbeat b.id b.worker now, Queue.step_exec trivial⟩
      · cases h
        exact .inl rfl
  | cancelled n =>
    obtain ⟨b, -, rfl⟩ := Option.map_eq_some_iff.1 h
    exact .inl rfl

theorem reachable_step (h : Reachable (Queue.Step cfg) .empty s.queue) (hs : Step py cfg s e t) :
    Reachable (Queue.Step cfg) .empty t.queue := by
  rcases queue_step hs with hsame | ⟨e', hq⟩
  · rw [hsame]
    exact h
  · exact h.next hq

/-- A call for a claim whose token is below the fence answers `False` and renews nothing. -/
def BeatFenced (s : Pulse) : PulseEvent → Prop
  | .beaten n _ _ now => ∀ b, s.beats[n]? = some b →
      ∀ j, s.queue.db.job b.id = some j → b.token < j.fenceToken →
        updateHeartbeat b.id b.worker now s.queue.db = (false, s.queue.db)
  | _ => True

/-- No call is made for a claim while a later claim of the same worker holds the job. -/
def NotReclaimed (s : Pulse) : PulseEvent → Prop
  | .beaten n _ _ _ => ∀ b, s.beats[n]? = some b →
      ∀ token, b.token < token → s.queue.ClaimedBy b.id token b.worker →
        ¬ s.queue.Holds b.id token
  | _ => True

theorem beatFenced_iff (h : Reachable (Queue.Step cfg) .empty s.queue) :
    s.NotReclaimed e ↔ s.BeatFenced e := by
  obtain ⟨es, hr⟩ := h
  cases e with
  | beaten n committed raised now =>
    constructor
    · intro hnot b hb j hj hlt
      refine updateHeartbeat_of_not_held (Bool.eq_false_iff.2 fun hany => ?_)
      obtain ⟨token, hholds, hclaimed⟩ := (Queue.heldBy_iff_claimedBy hr).1 hany
      have hlater : b.token < token := by
        obtain ⟨j', hj', hh⟩ := hholds
        obtain rfl := Option.some.inj (hj'.symm.trans hj)
        exact (Job.holds_iff.1 hh).1 ▸ hlt
      exact hnot b hb token hlater hclaimed hholds
    · intro hfenced b hb token hlt hclaimed hholds
      have hany := (Queue.heldBy_iff_claimedBy hr).2 ⟨token, hholds, hclaimed⟩
      obtain ⟨j, hj, hh⟩ := hholds
      have hfalse := hfenced b hb j hj ((Job.holds_iff.1 hh).1 ▸ hlt)
      have hfst : (updateHeartbeat b.id b.worker now s.queue.db).1 = true :=
        updateHeartbeat_fst.trans hany
      rw [hfalse] at hfst
      cases hfst
  | transaction => exact Iff.rfl
  | claimed => exact Iff.rfl
  | cancelled => exact Iff.rfl

theorem exists_run (py : Python) (cfg : Settings) (s : Pulse) (es : List PulseEvent)
    (p : Pulse → Bool) (h : (replay (next py cfg) s es).any p = true) :
    ∃ t, Run (Step py cfg) s es t ∧ p t = true := exists_run_of_replay (next py cfg) h

end Pulse

/-- In a run of the queue and the heartbeat tasks, every call for a superseded claim is fenced
exactly when none is made while a later claim of the same worker holds the job. -/
theorem heartbeats_fenced_iff (py : Python) (cfg : Settings) (es : List PulseEvent) (s : Pulse) :
    Run (Guarded (Pulse.Step py cfg) fun s e _ => s.NotReclaimed e) .empty es s ↔
      Run (Guarded (Pulse.Step py cfg) fun s e _ => s.BeatFenced e) .empty es s := by
  refine Run.guarded_congr (I := fun s => Reachable (Queue.Step cfg) .empty s.queue)
    (fun s e t h _ => Pulse.beatFenced_iff h) (fun s e t h hs _ => Pulse.reachable_step h hs) ?_
  exact .refl _

/-- A worker loses its job to a reconciliation and claims it again. The heartbeat task of the
first claim is answered `True`, and renews the heartbeat of the second. -/
theorem heartbeats_unfenced : ∃ s t, Run (Pulse.Step Sample.python {}) .empty
      [.transaction Sample.enqueue, .claimed "w1" .idle 0 true,
        .transaction (.reconcileStaleJobs [] (100 * second)),
        .claimed "w1" .idle (300 * second) true] s ∧
    Pulse.Step Sample.python {} s (.beaten 0 true none (301 * second)) t ∧
    ¬ s.BeatFenced (.beaten 0 true none (301 * second)) ∧
    s.queue.db.heartbeat Sample.jobId = some ⟨Sample.jobId, "w1", 300 * second⟩ ∧
    t.queue.db.heartbeat Sample.jobId = some ⟨Sample.jobId, "w1", 301 * second⟩ := by
  let beat : PulseEvent := .beaten 0 true none (301 * second)
  obtain ⟨s, hr, hp⟩ := Pulse.exists_run Sample.python {} .empty
    [.transaction Sample.enqueue, .claimed "w1" .idle 0 true,
      .transaction (.reconcileStaleJobs [] (100 * second)),
      .claimed "w1" .idle (300 * second) true]
    (fun s => s.beats[0]?.map (fun b => (b.id, b.worker, b.token)) =
        some (Sample.jobId, "w1", 0) ∧
      (s.queue.db.job Sample.jobId).map Job.fenceToken = some 1 ∧
      (updateHeartbeat Sample.jobId "w1" (301 * second) s.queue.db).1 = true ∧
      s.queue.db.heartbeat Sample.jobId = some ⟨Sample.jobId, "w1", 300 * second⟩ ∧
      (s.next Sample.python {} beat).any (fun t => t.queue.db.heartbeat Sample.jobId =
        some ⟨Sample.jobId, "w1", 301 * second⟩) = true) (by decide)
  simp only [decide_eq_true_eq] at hp
  obtain ⟨hbeat, hfence, htrue, hbefore, hnext⟩ := hp
  obtain ⟨t, ht, hafter⟩ := (Option.any_eq_true _ _).1 hnext
  obtain ⟨b, hb, hfields⟩ := Option.map_eq_some_iff.1 hbeat
  simp only [Prod.mk.injEq] at hfields
  obtain ⟨hid, hworker, htoken⟩ := hfields
  obtain ⟨j, hj, hj1⟩ := Option.map_eq_some_iff.1 hfence
  refine ⟨s, t, hr, ht, fun hfenced => ?_, hbefore, of_decide_eq_true hafter⟩
  have hfalse := hfenced b hb j (hid ▸ hj) (by rw [htoken, hj1]; decide)
  rw [hid, hworker] at hfalse
  rw [hfalse] at htrue
  cases htrue

end Revix
