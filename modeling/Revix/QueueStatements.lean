import Revix.AtomicObjects
import Revix.QueueHeartbeats

/-! `enqueue_if_new` and `update_heartbeat` lock no row that they read, and run statement by
statement here. The other methods begin by locking their rows and come as a whole. -/
namespace Revix
open KeyedTables LabelledRuns AtomicObjects

/-- The arguments of a call, with the id of the row it would insert and its `NOW()`. -/
structure EnqueueCall where
  sha : String
  repo : String
  pullNumber : ℤ
  installationId : ℤ
  traceContext : Option Dict
  id : Uuid
  now : Timestamp

namespace EnqueueCall

def transaction (c : EnqueueCall) : Transaction :=
  .enqueueIfNew c.sha c.repo c.pullNumber c.installationId c.traceContext c.id c.now

def row (c : EnqueueCall) : Job :=
  .enqueued c.id c.sha c.repo c.pullNumber c.installationId c.traceContext c.now

end EnqueueCall

/-- `_generate_lock_id`, for the digest that `hashlib.md5` makes of the text. -/
def generateLockId (md5 : String → List UInt8) (sha : String) : ℤ :=
  Int.bmod (((md5 sha).take 8).foldl (fun n b => n * 256 + b.toNat) 0) (2 ^ 64)

inductive EnqueueStage
  | begun
  | locked
  /-- There was no review record. -/
  | checked
  /-- What the call answers once its transaction has committed, and the row it has inserted. -/
  | ending (answer : Except DbError Bool) (row : Option Job)
  | closed

/-- An advisory lock is kept until the end of the transaction. -/
def EnqueueStage.holdsLock : EnqueueStage → Bool
  | .begun | .closed => false
  | _ => true

structure OpenEnqueue where
  call : EnqueueCall
  stage : EnqueueStage

namespace OpenEnqueue

/-- The row that is inserted but not committed. -/
def row (o : OpenEnqueue) : Option Job :=
  match o.stage with
  | .ending _ row => row
  | _ => none

def rowId (o : OpenEnqueue) : Option Uuid := o.row.map Job.id

def lock (lockId : String → ℤ) (o : OpenEnqueue) : Option ℤ :=
  if o.stage.holdsLock then some (lockId o.call.sha) else none

end OpenEnqueue

/-- A call of `update_heartbeat`. -/
structure Beat where
  id : Uuid
  worker : String
  now : Timestamp
  deriving DecidableEq

/-- The committed queue, the calls of `enqueue_if_new` so far, and the calls of
`update_heartbeat` between their `SELECT` and their `UPDATE`. -/
structure StatementQueue where
  queue : Queue
  enqueues : List OpenEnqueue
  beats : List Beat

inductive StatementEvent
  | begun (k : ℕ) (call : EnqueueCall)
  | locked (k : ℕ)
  | selected (k : ℕ)
  | inserted (k : ℕ)
  | ended (k : ℕ) (answer : Except DbError Bool)
  /-- It has committed, but the connection is lost before the answer. -/
  | unheard (k : ℕ)
  /-- Rolled back. -/
  | aborted (k : ℕ)
  | beatSelected (beat : Beat)
  | beatUpdated (beat : Beat)
  /-- A transaction of another method. -/
  | other (e : Transaction)

def Transaction.enqueues : Transaction → Bool
  | .enqueueIfNew .. => true
  | _ => false

instance : DecidableEq (Except DbError Bool)
  | .ok a, .ok b => decidable_of_iff (a = b) (by simp)
  | .error e, .error e' => decidable_of_iff (e = e') (by simp)
  | .ok _, .error _ => .isFalse nofun
  | .error _, .ok _ => .isFalse nofun

def Queue.commit (s : Queue) : Option Job → Option Queue
  | none => some s
  | some row =>
    if h : s.db.job row.id = none ∧ s.db.jobOfSha row.commitSha = none then
      some { s with db := { s.db with
        jobs := s.db.jobs.insert row (by rintro (_ | _); exacts [h.1, h.2]) } }
    else none

namespace StatementQueue

def start : StatementQueue := ⟨.empty, [], []⟩

def setStage (s : StatementQueue) (k : ℕ) (call : EnqueueCall) (stage : EnqueueStage) :
    StatementQueue :=
  { s with enqueues := s.enqueues.set k ⟨call, stage⟩ }

/-- `INSERT .. ON CONFLICT (commit_sha) DO NOTHING`. It waits for a row of another transaction that
is in its way until that transaction ends. -/
def insertRow (s : StatementQueue) (k : ℕ) (call : EnqueueCall) : Option StatementQueue :=
  if (s.queue.db.jobOfSha call.sha).isSome then
    some (s.setStage k call (.ending (.ok true) none))
  else if s.enqueues.any fun o => o.row.any fun row => row.commitSha = call.sha || row.id = call.id
  then none
  else if (s.queue.db.job call.id).isSome then
    some (s.setStage k call (.ending (.error (.uniqueViolation "jobs_pkey")) none))
  else some (s.setStage k call (.ending (.ok true) (some call.row)))

def close (s : StatementQueue) (k : ℕ) (call : EnqueueCall) (row : Option Job) :
    Option StatementQueue :=
  (s.queue.commit row).map fun q => { s with queue := q }.setStage k call .closed

def renew (s : StatementQueue) (beat : Beat) : StatementQueue :=
  { s with
    queue := { s.queue with db := { s.queue.db with
      workerHeartbeats := s.queue.db.workerHeartbeats.update
        (fun h => h.jobId = beat.id && h.workerId = beat.worker)
        (Heartbeat.renewed beat.now) (Heartbeat.keeps_renewed beat.now) } }
    beats := s.beats.erase beat }

section Steps

variable (cfg : Settings) (lockId : String → ℤ)

def next (s : StatementQueue) : StatementEvent → Option StatementQueue
  | .begun k call =>
    if k = s.enqueues.length then some { s with enqueues := s.enqueues ++ [⟨call, .begun⟩] }
    else none
  | .locked k => match s.enqueues[k]? with
    | some ⟨call, .begun⟩ =>
      if s.enqueues.any fun o => o.lock lockId = some (lockId call.sha) then none
      else some (s.setStage k call .locked)
    | _ => none
  | .selected k => match s.enqueues[k]? with
    | some ⟨call, .locked⟩ => some (s.setStage k call
        (if (s.queue.db.record call.sha).isSome then .ending (.ok false) none else .checked))
    | _ => none
  | .inserted k => match s.enqueues[k]? with
    | some ⟨call, .checked⟩ => s.insertRow k call
    | _ => none
  | .ended k answer => match s.enqueues[k]? with
    | some ⟨call, .ending answer' row⟩ => if answer = answer' then s.close k call row else none
    | _ => none
  | .unheard k => match s.enqueues[k]? with
    | some ⟨call, .ending _ row⟩ => s.close k call row
    | _ => none
  | .aborted k => match s.enqueues[k]? with
    | some ⟨_, .closed⟩ => none
    | some ⟨call, _⟩ => some (s.setStage k call .closed)
    | none => none
  | .beatSelected beat =>
    -- otherwise the answer is `False`, and there is no `UPDATE`
    if (s.queue.db.jobs.rows.find? fun j => j.id = beat.id && j.workerId = some beat.worker).any
        fun j => j.status = .processing then
      some { s with beats := s.beats ++ [beat] }
    else none
  | .beatUpdated beat => if beat ∈ s.beats then some (s.renew beat) else none
  | .other e =>
    if e.enqueues then none else (s.queue.next cfg e).map fun q => { s with queue := q }

def Step (s : StatementQueue) (e : StatementEvent) (t : StatementQueue) : Prop :=
  s.next cfg lockId e = some t

end Steps

end StatementQueue

/-- What is seen of the calls of `enqueue_if_new`, and the other changes of the queue. -/
def StatementEvent.shows :
    StatementEvent → Option (Visible ℕ EnqueueCall (Except DbError Bool) Transaction)
  | .begun k call => some (.invoked k call)
  | .ended k answer => some (.responded k answer)
  | .unheard k | .aborted k => some (.lost k)
  | .beatUpdated beat => some (.other (.updateHeartbeat beat.id beat.worker beat.now))
  | .other e => some (.other e)
  | .locked _ | .selected _ | .inserted _ | .beatSelected _ => none

/-- `enqueue_if_new` as one transaction: its answer and the queue after it. -/
def EnqueueCall.effect (cfg : Settings) (s : Queue) (c : EnqueueCall)
    (answer : Except DbError Bool) (t : Queue) : Prop :=
  t = s.exec cfg c.transaction ∧
    answer = (enqueueIfNew c.sha c.repo c.pullNumber c.installationId c.traceContext c.id c.now
      s.db).map Prod.fst

end Revix
