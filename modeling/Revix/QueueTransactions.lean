import Revix.QueueSchema
import Mathlib.Algebra.Order.Ring.Int

/-! Each method of the queue repository is a function of the database and of `now`, the start of
its transaction. What PostgreSQL and other open transactions decide is an argument. -/
namespace Revix
open KeyedTables

inductive DbError
  | uniqueViolation (constraint : String)
  | runtimeError (message : String)
  deriving DecidableEq, Repr

/-- The choices of one `SELECT .. FOR UPDATE SKIP LOCKED .. LIMIT 1`: rows locked by others,
and the place of a row among rows that compare equal. -/
structure Scan where
  locked : List Uuid
  rank : Uuid → ℕ

/-- Nothing is locked and equal rows come in table order. -/
def Scan.idle : Scan := ⟨[], fun _ => 0⟩

namespace Job

/-- The row inserted by `enqueue_if_new`, with the column defaults of the migration. -/
def enqueued (id : Uuid) (sha repo : String) (pullNumber installationId : ℤ)
    (traceContext : Option Dict) (now : Timestamp) : Job where
  id := id
  commitSha := sha
  prNumber := pullNumber
  repoFullName := repo
  payload := .obj [("installation_id", .int installationId)]
  status := .pending
  priority := 0
  attemptCount := 0
  maxAttempts := 3
  workerId := none
  scheduledAt := now
  startedAt := none
  completedAt := none
  errorMessage := none
  result := none
  otelContext := .obj (traceContext.getD [])
  fenceToken := 0
  githubCheckRunId := none
  createdAt := now

def claimable (now : Timestamp) (j : Job) : Bool :=
  j.status = .pending && j.scheduledAt ≤ now && j.attemptCount < j.maxAttempts

theorem claimable_iff {now : Timestamp} {j : Job} : j.claimable now = true ↔
    j.status = .pending ∧ j.scheduledAt ≤ now ∧ j.attemptCount < j.maxAttempts := by
  simp [claimable, and_assoc]

/-- `ORDER BY priority DESC, created_at ASC`, then the order of the scan. -/
def before (scan : Scan) (a b : Job) : Bool :=
  b.priority < a.priority || (a.priority = b.priority && (a.createdAt < b.createdAt ||
    (a.createdAt = b.createdAt && scan.rank a.id < scan.rank b.id)))

def claimed (worker : String) (now : Timestamp) (j : Job) : Job :=
  { j with
    status := .processing
    startedAt := some now
    workerId := some worker
    attemptCount := j.attemptCount + 1 }

def checkRunSet (checkRunId : ℤ) (j : Job) : Job :=
  { j with githubCheckRunId := some checkRunId }

def fenced (id : Uuid) (token : ℕ) (j : Job) : Bool := j.id = id && j.fenceToken = token

def finalized (status : Status) (result : Option Json) (now : Timestamp) (j : Job) : Job :=
  { j with status := status, completedAt := some now, result := result }

def released (delaySeconds : ℤ) (now : Timestamp) (j : Job) : Job :=
  { j with
    status := .pending
    workerId := none
    scheduledAt := now + delaySeconds * second
    fenceToken := j.fenceToken + 1 }

def exhausted (j : Job) : Bool := j.maxAttempts ≤ j.attemptCount

def stale (cfg : Settings) (now : Timestamp) (beat : Option Heartbeat) (j : Job) : Bool :=
  j.status = .processing &&
    beat.elim true fun h => h.heartbeatAt < now - cfg.workerHeartbeatStaleSeconds * second

theorem processing_of_stale {cfg : Settings} {now : Timestamp} {beat : Option Heartbeat} {j : Job}
    (h : j.stale cfg now beat = true) : j.status = .processing := by
  simp only [stale, Bool.and_eq_true, decide_eq_true_eq] at h
  exact h.1

def reclaimed (cfg : Settings) (now : Timestamp) (j : Job) : Job :=
  { j with
    status := if j.exhausted then .dead else .pending
    fenceToken := j.fenceToken + 1
    scheduledAt := if j.exhausted then j.scheduledAt else
      now + cfg.workerRetryBackoffSeconds * second * j.attemptCount
    workerId := none }

def overdue (now : Timestamp) (j : Job) : Bool := j.status = .pending && j.createdAt < now - hour

theorem overdue_iff {now : Timestamp} {j : Job} :
    j.overdue now = true ↔ j.status = .pending ∧ j.createdAt < now - hour := by
  simp [overdue]

def timedOut (j : Job) : Job :=
  { j with status := .dead, errorMessage := some "Timed out: pending for over 1 hour" }

theorem keeps_claimed (worker : String) (now : Timestamp) : KeepsKeys (claimed worker now) := by
  rintro (_ | _) _ <;> rfl

theorem keeps_checkRunSet (checkRunId : ℤ) : KeepsKeys (checkRunSet checkRunId) := by
  rintro (_ | _) _ <;> rfl

theorem keeps_finalized (status : Status) (result : Option Json) (now : Timestamp) :
    KeepsKeys (finalized status result now) := by
  rintro (_ | _) _ <;> rfl

theorem keeps_released (delaySeconds : ℤ) (now : Timestamp) :
    KeepsKeys (released delaySeconds now) := by
  rintro (_ | _) _ <;> rfl

theorem keeps_reclaimed (cfg : Settings) (now : Timestamp) : KeepsKeys (reclaimed cfg now) := by
  rintro (_ | _) _ <;> rfl

theorem keeps_timedOut : KeepsKeys timedOut := by
  rintro (_ | _) _ <;> rfl

def reviewRecord (cfg : Settings) (feedback : Json) (j : Job) : ReviewRecord where
  jobId := j.id
  commitSha := j.commitSha
  prNumber := j.prNumber
  repoFullName := j.repoFullName
  feedback := feedback
  modelMap := cfg.aiModelMap
  modelReduce := cfg.aiModelReduce
  chunkCount := 1

end Job

def Heartbeat.renewed (now : Timestamp) (h : Heartbeat) : Heartbeat := { h with heartbeatAt := now }

def Heartbeat.taken (worker : String) (now : Timestamp) (h : Heartbeat) : Heartbeat :=
  { h with heartbeatAt := now, workerId := worker }

theorem Heartbeat.keeps_renewed (now : Timestamp) : KeepsKeys (renewed now) := fun _ _ => rfl

theorem Heartbeat.keeps_taken (worker : String) (now : Timestamp) :
    KeepsKeys (taken worker now) := fun _ _ => rfl

def ReviewRecord.withFeedback (feedback : Json) (r : ReviewRecord) : ReviewRecord :=
  { r with feedback := feedback }

theorem ReviewRecord.keeps_withFeedback (feedback : Json) : KeepsKeys (withFeedback feedback) :=
  fun _ _ => rfl

/-- `json.dumps(ai_feedback) if ai_feedback else None`: an empty dict is false. -/
def feedbackJson : Option Dict → Option Json
  | none => none
  | some [] => none
  | some (f :: fs) => some (.obj (f :: fs))

def enqueueIfNew (sha repo : String) (pullNumber installationId : ℤ) (traceContext : Option Dict)
    (id : Uuid) (now : Timestamp) (db : Database) : Except DbError (Bool × Database) :=
  if (db.record sha).isSome then .ok (false, db)
  else if hsha : db.jobOfSha sha = none then
    let row := Job.enqueued id sha repo pullNumber installationId traceContext now
    if hid : db.job id = none then
      .ok (true, { db with
        jobs := db.jobs.insert row (by rintro (_ | _); exacts [hid, hsha]) })
    else .error (.uniqueViolation "jobs_pkey")
  -- ON CONFLICT (commit_sha) DO NOTHING
  else .ok (true, db)

/-- The row the inner `SELECT` of `claim_job` picks. -/
def claimCandidate (scan : Scan) (now : Timestamp) (db : Database) : Option Job :=
  firstBy (Job.before scan)
    (db.jobs.rows.filter fun j => j.claimable now && !scan.locked.contains j.id)

def claimJob (worker : String) (scan : Scan) (now : Timestamp) (db : Database) :
    Option Job × Database :=
  match claimCandidate scan now db with
  | none => (none, db)
  | some c =>
    (some (c.claimed worker now),
      { db with
        jobs := db.jobs.update (fun j => j.id = c.id) (Job.claimed worker now)
          (Job.keeps_claimed worker now)
        workerHeartbeats := db.workerHeartbeats.upsert () ⟨c.id, worker, now⟩
          (Heartbeat.taken worker now) (Heartbeat.keeps_taken worker now) })

def updateHeartbeat (id : Uuid) (worker : String) (now : Timestamp) (db : Database) :
    Bool × Database :=
  match db.jobs.rows.find? fun j => j.id = id && j.workerId = some worker with
  | none => (false, db)
  | some j =>
    if j.status ≠ .processing then (false, db)
    else (true, { db with
      workerHeartbeats := db.workerHeartbeats.update
        (fun h => h.jobId = id && h.workerId = worker)
        (Heartbeat.renewed now) (Heartbeat.keeps_renewed now) })

def setCheckRunId (id : Uuid) (checkRunId : ℤ) (db : Database) : Database :=
  { db with
    jobs := db.jobs.update (fun j => j.id = id) (Job.checkRunSet checkRunId)
      (Job.keeps_checkRunSet checkRunId) }

/-- `ORDER BY created_at DESC`, then the order of the scan. -/
def Job.newer (scan : Scan) (a b : Job) : Bool :=
  b.createdAt < a.createdAt || (a.createdAt = b.createdAt && scan.rank a.id < scan.rank b.id)

def getCheckRunId (scan : Scan) (repo : String) (prNumber : ℤ) (commitSha : String)
    (db : Database) : Option ℤ :=
  (firstBy (Job.newer scan) (db.jobs.rows.filter fun j => j.repoFullName = repo &&
    j.prNumber = prNumber && j.commitSha = commitSha && j.githubCheckRunId.isSome)).bind
      Job.githubCheckRunId

def staleMessage (id : Uuid) (token : ℕ) : String :=
  "Job " ++ id.text ++ " was reclaimed; fence_token " ++ toString token ++ " is stale"

def finalizeJob (cfg : Settings) (id : Uuid) (token : ℕ) (status : Status)
    (aiFeedback : Option Dict) (now : Timestamp) (db : Database) : Except DbError Database :=
  match db.jobs.rows.find? (Job.fenced id token) with
  -- raising inside the transaction rolls it back
  | none => .error (.runtimeError (staleMessage id token))
  | some job => .ok
    { jobs := db.jobs.update (Job.fenced id token)
        (Job.finalized status (feedbackJson aiFeedback) now) (Job.keeps_finalized _ _ _)
      reviewRecords := db.reviewRecords.upsert ()
        (job.reviewRecord cfg ((feedbackJson aiFeedback).getD (.obj [])))
        (ReviewRecord.withFeedback ((feedbackJson aiFeedback).getD (.obj [])))
        (ReviewRecord.keeps_withFeedback _)
      workerHeartbeats := db.workerHeartbeats.delete fun h => h.jobId = id }

def releaseJob (id : Uuid) (token : ℕ) (delaySeconds : ℤ) (now : Timestamp) (db : Database) :
    Database :=
  { db with
    jobs := db.jobs.update (fun j => j.fenced id token && j.status = .processing)
      (Job.released delaySeconds now) (Job.keeps_released delaySeconds now)
    -- this DELETE looks at the job id alone
    workerHeartbeats := db.workerHeartbeats.delete fun h => h.jobId = id }

/-- `RETURNING j.id, j.status, j.attempt_count, j.github_check_run_id, j.repo_full_name,
j.payload`. -/
structure ReconciledRow where
  id : Uuid
  status : Status
  attemptCount : ℕ
  githubCheckRunId : Option ℤ
  repoFullName : String
  payload : Json

def Job.returning (j : Job) : ReconciledRow :=
  ⟨j.id, j.status, j.attemptCount, j.githubCheckRunId, j.repoFullName, j.payload⟩

/-- The rows the first `UPDATE` of `reconcile_stale_jobs` selects. -/
def reclaimable (cfg : Settings) (locked : List Uuid) (now : Timestamp) (db : Database)
    (j : Job) : Bool :=
  j.stale cfg now (db.heartbeat j.id) && !locked.contains j.id

def reconcileStaleJobs (cfg : Settings) (locked : List Uuid) (now : Timestamp) (db : Database) :
    List ReconciledRow × Database :=
  let hit := reclaimable cfg locked now db
  let rows := (db.jobs.rows.filter hit).map fun j => (j.reclaimed cfg now).returning
  let jobs := db.jobs.update hit (Job.reclaimed cfg now) (Job.keeps_reclaimed cfg now)
  let workerHeartbeats := db.workerHeartbeats.delete fun h =>
    !(jobs.find JobColumn.id h.jobId).any fun j => j.status = .processing
  (rows,
    { db with
      jobs := jobs.update (Job.overdue now) Job.timedOut Job.keeps_timedOut
      workerHeartbeats := workerHeartbeats })

/-- A database crash empties the `UNLOGGED` table. -/
def loseHeartbeats (db : Database) : Database := { db with workerHeartbeats := .empty }

end Revix
