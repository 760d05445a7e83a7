import Revix.KeyedTables
import Mathlib.Data.Int.Notation

/-! The columns that the queue repository, the worker and the webhook read or write, and the
unique constraints of the initial migration. -/
namespace Revix
open KeyedTables

/-- A decoded JSON value. Objects keep their keys in order, and a float is its `repr`. -/
inductive Json
  | null
  | bool (b : Bool)
  | int (n : ℤ)
  | float (text : String)
  | str (s : String)
  | arr (xs : List Json)
  | obj (fields : List (String × Json))

/-- A Python `dict` with string keys, as `json.dumps` receives it. -/
abbrev Dict := List (String × Json)

def Dict.get (d : Dict) (key : String) : Option Json := d.lookup key

/-- A `uuid.UUID`, by its canonical text `str(u)`. -/
structure Uuid where
  text : String
  deriving DecidableEq, Repr

/-- A `TIMESTAMPTZ`, in microseconds. -/
abbrev Timestamp := ℤ

def second : ℤ := 1000000

def hour : ℤ := 3600 * second

/-- The values the code writes to `jobs.status`, the two verdicts in capitals. -/
inductive Status
  | pending
  | processing
  | success
  | failure
  | dead
  deriving DecidableEq, Repr

/-- The two statuses that callers of `finalize_job` pass. -/
inductive Verdict
  | success
  | failure
  deriving DecidableEq, Repr

def Verdict.status : Verdict → Status
  | .success => .success
  | .failure => .failure

structure Job where
  id : Uuid
  commitSha : String
  prNumber : ℤ
  repoFullName : String
  payload : Json
  status : Status
  priority : ℤ
  attemptCount : ℕ
  maxAttempts : ℕ
  workerId : Option String
  scheduledAt : Timestamp
  startedAt : Option Timestamp
  completedAt : Option Timestamp
  errorMessage : Option String
  result : Option Json
  otelContext : Json
  fenceToken : ℕ
  githubCheckRunId : Option ℤ
  createdAt : Timestamp

structure Heartbeat where
  jobId : Uuid
  workerId : String
  heartbeatAt : Timestamp
  deriving DecidableEq, Repr

structure ReviewRecord where
  jobId : Uuid
  commitSha : String
  prNumber : ℤ
  repoFullName : String
  feedback : Json
  modelMap : String
  modelReduce : String
  chunkCount : ℤ

/-- `PRIMARY KEY (id)` and `UNIQUE (commit_sha)`. -/
inductive JobColumn
  | id
  | commitSha

instance : Keyed Job where
  Column := JobColumn
  Value
    | .id => Uuid
    | .commitSha => String
  value
    | .id => Job.id
    | .commitSha => Job.commitSha
  decEq
    | .id => inferInstanceAs (DecidableEq Uuid)
    | .commitSha => inferInstanceAs (DecidableEq String)

/-- `PRIMARY KEY (job_id)`. -/
instance : Keyed Heartbeat where
  Column := Unit
  Value _ := Uuid
  value _ := Heartbeat.jobId
  decEq _ := inferInstanceAs (DecidableEq Uuid)

/-- `UNIQUE (commit_sha)`. -/
instance : Keyed ReviewRecord where
  Column := Unit
  Value _ := String
  value _ := ReviewRecord.commitSha
  decEq _ := inferInstanceAs (DecidableEq String)

instance : Subsingleton (Column Heartbeat) := inferInstanceAs (Subsingleton Unit)

instance : Subsingleton (Column ReviewRecord) := inferInstanceAs (Subsingleton Unit)

structure Database where
  jobs : Table Job
  workerHeartbeats : Table Heartbeat
  reviewRecords : Table ReviewRecord

namespace Database

def empty : Database := ⟨.empty, .empty, .empty⟩

def job (db : Database) (id : Uuid) : Option Job := db.jobs.find JobColumn.id id

def jobOfSha (db : Database) (sha : String) : Option Job := db.jobs.find JobColumn.commitSha sha

def heartbeat (db : Database) (id : Uuid) : Option Heartbeat := db.workerHeartbeats.find () id

def record (db : Database) (sha : String) : Option ReviewRecord := db.reviewRecords.find () sha

theorem job_eq_some_iff {db : Database} {id : Uuid} {j : Job} :
    db.job id = some j ↔ j ∈ db.jobs.rows ∧ j.id = id := Table.find_eq_some_iff

theorem jobOfSha_eq_some_iff {db : Database} {sha : String} {j : Job} :
    db.jobOfSha sha = some j ↔ j ∈ db.jobs.rows ∧ j.commitSha = sha := Table.find_eq_some_iff

theorem heartbeat_eq_some_iff {db : Database} {id : Uuid} {h : Heartbeat} :
    db.heartbeat id = some h ↔ h ∈ db.workerHeartbeats.rows ∧ h.jobId = id :=
  Table.find_eq_some_iff

theorem record_eq_some_iff {db : Database} {sha : String} {r : ReviewRecord} :
    db.record sha = some r ↔ r ∈ db.reviewRecords.rows ∧ r.commitSha = sha :=
  Table.find_eq_some_iff

theorem job_of_mem {db : Database} {j : Job} (h : j ∈ db.jobs.rows) : db.job j.id = some j :=
  job_eq_some_iff.2 ⟨h, rfl⟩

/-- Two jobs for one commit are one job. -/
theorem id_eq_of_commitSha_eq {db : Database} {i i' : Uuid} {j j' : Job}
    (h : db.job i = some j) (h' : db.job i' = some j') (hs : j.commitSha = j'.commitSha) :
    i = i' := by
  obtain ⟨hj, rfl⟩ := job_eq_some_iff.1 h
  obtain ⟨hj', rfl⟩ := job_eq_some_iff.1 h'
  rw [db.jobs.eq_of_value_eq JobColumn.commitSha hj hj' hs]

end Database

structure Settings where
  aiModelMap : String := "openrouter/google/gemini-3.1-flash-lite"
  aiModelReduce : String := "openrouter/google/gemini-3.1-flash-lite"
  reviewMaxInlineComments : ℤ := 3
  reviewMinInlineSeverity : String := "WARNING"
  workerHeartbeatStaleSeconds : ℤ := 90
  workerRetryBackoffSeconds : ℤ := 120

end Revix
