import Revix.QueueTransactions

/-! The job, the heartbeat and the review record that a lookup finds after each transaction. The
later modules cite these lemmas and do not unfold the transactions. -/
namespace Revix
open KeyedTables

variable {cfg : Settings} {db db' : Database}

theorem job_id {i : Uuid} {j : Job} (h : db.job i = some j) : j.id = i :=
  (Database.job_eq_some_iff.1 h).2

theorem heartbeat_jobId {i : Uuid} {b : Heartbeat} (h : db.heartbeat i = some b) : b.jobId = i :=
  (Database.heartbeat_eq_some_iff.1 h).2

/-! ## `enqueue_if_new` -/

section Enqueue

variable {sha repo : String} {pullNumber installationId : ℤ} {traceContext : Option Dict}
  {id : Uuid} {now : Timestamp}

theorem enqueueIfNew_recorded {r : ReviewRecord} (h : db.record sha = some r) :
    enqueueIfNew sha repo pullNumber installationId traceContext id now db = .ok (false, db) := by
  simp [enqueueIfNew, h]

/-- `ON CONFLICT (commit_sha) DO NOTHING`: the answer is `True` and nothing is inserted. -/
theorem enqueueIfNew_conflict (repo : String) (pullNumber installationId : ℤ)
    (traceContext : Option Dict) (id : Uuid) (now : Timestamp) {j : Job}
    (hr : db.record sha = none) (h : db.jobOfSha sha = some j) :
    enqueueIfNew sha repo pullNumber installationId traceContext id now db = .ok (true, db) := by
  simp [enqueueIfNew, hr, h]

theorem enqueueIfNew_collision {j : Job} (hr : db.record sha = none)
    (hs : db.jobOfSha sha = none) (h : db.job id = some j) :
    enqueueIfNew sha repo pullNumber installationId traceContext id now db =
      .error (.uniqueViolation "jobs_pkey") := by
  simp [enqueueIfNew, hr, hs, h]

theorem enqueueIfNew_inserted (repo : String) (pullNumber installationId : ℤ)
    (traceContext : Option Dict) (now : Timestamp) (hr : db.record sha = none)
    (hs : db.jobOfSha sha = none) (hid : db.job id = none) :
    ∃ db', enqueueIfNew sha repo pullNumber installationId traceContext id now db =
        .ok (true, db') ∧
      (∀ i, db'.job i = if id = i then
        some (.enqueued id sha repo pullNumber installationId traceContext now) else db.job i) ∧
      (∀ s, db'.jobOfSha s = if sha = s then
        some (.enqueued id sha repo pullNumber installationId traceContext now)
        else db.jobOfSha s) ∧
      db'.workerHeartbeats = db.workerHeartbeats ∧ db'.reviewRecords = db.reviewRecords := by
  let row := Job.enqueued id sha repo pullNumber installationId traceContext now
  have hfresh : ∀ c, db.jobs.find c (value c row) = none := by
    rintro (_ | _)
    exacts [hid, hs]
  refine ⟨{ db with jobs := db.jobs.insert row hfresh }, by simp [enqueueIfNew, hr, hs, hid, row],
    fun i => ?_, fun s => ?_, rfl, rfl⟩
  · exact Table.find_insert db.jobs row hfresh JobColumn.id i
  · exact Table.find_insert db.jobs row hfresh JobColumn.commitSha s

/-- The answer `False` is decided by `review_records` alone. -/
theorem enqueueIfNew_false_iff :
    (∃ db', enqueueIfNew sha repo pullNumber installationId traceContext id now db =
      .ok (false, db')) ↔ (db.record sha).isSome := by
  cases hr : db.record sha with
  | some r => simp [enqueueIfNew_recorded hr]
  | none =>
    cases hs : db.jobOfSha sha with
    | some j => simp [enqueueIfNew_conflict _ _ _ _ _ _ hr hs]
    | none =>
      cases hid : db.job id with
      | some j => simp [enqueueIfNew_collision hr hs hid]
      | none => simp [enqueueIfNew, hr, hs, hid]

end Enqueue

/-! ## `claim_job` -/

section Claim

variable {worker : String} {scan : Scan} {now : Timestamp} {c : Job}

theorem claimCandidate_spec (h : claimCandidate scan now db = some c) :
    db.job c.id = some c ∧ c.claimable now = true ∧ c.id ∉ scan.locked := by
  have hm := firstBy_mem h
  simp only [List.mem_filter, Bool.and_eq_true, Bool.not_eq_true', List.contains_eq_mem,
    decide_eq_false_iff_not] at hm
  exact ⟨Database.job_of_mem hm.1, hm.2.1, hm.2.2⟩

theorem claimJob_none (h : claimCandidate scan now db = none) :
    claimJob worker scan now db = (none, db) := by
  simp [claimJob, h]

theorem claimJob_fst (h : claimCandidate scan now db = some c) :
    (claimJob worker scan now db).1 = some (c.claimed worker now) := by
  simp [claimJob, h]

/-- A row is returned for the candidate. -/
theorem claimJob_fst_eq_some {row : Job} (h : (claimJob worker scan now db).1 = some row) :
    ∃ c, claimCandidate scan now db = some c ∧ row = c.claimed worker now := by
  cases hc : claimCandidate scan now db with
  | none =>
    rw [claimJob_none hc] at h
    cases h
  | some c =>
    rw [claimJob_fst hc] at h
    exact ⟨c, rfl, (Option.some.inj h).symm⟩

theorem claimJob_fst_eq_none (h : (claimJob worker scan now db).1 = none) :
    claimCandidate scan now db = none := by
  cases hc : claimCandidate scan now db with
  | none => rfl
  | some c =>
    rw [claimJob_fst hc] at h
    cases h

theorem job_claimJob (h : claimCandidate scan now db = some c) (i : Uuid) :
    (claimJob worker scan now db).2.job i =
      if i = c.id then some (c.claimed worker now) else db.job i := by
  have hc : db.jobs.find JobColumn.id c.id = some c := (claimCandidate_spec h).1
  simp only [claimJob, h]
  refine (Table.find_update_at db.jobs (Job.keeps_claimed worker now) JobColumn.id c.id i
    (fun _ => true) fun _ => (Bool.and_true _).symm).trans ?_
  simp only [hc]
  rfl

theorem heartbeat_claimJob (h : claimCandidate scan now db = some c) (i : Uuid) :
    (claimJob worker scan now db).2.heartbeat i =
      if i = c.id then some ⟨c.id, worker, now⟩ else db.heartbeat i := by
  have hf := Table.find_upsert db.workerHeartbeats () ⟨c.id, worker, now⟩
    (Heartbeat.taken worker now) (Heartbeat.keeps_taken worker now) i
  simp only [claimJob, h, Database.heartbeat]
  rw [hf]
  change (if c.id = i then _ else _) = _
  split_ifs with h₁ h₂ h₂
  · subst h₁
    cases hb : db.workerHeartbeats.find () c.id with
    | none => rfl
    | some b =>
      have hid : b.jobId = c.id := heartbeat_jobId hb
      simp [Heartbeat.taken, hid]
  · exact absurd h₁.symm h₂
  · exact absurd h₂.symm h₁
  · rfl

theorem reviewRecords_claimJob : (claimJob worker scan now db).2.reviewRecords =
    db.reviewRecords := by
  unfold claimJob
  split <;> rfl

end Claim

/-! ## `update_heartbeat` and `set_check_run_id` -/

section Renew

variable {id : Uuid} {worker : String} {now : Timestamp}

/-- The caller of `update_heartbeat` owns the job. -/
def Job.heldBy (worker : String) (j : Job) : Bool :=
  j.workerId = some worker && j.status = .processing

theorem Job.heldBy_iff {j : Job} :
    j.heldBy worker = true ↔ j.workerId = some worker ∧ j.status = .processing := by
  simp [Job.heldBy]

theorem find_owned : (db.jobs.rows.find? fun j => j.id = id && j.workerId = some worker) =
    (db.job id).filter fun j => j.workerId = some worker :=
  Table.find?_and_value db.jobs (fun j => j.workerId = some worker) JobColumn.id id

theorem updateHeartbeat_fst :
    (updateHeartbeat id worker now db).1 = (db.job id).any (Job.heldBy worker) := by
  simp only [updateHeartbeat, find_owned]
  cases db.job id with
  | none => rfl
  | some j =>
    by_cases hw : j.workerId = some worker <;> by_cases hp : j.status = .processing <;>
      simp [Job.heldBy, hw, hp, Option.filter]

theorem updateHeartbeat_snd (id : Uuid) (worker : String) (now : Timestamp) (db : Database) :
    ((updateHeartbeat id worker now db).2.jobs = db.jobs ∧
      (updateHeartbeat id worker now db).2.reviewRecords = db.reviewRecords) := by
  unfold updateHeartbeat
  split
  · exact ⟨rfl, rfl⟩
  · split <;> exact ⟨rfl, rfl⟩

/-- The answer `False` comes before the `UPDATE`. -/
theorem updateHeartbeat_of_not_held (h : (db.job id).any (Job.heldBy worker) = false) :
    updateHeartbeat id worker now db = (false, db) := by
  have hfst : (updateHeartbeat id worker now db).1 = false := updateHeartbeat_fst.trans h
  unfold updateHeartbeat at hfst ⊢
  split at hfst
  · rfl
  · split_ifs at hfst ⊢
    rfl

theorem heartbeat_updateHeartbeat (i : Uuid) :
    (updateHeartbeat id worker now db).2.heartbeat i =
      if i = id then (db.heartbeat id).map fun b =>
        if (db.job id).any (Job.heldBy worker) && b.workerId = worker then
          b.renewed now else b
      else db.heartbeat i := by
  have hsame : db.heartbeat i = if i = id then db.heartbeat id else db.heartbeat i := by
    split_ifs with hi
    · rw [hi]
    · rfl
  have hf : (db.jobs.rows.find? fun j => j.id = id && j.workerId = some worker) = _ := find_owned
  cases hj : db.job id with
  | none =>
    rw [hj] at hf
    simpa [updateHeartbeat, hf] using hsame
  | some j =>
    rw [hj] at hf
    by_cases hw : j.workerId = some worker <;> by_cases hp : j.status = .processing
    · simp only [updateHeartbeat, hf, Option.filter, hw, decide_true, ↓reduceIte, hp, ne_eq,
        not_true_eq_false]
      refine (Table.find_update_at db.workerHeartbeats (Heartbeat.keeps_renewed now) () id i
        (fun h => h.workerId = worker) fun _ => rfl).trans ?_
      simp only [Option.any_some, Job.heldBy, hw, hp, decide_true, Bool.and_self, Bool.true_and]
      rfl
    all_goals simpa [updateHeartbeat, hf, Job.heldBy, hw, hp, Option.filter] using hsame

theorem job_setCheckRunId (checkRunId : ℤ) (i : Uuid) :
    (setCheckRunId id checkRunId db).job i =
      if i = id then (db.job id).map (Job.checkRunSet checkRunId) else db.job i :=
  Table.find_update_at db.jobs (Job.keeps_checkRunSet checkRunId) JobColumn.id id i
    (fun _ => true) fun _ => (Bool.and_true _).symm

/-- A commit has one job, so its check run is the only one `get_check_run_id` can find. -/
theorem getCheckRunId_job (scan : Scan) {j : Job} (h : db.job id = some j) :
    getCheckRunId scan j.repoFullName j.prNumber j.commitSha db = j.githubCheckRunId := by
  obtain ⟨hj, -⟩ := Database.job_eq_some_iff.1 h
  unfold getCheckRunId
  cases hfirst : firstBy (Job.newer scan) (db.jobs.rows.filter fun k =>
      k.repoFullName = j.repoFullName && k.prNumber = j.prNumber && k.commitSha = j.commitSha &&
        k.githubCheckRunId.isSome) with
  | none =>
    have hnone := firstBy_eq_none_iff.1 hfirst
    have hunset : j.githubCheckRunId = none := by
      simpa using List.filter_eq_nil_iff.1 hnone j hj
    exact hunset.symm
  | some k =>
    have hmem := List.mem_filter.1 (firstBy_mem hfirst)
    simp only [Bool.and_eq_true, decide_eq_true_eq] at hmem
    rw [db.jobs.eq_of_value_eq JobColumn.commitSha hmem.1 hj hmem.2.1.2]
    rfl

end Renew

/-! ## `finalize_job` -/

section Finalize

variable {id : Uuid} {token : ℕ} {status : Status} {aiFeedback : Option Dict} {now : Timestamp}

theorem find_fenced : db.jobs.rows.find? (Job.fenced id token) =
    (db.job id).filter fun j => j.fenceToken = token :=
  Table.find?_and_value db.jobs (fun j => j.fenceToken = token) JobColumn.id id

/-- A stale token raises, and the transaction leaves no trace. -/
theorem finalizeJob_stale (h : ∀ j, db.job id = some j → j.fenceToken ≠ token) :
    finalizeJob cfg id token status aiFeedback now db =
      .error (.runtimeError (staleMessage id token)) := by
  have hnone : db.jobs.rows.find? (Job.fenced id token) = none := by
    rw [find_fenced]
    cases hj : db.job id with
    | none => rfl
    | some j => simp [Option.filter, h j hj]
  simp [finalizeJob, hnone]

theorem finalizeJob_current (cfg : Settings) (status : Status) (aiFeedback : Option Dict)
    (now : Timestamp) {j : Job} (h : db.job id = some j) (ht : j.fenceToken = token) :
    ∃ db', finalizeJob cfg id token status aiFeedback now db = .ok db' ∧
      (∀ i, db'.job i = if i = id then
        some (j.finalized status (feedbackJson aiFeedback) now) else db.job i) ∧
      (∀ i, db'.heartbeat i = if i = id then none else db.heartbeat i) ∧
      (∀ sha, db'.record sha = if j.commitSha = sha then
        some ((db.record sha).elim
          (j.reviewRecord cfg ((feedbackJson aiFeedback).getD (.obj [])))
          (ReviewRecord.withFeedback ((feedbackJson aiFeedback).getD (.obj []))))
        else db.record sha) := by
  have hsome : db.jobs.rows.find? (Job.fenced id token) = some j := by
    rw [find_fenced, h]
    simp [Option.filter, ht]
  refine ⟨_, by simp only [finalizeJob, hsome]; rfl, fun i => ?_, fun i => ?_, fun sha => ?_⟩
  · refine (Table.find_update_at db.jobs (Job.keeps_finalized _ _ _) JobColumn.id id i
      (fun j => j.fenceToken = token)
      fun _ => rfl).trans ?_
    have hj : db.jobs.find JobColumn.id id = some j := h
    simp only [hj, Option.map_some, ht, decide_true, ↓reduceIte]
    rfl
  · exact Table.find_delete_at db.workerHeartbeats () id i
  · exact Table.find_upsert db.reviewRecords () _ _ (ReviewRecord.keeps_withFeedback _) sha

theorem finalizeJob_ok_iff :
    (∃ db', finalizeJob cfg id token status aiFeedback now db = .ok db') ↔
      ∃ j, db.job id = some j ∧ j.fenceToken = token := by
  constructor
  · rintro ⟨db', h⟩
    by_contra hne
    have hstale : ∀ j, db.job id = some j → j.fenceToken ≠ token :=
      fun j hj ht => hne ⟨j, hj, ht⟩
    rw [finalizeJob_stale hstale] at h
    cases h
  · rintro ⟨j, hj, ht⟩
    obtain ⟨db', hok, -⟩ := finalizeJob_current cfg status aiFeedback now hj ht
    exact ⟨db', hok⟩

end Finalize

/-! ## `release_job` -/

section Release

variable {id : Uuid} {token : ℕ} {delaySeconds : ℤ} {now : Timestamp}

/-- The guard of `release_job`'s `UPDATE`: the token is current and the job is being worked on. -/
def Job.holds (token : ℕ) (j : Job) : Bool := j.fenceToken = token && j.status = .processing

theorem Job.holds_iff {j : Job} :
    j.holds token = true ↔ j.fenceToken = token ∧ j.status = .processing := by
  simp [Job.holds]

theorem job_releaseJob (i : Uuid) :
    (releaseJob id token delaySeconds now db).job i =
      if i = id then (db.job id).map fun j =>
        if j.holds token then j.released delaySeconds now else j
      else db.job i :=
  Table.find_update_at db.jobs (Job.keeps_released delaySeconds now) JobColumn.id id i
    (Job.holds token) fun _ => Bool.and_assoc _ _ _

theorem heartbeat_releaseJob (i : Uuid) :
    (releaseJob id token delaySeconds now db).heartbeat i =
      if i = id then none else db.heartbeat i :=
  Table.find_delete_at db.workerHeartbeats () id i

end Release

/-! ## `reconcile_stale_jobs` -/

section Reconcile

variable {locked : List Uuid} {now : Timestamp}

theorem processing_of_reclaimable {j : Job} (h : reclaimable cfg locked now db j = true) :
    j.status = .processing := Job.processing_of_stale (Bool.and_eq_true_iff.1 h).1

/-- The first `UPDATE`, on one row. -/
def Job.reconciled (cfg : Settings) (now : Timestamp) (taken : Bool) (j : Job) : Job :=
  if taken then j.reclaimed cfg now else j

/-- The last `UPDATE`, on one row. -/
def Job.expired (now : Timestamp) (j : Job) : Job := if j.overdue now then j.timedOut else j

theorem job_reconcileStaleJobs (i : Uuid) :
    (reconcileStaleJobs cfg locked now db).2.job i = (db.job i).map fun j =>
      (j.reconciled cfg now (reclaimable cfg locked now db j)).expired now := by
  simp only [reconcileStaleJobs, Database.job, Table.find_update, Option.map_map]
  rfl

theorem heartbeat_reconcileStaleJobs (i : Uuid) :
    (reconcileStaleJobs cfg locked now db).2.heartbeat i = (db.heartbeat i).filter fun _ =>
      (db.job i).any fun j =>
        (j.reconciled cfg now (reclaimable cfg locked now db j)).status = .processing := by
  simp only [reconcileStaleJobs, Database.heartbeat, Table.find_delete, Bool.not_not,
    Table.find_update]
  cases h : db.workerHeartbeats.find () i with
  | none => rfl
  | some b =>
    have hb : b.jobId = i := heartbeat_jobId h
    simp only [Option.filter, hb, Option.any_map, Database.job]
    rfl

end Reconcile

end Revix
