import Revix.QueueRuns

/-! No transaction reads the check run of a job: all else in the tables is as if tasks stored
none. -/
namespace Revix
open KeyedTables LabelledRuns

def Job.unmarked (j : Job) : Job := { j with githubCheckRunId := none }

theorem Job.keeps_unmarked : KeepsKeys Job.unmarked := by
  rintro (_ | _) _ <;> rfl

theorem Job.unmarked_unmarked (j : Job) : j.unmarked.unmarked = j.unmarked := rfl

namespace Database

def unmarked (db : Database) : Database :=
  { db with jobs := db.jobs.updateAll Job.unmarked Job.keeps_unmarked }

variable {db : Database}

theorem job_unmarked (i : Uuid) : db.unmarked.job i = (db.job i).map Job.unmarked :=
  Table.find_updateAll db.jobs Job.unmarked Job.keeps_unmarked JobColumn.id i

theorem jobOfSha_unmarked (sha : String) :
    db.unmarked.jobOfSha sha = (db.jobOfSha sha).map Job.unmarked :=
  Table.find_updateAll db.jobs Job.unmarked Job.keeps_unmarked JobColumn.commitSha sha

theorem unmarked_congr {db' : Database}
    (hj : db.jobs.updateAll Job.unmarked Job.keeps_unmarked =
      db'.jobs.updateAll Job.unmarked Job.keeps_unmarked)
    (hb : db.workerHeartbeats = db'.workerHeartbeats)
    (hr : db.reviewRecords = db'.reviewRecords) : db.unmarked = db'.unmarked := by
  simp only [unmarked, hj, hb, hr]

theorem unmarked_unmarked : db.unmarked.unmarked = db.unmarked :=
  unmarked_congr (Table.updateAll_updateAll _ Job.unmarked_unmarked _) rfl rfl

end Database

namespace Queue

def unmarked (s : Queue) : Queue := ⟨s.db.unmarked, s.claims.map Job.unmarked⟩

variable {cfg : Settings} {s : Queue}

theorem unmarked_congr {s' : Queue} (hdb : s.db.unmarked = s'.db.unmarked)
    (hc : s.claims.map Job.unmarked = s'.claims.map Job.unmarked) : s.unmarked = s'.unmarked := by
  simp only [unmarked, hdb, hc]

theorem claims_unmarked : s.claims.map Job.unmarked = s.unmarked.claims.map Job.unmarked := by
  simp [unmarked, Job.unmarked]

theorem unmarked_unmarked : s.unmarked.unmarked = s.unmarked :=
  unmarked_congr Database.unmarked_unmarked claims_unmarked.symm

/-- An assignment to the jobs that does not read their check runs. -/
theorem unmarked_update {hit : Job → Bool} {f : Job → Job} (hf : KeepsKeys f)
    (hhit : ∀ j : Job, hit j.unmarked = hit j)
    (hfg : ∀ j : Job, (f j.unmarked).unmarked = (f j).unmarked) (db : Database) :
    (db.jobs.update hit f hf).updateAll Job.unmarked Job.keeps_unmarked =
      (db.unmarked.jobs.update hit f hf).updateAll Job.unmarked Job.keeps_unmarked :=
  (Table.updateAll_update _ Job.unmarked_unmarked hf hhit hfg db.jobs).symm

theorem unmarked_enqueueIfNew (sha repo : String) (pullNumber installationId : ℤ)
    (traceContext : Option Dict) (id : Uuid) (now : Timestamp) :
    let e := Transaction.enqueueIfNew sha repo pullNumber installationId traceContext id now
    (s.exec cfg e).unmarked = (s.unmarked.exec cfg e).unmarked := by
  intro e
  simp only [e, exec]
  cases hr : s.db.record sha with
  | some r =>
    have hr' : s.unmarked.db.record sha = some r := hr
    rw [enqueueIfNew_recorded hr, enqueueIfNew_recorded hr']
    exact unmarked_unmarked.symm
  | none =>
    have hr' : s.unmarked.db.record sha = none := hr
    cases hs : s.db.jobOfSha sha with
    | some j =>
      have hs' : s.unmarked.db.jobOfSha sha = some j.unmarked := by
        rw [unmarked, Database.jobOfSha_unmarked, hs]
        rfl
      rw [enqueueIfNew_conflict _ _ _ _ _ _ hr hs, enqueueIfNew_conflict _ _ _ _ _ _ hr' hs']
      exact unmarked_unmarked.symm
    | none =>
      have hs' : s.unmarked.db.jobOfSha sha = none := by
        rw [unmarked, Database.jobOfSha_unmarked, hs]
        rfl
      cases hid : s.db.job id with
      | some j =>
        have hid' : s.unmarked.db.job id = some j.unmarked := by
          rw [unmarked, Database.job_unmarked, hid]
          rfl
        rw [enqueueIfNew_collision hr hs hid, enqueueIfNew_collision hr' hs' hid']
        exact unmarked_unmarked.symm
      | none =>
        have hid' : s.unmarked.db.job id = none := by
          rw [unmarked, Database.job_unmarked, hid]
          rfl
        simp only [enqueueIfNew, hr, hr', hs, hs', hid, hid', Option.isSome_none,
          Bool.false_eq_true, ↓reduceIte, ↓reduceDIte]
        refine unmarked_congr (Database.unmarked_congr ?_ rfl rfl) claims_unmarked
        let row := Job.enqueued id sha repo pullNumber installationId traceContext now
        have hfresh : ∀ c, s.db.jobs.find c (value c row) = none := by
          rintro (_ | _)
          exacts [hid, hs]
        have hfresh' : ∀ c, s.unmarked.db.jobs.find c (value c row) = none := by
          rintro (_ | _)
          exacts [hid', hs']
        exact (Table.updateAll_insert Job.keeps_unmarked Job.unmarked_unmarked s.db.jobs row hfresh
          hfresh').symm

theorem claimCandidate_unmarked (scan : Scan) (now : Timestamp) (db : Database) :
    claimCandidate scan now db.unmarked = (claimCandidate scan now db).map Job.unmarked := by
  have hrows : db.unmarked.jobs.rows = db.jobs.rows.map Job.unmarked :=
    Table.rows_updateAll db.jobs Job.unmarked Job.keeps_unmarked
  have hfilter : (db.jobs.rows.map Job.unmarked).filter
      (fun j => j.claimable now && !scan.locked.contains j.id) =
      (db.jobs.rows.filter fun j => j.claimable now && !scan.locked.contains j.id).map
        Job.unmarked := List.filter_map
  rw [claimCandidate, hrows, hfilter]
  exact firstBy_map (g := Job.unmarked) (fun _ _ => rfl) _

theorem unmarked_claimJob (worker : String) (scan : Scan) (now : Timestamp) :
    (s.exec cfg (.claimJob worker scan now)).unmarked =
      (s.unmarked.exec cfg (.claimJob worker scan now)).unmarked := by
  have hcandidate : claimCandidate scan now s.unmarked.db =
      (claimCandidate scan now s.db).map Job.unmarked := claimCandidate_unmarked scan now s.db
  cases hc : claimCandidate scan now s.db with
  | none =>
    rw [hc] at hcandidate
    simp only [exec, claimJob_none hc, claimJob_none hcandidate]
    exact unmarked_unmarked.symm
  | some c =>
    rw [hc] at hcandidate
    simp only [exec, claimJob, hc, hcandidate, Option.map_some]
    refine unmarked_congr (Database.unmarked_congr ?_ rfl rfl) ?_
    · exact unmarked_update (Job.keeps_claimed worker now) (fun _ => rfl) (fun _ => rfl) s.db
    · exact congrArg₂ List.cons rfl claims_unmarked

theorem unmarked_updateHeartbeat (id : Uuid) (worker : String) (now : Timestamp) :
    (s.exec cfg (.updateHeartbeat id worker now)).unmarked =
      (s.unmarked.exec cfg (.updateHeartbeat id worker now)).unmarked := by
  have hjobs := (updateHeartbeat_snd id worker now s.db).1
  have hjobs' := (updateHeartbeat_snd id worker now s.unmarked.db).1
  have hbeats : (updateHeartbeat id worker now s.db).2.workerHeartbeats =
      (updateHeartbeat id worker now s.unmarked.db).2.workerHeartbeats := by
    have hfind : (s.unmarked.db.job id).filter (fun j => j.workerId = some worker) =
        ((s.db.job id).filter fun j => j.workerId = some worker).map Job.unmarked := by
      rw [unmarked, Database.job_unmarked]
      cases s.db.job id with
      | none => rfl
      | some j =>
        by_cases hw : j.workerId = some worker <;> simp [Option.filter, Job.unmarked, hw]
    simp only [updateHeartbeat, find_owned, hfind]
    cases (s.db.job id).filter fun j => j.workerId = some worker with
    | none => rfl
    | some j =>
      by_cases hp : j.status = .processing <;> simp [Job.unmarked, hp] <;> rfl
  refine unmarked_congr (Database.unmarked_congr ?_ hbeats ?_) claims_unmarked
  · simp only [exec, hjobs, hjobs']
    exact (Table.updateAll_updateAll _ Job.unmarked_unmarked _).symm
  · simp only [exec, (updateHeartbeat_snd id worker now s.db).2,
      (updateHeartbeat_snd id worker now s.unmarked.db).2]
    rfl

theorem unmarked_setCheckRunId (id : Uuid) (checkRunId : ℤ) :
    (s.exec cfg (.setCheckRunId id checkRunId)).unmarked = s.unmarked := by
  refine unmarked_congr (Database.unmarked_congr ?_ rfl rfl) rfl
  ext1
  simp only [exec, setCheckRunId, Table.rows_updateAll, Table.update, List.map_map]
  apply List.map_congr_left
  intro j _
  simp only [Function.comp_apply]
  split <;> rfl

theorem unmarked_finalizeJob (id : Uuid) (token : ℕ) (verdict : Verdict)
    (aiFeedback : Option Dict) (now : Timestamp) :
    (s.exec cfg (.finalizeJob id token verdict aiFeedback now)).unmarked =
      (s.unmarked.exec cfg (.finalizeJob id token verdict aiFeedback now)).unmarked := by
  have hfind : (s.unmarked.db.job id).filter (fun j => j.fenceToken = token) =
      ((s.db.job id).filter fun j => j.fenceToken = token).map Job.unmarked := by
    rw [unmarked, Database.job_unmarked]
    cases s.db.job id with
    | none => rfl
    | some j => by_cases ht : j.fenceToken = token <;> simp [Option.filter, Job.unmarked, ht]
  simp only [exec, finalizeJob, find_fenced, hfind]
  cases (s.db.job id).filter fun j => j.fenceToken = token with
  | none => exact unmarked_unmarked.symm
  | some j =>
    refine unmarked_congr (Database.unmarked_congr ?_ rfl rfl) claims_unmarked
    exact unmarked_update (Job.keeps_finalized _ _ _) (fun _ => rfl) (fun _ => rfl) s.db

theorem unmarked_releaseJob (id : Uuid) (token : ℕ) (delaySeconds : ℤ) (now : Timestamp) :
    (s.exec cfg (.releaseJob id token delaySeconds now)).unmarked =
      (s.unmarked.exec cfg (.releaseJob id token delaySeconds now)).unmarked := by
  refine unmarked_congr (Database.unmarked_congr ?_ rfl rfl) claims_unmarked
  exact unmarked_update (Job.keeps_released _ _) (fun _ => rfl) (fun _ => rfl) s.db

theorem unmarked_reconcileStaleJobs (locked : List Uuid) (now : Timestamp) :
    (s.exec cfg (.reconcileStaleJobs locked now)).unmarked =
      (s.unmarked.exec cfg (.reconcileStaleJobs locked now)).unmarked := by
  let hit := reclaimable cfg locked now s.db
  let jobs := s.db.jobs.update hit (Job.reclaimed cfg now) (Job.keeps_reclaimed cfg now)
  let jobs' := s.unmarked.db.jobs.update hit (Job.reclaimed cfg now) (Job.keeps_reclaimed cfg now)
  have hjobs : jobs.updateAll Job.unmarked Job.keeps_unmarked =
      jobs'.updateAll Job.unmarked Job.keeps_unmarked :=
    unmarked_update (Job.keeps_reclaimed cfg now) (fun _ => rfl) (fun _ => rfl) s.db
  refine unmarked_congr (Database.unmarked_congr ?_ ?_ rfl) claims_unmarked
  · have hlast : ∀ t : Table Job,
        ((t.updateAll Job.unmarked Job.keeps_unmarked).update (Job.overdue now) Job.timedOut
          Job.keeps_timedOut).updateAll Job.unmarked Job.keeps_unmarked =
        (t.update (Job.overdue now) Job.timedOut Job.keeps_timedOut).updateAll Job.unmarked
          Job.keeps_unmarked :=
      Table.updateAll_update Job.keeps_unmarked Job.unmarked_unmarked Job.keeps_timedOut
        (fun _ => rfl) fun _ => rfl
    have hleft := hlast jobs
    rw [hjobs, hlast jobs'] at hleft
    exact hleft.symm
  · -- the heartbeats that go are those of jobs that are not being worked on any more
    have hworked : ∀ id, (jobs.find JobColumn.id id).any (fun j => j.status = .processing) =
        (jobs'.find JobColumn.id id).any fun j => j.status = .processing := by
      intro id
      have hfind := congrArg (fun t : Table Job => (t.find JobColumn.id id).any fun j =>
        decide (j.status = .processing)) hjobs
      simp only [Table.find_updateAll, Option.any_map] at hfind
      exact hfind
    have hdelete : (fun h : Heartbeat => !(jobs.find JobColumn.id h.jobId).any fun j =>
        decide (j.status = .processing)) = fun h : Heartbeat =>
        !(jobs'.find JobColumn.id h.jobId).any fun j => decide (j.status = .processing) := by
      funext h
      rw [hworked]
    exact congrArg s.db.workerHeartbeats.delete hdelete

/-- No transaction reads a check run. -/
theorem unmarked_exec (e : Transaction) :
    (s.exec cfg e).unmarked = (s.unmarked.exec cfg e).unmarked := by
  cases e with
  | enqueueIfNew => exact unmarked_enqueueIfNew _ _ _ _ _ _ _
  | claimJob => exact unmarked_claimJob _ _ _
  | updateHeartbeat => exact unmarked_updateHeartbeat _ _ _
  | setCheckRunId id checkRunId =>
    rw [unmarked_setCheckRunId, unmarked_setCheckRunId]
    exact unmarked_unmarked.symm
  | finalizeJob => exact unmarked_finalizeJob _ _ _ _ _
  | releaseJob => exact unmarked_releaseJob _ _ _ _
  | reconcileStaleJobs => exact unmarked_reconcileStaleJobs _ _
  | heartbeatsLost => exact unmarked_unmarked.symm

/-- Queues that agree but for check runs still do after any transactions. -/
theorem unmarked_foldl {s' : Queue} (h : s.unmarked = s'.unmarked) (es : List Transaction) :
    (es.foldl (exec cfg) s).unmarked = (es.foldl (exec cfg) s').unmarked := by
  induction es generalizing s s' with
  | nil => exact h
  | cons e es ih =>
    apply ih
    rw [unmarked_exec, h, ← unmarked_exec]

end Queue

end Revix
