import Revix.QueueRuns
import Revix.ReviewData

namespace Revix
open KeyedTables LabelledRuns

/-- What `reconciliation_loop` sends for one returned row, once it has a token for the
installation. A payload that is a string is decoded with `loads`. -/
def stalledUpdate (loads : String → Option Json) (row : ReconciledRow) :
    Option (Json × CheckRunUpdate) :=
  match row.githubCheckRunId with
  | none => none
  | some checkRunId =>
    if checkRunId ≠ 0 ∧ (row.status = .dead ∨ row.status = .pending) then
      match (match row.payload with | .str s => loads s | payload => some payload) with
      | some (.obj fields) =>
        match Dict.get fields "installation_id" with
        | some instId =>
          if instId.truthy then
            some (instId,
              { repo := row.repoFullName
                checkRunId := checkRunId
                conclusion := if row.status = .dead then .failure else .actionRequired
                output := [("title", "Review Stalled"),
                  ("summary", "Job stalled or worker died." ++
                    if row.status = .pending then " Retrying analysis..." else "")] })
          else none
        | none => none
      -- anything else has no `get`, and the loop goes on to the next row
      | _ => none
    else none

theorem stalledUpdate_conclusion {loads : String → Option Json} {row : ReconciledRow}
    {instId : Json} {u : CheckRunUpdate} (h : stalledUpdate loads row = some (instId, u)) :
    (row.status = .dead ∨ row.status = .pending) ∧
      u.conclusion = if row.status = .dead then .failure else .actionRequired := by
  unfold stalledUpdate at h
  split at h
  · cases h
  · split at h
    · rename_i hc
      split at h
      · split at h
        · split at h
          · cases h
            exact ⟨hc.2, rfl⟩
          · cases h
        · cases h
      · cases h
    · cases h

/-- The returned rows are the jobs whose status the transaction changed, each with the status
that is committed, and the updates sent to GitHub agree with it. -/
structure ReportsCommitted (loads : String → Option Json) (rows : List ReconciledRow)
    (db db' : Database) : Prop where
  changed : ∀ id, (∃ row ∈ rows, row.id = id) ↔
    ∃ j j', db.job id = some j ∧ db'.job id = some j' ∧ j'.status ≠ j.status
  committed : ∀ row ∈ rows, ∀ j', db'.job row.id = some j' → row.status = j'.status
  failures : ∀ id j j', db.job id = some j → db'.job id = some j' → j'.status ≠ j.status →
    (stalledUpdate loads j'.returning).isSome →
      ((∃ row ∈ rows, row.id = id ∧ ∃ instId u, stalledUpdate loads row = some (instId, u) ∧
        u.conclusion = .failure) ↔ j'.status = .dead)
  retries : ∀ row ∈ rows, ∀ instId u, stalledUpdate loads row = some (instId, u) →
    u.conclusion = .actionRequired → ∀ j', db'.job row.id = some j' → j'.status = .pending

/-- No job over an hour old is waiting, or stale with attempts left. -/
def NothingOverdue (cfg : Settings) (locked : List Uuid) (now : Timestamp) (db : Database) :
    Prop :=
  ∀ j ∈ db.jobs.rows, j.createdAt < now - hour →
    j.status ≠ .pending ∧ (reclaimable cfg locked now db j = true → j.exhausted = true)

section Reports

variable {cfg : Settings} {loads : String → Option Json} {locked : List Uuid} {now : Timestamp}
  {db : Database}

theorem mem_reconciled_rows {row : ReconciledRow} :
    row ∈ (reconcileStaleJobs cfg locked now db).1 ↔
      ∃ j ∈ db.jobs.rows, reclaimable cfg locked now db j = true ∧
        (j.reclaimed cfg now).returning = row := by
  simp [reconcileStaleJobs, and_assoc]

/-- Where nothing is overdue, the last `UPDATE` does nothing. -/
theorem job_reconciled_of_nothingOverdue (h : NothingOverdue cfg locked now db) {j : Job}
    (hj : j ∈ db.jobs.rows) : (reconcileStaleJobs cfg locked now db).2.job j.id =
      some (j.reconciled cfg now (reclaimable cfg locked now db j)) := by
  rw [job_reconcileStaleJobs, Database.job_of_mem hj, Option.map_some]
  congr 1
  apply if_neg
  intro ho
  obtain ⟨hp, hold⟩ := Job.overdue_iff.1 ho
  cases hr : reclaimable cfg locked now db j with
  | false =>
    simp only [hr, Job.reconciled, Bool.false_eq_true, ↓reduceIte] at hp hold
    exact (h j hj hold).1 hp
  | true =>
    simp only [hr, Job.reconciled, ↓reduceIte, Job.reclaimed] at hp hold
    simp [(h j hj hold).2 hr] at hp

/-- The row of a job that was taken, which has changed its status. -/
theorem changed_of_row (h : NothingOverdue cfg locked now db) {row : ReconciledRow}
    (hrow : row ∈ (reconcileStaleJobs cfg locked now db).1) :
    ∃ j j', db.job row.id = some j ∧
      (reconcileStaleJobs cfg locked now db).2.job row.id = some j' ∧ j'.returning = row ∧
      j'.status ≠ j.status := by
  obtain ⟨j, hj, hr, rfl⟩ := mem_reconciled_rows.1 hrow
  refine ⟨j, j.reclaimed cfg now, Database.job_of_mem hj, ?_, rfl, ?_⟩
  · rw [show (j.reclaimed cfg now).returning.id = j.id from rfl,
      job_reconciled_of_nothingOverdue h hj, hr]
    rfl
  · rw [processing_of_reclaimable hr]
    simp only [Job.reclaimed]
    split <;> simp

theorem row_of_changed (h : NothingOverdue cfg locked now db) {id : Uuid} {j j' : Job}
    (hj : db.job id = some j) (hj' : (reconcileStaleJobs cfg locked now db).2.job id = some j')
    (hne : j'.status ≠ j.status) :
    j'.returning ∈ (reconcileStaleJobs cfg locked now db).1 ∧ j'.id = id := by
  obtain ⟨hmem, rfl⟩ := Database.job_eq_some_iff.1 hj
  rw [job_reconciled_of_nothingOverdue h hmem] at hj'
  obtain rfl := Option.some.inj hj'
  cases hr : reclaimable cfg locked now db j with
  | false => simp [Job.reconciled, hr] at hne
  | true => exact ⟨mem_reconciled_rows.2 ⟨j, hmem, hr, rfl⟩, rfl⟩

theorem reports_of_nothingOverdue (h : NothingOverdue cfg locked now db) :
    ReportsCommitted loads (reconcileStaleJobs cfg locked now db).1 db
      (reconcileStaleJobs cfg locked now db).2 := by
  constructor
  case changed =>
    intro id
    constructor
    · rintro ⟨row, hmem, rfl⟩
      obtain ⟨j, j', hj, hj', -, hne⟩ := changed_of_row h hmem
      exact ⟨j, j', hj, hj', hne⟩
    · rintro ⟨j, j', hj, hj', hne⟩
      obtain ⟨hmem, hid⟩ := row_of_changed h hj hj' hne
      exact ⟨_, hmem, hid⟩
  case committed =>
    intro row hmem j' hj'
    obtain ⟨-, k, -, hk, hreturn, -⟩ := changed_of_row h hmem
    obtain rfl := Option.some.inj (hk.symm.trans hj')
    rw [← hreturn]
    rfl
  case failures =>
    intro id j j' hj hj' hne hsome
    obtain ⟨hmem, hid⟩ := row_of_changed h hj hj' hne
    constructor
    · rintro ⟨row, hmem', hrid, instId, u, hu, hfail⟩
      obtain ⟨-, k, -, hk, hreturn, -⟩ := changed_of_row h hmem'
      rw [hrid] at hk
      obtain rfl := Option.some.inj (hk.symm.trans hj')
      have hconc := (stalledUpdate_conclusion hu).2
      by_contra hdead
      have hdead' : row.status ≠ .dead := by
        rw [← hreturn]
        exact hdead
      rw [if_neg hdead', hfail] at hconc
      cases hconc
    · intro hdead
      obtain ⟨⟨instId, u⟩, hu⟩ := Option.isSome_iff_exists.1 hsome
      refine ⟨_, hmem, hid, instId, u, hu, ?_⟩
      rw [(stalledUpdate_conclusion hu).2]
      exact if_pos hdead
  case retries =>
    intro row hmem instId u hu hconc j' hj'
    obtain ⟨-, k, -, hk, hreturn, -⟩ := changed_of_row h hmem
    obtain rfl := Option.some.inj (hk.symm.trans hj')
    obtain ⟨hst, hconc'⟩ := stalledUpdate_conclusion hu
    rw [← hreturn] at hst hconc'
    rcases hst with hdead | hpend
    · rw [if_pos hdead, hconc] at hconc'
      cases hconc'
    · exact hpend

theorem nothingOverdue_of_reports
    (h : ReportsCommitted loads (reconcileStaleJobs cfg locked now db).1 db
      (reconcileStaleJobs cfg locked now db).2) : NothingOverdue cfg locked now db := by
  intro j hj hold
  have hjob : (reconcileStaleJobs cfg locked now db).2.job j.id = _ := job_reconcileStaleJobs j.id
  rw [Database.job_of_mem hj, Option.map_some] at hjob
  constructor
  · intro hp
    have hr : reclaimable cfg locked now db j = false := by
      by_contra hr
      rw [Bool.not_eq_false] at hr
      rw [processing_of_reclaimable hr] at hp
      cases hp
    have hdead : ((j.reconciled cfg now (reclaimable cfg locked now db j)).expired now) =
        j.timedOut := by
      simp [hr, Job.reconciled, Job.expired, Job.overdue, hp, hold]
    rw [hdead] at hjob
    obtain ⟨row, hmem, hid⟩ := (h.changed j.id).2
      ⟨j, _, Database.job_of_mem hj, hjob, by simp [Job.timedOut, hp]⟩
    obtain ⟨k, hk, hrk, rfl⟩ := mem_reconciled_rows.1 hmem
    have hkj : k = j := db.jobs.eq_of_value_eq JobColumn.id hk hj hid
    rw [hkj, hr] at hrk
    cases hrk
  · intro hr
    by_contra hx
    rw [Bool.not_eq_true] at hx
    have hmem := mem_reconciled_rows.2 ⟨j, hj, hr, rfl⟩
    have hcommitted := h.committed _ hmem _ hjob
    simp [hr, Job.reconciled, Job.reclaimed, hx, Job.expired, Job.overdue, hold, Job.timedOut,
      Job.returning] at hcommitted

end Reports

namespace Queue

def NothingOverdue (cfg : Settings) (s : Queue) : Transaction → Prop
  | .reconcileStaleJobs locked now => Revix.NothingOverdue cfg locked now s.db
  | _ => True

def ReportsCommitted (cfg : Settings) (loads : String → Option Json) (s : Queue)
    (e : Transaction) (t : Queue) : Prop :=
  ∀ locked now, e = .reconcileStaleJobs locked now →
    Revix.ReportsCommitted loads (reconcileStaleJobs cfg locked now s.db).1 s.db t.db

theorem reports_step_iff {cfg : Settings} {loads : String → Option Json} {s t : Queue}
    {e : Transaction} (hs : Step cfg s e t) :
    s.NothingOverdue cfg e ↔ s.ReportsCommitted cfg loads e t := by
  cases e with
  | reconcileStaleJobs locked now =>
    obtain ⟨-, rfl⟩ := step_iff.1 hs
    constructor
    · rintro h _ _ ⟨⟩
      exact reports_of_nothingOverdue h
    · exact fun h => nothingOverdue_of_reports (h locked now rfl)
  | _ => exact iff_of_true trivial fun _ _ h => nomatch h

end Queue

/-- `reconcile_stale_jobs` reports what it commits exactly when no job over an hour old is
waiting, or stale with attempts left; and so in whole runs. -/
theorem reconciliation_reports_iff (cfg : Settings) (loads : String → Option Json) :
    (∀ locked now db, NothingOverdue cfg locked now db ↔
      ReportsCommitted loads (reconcileStaleJobs cfg locked now db).1 db
        (reconcileStaleJobs cfg locked now db).2) ∧
    ∀ es s, Run (Guarded (Queue.Step cfg) fun s e _ => s.NothingOverdue cfg e) .empty es s ↔
      Run (Guarded (Queue.Step cfg) (Queue.ReportsCommitted cfg loads)) .empty es s := by
  constructor
  · intro locked now db
    exact ⟨reports_of_nothingOverdue, nothingOverdue_of_reports⟩
  · intro es s
    exact Run.guarded_congr (I := fun _ => True) (fun _ _ _ _ hs => Queue.reports_step_iff hs)
      (fun _ _ _ _ _ _ => trivial) trivial

/-- A job that waits for over an hour dies without a row being returned for it. -/
theorem death_unreported : ∃ s t,
    Run (Queue.Step {}) .empty [Sample.enqueue] s ∧
    Queue.Step {} s (.reconcileStaleJobs [] (3601 * second)) t ∧
    ∀ loads, ¬ s.ReportsCommitted {} loads (.reconcileStaleJobs [] (3601 * second)) t := by
  obtain ⟨s, hr, hp⟩ := Queue.exists_run {} .empty [Sample.enqueue]
    (fun s => (s.db.job Sample.jobId).map (fun j => (j.status, j.createdAt)) =
      some (.pending, 0)) (by decide)
  obtain ⟨j, hj, heq⟩ := Option.map_eq_some_iff.1 (of_decide_eq_true hp)
  obtain ⟨hst, hat⟩ := Prod.mk.inj heq
  have hs : Queue.Step {} s (.reconcileStaleJobs [] (3601 * second)) _ := Queue.step_exec trivial
  refine ⟨s, _, hr, hs, fun loads h => ?_⟩
  have hnot := (Queue.reports_step_iff hs).2 h j (Database.job_eq_some_iff.1 hj).1
    (by rw [hat]; decide)
  exact hnot.1 hst

end Revix
