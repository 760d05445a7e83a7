import Revix.QueueHeartbeats
import Revix.QueueReconciliation

namespace Revix
open KeyedTables LabelledRuns

section Reconcilers

variable {cfg : Settings} {locked locked' : List Uuid} {now : Timestamp} {db : Database}

theorem not_overdue_expired (now : Timestamp) (j : Job) : (j.expired now).overdue now = false := by
  unfold Job.expired
  split
  · rfl
  · rename_i h
    exact Bool.eq_false_of_not_eq_true h

/-- A job that is processing after a reconciliation was passed over by it, with its heartbeat. -/
theorem passed_over {j : Job} (hj : j ∈ (reconcileStaleJobs cfg locked now db).2.jobs.rows)
    (hp : j.status = .processing) :
    j ∈ db.jobs.rows ∧ reclaimable cfg locked now db j = false ∧
      (reconcileStaleJobs cfg locked now db).2.heartbeat j.id = db.heartbeat j.id := by
  have hjob := Database.job_of_mem hj
  rw [job_reconcileStaleJobs, Option.map_eq_some_iff] at hjob
  obtain ⟨k, hk, heq⟩ := hjob
  have hexpired : j = k.reconciled cfg now (reclaimable cfg locked now db k) :=
    heq.symm.trans (Life.expired_processing (heq ▸ hp))
  have htaken := Life.reconciled_processing (hexpired ▸ hp)
  have hkj : k = j := by
    rw [hexpired, htaken]
    rfl
  subst hkj
  refine ⟨(Database.job_eq_some_iff.1 hk).1, htaken, ?_⟩
  rw [heartbeat_reconcileStaleJobs, hk, Option.any_some, htaken]
  cases db.heartbeat k.id with
  | none => rfl
  | some b => simp [Job.reconciled, hp]

theorem not_overdue_reconciled {j : Job}
    (hj : j ∈ (reconcileStaleJobs cfg locked now db).2.jobs.rows) : j.overdue now = false := by
  have hjob := Database.job_of_mem hj
  rw [job_reconcileStaleJobs, Option.map_eq_some_iff] at hjob
  obtain ⟨k, -, rfl⟩ := hjob
  exact not_overdue_expired now _

/-- The heartbeats that are left are those of jobs being processed. -/
theorem processing_of_heartbeat {h : Heartbeat}
    (hh : h ∈ (reconcileStaleJobs cfg locked now db).2.workerHeartbeats.rows) :
    ((reconcileStaleJobs cfg locked now db).2.job h.jobId).any
      (fun j => j.status = .processing) = true := by
  have hbeat := Database.heartbeat_eq_some_iff.2 ⟨hh, rfl⟩
  rw [heartbeat_reconcileStaleJobs, Option.filter_eq_some_iff] at hbeat
  obtain ⟨-, hany⟩ := hbeat
  obtain ⟨j, hj, hp⟩ := (Option.any_eq_true _ _).1 hany
  rw [job_reconcileStaleJobs, hj, Option.map_some, Option.any_some]
  have hkeep : (j.reconciled cfg now (reclaimable cfg locked now db j)).overdue now = false := by
    simp [Job.overdue, of_decide_eq_true hp]
  rwa [Job.expired, if_neg (by simp [hkeep])]

/-- Whatever a second run takes, the first one passed over. -/
theorem reclaimable_again {j : Job} (hj : j ∈ (reconcileStaleJobs cfg locked now db).2.jobs.rows)
    (h : reclaimable cfg locked' now (reconcileStaleJobs cfg locked now db).2 j = true) :
    j ∈ db.jobs.rows ∧ reclaimable cfg locked now db j = false ∧ j.id ∈ locked ∧
      j.id ∉ locked' := by
  have hp := processing_of_reclaimable h
  obtain ⟨hmem, hpassed, hbeat⟩ := passed_over hj hp
  simp only [reclaimable, hbeat, Bool.and_eq_true, Bool.not_eq_true', List.contains_eq_mem,
    decide_eq_false_iff_not] at h
  refine ⟨hmem, hpassed, ?_, h.2⟩
  simpa [reclaimable, h.1] using hpassed

/-- Nothing is left for a run that passes over the rows that the first one passed over. -/
theorem reconcileStaleJobs_again (h : locked ⊆ locked') :
    reconcileStaleJobs cfg locked' now (reconcileStaleJobs cfg locked now db).2 =
      ([], (reconcileStaleJobs cfg locked now db).2) := by
  have hhit : ∀ j ∈ (reconcileStaleJobs cfg locked now db).2.jobs.rows,
      reclaimable cfg locked' now (reconcileStaleJobs cfg locked now db).2 j = false := by
    intro j hj
    refine Bool.eq_false_of_not_eq_true fun hagain => ?_
    obtain ⟨-, -, hlocked, hunlocked⟩ := reclaimable_again hj hagain
    exact hunlocked (h hlocked)
  generalize hdb : (reconcileStaleJobs cfg locked now db).2 = db' at hhit ⊢
  have hjobs := Table.update_eq_self db'.jobs _ _ (Job.keeps_reclaimed cfg now) hhit
  have hrows : db'.jobs.rows.filter (reclaimable cfg locked' now db') = [] :=
    List.filter_eq_nil_iff.2 fun j hj => by simp [hhit j hj]
  have hbeats : (db'.workerHeartbeats.delete fun b =>
      !(db'.jobs.find JobColumn.id b.jobId).any fun j => j.status = .processing) =
        db'.workerHeartbeats := by
    refine Table.delete_eq_self _ _ fun b hb => ?_
    subst hdb
    have hany := processing_of_heartbeat hb
    rw [Database.job] at hany
    simp [hany]
  have hexpired : db'.jobs.update (Job.overdue now) Job.timedOut Job.keeps_timedOut =
      db'.jobs := by
    refine Table.update_eq_self _ _ _ _ fun j hj => ?_
    subst hdb
    exact not_overdue_reconciled hj
  simp only [reconcileStaleJobs, hrows, hjobs, hbeats, hexpired, List.map_nil]

/-- A second run takes no job that the first one took. -/
theorem not_reclaimable_again {j : Job} (hj : db.job j.id = some j)
    (htaken : reclaimable cfg locked now db j = true) {j' : Job}
    (hj' : (reconcileStaleJobs cfg locked now db).2.job j.id = some j') :
    reclaimable cfg locked' now (reconcileStaleJobs cfg locked now db).2 j' = false := by
  obtain ⟨hmem, hid⟩ := Database.job_eq_some_iff.1 hj'
  refine Bool.eq_false_of_not_eq_true fun hagain => ?_
  obtain ⟨hbefore, hpassed, -⟩ := reclaimable_again hmem hagain
  rw [db.jobs.eq_of_value_eq JobColumn.id hbefore (Database.job_eq_some_iff.1 hj).1 hid] at hpassed
  rw [hpassed] at htaken
  cases htaken

theorem fenceToken_reconciled (taken : Bool) (j : Job) :
    ((j.reconciled cfg now taken).expired now).fenceToken = j.fenceToken + taken.toNat := by
  rw [Life.expired_fenceToken]
  cases taken <;> rfl

end Reconcilers

namespace Queue

variable {cfg : Settings} {locked locked' : List Uuid} {now : Timestamp} {s t : Queue}

theorem exec_reconcile_again (h : locked ⊆ locked') :
    (s.exec cfg (.reconcileStaleJobs locked now)).exec cfg (.reconcileStaleJobs locked' now) =
      s.exec cfg (.reconcileStaleJobs locked now) := by
  simp only [exec, reconcileStaleJobs_again h]

/-- However many reconcilers follow the first one, they find nothing to do. -/
theorem run_reconcilers {es : List Transaction}
    (hes : ∀ e ∈ es, ∃ locked', locked ⊆ locked' ∧ e = .reconcileStaleJobs locked' now)
    (h : Run (Step cfg) (s.exec cfg (.reconcileStaleJobs locked now)) es t) :
    t = s.exec cfg (.reconcileStaleJobs locked now) := by
  generalize hu : s.exec cfg (.reconcileStaleJobs locked now) = u at h
  induction h with
  | nil => rfl
  | cons first rest ih =>
    obtain ⟨locked', hsub, rfl⟩ := hes _ List.mem_cons_self
    obtain ⟨-, hnext⟩ := step_iff.1 first
    rw [← hu, exec_reconcile_again hsub, hu] at hnext
    exact (ih (fun e he => hes e (List.mem_cons_of_mem _ he)) (hu.trans hnext)).trans hnext.symm

end Queue

/-- A second reconciliation at the same time, with nothing else in between, returns no rows and
changes nothing, and however many more follow, they do nothing. Where rows locked for the first one
are free for the second, still no job is in the rows of both, and no fence token moves twice. -/
theorem reconciliation_idempotent (cfg : Settings) (now : Timestamp) (db : Database) :
    (∀ locked locked', locked ⊆ locked' →
      reconcileStaleJobs cfg locked' now (reconcileStaleJobs cfg locked now db).2 =
        ([], (reconcileStaleJobs cfg locked now db).2)) ∧
    (∀ (s t : Queue) locked es,
      (∀ e ∈ es, ∃ locked', locked ⊆ locked' ∧ e = .reconcileStaleJobs locked' now) →
        Run (Queue.Step cfg) (s.exec cfg (.reconcileStaleJobs locked now)) es t →
          t = s.exec cfg (.reconcileStaleJobs locked now)) ∧
    ∀ locked locked',
      (∀ row ∈ (reconcileStaleJobs cfg locked now db).1,
        ∀ row' ∈ (reconcileStaleJobs cfg locked' now (reconcileStaleJobs cfg locked now db).2).1,
          row'.id ≠ row.id) ∧
      ∀ id j j', db.job id = some j →
        (reconcileStaleJobs cfg locked' now (reconcileStaleJobs cfg locked now db).2).2.job id =
          some j' →
        j'.fenceToken ≤ j.fenceToken + 1 := by
  refine ⟨fun locked locked' h => reconcileStaleJobs_again h,
    fun s t locked es hes hr => Queue.run_reconcilers hes hr, fun locked locked' => ⟨?_, ?_⟩⟩
  · intro row hrow row' hrow' hid
    obtain ⟨j, hj, htaken, rfl⟩ := mem_reconciled_rows.1 hrow
    obtain ⟨j', hj', htaken', rfl⟩ := mem_reconciled_rows.1 hrow'
    have hsame : j'.id = j.id := hid
    rw [not_reclaimable_again (Database.job_of_mem hj) htaken
      (hsame ▸ Database.job_of_mem hj')] at htaken'
    cases htaken'
  · intro id j j' hj hj'
    obtain rfl := job_id hj
    generalize hdb : (reconcileStaleJobs cfg locked now db).2 = db₁ at hj'
    have hone : db₁.job j.id = some
        ((j.reconciled cfg now (reclaimable cfg locked now db j)).expired now) := by
      rw [← hdb, job_reconcileStaleJobs, hj, Option.map_some]
    have htwo := hj'
    rw [job_reconcileStaleJobs, hone, Option.map_some, Option.some_inj] at htwo
    rw [← htwo, fenceToken_reconciled, fenceToken_reconciled]
    cases htaken : reclaimable cfg locked now db j with
    | false => exact Nat.add_le_add_left (Bool.toNat_le _) _
    | true =>
      subst hdb
      rw [htaken] at hone
      rw [not_reclaimable_again hj htaken hone]
      exact le_rfl

end Revix
