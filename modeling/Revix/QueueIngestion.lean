import Revix.QueueRecords

namespace Revix
open KeyedTables LabelledRuns

/-- What `github_webhook` does for an opened or updated pull request. -/
def ingest (sha repo : String) (pullNumber installationId : ℤ) (traceContext : Option Dict)
    (id : Uuid) (now : Timestamp) (db : Database) : Except DbError (String × Database) :=
  match enqueueIfNew sha repo pullNumber installationId traceContext id now db with
  | .ok (true, db') => .ok ("accepted", db')
  | .ok (false, db') => .ok ("already exists", db')
  | .error e => .error e

/-- A job that is waiting or being worked on, for what a request asks. -/
def Job.serves (repo : String) (pullNumber installationId : ℤ) (j : Job) : Prop :=
  (j.status = .pending ∨ j.status = .processing) ∧ j.repoFullName = repo ∧
    j.prNumber = pullNumber ∧
    ∃ fields, j.payload = .obj fields ∧
      Dict.get fields "installation_id" = some (.int installationId)

/-- Earlier jobs for the commit are finished, or serve the same request. -/
def Undisputed (sha repo : String) (pullNumber installationId : ℤ) (db : Database) : Prop :=
  ∀ j ∈ db.jobs.rows, j.commitSha = sha →
    j.status.finished = true ∨ j.serves repo pullNumber installationId

/-- The webhook's answer is `accepted` only with a job that serves the request. -/
def AcceptedServed (sha repo : String) (pullNumber installationId : ℤ)
    (answer : Except DbError (String × Database)) : Prop :=
  ∀ db', answer = .ok ("accepted", db') →
    ∃ j ∈ db'.jobs.rows, j.commitSha = sha ∧ j.serves repo pullNumber installationId

section Ingest

variable {sha repo : String} {pullNumber installationId : ℤ} {traceContext : Option Dict}
  {id : Uuid} {now : Timestamp} {db : Database}

theorem ingest_accepted_iff {db' : Database} :
    ingest sha repo pullNumber installationId traceContext id now db = .ok ("accepted", db') ↔
      enqueueIfNew sha repo pullNumber installationId traceContext id now db = .ok (true, db') := by
  unfold ingest
  split <;> simp_all

theorem enqueued_serves : (Job.enqueued id sha repo pullNumber installationId traceContext
    now).serves repo pullNumber installationId :=
  ⟨.inl rfl, rfl, rfl, _, rfl, rfl⟩

/-- Without a review record, `enqueue_if_new` leaves whatever job the commit has. -/
theorem accepted_iff_of_job {j : Job} (hr : db.record sha = none) (hj : db.jobOfSha sha = some j) :
    AcceptedServed sha repo pullNumber installationId
        (ingest sha repo pullNumber installationId traceContext id now db) ↔
      j.serves repo pullNumber installationId := by
  obtain ⟨hmem, rfl⟩ := Database.jobOfSha_eq_some_iff.1 hj
  have hok := enqueueIfNew_conflict repo pullNumber installationId traceContext id now hr hj
  constructor
  · intro h
    obtain ⟨k, hk, hsha, hserves⟩ := h db (ingest_accepted_iff.2 hok)
    rwa [db.jobs.eq_of_value_eq JobColumn.commitSha hmem hk hsha.symm]
  · intro hserves db' hdb
    rw [ingest_accepted_iff, hok] at hdb
    cases hdb
    exact ⟨j, hmem, rfl, hserves⟩

theorem accepted_of_noJob (hs : db.jobOfSha sha = none) :
    AcceptedServed sha repo pullNumber installationId
      (ingest sha repo pullNumber installationId traceContext id now db) := by
  intro db' hdb
  rw [ingest_accepted_iff] at hdb
  cases hr : db.record sha with
  | some r =>
    rw [enqueueIfNew_recorded hr] at hdb
    cases hdb
  | none =>
    cases hid : db.job id with
    | some j =>
      rw [enqueueIfNew_collision hr hs hid] at hdb
      cases hdb
    | none =>
      obtain ⟨db₁, hok, -, hsha, -⟩ := enqueueIfNew_inserted repo pullNumber
        installationId traceContext now hr hs hid
      rw [hok] at hdb
      cases hdb
      have hjob := hsha sha
      rw [if_pos rfl] at hjob
      obtain ⟨hmem, hsha'⟩ := Database.jobOfSha_eq_some_iff.1 hjob
      exact ⟨_, hmem, hsha', enqueued_serves⟩

end Ingest

namespace Queue

variable {cfg : Settings} {s t : Queue} {es : List Transaction}

theorem accepted_served_iff (h : Run (Step cfg) .empty es s) (sha repo : String)
    (pullNumber installationId : ℤ) (traceContext : Option Dict) (id : Uuid) (now : Timestamp) :
    Undisputed sha repo pullNumber installationId s.db ↔
      AcceptedServed sha repo pullNumber installationId
        (ingest sha repo pullNumber installationId traceContext id now s.db) := by
  cases hs : s.db.jobOfSha sha with
  | none =>
    refine iff_of_true (fun j hj hsha => ?_) (accepted_of_noJob hs)
    have hjob := Database.jobOfSha_eq_some_iff.2 ⟨hj, hsha⟩
    rw [hs] at hjob
    cases hjob
  | some j =>
    obtain ⟨hmem, hsha⟩ := Database.jobOfSha_eq_some_iff.1 hs
    have honly : Undisputed sha repo pullNumber installationId s.db ↔
        (j.status.finished = true ∨ j.serves repo pullNumber installationId) := by
      refine ⟨fun hu => hu j hmem hsha, fun hj k hk hks => ?_⟩
      rwa [s.db.jobs.eq_of_value_eq JobColumn.commitSha hk hmem (hks.trans hsha.symm)]
    rw [honly]
    cases hr : s.db.record sha with
    | some r =>
      -- a recorded commit has a finished job, and the answer is `already exists`
      obtain ⟨k, hk, hks, hfin⟩ := (record_isSome_iff h sha).1 (by simp [hr])
      rw [s.db.jobs.eq_of_value_eq JobColumn.commitSha hk hmem (hks.trans hsha.symm)] at hfin
      apply iff_of_true (.inl hfin)
      intro db' hdb
      rw [ingest_accepted_iff, enqueueIfNew_recorded hr] at hdb
      cases hdb
    | none =>
      have hunfinished : j.status.finished ≠ true := by
        intro hfin
        have hsome := (record_isSome_iff h sha).2 ⟨j, hmem, hsha, hfin⟩
        simp [hr] at hsome
      rw [accepted_iff_of_job hr hs, or_iff_right hunfinished]

/-- An enqueued commit has no job for another request, and none that is dead. -/
def Undisputed (s : Queue) : Transaction → Prop
  | .enqueueIfNew sha repo pullNumber installationId _ _ _ =>
    Revix.Undisputed sha repo pullNumber installationId s.db
  | _ => True

def AcceptedServed (s : Queue) : Transaction → Prop
  | .enqueueIfNew sha repo pullNumber installationId traceContext id now =>
    Revix.AcceptedServed sha repo pullNumber installationId
      (ingest sha repo pullNumber installationId traceContext id now s.db)
  | _ => True

end Queue

/-- In every reachable state, `accepted` means that a waiting or running job serves the request,
exactly when the commit has no earlier job that is dead or of another request; and so in whole
runs. -/
theorem accepted_webhook_iff (cfg : Settings) :
    (∀ es s, Run (Queue.Step cfg) .empty es s →
      ∀ sha repo pullNumber installationId traceContext id now,
        Undisputed sha repo pullNumber installationId s.db ↔
          AcceptedServed sha repo pullNumber installationId
            (ingest sha repo pullNumber installationId traceContext id now s.db)) ∧
    ∀ es s, Run (Guarded (Queue.Step cfg) fun s e _ => s.Undisputed e) .empty es s ↔
      Run (Guarded (Queue.Step cfg) fun s e _ => s.AcceptedServed e) .empty es s := by
  refine ⟨fun es s h => Queue.accepted_served_iff h, fun es s => ?_⟩
  refine Run.guarded_congr (I := Reachable (Queue.Step cfg) .empty) ?_
    (fun _ _ _ h hs _ => h.next hs) (.refl _)
  rintro s e t ⟨fs, h⟩ -
  cases e with
  | enqueueIfNew sha repo pn inst tc id now =>
    exact Queue.accepted_served_iff h sha repo pn inst tc id now
  | _ => exact Iff.rfl

/-- A dead job for the commit: the next webhook is accepted and nothing will run. -/
theorem accepted_unserved : ∃ s, Run (Queue.Step {}) .empty
      [Sample.enqueue, .reconcileStaleJobs [] (3601 * second)] s ∧
    ¬ AcceptedServed Sample.sha "octo/widgets" 7 42
      (ingest Sample.sha "octo/widgets" 7 42 none ⟨"another"⟩ (3602 * second) s.db) := by
  obtain ⟨s, hr, hp⟩ := Queue.exists_run {} .empty
    [Sample.enqueue, .reconcileStaleJobs [] (3601 * second)]
    (fun s => (s.db.record Sample.sha).isNone ∧
      (s.db.jobOfSha Sample.sha).map Job.status = some .dead) (by decide)
  simp only [decide_eq_true_eq] at hp
  obtain ⟨j, hj, hst⟩ := Option.map_eq_some_iff.1 hp.2
  refine ⟨s, hr, fun h => ?_⟩
  obtain ⟨hlive, -⟩ := (accepted_iff_of_job (Option.isNone_iff_eq_none.1 hp.1) hj).1 h
  simp [hst] at hlive

/-- A first webhook for a commit is served. -/
theorem accepted_webhook_first : AcceptedServed Sample.sha "octo/widgets" 7 42
    (ingest Sample.sha "octo/widgets" 7 42 none Sample.jobId 0 Database.empty) := by
  have hundisputed : Undisputed Sample.sha "octo/widgets" 7 42 Database.empty :=
    fun _ hj => nomatch hj
  exact ((accepted_webhook_iff {}).1 [] .empty (.nil _) _ _ _ _ _ _ _).1 hundisputed

end Revix
