import Revix.QueueRuns

namespace Revix
open KeyedTables LabelledRuns

def Status.finished : Status → Bool
  | .success => true
  | .failure => true
  | _ => false

theorem Status.finished_iff {s : Status} : s.finished = true ↔ s = .success ∨ s = .failure := by
  cases s <;> simp [finished]

theorem Verdict.finished_status (v : Verdict) : v.status.finished = true := by
  cases v <;> rfl

namespace Life

variable {cfg : Settings} {l l' : Life} {e : LifeEvent}

/-- The record a job's row calls for. -/
def expectedRecord (cfg : Settings) (j : Job) : Option ReviewRecord :=
  if j.status.finished then some (j.reviewRecord cfg (j.result.getD (.obj []))) else none

def Recorded (cfg : Settings) (l : Life) : Prop :=
  ∀ j, l.job = some j → l.record = expectedRecord cfg j

/-- Updating a row without touching what its record shows. -/
theorem Recorded.map {f : Job → Job} (h : l.Recorded cfg) (hr : l'.record = l.record)
    (hj : l'.job = l.job.map f)
    (hf : ∀ j, l.job = some j → expectedRecord cfg (f j) = expectedRecord cfg j) :
    l'.Recorded cfg := by
  intro j' hj'
  rw [hj] at hj'
  obtain ⟨j, hl, rfl⟩ := Option.map_eq_some_iff.1 hj'
  rw [hr, hf j hl]
  exact h j hl

theorem expectedRecord_of_unfinished {j : Job} (h : j.status.finished = false) :
    expectedRecord cfg j = none := by simp [expectedRecord, h]

/-- Neither `UPDATE` of a reconciliation touches a finished job, nor finishes one. -/
theorem expectedRecord_reconciled (j : Job) (locked : Bool) (now : Timestamp)
    (beat : Option Heartbeat) :
    expectedRecord cfg ((j.reconciled cfg now (taken cfg locked now beat j)).expired now) =
      expectedRecord cfg j := by
  have hexp : ∀ k : Job, expectedRecord cfg (k.expired now) = expectedRecord cfg k := by
    intro k
    unfold Job.expired
    split_ifs with ho
    · rw [expectedRecord_of_unfinished (j := k.timedOut) rfl,
        expectedRecord_of_unfinished (j := k) (by rw [(Job.overdue_iff.1 ho).1]; rfl)]
    · rfl
  rw [hexp]
  unfold Job.reconciled
  split_ifs with ht
  · have hrec : (j.reclaimed cfg now).status.finished = false := by
      simp only [Job.reclaimed]
      split <;> rfl
    rw [expectedRecord_of_unfinished hrec,
      expectedRecord_of_unfinished (j := j) (by rw [processing_of_taken ht]; rfl)]
  · rfl

theorem recorded_step (h : l.Recorded cfg) (hs : Step cfg l e l') : l'.Recorded cfg := by
  obtain ⟨hp, rfl⟩ := hs
  cases e with
  | skip => exact h
  | enqueued row =>
    obtain ⟨-, id, sha, repo, pn, inst, tc, now, rfl⟩ := hp
    intro j hj
    obtain rfl := Option.some.inj hj
    rfl
  | claimed worker now =>
    obtain ⟨j, hj, hc⟩ := hp
    apply h.map (f := Job.claimed worker now) (by simp [exec, hj]) job_claimed
    intro k hk
    obtain rfl := Option.some.inj (hj.symm.trans hk)
    rw [expectedRecord_of_unfinished (j := j.claimed worker now) rfl,
      expectedRecord_of_unfinished (j := j) (by rw [(Job.claimable_iff.1 hc).1]; rfl)]
  | renewed worker now => exact h
  | checkRunSet checkRunId =>
    exact h.map (f := Job.checkRunSet checkRunId) rfl rfl fun _ _ => rfl
  | finalized token verdict aiFeedback now =>
    cases hj : l.job with
    | none => simpa [exec, hj] using h
    | some j =>
      by_cases hf : j.fenceToken = token
      · intro j' hj'
        simp only [exec, hj, hf, ↓reduceIte, Option.some.injEq] at hj' ⊢
        subst hj'
        -- inserted or overwritten, the record has the job's columns and the new feedback
        rw [h j hj]
        simp only [expectedRecord, Job.finalized, verdict.finished_status, ↓reduceIte]
        split_ifs <;> rfl
      · simpa [exec, hj, hf] using h
  | released token delaySeconds now =>
    refine h.map rfl rfl fun j _ => ?_
    split_ifs with hh
    · rw [expectedRecord_of_unfinished (j := j.released delaySeconds now) rfl,
        expectedRecord_of_unfinished (j := j) (by rw [(Job.holds_iff.1 hh).2]; rfl)]
    · rfl
  | reconciled locked now =>
    exact h.map rfl rfl fun j _ => expectedRecord_reconciled j locked now l.heartbeat
  | heartbeatsLost => exact h

/-- A job that exists keeps existing, for the same commit. -/
theorem job_persists {j : Job} (hj : l.job = some j) (hs : Step cfg l e l') :
    ∃ j', l'.job = some j' ∧ j'.commitSha = j.commitSha := by
  obtain ⟨hp, rfl⟩ := hs
  cases e with
  | skip => exact ⟨j, hj, rfl⟩
  | enqueued row => exact absurd (hp.1.symm.trans hj) (by simp)
  | claimed worker now => exact ⟨j.claimed worker now, by simp [job_claimed, hj], rfl⟩
  | renewed worker now => exact ⟨j, hj, rfl⟩
  | checkRunSet checkRunId => exact ⟨j.checkRunSet checkRunId, by simp [exec, hj], rfl⟩
  | finalized token verdict aiFeedback now =>
    refine ⟨_, by simp only [job_finalized, hj, Option.map_some]; rfl, ?_⟩
    split <;> rfl
  | released token delaySeconds now =>
    refine ⟨_, by simp only [exec, hj, Option.map_some]; rfl, ?_⟩
    split <;> rfl
  | reconciled locked now =>
    refine ⟨_, by simp only [exec, hj, Option.map_some]; rfl, ?_⟩
    unfold Job.expired Job.reconciled
    split <;> split <;> rfl
  | heartbeatsLost => exact ⟨j, hj, rfl⟩

end Life

namespace Queue

variable {cfg : Settings} {s t : Queue} {es : List Transaction}

theorem recorded_of_run (h : Run (Step cfg) empty es s) (i : Uuid) : (s.life i).Recorded cfg :=
  (life_run h i).invariant (I := Life.Recorded cfg) (fun _ _ _ hl hs => Life.recorded_step hl hs)
    fun _ hj => nomatch hj

/-- Every review record is of a commit that has a job. -/
def RecordsOwned (s : Queue) : Prop :=
  ∀ sha r, s.db.record sha = some r → ∃ i j, s.db.job i = some j ∧ j.commitSha = sha

/-- Only `finalize_job` adds a review record, and only for the job it finalizes. -/
theorem record_exec (e : Transaction) {sha : String} {r : ReviewRecord}
    (h : (s.exec cfg e).db.record sha = some r) :
    (∃ r', s.db.record sha = some r') ∨ ∃ i j, s.db.job i = some j ∧ j.commitSha = sha := by
  cases e with
  | enqueueIfNew sha' repo pn inst tc id now =>
    left
    simp only [exec] at h
    cases hr : s.db.record sha' with
    | some r' =>
      rw [enqueueIfNew_recorded hr] at h
      exact ⟨r, h⟩
    | none =>
      cases hs : s.db.jobOfSha sha' with
      | some j =>
        rw [enqueueIfNew_conflict _ _ _ _ _ _ hr hs] at h
        exact ⟨r, h⟩
      | none =>
        cases hid : s.db.job id with
        | some j =>
          rw [enqueueIfNew_collision hr hs hid] at h
          exact ⟨r, h⟩
        | none =>
          obtain ⟨db', hok, -, -, -, hrec⟩ := enqueueIfNew_inserted repo pn inst tc now
            hr hs hid
          rw [hok] at h
          exact ⟨r, by simpa only [Database.record, hrec] using h⟩
  | claimJob worker scan now =>
    simp only [exec, Database.record, reviewRecords_claimJob] at h
    exact .inl ⟨r, h⟩
  | updateHeartbeat id worker now =>
    simp only [exec, Database.record, (updateHeartbeat_snd id worker now s.db).2] at h
    exact .inl ⟨r, h⟩
  | setCheckRunId id checkRunId => exact .inl ⟨r, h⟩
  | finalizeJob id token verdict aiFeedback now =>
    simp only [exec] at h
    by_cases hcur : ∃ j, s.db.job id = some j ∧ j.fenceToken = token
    · obtain ⟨j, hj, ht⟩ := hcur
      obtain ⟨db', hok, -, -, hrec⟩ := finalizeJob_current cfg verdict.status
        aiFeedback now hj ht
      simp only [hok, hrec] at h
      split_ifs at h with hsha
      · exact .inr ⟨id, j, hj, hsha⟩
      · exact .inl ⟨r, h⟩
    · rw [finalizeJob_stale fun j hj ht => hcur ⟨j, hj, ht⟩] at h
      exact .inl ⟨r, h⟩
  | releaseJob id token delaySeconds now => exact .inl ⟨r, h⟩
  | reconcileStaleJobs locked now => exact .inl ⟨r, h⟩
  | heartbeatsLost => exact .inl ⟨r, h⟩

theorem recordsOwned_step {e : Transaction} (h : RecordsOwned s) (hs : Step cfg s e t) :
    RecordsOwned t := by
  intro sha r hr
  have hold : ∃ i j, s.db.job i = some j ∧ j.commitSha = sha := by
    rw [← (step_iff.1 hs).2] at hr
    rcases record_exec e hr with ⟨r', hr'⟩ | hj
    · exact h sha r' hr'
    · exact hj
  obtain ⟨i, j, hj, rfl⟩ := hold
  obtain ⟨j', hj', hsha⟩ := Life.job_persists (l := s.life i) hj (life_step hs i)
  exact ⟨i, j', hj', hsha⟩

theorem recordsOwned_of_run (h : Run (Step cfg) empty es s) : RecordsOwned s :=
  h.invariant (I := RecordsOwned) (fun _ _ _ hl hs => recordsOwned_step hl hs)
    fun _ _ hr => nomatch hr

/-- A record is there exactly when the job of its commit is finished. -/
theorem record_isSome_iff (h : Run (Step cfg) empty es s) (sha : String) :
    (s.db.record sha).isSome ↔
      ∃ j ∈ s.db.jobs.rows, j.commitSha = sha ∧ j.status.finished = true := by
  constructor
  · intro hr
    obtain ⟨r, hr⟩ := Option.isSome_iff_exists.1 hr
    obtain ⟨i, j, hj, rfl⟩ := recordsOwned_of_run h sha r hr
    refine ⟨j, (Database.job_eq_some_iff.1 hj).1, rfl, ?_⟩
    have hrec := recorded_of_run h i j hj
    simp only [life, hj, Option.bind_some, hr, Life.expectedRecord] at hrec
    by_contra hne
    simp [hne] at hrec
  · rintro ⟨j, hj, rfl, hfin⟩
    have hjob := Database.job_of_mem hj
    have hrec := recorded_of_run h j.id j hjob
    simp only [life, hjob, Option.bind_some, Life.expectedRecord, hfin, ↓reduceIte] at hrec
    simp [hrec]

end Queue

/-- In every reachable state a review record exists for a commit exactly when the commit's job is
`SUCCESS` or `FAILURE`, the record repeats the job, and `enqueue_if_new` answers `False` for
exactly these commits. -/
theorem records_agree (cfg : Settings) {es : List Transaction} {s : Queue}
    (h : Run (Queue.Step cfg) .empty es s) :
    (∀ sha, (∃ r ∈ s.db.reviewRecords.rows, r.commitSha = sha) ↔
      ∃ j ∈ s.db.jobs.rows, j.commitSha = sha ∧ (j.status = .success ∨ j.status = .failure)) ∧
    (∀ r ∈ s.db.reviewRecords.rows, ∀ j ∈ s.db.jobs.rows, j.commitSha = r.commitSha →
      r.jobId = j.id ∧ r.prNumber = j.prNumber ∧ r.repoFullName = j.repoFullName ∧
        r.feedback = j.result.getD (.obj [])) ∧
    (∀ sha repo pullNumber installationId traceContext id now,
      (∃ db, enqueueIfNew sha repo pullNumber installationId traceContext id now s.db =
          .ok (false, db)) ↔
        ∃ j ∈ s.db.jobs.rows, j.commitSha = sha ∧
          (j.status = .success ∨ j.status = .failure)) := by
  have hiff := Queue.record_isSome_iff h
  simp only [Status.finished_iff] at hiff
  refine ⟨fun sha => ?_, fun r hr j hj hsha => ?_, fun sha repo pn inst tc id now => ?_⟩
  · rw [← hiff, Option.isSome_iff_exists]
    exact exists_congr fun r => Database.record_eq_some_iff.symm
  · have hjob := Database.job_of_mem hj
    have hrec := Queue.recorded_of_run h j.id j hjob
    have hr' : s.db.record j.commitSha = some r := Database.record_eq_some_iff.2 ⟨hr, hsha.symm⟩
    simp only [Queue.life, hjob, Option.bind_some, hr', Life.expectedRecord] at hrec
    split_ifs at hrec
    obtain rfl := Option.some.inj hrec
    exact ⟨rfl, rfl, rfl, rfl⟩
  · rw [← hiff, enqueueIfNew_false_iff]

theorem records_agree_finalized : ∃ s : Queue,
    ∃ db, enqueueIfNew Sample.sha "octo/widgets" 7 42 none ⟨"another"⟩ second s.db =
      .ok (false, db) := by
  obtain ⟨s, hr, hp⟩ := Queue.exists_run {} .empty
    [Sample.enqueue, Sample.claim "w1" 0, .finalizeJob Sample.jobId 0 .failure none second]
    (fun s => (s.db.job Sample.jobId).map (fun j => (j.commitSha, j.status)) =
      some (Sample.sha, .failure)) (by decide)
  obtain ⟨j, hj, heq⟩ := Option.map_eq_some_iff.1 (of_decide_eq_true hp)
  obtain ⟨hsha, hst⟩ := Prod.mk.inj heq
  obtain ⟨-, -, hfalse⟩ := records_agree {} hr
  exact ⟨s, (hfalse Sample.sha _ _ _ _ _ _).2
    ⟨j, (Database.job_eq_some_iff.1 hj).1, hsha, .inr hst⟩⟩

end Revix
