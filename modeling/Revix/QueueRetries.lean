import Revix.QueueFencing

/-! A job goes back to `pending` through a release or a reconciliation. Only the latter looks at
the attempts left, and its timeout at neither them nor the time of the retry. -/
namespace Revix
open KeyedTables LabelledRuns

namespace Life

variable {cfg : Settings} {l l' : Life} {e : LifeEvent}

def Retriable (l : Life) : Prop :=
  ∀ j, l.job = some j → j.status = .pending → j.attemptCount < j.maxAttempts

/-- A release that takes effect finds attempts left. -/
def WithinBudget (l : Life) : LifeEvent → Prop
  | .released token _ _ =>
    ∀ j, l.job = some j → j.holds token = true → j.attemptCount < j.maxAttempts
  | _ => True

/-- A reconciliation leaves a job pending only with attempts left. -/
theorem reconciled_retriable {j : Job} {b : Bool} {now : Timestamp}
    (h : j.status = .pending → j.attemptCount < j.maxAttempts)
    (hs : ((j.reconciled cfg now b).expired now).status = .pending) :
    j.attemptCount < j.maxAttempts := by
  have hs' : (j.reconciled cfg now b).status = .pending := by
    unfold Job.expired at hs
    split at hs
    · cases hs
    · exact hs
  cases b with
  | false => exact h hs'
  | true =>
    by_contra hx
    have hex : j.exhausted = true := by simpa [Job.exhausted] using hx
    simp [Job.reconciled, Job.reclaimed, hex] at hs'

/-- A release is the only event that can strand a job. -/
theorem retriable_step_iff (h : l.Retriable) (hs : Step cfg l e l') :
    l.WithinBudget e ↔ l'.Retriable := by
  obtain ⟨hp, rfl⟩ := hs
  cases e with
  | skip => exact iff_of_true trivial h
  | enqueued row =>
    obtain ⟨-, id, sha, repo, pn, inst, tc, now, rfl⟩ := hp
    apply iff_of_true trivial
    intro j hj _
    obtain rfl := Option.some.inj hj
    exact (by decide : 0 < 3)
  | claimed worker now =>
    obtain ⟨j, hj, -⟩ := hp
    apply iff_of_true trivial
    intro j' hj' hst
    rw [job_claimed, hj] at hj'
    obtain rfl := Option.some.inj hj'
    cases hst
  | renewed worker now => exact iff_of_true trivial h
  | checkRunSet checkRunId =>
    apply iff_of_true trivial
    intro j' hj' hst
    obtain ⟨j, hj, rfl⟩ := Option.map_eq_some_iff.1 hj'
    exact h j hj hst
  | finalized token verdict aiFeedback now =>
    apply iff_of_true trivial
    intro j' hj' hst
    rw [job_finalized] at hj'
    obtain ⟨j, hj, rfl⟩ := Option.map_eq_some_iff.1 hj'
    split_ifs at hst ⊢
    · cases verdict <;> cases hst
    · exact h j hj hst
  | released token delaySeconds now =>
    constructor
    · intro hb j' hj' hst
      obtain ⟨j, hj, rfl⟩ := Option.map_eq_some_iff.1 hj'
      by_cases hh : j.holds token = true
      · have hlt := hb j hj hh
        simp only [hh, ↓reduceIte]
        exact hlt
      · simp only [hh, Bool.false_eq_true, ↓reduceIte] at hst ⊢
        exact h j hj hst
    · intro hr j hj hh
      have hrel := hr (j.released delaySeconds now) (by simp [exec, hj, hh]) rfl
      exact hrel
  | reconciled locked now =>
    apply iff_of_true trivial
    intro j' hj' hst
    obtain ⟨j, hj, rfl⟩ := Option.map_eq_some_iff.1 hj'
    rw [(reconciled_counts j _ now).1, (reconciled_counts j _ now).2]
    exact reconciled_retriable (h j hj) hst
  | heartbeatsLost => exact iff_of_true trivial h

end Life

/-- Every pending job has attempts left, and `claim_job` can return it from its scheduled time
on. -/
def NoneStranded (db : Database) : Prop :=
  ∀ j ∈ db.jobs.rows, j.status = .pending → j.attemptCount < j.maxAttempts ∧
    ∀ worker now, j.scheduledAt ≤ now →
      ∃ scan, (claimJob worker scan now db).1 = some (j.claimed worker now)

/-- When the other rows are locked, the scan comes to this one. -/
theorem claimJob_reaches {db : Database} {j : Job} (hj : j ∈ db.jobs.rows) {now : Timestamp}
    (hc : j.claimable now = true) (worker : String) :
    ∃ scan, (claimJob worker scan now db).1 = some (j.claimed worker now) := by
  let scan : Scan := ⟨(db.jobs.rows.map Job.id).filter (· ≠ j.id), fun _ => 0⟩
  refine ⟨scan, ?_⟩
  cases hcand : claimCandidate scan now db with
  | none =>
    have hnil := firstBy_eq_none_iff.1 hcand
    have hmem : j ∈ db.jobs.rows.filter fun j => j.claimable now && !scan.locked.contains j.id :=
      List.mem_filter.2 ⟨hj, by simp [hc, scan]⟩
    rw [hnil] at hmem
    exact absurd hmem (List.not_mem_nil)
  | some c =>
    obtain ⟨hjob, -, hfree⟩ := claimCandidate_spec hcand
    have hmem := (Database.job_eq_some_iff.1 hjob).1
    have hid : c.id = j.id := by
      by_contra hne
      exact hfree (List.mem_filter.2 ⟨List.mem_map_of_mem hmem, by simpa using hne⟩)
    rw [hid, Database.job_of_mem hj] at hjob
    rw [claimJob_fst hcand, Option.some.inj hjob]

namespace Queue

variable {cfg : Settings} {s t : Queue}

def WithinBudget (s : Queue) : Transaction → Prop
  | .releaseJob id token _ _ =>
    ∀ j, s.db.job id = some j → j.holds token = true → j.attemptCount < j.maxAttempts
  | _ => True

theorem noneStranded_iff : NoneStranded s.db ↔ ∀ i, (s.life i).Retriable := by
  constructor
  · intro h i j hj hst
    exact (h j (Database.job_eq_some_iff.1 hj).1 hst).1
  · intro h j hj hst
    have hlt := h j.id j (Database.job_of_mem hj) hst
    refine ⟨hlt, fun worker now hle => claimJob_reaches hj ?_ worker⟩
    simp [Job.claimable, hst, hle, hlt]

theorem withinBudget_iff {e : Transaction} :
    s.WithinBudget e ↔ ∀ i, (s.life i).WithinBudget (s.localize i e) := by
  constructor
  · intro h i
    cases hl : s.localize i e with
    | released token delaySeconds now =>
      obtain rfl := localize_released hl
      exact h
    | _ => trivial
  · intro h
    cases e with
    | releaseJob id token delaySeconds now =>
      have hid := h id
      simp only [localize, ↓reduceIte] at hid
      exact hid
    | _ => trivial

theorem noneStranded_step_iff {e : Transaction} (h : NoneStranded s.db) (hs : Step cfg s e t) :
    s.WithinBudget e ↔ NoneStranded t.db := by
  rw [withinBudget_iff, noneStranded_iff]
  exact forall_congr' fun i => Life.retriable_step_iff (noneStranded_iff.1 h i) (life_step hs i)

end Queue

/-- A run leaves no job stranded exactly when none of its releases gives back a job whose
attempts are used up. -/
theorem none_stranded_iff (cfg : Settings) (es : List Transaction) (s : Queue) :
    Run (Guarded (Queue.Step cfg) fun s e _ => s.WithinBudget e) .empty es s ↔
      Run (Guarded (Queue.Step cfg) fun _ _ t => NoneStranded t.db) .empty es s := by
  have hempty : NoneStranded Queue.empty.db := fun _ hj => nomatch hj
  have hstep : ∀ s e t, NoneStranded s.db → Queue.Step cfg s e t →
      (s.WithinBudget e ↔ NoneStranded t.db) := fun _ _ _ => Queue.noneStranded_step_iff
  exact Run.guarded_congr (I := fun s => NoneStranded s.db) hstep
    (fun s e t h hs hb => (hstep s e t h hs).1 hb) hempty

/-- Three rate limits use up the attempts, and the third release strands the job. -/
theorem job_stranded : ∃ s, Run (Queue.Step {}) .empty
      [Sample.enqueue, Sample.claim "w1" 0, .releaseJob Sample.jobId 0 60 second,
        Sample.claim "w1" (100 * second), .releaseJob Sample.jobId 1 120 (101 * second),
        Sample.claim "w1" (300 * second), .releaseJob Sample.jobId 2 180 (301 * second)] s ∧
    ¬ NoneStranded s.db := by
  obtain ⟨s, hr, hp⟩ := Queue.exists_run {} .empty
    [Sample.enqueue, Sample.claim "w1" 0, .releaseJob Sample.jobId 0 60 second,
      Sample.claim "w1" (100 * second), .releaseJob Sample.jobId 1 120 (101 * second),
      Sample.claim "w1" (300 * second), .releaseJob Sample.jobId 2 180 (301 * second)]
    (fun s => (s.db.job Sample.jobId).map
      (fun j => (j.status, j.attemptCount, j.maxAttempts)) = some (.pending, 3, 3)) (by decide)
  obtain ⟨j, hj, heq⟩ := Option.map_eq_some_iff.1 (of_decide_eq_true hp)
  simp only [Prod.mk.injEq] at heq
  obtain ⟨hst, hcount, hmax⟩ := heq
  refine ⟨s, hr, fun h => ?_⟩
  have hlt := (h j (Database.job_eq_some_iff.1 hj).1 hst).1
  omega

/-- A reconciliation moves no job with attempts left to `dead` before its scheduled time. -/
def RetriesHonoured (now : Timestamp) (db db' : Database) : Prop :=
  ∀ id j j', db.job id = some j → db'.job id = some j' → j.status ≠ .dead → j'.status = .dead →
    j'.attemptCount < j'.maxAttempts → j'.scheduledAt ≤ now

/-- A job over an hour old with attempts left is neither waiting for a later time, nor about to
be reclaimed with a backoff. -/
def RetryDue (cfg : Settings) (locked : List Uuid) (now : Timestamp) (db : Database) : Prop :=
  ∀ j ∈ db.jobs.rows, j.createdAt < now - hour → j.attemptCount < j.maxAttempts →
    (j.status = .pending → j.scheduledAt ≤ now) ∧
    (reclaimable cfg locked now db j = true →
      now + cfg.workerRetryBackoffSeconds * second * j.attemptCount ≤ now)

/-- What a reconciliation does to the row of a job. -/
theorem retry_row_iff {cfg : Settings} {now : Timestamp} {j : Job} {b : Bool}
    (hb : b = true → j.status = .processing) :
    (j.status ≠ .dead → ((j.reconciled cfg now b).expired now).status = .dead →
      j.attemptCount < j.maxAttempts →
      ((j.reconciled cfg now b).expired now).scheduledAt ≤ now) ↔
    (j.createdAt < now - hour → j.attemptCount < j.maxAttempts →
      (j.status = .pending → j.scheduledAt ≤ now) ∧
      (b = true → now + cfg.workerRetryBackoffSeconds * second * j.attemptCount ≤ now)) := by
  cases b with
  | true =>
    have hp := hb rfl
    by_cases hx : j.attemptCount < j.maxAttempts
    · have hex : j.exhausted = false := by simpa [Job.exhausted] using hx
      by_cases ho : j.createdAt < now - hour <;>
        simp [Job.reconciled, Job.reclaimed, Job.expired, Job.overdue, Job.timedOut, hp, hex, hx,
          ho]
    · simp [hx]
  | false =>
    by_cases hp : j.status = .pending
    · by_cases ho : j.createdAt < now - hour <;>
        simp [Job.reconciled, Job.expired, Job.overdue, Job.timedOut, hp, ho]
    · simp only [Job.reconciled, Job.expired, Job.overdue, hp, decide_false, Bool.false_and,
        Bool.false_eq_true, ↓reduceIte, false_implies, and_self, implies_true, iff_true]
      exact fun hne hdead => absurd hdead hne

theorem retries_honoured_iff {cfg : Settings} {locked : List Uuid} {now : Timestamp}
    {db : Database} : RetryDue cfg locked now db ↔
      RetriesHonoured now db (reconcileStaleJobs cfg locked now db).2 := by
  constructor
  · intro h id j j' hj hj' hne hdead hlt
    rw [job_reconcileStaleJobs, hj] at hj'
    obtain rfl := Option.some.inj hj'
    rw [(Life.reconciled_counts j _ now).1, (Life.reconciled_counts j _ now).2] at hlt
    exact (retry_row_iff processing_of_reclaimable).2 (h j (Database.job_eq_some_iff.1 hj).1)
      hne hdead hlt
  · intro h j hj
    apply (retry_row_iff processing_of_reclaimable).1
    intro hne hdead hlt
    refine h j.id j _ (Database.job_of_mem hj) ?_ hne hdead ?_
    · rw [job_reconcileStaleJobs, Database.job_of_mem hj]
      rfl
    · rwa [(Life.reconciled_counts j _ now).1, (Life.reconciled_counts j _ now).2]

namespace Queue

/-- A reconciliation finds no retry to cut off. -/
def RetryDue (cfg : Settings) (s : Queue) : Transaction → Prop
  | .reconcileStaleJobs locked now => Revix.RetryDue cfg locked now s.db
  | _ => True

def RetriesHonoured (s : Queue) (e : Transaction) (t : Queue) : Prop :=
  ∀ locked now, e = .reconcileStaleJobs locked now → Revix.RetriesHonoured now s.db t.db

theorem retries_honoured_step_iff {cfg : Settings} {s t : Queue} {e : Transaction}
    (hs : Step cfg s e t) : s.RetryDue cfg e ↔ s.RetriesHonoured e t := by
  cases e with
  | reconcileStaleJobs locked now =>
    obtain ⟨-, rfl⟩ := step_iff.1 hs
    constructor
    · rintro h _ _ ⟨⟩
      exact retries_honoured_iff.1 h
    · exact fun h => retries_honoured_iff.2 (h locked now rfl)
  | _ => exact iff_of_true trivial fun _ _ h => nomatch h

end Queue

/-- A run honours every scheduled retry exactly when each of its reconciliations comes when no
job over an hour old with attempts left is waiting for a later time or about to be given
one. -/
theorem scheduled_retries_honoured_iff (cfg : Settings) (es : List Transaction) (s : Queue) :
    Run (Guarded (Queue.Step cfg) fun s e _ => s.RetryDue cfg e) .empty es s ↔
      Run (Guarded (Queue.Step cfg) Queue.RetriesHonoured) .empty es s :=
  Run.guarded_congr (I := fun _ => True) (fun _ _ _ _ hs => Queue.retries_honoured_step_iff hs)
    (fun _ _ _ _ _ _ => trivial) trivial

/-- A rate limit of two hours, and a reconciliation after one. -/
theorem retry_cut_off : ∃ s t, Run (Queue.Step {}) .empty
      [Sample.enqueue, Sample.claim "w1" 0, .releaseJob Sample.jobId 0 7200 second] s ∧
    Queue.Step {} s (.reconcileStaleJobs [] (3700 * second)) t ∧
    ¬ s.RetriesHonoured (.reconcileStaleJobs [] (3700 * second)) t := by
  obtain ⟨s, hr, hp⟩ := Queue.exists_run {} .empty
    [Sample.enqueue, Sample.claim "w1" 0, .releaseJob Sample.jobId 0 7200 second]
    (fun s => (s.db.job Sample.jobId).map Job.status = some .pending ∧
      ((s.exec {} (.reconcileStaleJobs [] (3700 * second))).db.job Sample.jobId).map
        (fun j => (j.status, j.attemptCount, j.maxAttempts, j.scheduledAt)) =
      some (.dead, 1, 3, 7201 * second)) (by decide)
  simp only [decide_eq_true_eq] at hp
  obtain ⟨j, hj, hst⟩ := Option.map_eq_some_iff.1 hp.1
  obtain ⟨j', hj', heq⟩ := Option.map_eq_some_iff.1 hp.2
  simp only [Prod.mk.injEq] at heq
  obtain ⟨hst', hcount, hmax, hat⟩ := heq
  refine ⟨s, _, hr, Queue.step_exec trivial, fun h => ?_⟩
  have hle := h [] _ rfl Sample.jobId j j' hj hj' (by simp [hst]) hst' (by omega)
  exact absurd (hat ▸ hle) (by decide)

end Revix
