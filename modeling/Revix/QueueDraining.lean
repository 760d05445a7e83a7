import Revix.QueueRuns

namespace Revix
open KeyedTables LabelledRuns

def eligible (now : Timestamp) (db : Database) : List Job :=
  db.jobs.rows.filter (Job.claimable now)

/-- `ORDER BY priority DESC, created_at ASC` -/
def Job.Precedes (a b : Job) : Prop :=
  b.priority < a.priority ∨ (a.priority = b.priority ∧ a.createdAt ≤ b.createdAt)

/-- A worker about to claim a job, and the choices of its scan. -/
structure Claimer where
  worker : String
  scan : Scan

section Claims

variable (claimers : ℕ → Claimer) (now : Timestamp)

def afterClaims (db : Database) : ℕ → Database
  | 0 => db
  | n + 1 => (claimJob (claimers n).worker (claimers n).scan now (afterClaims db n)).2

def claimAnswer (db : Database) (n : ℕ) : Option Job :=
  (claimJob (claimers n).worker (claimers n).scan now (afterClaims claimers now db n)).1

/-- A sequence of claims returns the jobs of a list, one after the other, and nothing after them. -/
structure Drains (db : Database) (order : List Job) : Prop where
  once : order.Perm (eligible now db)
  sorted : order.Pairwise Job.Precedes
  answers : ∀ n, claimAnswer claimers now db n =
    order[n]?.map (Job.claimed (claimers n).worker now)
  claimed : ∀ n c, order[n]? = some c → ∀ m, n < m →
    (afterClaims claimers now db m).job c.id = some (c.claimed (claimers n).worker now)
  others : ∀ n id, (∀ c ∈ order.take n, c.id ≠ id) →
    (afterClaims claimers now db n).job id = db.job id

end Claims

section Draining

variable {claimers : ℕ → Claimer} {now : Timestamp} {db : Database} {worker : String} {scan : Scan}
  {c : Job}

theorem Job.before_iff {a b : Job} : Job.before scan a b = true ↔
    b.priority < a.priority ∨ (a.priority = b.priority ∧ (a.createdAt < b.createdAt ∨
      (a.createdAt = b.createdAt ∧ scan.rank a.id < scan.rank b.id))) := by
  simp [Job.before]

theorem Job.before_asymm (a b : Job) (h : Job.before scan a b = true) :
    Job.before scan b a = false := by
  rw [Job.before_iff] at h
  rw [Bool.eq_false_iff, ne_eq, Job.before_iff]
  grind

theorem Job.before_or_before (a b c : Job) (h : Job.before scan a c = true) :
    Job.before scan a b = true ∨ Job.before scan b c = true := by
  simp only [Job.before_iff] at h ⊢
  grind

theorem Job.precedes_of_not_before {a b : Job} (h : Job.before scan b a = false) :
    a.Precedes b := by
  rw [Bool.eq_false_iff, ne_eq, Job.before_iff] at h
  unfold Job.Precedes
  grind

theorem claimCandidate_unlocked (hscan : scan.locked = []) :
    claimCandidate scan now db = firstBy (Job.before scan) (eligible now db) := by
  simp [claimCandidate, eligible, hscan]

/-- Where nothing is locked, the candidate is a job that is due and that all others come after. -/
theorem claimCandidate_precedes (hscan : scan.locked = [])
    (h : claimCandidate scan now db = some c) :
    c ∈ eligible now db ∧ ∀ j ∈ eligible now db, c.Precedes j := by
  rw [claimCandidate_unlocked hscan] at h
  refine ⟨firstBy_mem h, fun j hj => ?_⟩
  exact Job.precedes_of_not_before
    (not_before_firstBy Job.before_asymm Job.before_or_before h j hj)

theorem claimCandidate_eq_none_iff (hscan : scan.locked = []) :
    claimCandidate scan now db = none ↔ eligible now db = [] := by
  rw [claimCandidate_unlocked hscan, firstBy_eq_none_iff]

theorem nodup_eligible : (eligible now db).Nodup :=
  ((db.jobs.unique JobColumn.id).of_map _).filter _

theorem claimable_claimed (worker : String) (now : Timestamp) (j : Job) :
    (j.claimed worker now).claimable now = false := rfl

/-- A claim leaves the other jobs that are due. -/
theorem eligible_claimJob (h : claimCandidate scan now db = some c) :
    eligible now (claimJob worker scan now db).2 = (eligible now db).filter (·.id ≠ c.id) := by
  have hjobs : (claimJob worker scan now db).2.jobs.rows =
      db.jobs.rows.map fun j => if j.id = c.id then j.claimed worker now else j := by
    simp [claimJob, h, Table.update]
  rw [eligible, eligible, hjobs, List.filter_map, List.filter_filter]
  have hhit : ∀ j ∈ db.jobs.rows,
      (Job.claimable now ∘ fun j => if j.id = c.id then j.claimed worker now else j) j =
        (decide (j.id ≠ c.id) && j.claimable now) := by
    intro j _
    by_cases hid : j.id = c.id <;> simp [hid, claimable_claimed]
  rw [List.filter_congr hhit]
  conv_rhs => rw [← List.map_id (List.filter _ db.jobs.rows)]
  refine List.map_congr_left fun j hj => ?_
  have hid : j.id ≠ c.id :=
    of_decide_eq_true (Bool.and_eq_true_iff.1 (List.mem_filter.1 hj).2).1
  simp [hid]

theorem perm_eligible (hc : c ∈ eligible now db) :
    (c :: (eligible now db).filter (·.id ≠ c.id)).Perm (eligible now db) := by
  refine (List.perm_ext_iff_of_nodup ?_ nodup_eligible).2 fun j => ?_
  · rw [List.nodup_cons]
    exact ⟨by simp, nodup_eligible.filter _⟩
  · rw [List.mem_cons, List.mem_filter, decide_eq_true_eq]
    constructor
    · rintro (rfl | ⟨hj, -⟩)
      · exact hc
      · exact hj
    · intro hj
      by_cases hid : j.id = c.id
      · exact .inl (db.jobs.eq_of_value_eq JobColumn.id (List.mem_of_mem_filter hj)
          (List.mem_of_mem_filter hc) hid)
      · exact .inr ⟨hj, hid⟩

theorem afterClaims_succ (n : ℕ) : afterClaims claimers now db (n + 1) =
    afterClaims (fun i => claimers (i + 1)) now
      (claimJob (claimers 0).worker (claimers 0).scan now db).2 n := by
  induction n with
  | zero => rfl
  | succ n ih => rw [afterClaims, ih, afterClaims]

theorem claimAnswer_succ (n : ℕ) : claimAnswer claimers now db (n + 1) =
    claimAnswer (fun i => claimers (i + 1)) now
      (claimJob (claimers 0).worker (claimers 0).scan now db).2 n := by
  rw [claimAnswer, claimAnswer, afterClaims_succ]

/-- Without a job that is due, no claim returns or changes anything. -/
theorem afterClaims_of_eligible_nil (hscan : ∀ n, (claimers n).scan.locked = [])
    (h : eligible now db = []) (n : ℕ) : afterClaims claimers now db n = db := by
  induction n with
  | zero => rfl
  | succ n ih => rw [afterClaims, ih, claimJob_none ((claimCandidate_eq_none_iff (hscan n)).2 h)]

theorem drains_nil (hscan : ∀ n, (claimers n).scan.locked = []) (h : eligible now db = []) :
    Drains claimers now db [] where
  once := h ▸ .refl []
  sorted := .nil
  answers n := by
    rw [claimAnswer, afterClaims_of_eligible_nil hscan h,
      claimJob_none ((claimCandidate_eq_none_iff (hscan n)).2 h)]
    rfl
  claimed n c hc := by simp at hc
  others n id _ := by rw [afterClaims_of_eligible_nil hscan h]

/-- The jobs that are due after a claim are others than the one it returned. -/
theorem ne_of_mem_eligible_claimJob (h : claimCandidate scan now db = some c) {j : Job}
    (hj : j ∈ eligible now (claimJob worker scan now db).2) :
    j ∈ eligible now db ∧ j.id ≠ c.id := by
  rw [eligible_claimJob h, List.mem_filter, decide_eq_true_eq] at hj
  exact hj

/-- A claim that returns a job, and after it those that return the others. -/
theorem Drains.cons {order : List Job} (hscan : (claimers 0).scan.locked = [])
    (hc : claimCandidate (claimers 0).scan now db = some c)
    (h : Drains (fun i => claimers (i + 1)) now
      (claimJob (claimers 0).worker (claimers 0).scan now db).2 order) :
    Drains claimers now db (c :: order) where
  once := by
    have honce := h.once
    rw [eligible_claimJob hc] at honce
    exact (honce.cons c).trans (perm_eligible (claimCandidate_precedes hscan hc).1)
  sorted := by
    refine List.pairwise_cons.2 ⟨fun j hj => ?_, h.sorted⟩
    exact (claimCandidate_precedes hscan hc).2 j
      (ne_of_mem_eligible_claimJob hc (h.once.subset hj)).1
  answers n := by
    cases n with
    | zero =>
      rw [claimAnswer, afterClaims, claimJob_fst hc]
      rfl
    | succ n => rw [claimAnswer_succ, h.answers, List.getElem?_cons_succ]
  claimed n j hj m hm := by
    obtain ⟨m, rfl⟩ := Nat.exists_eq_succ_of_ne_zero (Nat.ne_of_gt (Nat.zero_lt_of_lt hm))
    rw [Nat.succ_eq_add_one, afterClaims_succ]
    cases n with
    | zero =>
      obtain rfl : c = j := by simpa using hj
      have hothers : ∀ k ∈ order.take m, k.id ≠ c.id := fun k hk =>
        (ne_of_mem_eligible_claimJob hc (h.once.subset (List.mem_of_mem_take hk))).2
      rw [h.others m c.id hothers, job_claimJob hc, if_pos rfl]
    | succ n => exact h.claimed n j (by simpa using hj) m (by omega)
  others n id hid := by
    cases n with
    | zero => rfl
    | succ n =>
      rw [List.take_succ_cons, List.forall_mem_cons] at hid
      rw [afterClaims_succ, h.others n id hid.2, job_claimJob hc, if_neg (Ne.symm hid.1)]

theorem exists_drains (hscan : ∀ n, (claimers n).scan.locked = []) :
    ∃ order, Drains claimers now db order := by
  generalize hlength : (eligible now db).length = k
  induction k generalizing claimers db with
  | zero => exact ⟨[], drains_nil hscan (List.eq_nil_of_length_eq_zero hlength)⟩
  | succ k ih =>
    obtain ⟨c, hc⟩ : ∃ c, claimCandidate (claimers 0).scan now db = some c := by
      refine Option.ne_none_iff_exists'.1 fun hnone => ?_
      rw [(claimCandidate_eq_none_iff (hscan 0)).1 hnone] at hlength
      cases hlength
    have hperm := perm_eligible (claimCandidate_precedes (hscan 0) hc).1
    obtain ⟨order, horder⟩ := @ih (fun n => claimers (n + 1))
      (claimJob (claimers 0).worker (claimers 0).scan now db).2 (fun n => hscan (n + 1)) (by
        rw [eligible_claimJob hc]
        have hlen := hperm.length_eq
        rw [List.length_cons] at hlen
        omega)
    exact ⟨c :: order, horder.cons (hscan 0) hc⟩

/-- The claims of a sequence, and the rows they return, in a run. -/
theorem Queue.run_claims (cfg : Settings) (claimers : ℕ → Claimer) (now : Timestamp) (s : Queue)
    (n : ℕ) : Run (Queue.Step cfg) s
      ((List.range n).map fun i => .claimJob (claimers i).worker (claimers i).scan now)
      ⟨afterClaims claimers now s.db n,
        ((List.range n).filterMap (claimAnswer claimers now s.db)).reverse ++ s.claims⟩ := by
  induction n with
  | zero => exact .nil s
  | succ n ih =>
    rw [List.range_succ, List.map_append, List.filterMap_append, List.reverse_append,
      List.append_assoc]
    refine ih.append (.single (Queue.step_iff.2 ⟨trivial, ?_⟩))
    simp only [Queue.exec, afterClaims, claimAnswer, List.filterMap_cons, List.filterMap_nil]
    cases (claimJob (claimers n).worker (claimers n).scan now
      (afterClaims claimers now s.db n)).1 <;> rfl

end Draining

/-- Claims at one time, by any workers and with any choice among equal jobs, drain the queue, and
are a run of it. -/
theorem claims_drain (claimers : ℕ → Claimer) (now : Timestamp) (db : Database)
    (hscan : ∀ n, (claimers n).scan.locked = []) :
    (∃ order, Drains claimers now db order) ∧
      ∀ cfg claims n, Run (Queue.Step cfg) ⟨db, claims⟩
        ((List.range n).map fun i => .claimJob (claimers i).worker (claimers i).scan now)
        ⟨afterClaims claimers now db n,
          ((List.range n).filterMap (claimAnswer claimers now db)).reverse ++ claims⟩ :=
  ⟨exists_drains hscan, fun cfg claims => Queue.run_claims cfg claimers now ⟨db, claims⟩⟩

namespace Sample

def jobAt (id sha : String) (priority : ℤ) (createdAt : Timestamp) : Job :=
  { Job.enqueued ⟨id⟩ sha "octo/widgets" 7 42 none createdAt with priority := priority }

/-- Two jobs of equal priority, an urgent one that came last, and one that is not due yet. -/
def waitingJobs : Database :=
  { Database.empty with
    jobs := {
      rows := [jobAt "newer" "6dcb09b" 0 3, jobAt "older" "0f3c1d7" 0 2, jobAt "urgent" "a94a8fe" 1 4,
        jobAt "later" "b6589fc" 9 20]
      unique := by
        rintro (_ | _)
        · change (List.map Job.id _).Nodup
          decide
        · change (List.map Job.commitSha _).Nodup
          decide } }

def takingTurns (n : ℕ) : Claimer := ⟨if n % 2 = 0 then "worker-1" else "worker-2", .idle⟩

end Sample

theorem claims_drain_waitingJobs :
    (∀ n, (Sample.takingTurns n).scan.locked = []) ∧
    ((List.range 4).map fun n =>
        (claimAnswer Sample.takingTurns 5 Sample.waitingJobs n).map fun j => (j.id.text, j.workerId)) =
      [some ("urgent", some "worker-1"), some ("older", some "worker-2"),
        some ("newer", some "worker-1"), none] ∧
    (∃ order, Drains Sample.takingTurns 5 Sample.waitingJobs order) ∧
    ∀ cfg claims n, Run (Queue.Step cfg) ⟨Sample.waitingJobs, claims⟩
      ((List.range n).map fun i =>
        .claimJob (Sample.takingTurns i).worker (Sample.takingTurns i).scan 5)
      ⟨afterClaims Sample.takingTurns 5 Sample.waitingJobs n,
        ((List.range n).filterMap
          (claimAnswer Sample.takingTurns 5 Sample.waitingJobs)).reverse ++ claims⟩ :=
  ⟨fun _ => rfl, by decide, claims_drain _ 5 _ fun _ => rfl⟩

end Revix
