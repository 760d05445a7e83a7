import Revix.LabelledRuns
import Revix.QueueLookups

/-! A queue is the database with every row that `claim_job` has returned; only these are finalized
and released. Times need not increase, which covers the clocks of several hosts. -/
namespace Revix
open KeyedTables LabelledRuns

inductive Transaction
  | enqueueIfNew (sha repo : String) (pullNumber installationId : ℤ)
      (traceContext : Option Dict) (id : Uuid) (now : Timestamp)
  | claimJob (worker : String) (scan : Scan) (now : Timestamp)
  | updateHeartbeat (id : Uuid) (worker : String) (now : Timestamp)
  | setCheckRunId (id : Uuid) (checkRunId : ℤ)
  | finalizeJob (id : Uuid) (token : ℕ) (verdict : Verdict) (aiFeedback : Option Dict)
      (now : Timestamp)
  | releaseJob (id : Uuid) (token : ℕ) (delaySeconds : ℤ) (now : Timestamp)
  | reconcileStaleJobs (locked : List Uuid) (now : Timestamp)
  /-- Not a method: the database restarts after a crash. -/
  | heartbeatsLost

structure Queue where
  db : Database
  claims : List Job

namespace Queue

def empty : Queue := ⟨.empty, []⟩

/-- The tokens `claim_job` has returned for a job, the newest first. -/
def tokens (s : Queue) (id : Uuid) : List ℕ :=
  (s.claims.filter fun row => row.id = id).map Job.fenceToken

/-- The state after one transaction. A method that raises rolls back. -/
def exec (cfg : Settings) (s : Queue) : Transaction → Queue
  | .enqueueIfNew sha repo pullNumber installationId traceContext id now =>
    match Revix.enqueueIfNew sha repo pullNumber installationId traceContext id now s.db with
    | .ok (_, db) => { s with db := db }
    | .error _ => s
  | .claimJob worker scan now =>
    let r := Revix.claimJob worker scan now s.db
    ⟨r.2, r.1.toList ++ s.claims⟩
  | .updateHeartbeat id worker now =>
    { s with db := (Revix.updateHeartbeat id worker now s.db).2 }
  | .setCheckRunId id checkRunId => { s with db := Revix.setCheckRunId id checkRunId s.db }
  | .finalizeJob id token verdict aiFeedback now =>
    match Revix.finalizeJob cfg id token verdict.status aiFeedback now s.db with
    | .ok db => { s with db := db }
    | .error _ => s
  | .releaseJob id token delaySeconds now =>
    { s with db := Revix.releaseJob id token delaySeconds now s.db }
  | .reconcileStaleJobs locked now =>
    { s with db := (Revix.reconcileStaleJobs cfg locked now s.db).2 }
  | .heartbeatsLost => { s with db := loseHeartbeats s.db }

/-- Callers finalize and release only what `claim_job` returned to someone. -/
def Permitted (s : Queue) : Transaction → Prop
  | .finalizeJob id token _ _ _ => token ∈ s.tokens id
  | .releaseJob id token _ _ => token ∈ s.tokens id
  | _ => True

instance (s : Queue) : (e : Transaction) → Decidable (s.Permitted e)
  | .finalizeJob id token _ _ _ => inferInstanceAs (Decidable (token ∈ s.tokens id))
  | .releaseJob id token _ _ => inferInstanceAs (Decidable (token ∈ s.tokens id))
  | .enqueueIfNew _ _ _ _ _ _ _ => .isTrue trivial
  | .claimJob _ _ _ => .isTrue trivial
  | .updateHeartbeat _ _ _ => .isTrue trivial
  | .setCheckRunId _ _ => .isTrue trivial
  | .reconcileStaleJobs _ _ => .isTrue trivial
  | .heartbeatsLost => .isTrue trivial

def next (cfg : Settings) (s : Queue) (e : Transaction) : Option Queue :=
  if s.Permitted e then some (s.exec cfg e) else none

def Step (cfg : Settings) (s : Queue) (e : Transaction) (t : Queue) : Prop :=
  s.next cfg e = some t

theorem step_iff {cfg : Settings} {s t : Queue} {e : Transaction} :
    Step cfg s e t ↔ s.Permitted e ∧ s.exec cfg e = t := by
  unfold Step next
  split_ifs with h <;> simp [h]

theorem step_exec {cfg : Settings} {s : Queue} {e : Transaction} (h : s.Permitted e) :
    Step cfg s e (s.exec cfg e) := step_iff.2 ⟨h, rfl⟩

end Queue

/-- All that concerns one job id: its row, its heartbeat, the review record of its commit, and
the tokens it was claimed with. -/
@[ext] structure Life where
  job : Option Job
  heartbeat : Option Heartbeat
  record : Option ReviewRecord
  tokens : List ℕ

inductive LifeEvent
  | skip
  | enqueued (row : Job)
  | claimed (worker : String) (now : Timestamp)
  | renewed (worker : String) (now : Timestamp)
  | checkRunSet (checkRunId : ℤ)
  | finalized (token : ℕ) (verdict : Verdict) (aiFeedback : Option Dict) (now : Timestamp)
  | released (token : ℕ) (delaySeconds : ℤ) (now : Timestamp)
  | reconciled (locked : Bool) (now : Timestamp)
  | heartbeatsLost

namespace Life

def unborn : Life := ⟨none, none, none, []⟩

def taken (cfg : Settings) (locked : Bool) (now : Timestamp) (beat : Option Heartbeat)
    (j : Job) : Bool := j.stale cfg now beat && !locked

theorem processing_of_taken {cfg : Settings} {locked : Bool} {now : Timestamp}
    {beat : Option Heartbeat} {j : Job} (h : taken cfg locked now beat j = true) :
    j.status = .processing := Job.processing_of_stale (Bool.and_eq_true_iff.1 h).1

/-- The job's row and its satellites after an event, with no other job in sight. -/
def exec (cfg : Settings) (l : Life) : LifeEvent → Life
  | .skip => l
  | .enqueued row => { l with job := some row, record := none }
  | .claimed worker now =>
    match l.job with
    | none => l
    | some j =>
      ⟨some (j.claimed worker now), some ⟨j.id, worker, now⟩, l.record, j.fenceToken :: l.tokens⟩
  | .renewed worker now =>
    { l with heartbeat := l.heartbeat.map fun b =>
        if l.job.any (Job.heldBy worker) && b.workerId = worker then b.renewed now else b }
  | .checkRunSet checkRunId => { l with job := l.job.map (Job.checkRunSet checkRunId) }
  | .finalized token verdict aiFeedback now =>
    match l.job with
    | none => l
    | some j =>
      if j.fenceToken = token then
        let feedback := (feedbackJson aiFeedback).getD (.obj [])
        ⟨some (j.finalized verdict.status (feedbackJson aiFeedback) now), none,
          some (l.record.elim (j.reviewRecord cfg feedback) (ReviewRecord.withFeedback feedback)),
          l.tokens⟩
      else l
  | .released token delaySeconds now =>
    { l with
      job := l.job.map fun j => if j.holds token then j.released delaySeconds now else j
      heartbeat := none }
  | .reconciled locked now =>
    { l with
      job := l.job.map fun j =>
        (j.reconciled cfg now (taken cfg locked now l.heartbeat j)).expired now
      heartbeat := l.heartbeat.filter fun _ => l.job.any fun j =>
        (j.reconciled cfg now (taken cfg locked now l.heartbeat j)).status = .processing }
  | .heartbeatsLost => { l with heartbeat := none }

theorem job_claimed {cfg : Settings} {l : Life} {worker : String} {now : Timestamp} :
    (l.exec cfg (.claimed worker now)).job = l.job.map (Job.claimed worker now) := by
  cases hj : l.job <;> simp [exec, hj]

/-- A finalization writes the job's row only with the row's own token. -/
theorem job_finalized {cfg : Settings} {l : Life} {token : ℕ} {verdict : Verdict}
    {aiFeedback : Option Dict} {now : Timestamp} :
    (l.exec cfg (.finalized token verdict aiFeedback now)).job = l.job.map fun j =>
      if j.fenceToken = token then j.finalized verdict.status (feedbackJson aiFeedback) now
      else j := by
  cases hj : l.job with
  | none => simp [exec, hj]
  | some j => by_cases hf : j.fenceToken = token <;> simp [exec, hj, hf]

theorem tokens_finalized {cfg : Settings} {l : Life} {token : ℕ} {verdict : Verdict}
    {aiFeedback : Option Dict} {now : Timestamp} :
    (l.exec cfg (.finalized token verdict aiFeedback now)).tokens = l.tokens := by
  cases hj : l.job with
  | none => simp [exec, hj]
  | some j => by_cases hf : j.fenceToken = token <;> simp [exec, hj, hf]

/-- What the surroundings guarantee of an event: only fresh rows are enqueued, only claimable
jobs are claimed, and only returned tokens come back. -/
def Permitted (l : Life) : LifeEvent → Prop
  | .enqueued row => l.job = none ∧ ∃ id sha repo pullNumber installationId traceContext now,
      row = .enqueued id sha repo pullNumber installationId traceContext now
  | .claimed _ now => ∃ j, l.job = some j ∧ j.claimable now = true
  | .finalized token _ _ _ => token ∈ l.tokens
  | .released token _ _ => token ∈ l.tokens
  | _ => True

def Step (cfg : Settings) (l : Life) (e : LifeEvent) (l' : Life) : Prop :=
  l.Permitted e ∧ l.exec cfg e = l'

end Life

namespace Queue

def life (s : Queue) (id : Uuid) : Life where
  job := s.db.job id
  heartbeat := s.db.heartbeat id
  record := (s.db.job id).bind fun j => s.db.record j.commitSha
  tokens := s.tokens id

def localize (s : Queue) (i : Uuid) : Transaction → LifeEvent
  | .enqueueIfNew sha repo pullNumber installationId traceContext id now =>
    if id = i ∧ s.db.record sha = none ∧ s.db.jobOfSha sha = none ∧ s.db.job id = none then
      .enqueued (.enqueued id sha repo pullNumber installationId traceContext now)
    else .skip
  | .claimJob worker scan now =>
    if (claimCandidate scan now s.db).any fun c => i = c.id then .claimed worker now else .skip
  | .updateHeartbeat id worker now => if i = id then .renewed worker now else .skip
  | .setCheckRunId id checkRunId => if i = id then .checkRunSet checkRunId else .skip
  | .finalizeJob id token verdict aiFeedback now =>
    if i = id then .finalized token verdict aiFeedback now else .skip
  | .releaseJob id token delaySeconds now =>
    if i = id then .released token delaySeconds now else .skip
  | .reconcileStaleJobs locked now => .reconciled (locked.contains i) now
  | .heartbeatsLost => .heartbeatsLost

/-- What a transaction can be to one job. -/
inductive Localized (s : Queue) (i : Uuid) : Transaction → LifeEvent → Prop
  | skipped (e : Transaction) : Localized s i e .skip
  | enqueued {sha repo : String} {pullNumber installationId : ℤ} {traceContext : Option Dict}
      {now : Timestamp} (hrow : s.db.job i = none) :
      Localized s i (.enqueueIfNew sha repo pullNumber installationId traceContext i now)
        (.enqueued (.enqueued i sha repo pullNumber installationId traceContext now))
  | claimed {worker : String} {scan : Scan} {now : Timestamp} {c : Job}
      (hc : claimCandidate scan now s.db = some c) (hid : c.id = i) :
      Localized s i (.claimJob worker scan now) (.claimed worker now)
  | renewed (worker : String) (now : Timestamp) :
      Localized s i (.updateHeartbeat i worker now) (.renewed worker now)
  | checkRunSet (checkRunId : ℤ) :
      Localized s i (.setCheckRunId i checkRunId) (.checkRunSet checkRunId)
  | finalized (token : ℕ) (verdict : Verdict) (aiFeedback : Option Dict) (now : Timestamp) :
      Localized s i (.finalizeJob i token verdict aiFeedback now)
        (.finalized token verdict aiFeedback now)
  | released (token : ℕ) (delaySeconds : ℤ) (now : Timestamp) :
      Localized s i (.releaseJob i token delaySeconds now) (.released token delaySeconds now)
  | reconciled (locked : List Uuid) (now : Timestamp) :
      Localized s i (.reconcileStaleJobs locked now) (.reconciled (locked.contains i) now)
  | heartbeatsLost : Localized s i .heartbeatsLost .heartbeatsLost

section Localize

variable {s : Queue} {e : Transaction} {i : Uuid} {token : ℕ} {now : Timestamp}

theorem localized (s : Queue) (i : Uuid) (e : Transaction) : Localized s i e (s.localize i e) := by
  cases e with
  | enqueueIfNew sha repo pullNumber installationId traceContext id now =>
    simp only [localize]
    split_ifs with hi
    · obtain ⟨rfl, -, -, hrow⟩ := hi
      exact .enqueued hrow
    · exact .skipped _
  | claimJob worker scan now =>
    simp only [localize]
    split_ifs with hi
    · obtain ⟨c, hc, hid⟩ := (Option.any_eq_true _ _).1 hi
      exact .claimed hc (of_decide_eq_true hid).symm
    · exact .skipped _
  | updateHeartbeat id worker now =>
    simp only [localize]
    split_ifs with hi
    · exact hi ▸ .renewed worker now
    · exact .skipped _
  | setCheckRunId id checkRunId =>
    simp only [localize]
    split_ifs with hi
    · exact hi ▸ .checkRunSet checkRunId
    · exact .skipped _
  | finalizeJob id token verdict aiFeedback now =>
    simp only [localize]
    split_ifs with hi
    · exact hi ▸ .finalized token verdict aiFeedback now
    · exact .skipped _
  | releaseJob id token delaySeconds now =>
    simp only [localize]
    split_ifs with hi
    · exact hi ▸ .released token delaySeconds now
    · exact .skipped _
  | reconcileStaleJobs locked now => exact .reconciled locked now
  | heartbeatsLost => exact .heartbeatsLost

theorem localize_finalized {verdict : Verdict} {aiFeedback : Option Dict}
    (h : s.localize i e = .finalized token verdict aiFeedback now) :
    e = .finalizeJob i token verdict aiFeedback now := by
  have hl := localized s i e
  rw [h] at hl
  cases hl
  rfl

theorem localize_released {delaySeconds : ℤ}
    (h : s.localize i e = .released token delaySeconds now) :
    e = .releaseJob i token delaySeconds now := by
  have hl := localized s i e
  rw [h] at hl
  cases hl
  rfl

theorem localize_heartbeatsLost (h : s.localize i e = .heartbeatsLost) : e = .heartbeatsLost := by
  have hl := localized s i e
  rw [h] at hl
  cases hl
  rfl

end Localize

variable {cfg : Settings} {s : Queue} {i : Uuid}

/-- The life of a job reads the tables only through the four lookups. -/
theorem life_eq {s s' : Queue} (hj : s'.db.job i = s.db.job i)
    (hb : s'.db.heartbeat i = s.db.heartbeat i)
    (hr : ∀ j, s.db.job i = some j → s'.db.record j.commitSha = s.db.record j.commitSha)
    (hc : s'.tokens i = s.tokens i) : s'.life i = s.life i := by
  unfold life
  rw [hj, hb, hc]
  cases h : s.db.job i with
  | none => rfl
  | some j => simp [hr j h]

theorem life_enqueueIfNew {sha repo : String} {pullNumber installationId : ℤ}
    {traceContext : Option Dict} {id : Uuid} {now : Timestamp} :
    let e := Transaction.enqueueIfNew sha repo pullNumber installationId traceContext id now
    (s.exec cfg e).life i = (s.life i).exec cfg (s.localize i e) := by
  intro e
  simp only [e, exec, localize]
  cases hr : s.db.record sha with
  | some r => simp [enqueueIfNew_recorded hr, Life.exec]
  | none =>
    cases hs : s.db.jobOfSha sha with
    | some j => simp [enqueueIfNew_conflict _ _ _ _ _ _ hr hs, Life.exec]
    | none =>
      cases hid : s.db.job id with
      | some j => simp [enqueueIfNew_collision hr hs hid, Life.exec]
      | none =>
        obtain ⟨db', hok, hjob, -, hbeat, hrec⟩ := enqueueIfNew_inserted repo pullNumber
          installationId traceContext now hr hs hid
        simp only [hok, and_self, and_true]
        have hrec' : ∀ sha, db'.record sha = s.db.record sha := fun sha => by
          simp only [Database.record, hrec]
        have hbeat' : db'.heartbeat i = s.db.heartbeat i := by
          simp only [Database.heartbeat, hbeat]
        split_ifs with hi
        · subst hi
          ext1
          · simp [life, Life.exec, hjob]
          · exact hbeat'
          · simp [life, Life.exec, hjob, hrec', Job.enqueued, hr]
          · rfl
        · exact life_eq (by simp [hjob, hi]) hbeat' (fun j _ => hrec' _) rfl

theorem life_claimJob {worker : String} {scan : Scan} {now : Timestamp} :
    let e := Transaction.claimJob worker scan now
    (s.exec cfg e).life i = (s.life i).exec cfg (s.localize i e) := by
  intro e
  simp only [e, exec, localize]
  cases hc : claimCandidate scan now s.db with
  | none => simp [claimJob_none hc, Life.exec]
  | some c =>
    have hcid := (claimCandidate_spec hc).1
    have hrec : ∀ sha, (claimJob worker scan now s.db).2.record sha = s.db.record sha :=
      fun sha => by simp only [Database.record, reviewRecords_claimJob]
    simp only [Option.any_some, decide_eq_true_eq]
    split_ifs with hi
    · subst hi
      ext1
      · simp [life, Life.exec, job_claimJob hc, hcid]
      · simp [life, Life.exec, heartbeat_claimJob hc, hcid]
      · simp [life, Life.exec, job_claimJob hc, hcid, hrec, Job.claimed]
      · simp [life, Life.exec, hcid, tokens, claimJob_fst hc, Job.claimed]
    · refine life_eq ?_ ?_ (fun j _ => hrec _) ?_
      · simp [job_claimJob hc, hi]
      · simp [heartbeat_claimJob hc, hi]
      · have hne : c.id ≠ i := fun h => hi h.symm
        simp [tokens, claimJob_fst hc, Job.claimed, hne]

theorem life_updateHeartbeat {id : Uuid} {worker : String} {now : Timestamp} :
    let e := Transaction.updateHeartbeat id worker now
    (s.exec cfg e).life i = (s.life i).exec cfg (s.localize i e) := by
  intro e
  simp only [e, exec, localize]
  obtain ⟨hjobs, hrecs⟩ := updateHeartbeat_snd id worker now s.db
  have hjob : ∀ i, (updateHeartbeat id worker now s.db).2.job i = s.db.job i := fun i => by
    simp only [Database.job, hjobs]
  have hrec : ∀ sha, (updateHeartbeat id worker now s.db).2.record sha = s.db.record sha :=
    fun sha => by simp only [Database.record, hrecs]
  split_ifs with hi
  · subst hi
    ext1
    · exact hjob i
    · simp [life, Life.exec, heartbeat_updateHeartbeat]
    · simp [life, Life.exec, hjob, hrec]
    · rfl
  · exact life_eq (hjob i) (by simp [heartbeat_updateHeartbeat, hi]) (fun j _ => hrec _) rfl

theorem life_setCheckRunId {id : Uuid} {checkRunId : ℤ} :
    let e := Transaction.setCheckRunId id checkRunId
    (s.exec cfg e).life i = (s.life i).exec cfg (s.localize i e) := by
  intro e
  simp only [e, exec, localize]
  split_ifs with hi
  · subst hi
    ext1
    · simp [life, Life.exec, job_setCheckRunId]
    · rfl
    · simp only [life, Life.exec, job_setCheckRunId, ↓reduceIte, Option.bind_map]
      rfl
    · rfl
  · exact life_eq (by simp [job_setCheckRunId, hi]) rfl (fun j _ => rfl) rfl

theorem life_finalizeJob {id : Uuid} {token : ℕ} {verdict : Verdict} {aiFeedback : Option Dict}
    {now : Timestamp} :
    let e := Transaction.finalizeJob id token verdict aiFeedback now
    (s.exec cfg e).life i = (s.life i).exec cfg (s.localize i e) := by
  intro e
  simp only [e, exec, localize]
  by_cases hcur : ∃ j, s.db.job id = some j ∧ j.fenceToken = token
  · obtain ⟨j, hj, ht⟩ := hcur
    obtain ⟨db', hok, hjob, hbeat, hrec⟩ := finalizeJob_current cfg
      verdict.status aiFeedback now hj ht
    simp only [hok]
    split_ifs with hi
    · subst hi
      ext1
      · simp [life, Life.exec, hjob, hj, ht]
      · simp [life, Life.exec, hbeat, hj, ht]
      · simp [life, Life.exec, hjob, hrec, hj, ht, Job.finalized]
      · simp [life, Life.exec, hj, ht, tokens]
    · refine life_eq (by simp [hjob, hi]) (by simp [hbeat, hi]) (fun j' hj' => ?_) rfl
      have hne : j.commitSha ≠ j'.commitSha := fun hs =>
        hi (Database.id_eq_of_commitSha_eq hj hj' hs).symm
      simp [hrec, hne]
  · have hstale : ∀ j, s.db.job id = some j → j.fenceToken ≠ token :=
      fun j hj ht => hcur ⟨j, hj, ht⟩
    simp only [finalizeJob_stale hstale]
    split_ifs with hi
    · subst hi
      cases hj : s.db.job i with
      | none => simp [life, Life.exec, hj]
      | some j => simp [life, Life.exec, hj, hstale j hj]
    · rfl

theorem life_releaseJob {id : Uuid} {token : ℕ} {delaySeconds : ℤ} {now : Timestamp} :
    let e := Transaction.releaseJob id token delaySeconds now
    (s.exec cfg e).life i = (s.life i).exec cfg (s.localize i e) := by
  intro e
  simp only [e, exec, localize]
  split_ifs with hi
  · subst hi
    ext1
    · simp [life, Life.exec, job_releaseJob]
    · simp [life, Life.exec, heartbeat_releaseJob]
    · simp only [life, Life.exec, job_releaseJob, ↓reduceIte, Option.bind_map]
      refine congrArg (s.db.job i).bind (funext fun j => ?_)
      simp only [Function.comp_apply]
      split <;> rfl
    · rfl
  · exact life_eq (by simp [job_releaseJob, hi]) (by simp [heartbeat_releaseJob, hi])
      (fun j _ => rfl) rfl

theorem life_reconcileStaleJobs {locked : List Uuid} {now : Timestamp} :
    let e := Transaction.reconcileStaleJobs locked now
    (s.exec cfg e).life i = (s.life i).exec cfg (s.localize i e) := by
  intro e
  simp only [e, exec, localize]
  have htaken : ∀ j, s.db.job i = some j → reclaimable cfg locked now s.db j =
      Life.taken cfg (locked.contains i) now (s.db.heartbeat i) j := fun j hj => by
    rw [reclaimable, job_id hj, Life.taken]
  cases hj : s.db.job i with
  | none =>
    ext1
    · simp [life, Life.exec, job_reconcileStaleJobs, hj]
    · simp [life, Life.exec, heartbeat_reconcileStaleJobs, hj]
    · simp [life, Life.exec, job_reconcileStaleJobs, hj]
    · rfl
  | some j =>
    ext1
    · simp [life, Life.exec, job_reconcileStaleJobs, hj, htaken j hj]
    · simp [life, Life.exec, heartbeat_reconcileStaleJobs, hj, htaken j hj]
    · have hsha : ∀ b, ((j.reconciled cfg now b).expired now).commitSha = j.commitSha :=
        fun b => by
          unfold Job.expired Job.reconciled
          split <;> split <;> rfl
      simp only [life, Life.exec, job_reconcileStaleJobs, hj, Option.map_some, Option.bind_some,
        hsha]
      rfl
    · rfl

/-- Each job lives on its own: a transaction acts on it through its local part, whatever
happens to the other rows. -/
theorem life_exec (e : Transaction) :
    (s.exec cfg e).life i = (s.life i).exec cfg (s.localize i e) := by
  cases e with
  | enqueueIfNew => exact life_enqueueIfNew
  | claimJob => exact life_claimJob
  | updateHeartbeat => exact life_updateHeartbeat
  | setCheckRunId => exact life_setCheckRunId
  | finalizeJob => exact life_finalizeJob
  | releaseJob => exact life_releaseJob
  | reconcileStaleJobs => exact life_reconcileStaleJobs
  | heartbeatsLost => rfl

theorem localize_permitted {e : Transaction} (h : s.Permitted e) :
    (s.life i).Permitted (s.localize i e) := by
  have hl := localized s i e
  generalize s.localize i e = l at hl
  cases hl with
  | enqueued hrow => exact ⟨hrow, _, _, _, _, _, _, _, rfl⟩
  | claimed hc hid =>
    subst hid
    exact ⟨_, (claimCandidate_spec hc).1, (claimCandidate_spec hc).2.1⟩
  | finalized => exact h
  | released => exact h
  | _ => trivial

/-- A step of the queue is a step of every job's life. -/
theorem life_step {e : Transaction} {t : Queue} (h : Step cfg s e t) (i : Uuid) :
    Life.Step cfg (s.life i) (s.localize i e) (t.life i) := by
  obtain ⟨hp, rfl⟩ := step_iff.1 h
  exact ⟨localize_permitted hp, life_exec e |>.symm⟩

theorem life_run {es : List Transaction} {t : Queue} (h : Run (Step cfg) s es t) (i : Uuid) :
    Reachable (Life.Step cfg) (s.life i) (t.life i) :=
  h.simulates (I := fun _ => True) (f := fun s => s.life i) (fun _ _ _ _ _ => trivial)
    (fun _ _ _ _ hs => (Reachable.refl _).next (life_step hs i)) trivial

end Queue

namespace Sample

def jobId : Uuid := ⟨"550e8400-e29b-41d4-a716-446655440000"⟩

def sha : String := "6dcb09b5b57875f334f61aebed695e2e4193db5e"

def enqueue : Transaction := .enqueueIfNew sha "octo/widgets" 7 42 none jobId 0

def claim (worker : String) (now : Timestamp) : Transaction := .claimJob worker .idle now

end Sample

/-- Where a list of transactions leads, with the facts about it that evaluate to true. -/
theorem Queue.exists_run (cfg : Settings) (s : Queue) (es : List Transaction) (p : Queue → Bool)
    (h : (replay (Queue.next cfg) s es).any p = true) :
    ∃ t, Run (Queue.Step cfg) s es t ∧ p t = true := exists_run_of_replay (Queue.next cfg) h

end Revix
