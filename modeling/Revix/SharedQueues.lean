import Revix.QueueMarks
import Revix.QueueHeartbeats
import Revix.WorkerCommits
import Revix.EffectSessions

/-! The transactions of other workers come before each call of a run of `process_job`. Beside the
queue there is the one that the others would have made of it alone. -/
namespace Revix
open KeyedTables LabelledRuns EffectSessions

/-- A `finalize_job` or `release_job` of the run, with the queue before and after it. -/
structure WriteCall where
  releases : Bool
  before : Queue
  after : Queue

structure Shared where
  queue : Queue
  /-- What the transactions of the others alone lead to. -/
  alone : Queue
  last : Option WriteCall

/-- What happens at a call: the transactions since the one before it, the answer if the call is
none of the database, and its time. -/
structure Turn where
  others : List Transaction
  reply : Reply
  now : Timestamp

def DbError.text : DbError → String
  | .uniqueViolation constraint => constraint
  | .runtimeError message => message

namespace Shared

def start (s : Queue) : Shared := ⟨s, s, none⟩

def others (cfg : Settings) (es : List Transaction) (s : Shared) : Shared :=
  { s with
    queue := es.foldl (Queue.exec cfg) s.queue
    alone := es.foldl (Queue.exec cfg) s.alone }

/-- A transaction of the run itself. -/
def mark (cfg : Settings) (e : Transaction) (s : Shared) : Shared :=
  { s with queue := s.queue.exec cfg e }

def write (cfg : Settings) (releases : Bool) (e : Transaction) (s : Shared) : Shared :=
  { s with
    queue := s.queue.exec cfg e
    last := some ⟨releases, s.queue, s.queue.exec cfg e⟩ }

end Shared

/-- The calls of the database succeed; only `finalize_job` raises, for a stale token. -/
def shared (cfg : Settings) : Server Request (fun q => Except Raised q.Answer) Shared Turn
  | s, .setCheckRunId id checkRunId, c =>
    (.ok (), (s.others cfg c.others).mark cfg (.setCheckRunId id checkRunId))
  | s, .finalizeJob id token verdict aiFeedback, c =>
    let s' := s.others cfg c.others
    (match finalizeJob cfg id token verdict.status aiFeedback c.now s'.queue.db with
      | .ok _ => .ok ()
      | .error e => .error (.exception ⟨e.text, none⟩),
      s'.write cfg false (.finalizeJob id token verdict aiFeedback c.now))
  | s, .releaseJob id token delaySeconds, c =>
    (.ok (), (s.others cfg c.others).write cfg true (.releaseJob id token delaySeconds c.now))
  | s, q, c => (c.reply q, s.others cfg c.others)

/-- No finalization with this token of the job. -/
def Transaction.ofAnother (id : Uuid) (token : ℕ) (e : Transaction) : Prop :=
  ∀ verdict aiFeedback now, e ≠ .finalizeJob id token verdict aiFeedback now

/-- The others do what callers can do with tokens of their own. `GitHubService()` and the clock
answer, and the task is not cancelled; any other call may raise. -/
def Undisturbed (cfg : Settings) (id : Uuid) (token : ℕ) (s : Shared) (_ : Request) (c : Turn) :
    Prop :=
  Run (Guarded (Queue.Step cfg) fun _ e _ => e.ofAnother id token) s.queue c.others
      (s.others cfg c.others).queue ∧
    (c.reply .newGitHubService).isOk ∧ (c.reply .time).isOk ∧
    ∀ q, c.reply q ≠ .error .cancelled

/-- The run has not finished the job, and nobody could tell that it is there. -/
structure Open (cfg : Settings) (id : Uuid) (token : ℕ) (s : Shared) : Prop where
  reachable : Reachable (Queue.Step cfg) .empty s.queue
  issued : token ∈ s.queue.tokens id
  unsettled : s.queue.Unsettled id token
  alike : s.queue.unmarked = s.alone.unmarked

/-- If the claim was current at the last call of `finalize_job` or `release_job`, that call has
finished the job or made it pending under the next token, without a heartbeat. If it was not, and
did not release a job that another claim was working on, the queue is as the others made it. Since
that call there have been transactions of others only. -/
def Disposed (cfg : Settings) (id : Uuid) (token : ℕ) (s : Shared) : Prop :=
  ∃ call, s.last = some call ∧
    (∃ es, Run (Guarded (Queue.Step cfg) fun _ e _ => e.ofAnother id token) call.after es
      s.queue) ∧
    (call.before.Holds id token →
      (∃ j, call.after.db.job id = some j ∧ (j.status = .success ∨ j.status = .failure ∨
        j.status = .pending ∧ j.fenceToken = token + 1)) ∧
      call.after.db.heartbeat id = none) ∧
    (¬ call.before.Holds id token →
      (call.releases = true → ∀ j, call.before.db.job id = some j → j.status ≠ .processing) →
      s.queue.unmarked = s.alone.unmarked)

section Queues

variable {cfg : Settings} {id : Uuid} {token : ℕ} {s : Shared} {es : List Transaction}

theorem Open.others
    (h : Open cfg id token s)
    (hr : Run (Guarded (Queue.Step cfg) fun _ e _ => e.ofAnother id token) s.queue es
      (s.others cfg es).queue) : Open cfg id token (s.others cfg es) := by
  let I : Queue → Prop := fun q =>
    Reachable (Queue.Step cfg) .empty q ∧ token ∈ q.tokens id ∧ q.Unsettled id token
  have hstep : ∀ q e q', I q → Guarded (Queue.Step cfg) (fun _ e _ => e.ofAnother id token) q e q' →
      I q' := by
    rintro q e q' ⟨hreach, hissued, hunsettled⟩ ⟨hs, hother⟩
    refine ⟨hreach.next hs, Queue.tokens_subset hs id hissued, ?_⟩
    cases e with
    | finalizeJob id' token' verdict aiFeedback now =>
      refine Queue.unsettled_finalize (fun hid htoken => ?_) hs hunsettled
      subst hid htoken
      exact hother verdict aiFeedback now rfl
    | _ => exact Queue.unsettled_step (Queue.localize_finalizes (by simp)) hs hunsettled
  obtain ⟨hreach, hissued, hunsettled⟩ :=
    hr.invariant hstep ⟨h.reachable, h.issued, h.unsettled⟩
  exact ⟨hreach, hissued, hunsettled, Queue.unmarked_foldl h.alike es⟩

theorem Open.mark (h : Open cfg id token s) (id' : Uuid) (checkRunId : ℤ) :
    Open cfg id token (s.mark cfg (.setCheckRunId id' checkRunId)) := by
  have hs : Queue.Step cfg s.queue (.setCheckRunId id' checkRunId)
      (s.mark cfg (.setCheckRunId id' checkRunId)).queue :=
    Queue.step_exec (e := .setCheckRunId id' checkRunId) trivial
  have hmark : (s.queue.exec cfg (.setCheckRunId id' checkRunId)).unmarked = s.queue.unmarked :=
    Queue.unmarked_setCheckRunId id' checkRunId
  exact ⟨h.reachable.next hs, Queue.tokens_subset hs id h.issued,
    Queue.unsettled_step (Queue.localize_finalizes (by simp)) hs h.unsettled, hmark.trans h.alike⟩

theorem Disposed.others (h : Disposed cfg id token s)
    (hr : Run (Guarded (Queue.Step cfg) fun _ e _ => e.ofAnother id token) s.queue es
      (s.others cfg es).queue) : Disposed cfg id token (s.others cfg es) := by
  obtain ⟨call, hlast, ⟨fs, hsince⟩, hcurrent, hstale⟩ := h
  exact ⟨call, hlast, ⟨fs ++ es, hsince.append hr⟩, hcurrent,
    fun hnot hrel => Queue.unmarked_foldl (hstale hnot hrel) es⟩

/-- The job of a claim is there, and is being worked on while the claim's token is its fence. -/
theorem Open.job (h : Open cfg id token s) :
    ∃ j, s.queue.db.job id = some j ∧ (j.fenceToken = token → j.status = .processing) := by
  obtain ⟨es, hr⟩ := h.reachable
  have hf : (s.queue.life id).Fenced := Queue.fenced_of_run hr id
  cases hjob : s.queue.db.job id with
  | none =>
    have htokens : s.queue.tokens id = [] := Life.tokens_of_none hf.coherent hjob
    have hissued := h.issued
    rw [htokens] at hissued
    cases hissued
  | some j =>
    refine ⟨j, rfl, fun ht => ?_⟩
    have hengaged : j.status.engaged = true := hf.engaged hjob (ht ▸ h.issued)
    have hunfinished : j.status.finished = false := h.unsettled j hjob ht
    cases hst : j.status with
    | processing => rfl
    | _ =>
      rw [hst] at hengaged hunfinished
      first
      | exact absurd hengaged Bool.false_ne_true
      | exact absurd hunfinished Bool.false_ne_true.symm

theorem Open.holds (h : Open cfg id token s) {j : Job} (hj : s.queue.db.job id = some j)
    (ht : j.fenceToken = token) : s.queue.Holds id token := by
  obtain ⟨j', hj', hst⟩ := h.job
  rw [hj] at hj'
  cases hj'
  exact ⟨j, hj, Job.holds_iff.2 ⟨ht, hst ht⟩⟩

/-- A release of a job that nobody works on changes nothing. -/
theorem Open.exec_release (h : Open cfg id token s) {delaySeconds : ℤ} {now : Timestamp}
    (hidle : ∀ j, s.queue.db.job id = some j → j.status ≠ .processing) :
    s.queue.exec cfg (.releaseJob id token delaySeconds now) = s.queue := by
  obtain ⟨es, hr⟩ := h.reachable
  have hjobs : ∀ j ∈ s.queue.db.jobs.rows,
      (j.fenced id token && j.status = .processing) = false := by
    intro j hj
    by_cases hid : j.id = id
    · have hidle' := hidle j (Database.job_eq_some_iff.2 ⟨hj, hid⟩)
      simp [hidle']
    · simp [Job.fenced, hid]
  have hbeats : ∀ b ∈ s.queue.db.workerHeartbeats.rows, decide (b.jobId = id) = false := by
    intro b hb
    apply decide_eq_false
    intro hid
    obtain ⟨j, hj, hst, -⟩ :=
      Queue.owned_of_run hr id b (Database.heartbeat_eq_some_iff.2 ⟨hb, hid⟩)
    exact hidle j hj hst
  have hdb : releaseJob id token delaySeconds now s.queue.db = s.queue.db := by
    simp only [releaseJob, Table.update_eq_self _ _ _ _ hjobs, Table.delete_eq_self _ _ hbeats]
  simp only [Queue.exec, hdb]

theorem Open.stale (h : Open cfg id token s) (hnot : ¬ s.queue.Holds id token) :
    ∀ j, s.queue.db.job id = some j → j.fenceToken ≠ token :=
  fun _ hj ht => hnot (h.holds hj ht)

/-- A finalization disposes of the claim, also when it raises. -/
theorem Open.disposed_finalize (h : Open cfg id token s) (verdict : Verdict)
    (aiFeedback : Option Dict) (now : Timestamp) :
    Disposed cfg id token (s.write cfg false (.finalizeJob id token verdict aiFeedback now)) := by
  refine ⟨_, rfl, ⟨[], .nil _⟩, fun hholds => ?_, fun hnot _ => ?_⟩
  · obtain ⟨j, hj, hheld⟩ := hholds
    have ht : j.fenceToken = token := (Job.holds_iff.1 hheld).1
    obtain ⟨db', hok, hjob, hbeat, -⟩ :=
      finalizeJob_current cfg verdict.status aiFeedback now hj ht
    have hafter : (s.queue.exec cfg (.finalizeJob id token verdict aiFeedback now)).db = db' := by
      simp only [Queue.exec, hok]
    refine ⟨⟨j.finalized verdict.status (feedbackJson aiFeedback) now, ?_, ?_⟩, ?_⟩
    · rw [hafter, hjob, if_pos rfl]
    · cases verdict with
      | success => exact .inl rfl
      | failure => exact .inr (.inl rfl)
    · rw [hafter, hbeat, if_pos rfl]
  · have hsame : s.queue.exec cfg (.finalizeJob id token verdict aiFeedback now) = s.queue :=
      Queue.exec_finalize_stale verdict aiFeedback now (h.stale hnot)
    have hqueue : (s.write cfg false (.finalizeJob id token verdict aiFeedback now)).queue =
        s.queue := hsame
    rw [hqueue]
    exact h.alike

/-- A finalization that raises leaves the claim as it was. -/
theorem Open.finalize_raised (h : Open cfg id token s) {verdict : Verdict}
    {aiFeedback : Option Dict} {now : Timestamp} {e : DbError}
    (he : finalizeJob cfg id token verdict.status aiFeedback now s.queue.db = .error e) :
    Open cfg id token (s.write cfg false (.finalizeJob id token verdict aiFeedback now)) := by
  have hstale : ∀ j, s.queue.db.job id = some j → j.fenceToken ≠ token := by
    intro j hj ht
    have hok : ∃ db', finalizeJob cfg id token verdict.status aiFeedback now s.queue.db = .ok db' :=
      finalizeJob_ok_iff.2 ⟨j, hj, ht⟩
    rw [he] at hok
    obtain ⟨_, hok⟩ := hok
    cases hok
  have hsame : s.queue.exec cfg (.finalizeJob id token verdict aiFeedback now) = s.queue :=
    Queue.exec_finalize_stale verdict aiFeedback now hstale
  have hqueue : (s.write cfg false (.finalizeJob id token verdict aiFeedback now)).queue =
      s.queue := hsame
  constructor
  all_goals rw [hqueue]
  exacts [h.reachable, h.issued, h.unsettled, h.alike]

theorem Open.disposed_release (h : Open cfg id token s) (delaySeconds : ℤ) (now : Timestamp) :
    Disposed cfg id token (s.write cfg true (.releaseJob id token delaySeconds now)) := by
  refine ⟨_, rfl, ⟨[], .nil _⟩, fun hholds => ?_, fun _ hidle => ?_⟩
  · obtain ⟨j, hj, hheld⟩ := hholds
    have hjob : (releaseJob id token delaySeconds now s.queue.db).job id = _ := job_releaseJob id
    have hbeat : (releaseJob id token delaySeconds now s.queue.db).heartbeat id = _ :=
      heartbeat_releaseJob id
    rw [if_pos rfl] at hjob hbeat
    refine ⟨⟨j.released delaySeconds now, ?_, .inr (.inr ⟨rfl, ?_⟩)⟩, hbeat⟩
    · apply hjob.trans
      rw [hj, Option.map_some, if_pos hheld]
    · exact congrArg (· + 1) (Job.holds_iff.1 hheld).1
  · have hsame : s.queue.exec cfg (.releaseJob id token delaySeconds now) = s.queue :=
      h.exec_release (hidle rfl)
    have hqueue : (s.write cfg true (.releaseJob id token delaySeconds now)).queue = s.queue :=
      hsame
    rw [hqueue]
    exact h.alike

end Queues

end Revix
