import Revix.QueueRuns
import Revix.WorkerProcess

/-! Any number of workers over one queue: a row that `claim_job` delivers starts a run of
`process_job`, and the runs go on one request at a time. A transaction may commit while its caller
sees an exception, a task may be killed, and everything else may come in between. -/
namespace Revix
open EffectPrograms LabelledRuns

/-- A run of `process_job` for one claim. -/
structure Task where
  id : Uuid
  token : ℕ
  rest : Prog Request (fun q => Except Raised q.Answer) (Except Raised Unit × Locals)

structure Fleet where
  queue : Queue
  tasks : List Task

abbrev Reply := (q : Request) → Except Raised q.Answer

inductive FleetEvent
  /-- A transaction that no task asks for. -/
  | environment (e : Transaction)
  /-- `claim_job`; when its row is not delivered no task starts. -/
  | claimed (worker : String) (scan : Scan) (now : Timestamp) (delivered : Bool)
  /-- A task gets an answer; for a transaction, whether it was committed. -/
  | answered (n : ℕ) (reply : Reply) (committed : Bool) (now : Timestamp)
  | killed (n : ℕ)

def Request.transaction (now : Timestamp) : Request → Option Transaction
  | .setCheckRunId id checkRunId => some (.setCheckRunId id checkRunId)
  | .finalizeJob id token verdict aiFeedback =>
    some (.finalizeJob id token verdict aiFeedback now)
  | .releaseJob id token delaySeconds => some (.releaseJob id token delaySeconds now)
  | _ => none

/-- Webhooks, heartbeats, reconciliations, shutdowns and crashes; only tasks finalize. -/
def Transaction.ofEnvironment : Transaction → Bool
  | .claimJob _ _ _ => false
  | .finalizeJob _ _ _ _ _ => false
  | _ => true

def Transaction.commits (cfg : Settings) (db : Database) : Transaction → Bool
  | .finalizeJob id token verdict aiFeedback now =>
    (Revix.finalizeJob cfg id token verdict.status aiFeedback now db).isOk
  | .enqueueIfNew sha repo pullNumber installationId traceContext id now =>
    (Revix.enqueueIfNew sha repo pullNumber installationId traceContext id now db).isOk
  | _ => true

namespace Fleet

def empty : Fleet := ⟨.empty, []⟩

section Steps

variable (py : Python) (cfg : Settings)

def spawn (row : Job) : Task := ⟨row.id, row.fenceToken, processJob py cfg row {}⟩

def next (f : Fleet) : FleetEvent → Option Fleet
  | .environment e =>
    if e.ofEnvironment then (f.queue.next cfg e).map fun q => { f with queue := q } else none
  | .claimed worker scan now delivered =>
    let row := (claimJob worker scan now f.queue.db).1
    some ⟨f.queue.exec cfg (.claimJob worker scan now),
      f.tasks ++ ((row.filter fun _ => delivered).map (spawn py cfg)).toList⟩
  | .answered n reply committed now =>
    match f.tasks[n]? with
    | some ⟨id, token, .ask q resume⟩ =>
      let tasks := f.tasks.set n ⟨id, token, resume (reply q)⟩
      match q.transaction now with
      | none => some { f with tasks := tasks }
      | some e =>
        if committed then
          if e.commits cfg f.queue.db then some ⟨f.queue.exec cfg e, tasks⟩ else none
        -- what is not committed raises
        else if !(reply q).isOk then some { f with tasks := tasks } else none
    | _ => none
  | .killed n => (f.tasks[n]?).map fun task =>
    { f with tasks := f.tasks.set n { task with rest := .done (.error .cancelled, {}) } }

def Step (f : Fleet) (e : FleetEvent) (g : Fleet) : Prop := f.next py cfg e = some g

end Steps

variable {py : Python} {cfg : Settings} {f g : Fleet}

theorem step_environment {e : Transaction} (h : Step py cfg f (.environment e) g) :
    e.ofEnvironment = true ∧ Queue.Step cfg f.queue e g.queue ∧ g.tasks = f.tasks := by
  simp only [Step, next] at h
  split_ifs at h with he
  obtain ⟨q, hq, rfl⟩ := Option.map_eq_some_iff.1 h
  exact ⟨he, hq, rfl⟩

theorem step_claimed {worker : String} {scan : Scan} {now : Timestamp} {delivered : Bool}
    (h : Step py cfg f (.claimed worker scan now delivered) g) :
    Queue.Step cfg f.queue (.claimJob worker scan now) g.queue ∧
      (g.tasks = f.tasks ∨ ∃ c, claimCandidate scan now f.queue.db = some c ∧
        g.tasks = f.tasks ++ [spawn py cfg (c.claimed worker now)]) := by
  simp only [Step, next, Option.some.injEq] at h
  subst h
  refine ⟨Queue.step_exec trivial, ?_⟩
  cases hc : claimCandidate scan now f.queue.db with
  | none => exact .inl (by simp [claimJob_none hc])
  | some c =>
    rw [claimJob_fst hc]
    cases delivered with
    | false => exact .inl (by simp)
    | true => exact .inr ⟨c, rfl, by simp⟩

/-- A task gets its answer, and at most one transaction is committed. -/
theorem step_answered {n : ℕ} {reply : Reply} {committed : Bool} {now : Timestamp}
    (h : Step py cfg f (.answered n reply committed now) g) :
    ∃ id token q resume, f.tasks[n]? = some ⟨id, token, .ask q resume⟩ ∧
      g.tasks = f.tasks.set n ⟨id, token, resume (reply q)⟩ ∧
      (g.queue = f.queue ∨ ∃ e, q.transaction now = some e ∧ committed = true ∧
        g.queue = f.queue.exec cfg e) := by
  simp only [Step, next] at h
  split at h
  · rename_i id token q resume htask
    refine ⟨id, token, q, resume, htask, ?_⟩
    split at h
    · cases h
      exact ⟨rfl, .inl rfl⟩
    · rename_i e he
      split_ifs at h with hcommit hok hraise
      · cases h
        exact ⟨rfl, .inr ⟨e, he, hcommit, rfl⟩⟩
      · cases h
        exact ⟨rfl, .inl rfl⟩
  · cases h

theorem step_killed {n : ℕ} (h : Step py cfg f (.killed n) g) :
    ∃ task, f.tasks[n]? = some task ∧ g.queue = f.queue ∧
      g.tasks = f.tasks.set n { task with rest := .done (.error .cancelled, {}) } := by
  obtain ⟨task, htask, rfl⟩ := Option.map_eq_some_iff.1 h
  exact ⟨task, htask, rfl, rfl⟩

/-- Where a task comes from: it is as it was, new, one answer further, or killed. -/
theorem step_tasks {e : FleetEvent} (h : Step py cfg f e g) {n : ℕ} {task : Task}
    (hn : g.tasks[n]? = some task) : f.tasks[n]? = some task ∨
      (∃ worker scan now c, claimCandidate scan now f.queue.db = some c ∧
        g.queue = f.queue.exec cfg (.claimJob worker scan now) ∧ n = f.tasks.length ∧
        task = spawn py cfg (c.claimed worker now)) ∨
      (∃ id token q resume reply committed now, e = .answered n reply committed now ∧
        f.tasks[n]? = some ⟨id, token, .ask q resume⟩ ∧ task = ⟨id, token, resume (reply q)⟩) ∨
      ∃ task₀, f.tasks[n]? = some task₀ ∧
        task = { task₀ with rest := .done (.error .cancelled, {}) } := by
  have hset : ∀ m task', g.tasks = f.tasks.set m task' →
      f.tasks[n]? = some task ∨ n = m ∧ task = task' := by
    intro m task' hg
    rw [hg, List.getElem?_set] at hn
    split_ifs at hn with hnm hlt
    · exact .inr ⟨hnm.symm, (Option.some.inj hn).symm⟩
    · exact .inl hn
  cases e with
  | environment e =>
    obtain ⟨-, -, htasks⟩ := step_environment h
    exact .inl (htasks ▸ hn)
  | claimed worker scan now delivered =>
    obtain ⟨hq, htasks⟩ := step_claimed h
    have hqueue : g.queue = f.queue.exec cfg (.claimJob worker scan now) :=
      (Queue.step_iff.1 hq).2.symm
    rcases htasks with htasks | ⟨c, hc, htasks⟩
    · exact .inl (htasks ▸ hn)
    · rw [htasks, List.getElem?_append] at hn
      split_ifs at hn with hlt
      · exact .inl hn
      · rw [List.getElem?_singleton] at hn
        split_ifs at hn with hz
        have hlast : n = f.tasks.length := by omega
        exact .inr (.inl ⟨worker, scan, now, c, hc, hqueue, hlast, (Option.some.inj hn).symm⟩)
  | answered m reply committed now =>
    obtain ⟨id, token, q, resume, htask, htasks, -⟩ := step_answered h
    refine (hset m _ htasks).imp_right fun ⟨hnm, hsame⟩ => .inr (.inl ?_)
    subst hnm
    exact ⟨id, token, q, resume, reply, committed, now, rfl, htask, hsame⟩
  | killed m =>
    obtain ⟨task₀, htask, -, htasks⟩ := step_killed h
    refine (hset m _ htasks).imp_right fun ⟨hnm, hsame⟩ => .inr (.inr ?_)
    subst hnm
    exact ⟨task₀, htask, hsame⟩

theorem length_tasks_le {e : FleetEvent} (h : Step py cfg f e g) :
    f.tasks.length ≤ g.tasks.length := by
  cases e with
  | environment e =>
    obtain ⟨-, -, htasks⟩ := step_environment h
    rw [htasks]
  | claimed worker scan now delivered =>
    obtain ⟨-, htasks | ⟨c, -, htasks⟩⟩ := step_claimed h <;> rw [htasks]
    simp
  | answered n reply committed now =>
    obtain ⟨id, token, q, resume, -, htasks, -⟩ := step_answered h
    rw [htasks, List.length_set]
  | killed n =>
    obtain ⟨task, -, -, htasks⟩ := step_killed h
    rw [htasks, List.length_set]

theorem exists_run (py : Python) (cfg : Settings) (f : Fleet) (es : List FleetEvent)
    (p : Fleet → Bool) (h : (replay (next py cfg) f es).any p = true) :
    ∃ g, Run (Step py cfg) f es g ∧ p g = true := exists_run_of_replay (next py cfg) h

end Fleet

namespace Sample

def python : Python where
  loads _ := .error "Expecting value: line 1 column 1 (char 0)"
  int
    | .int n => .ok n
    | _ => .error "int() argument must be a string, a bytes-like object or a real number"

def result : ReviewResult where
  summary := "No issues found by swarm."
  score := 100
  score_nonneg := ReviewResult.full_nonneg
  score_le := ReviewResult.full_le

def reply : Reply
  | .newGitHubService => .ok ()
  | .getToken _ => .ok "token"
  | .createCheckRun _ _ _ => .ok 11
  | .setCheckRunId _ _ => .ok ()
  | .fetchDiff _ _ _ => .ok ""
  | .fetchPullFiles _ _ _ _ => .ok []
  | .fetchPullRequest _ _ _ => .ok []
  | .indexFile _ _ => .ok ([], [])
  | .persistRepoGraph _ _ _ => .ok ()
  | .analyzeDiff _ _ _ _ => .ok result
  | .postReview _ _ _ _ _ _ => .ok ()
  | .updateCheckRun _ _ => .ok ()
  | .finalizeJob _ _ _ _ => .ok ()
  | .releaseJob _ _ _ => .ok ()
  | .time => .ok 0
  | .close => .ok ()

/-- The connection is lost after the commit of `SUCCESS`. -/
def lostReply : Reply
  | .finalizeJob _ _ .success _ =>
    .error (.exception ⟨"server closed the connection unexpectedly", none⟩)
  | q => reply q

def reviewed (reply : Reply) : List FleetEvent :=
  .environment enqueue :: .claimed "w1" .idle 0 true ::
    List.replicate 11 (.answered 0 reply true second)

end Sample

end Revix
