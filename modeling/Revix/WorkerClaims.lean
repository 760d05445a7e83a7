import Revix.ExceptionHandlers
import Revix.WorkerFleet

/-! A run of `process_job` finalizes only the claim it was started for, and at most twice: with
`SUCCESS`, and with `FAILURE` from its error handler when the first call raised. -/
namespace Revix
open KeyedTables LabelledRuns EffectPrograms

/-! ## The calls of `process_job` -/

section Calls

variable {P : Request → Prop} {py : Python} {job : Job}

theorem calls_ask {q : Request} (h : P q) : (ask q).Calls P := Script.calls_request h

theorem calls_suppress {x : JobScript Unit} (hx : x.Calls P) : (suppress x).Calls P :=
  calls_tryExcept hx fun _ => Script.calls_pure _

theorem calls_indexFile (h : ∀ filename source, P (.indexFile filename source)) (file : PullFile) :
    (indexFile file).Calls P := by
  unfold indexFile
  split
  · exact Script.calls_pure _
  · split
    · exact calls_ask (h _ _)
    · exact Script.calls_throw _

theorem calls_indexFiles (h : ∀ filename source, P (.indexFile filename source))
    (hp : ∀ repo symbols references, P (.persistRepoGraph repo symbols references))
    (prFiles : List PullFile) : (indexFiles job prFiles).Calls P := by
  unfold indexFiles
  refine (Script.Calls.collect (calls_indexFile h) prFiles).bind fun indexed => ?_
  dsimp only
  split
  · exact calls_ask (hp _ _ _)
  · exact Script.calls_pure _

theorem calls_completeCheckRun (h : ∀ update token, P (.updateCheckRun update token))
    (result : ReviewResult) (token : String) : (completeCheckRun job result token).Calls P := by
  unfold completeCheckRun
  refine Script.calls_get.bind fun l => ?_
  split
  · exact Script.calls_pure _
  · exact calls_ask (h _ _)

theorem calls_failCheckRun (h : ∀ update token, P (.updateCheckRun update token)) (e : PyError) :
    (failCheckRun job e).Calls P := by
  unfold failCheckRun
  refine Script.calls_get.bind fun l => ?_
  split
  · exact calls_suppress (calls_ask (h _ _))
  · exact Script.calls_pure _

theorem calls_retryDelayFor (h : P .time) (e : PyError) (attemptCount : ℤ) :
    (retryDelayFor py e attemptCount).Calls P := by
  unfold retryDelayFor
  dsimp only
  split
  · exact Script.calls_pure _
  · split
    · exact (calls_ask h).bind fun _ => Script.calls_pure _
    · exact Script.calls_pure _

end Calls

/-! ## What a task finalizes -/

/-- Whether a claim can still be finalized by its task. -/
inductive Claim
  | unsettled
  | settled
  deriving DecidableEq

/-- A commit of `SUCCESS` that raises what the error handler turns into a `FAILURE`. -/
def Request.retried : (q : Request) → Except Raised q.Answer → Bool
  | .finalizeJob _ _ .success _, .error (.exception e) => !isRateLimit e
  | _, _ => false

/-- A task finalizes only its own claim, and not again once it is settled. -/
def commitMonitor (id : Uuid) (token : ℕ) :
    Monitor Request (fun q => Except Raised q.Answer) Claim where
  allows
    | m, .finalizeJob id' token' _ _ => m = .unsettled ∧ id' = id ∧ token' = token
    | _, .releaseJob id' token' _ => id' = id ∧ token' = token
    | _, _ => True
  next
    | _, .finalizeJob id' token' verdict aiFeedback, r =>
      if (Request.finalizeJob id' token' verdict aiFeedback).retried r then .unsettled else .settled
    | m, _, _ => m

section Process

variable {py : Python} {cfg : Settings} {job : Job} {m : Claim}

def Request.plain : Request → Bool
  | .finalizeJob _ _ _ _ => false
  | .releaseJob _ _ _ => false
  | _ => true

theorem plain_unnoticed {q : Request} (h : q.plain = true) :
    (commitMonitor job.id job.fenceToken).allows m q ∧
      ∀ r, (commitMonitor job.id job.fenceToken).next m q r = m := by
  cases q with
  | finalizeJob => cases h
  | releaseJob => cases h
  | _ => exact ⟨trivial, fun _ => rfl⟩

theorem quiet_of_calls {α : Type} {x : JobScript α} (hx : x.Calls fun q => q.plain = true) :
    x.Quiet (commitMonitor job.id job.fenceToken) m :=
  hx.quiet fun _ => plain_unnoticed

theorem quiet_ask {q : Request} (h : q.plain = true) :
    (ask q).Quiet (commitMonitor job.id job.fenceToken) m :=
  quiet_of_calls (calls_ask h)

theorem quiet_createCheckRun (token : String) :
    (createCheckRun job token).Quiet (commitMonitor job.id job.fenceToken) m := by
  refine quiet_tryExcept ((quiet_ask rfl).bind fun _ => ?_) fun _ => Script.quiet_pure _
  exact (Script.quiet_modify _).bind fun _ => quiet_ask rfl

/-- A task may finalize its claim while it is unsettled. -/
theorem finalize_obeys {verdict : Verdict} {aiFeedback : Option Dict} {l : Locals}
    {post : Claim → Locals → Except Raised Unit → Prop}
    (hpost : ∀ r, post (if (Request.finalizeJob job.id job.fenceToken verdict aiFeedback).retried r
      then .unsettled else .settled) l r) :
    (ask (.finalizeJob job.id job.fenceToken verdict aiFeedback)).Obeys
      (commitMonitor job.id job.fenceToken) post .unsettled l :=
  Script.obeys_request.2 ⟨⟨rfl, rfl, rfl⟩, hpost⟩

theorem release_obeys {delaySeconds : ℤ} {l : Locals}
    {post : Claim → Locals → Except Raised Unit → Prop} (hpost : ∀ r, post m l r) :
    (ask (.releaseJob job.id job.fenceToken delaySeconds)).Obeys
      (commitMonitor job.id job.fenceToken) post m l :=
  Script.obeys_request.2 ⟨⟨rfl, rfl⟩, hpost⟩

def AfterReview (m : Claim) (_ : Locals) : Except Raised Unit → Prop
  | .error (.exception e) => m = .unsettled ∨ isRateLimit e = true
  | _ => True

theorem review_obeys (installationId : ℤ) (l : Locals) :
    (review cfg job installationId).Obeys (commitMonitor job.id job.fenceToken) AfterReview
      .unsettled l := by
  have hraise : ∀ (e : Raised) (l : Locals), AfterReview .unsettled l (.error e) := by
    rintro (e | _) l
    · exact .inl rfl
    · trivial
  have hindex : ∀ prFiles, (indexFiles job prFiles).Quiet
      (commitMonitor job.id job.fenceToken) .unsettled :=
    fun prFiles => quiet_of_calls (calls_indexFiles (fun _ _ => rfl) (fun _ _ _ => rfl) prFiles)
  have hcomplete : ∀ result token, (completeCheckRun job result token).Quiet
      (commitMonitor job.id job.fenceToken) .unsettled :=
    fun result token => quiet_of_calls (calls_completeCheckRun (fun _ _ => rfl) result token)
  unfold review
  refine (quiet_ask rfl).andThen (fun token l => ?_) hraise
  refine (Script.quiet_modify _).andThen (fun _ l => ?_) hraise
  refine (quiet_createCheckRun token).andThen (fun _ l => ?_) hraise
  refine (quiet_ask rfl).andThen (fun diff l => ?_) hraise
  refine (quiet_ask rfl).andThen (fun prFiles l => ?_) hraise
  refine (quiet_ask rfl).andThen (fun prDetails l => ?_) hraise
  refine (hindex prFiles).andThen (fun _ l => ?_) hraise
  refine (quiet_ask rfl).andThen (fun result l => ?_) hraise
  refine (quiet_ask rfl).andThen (fun _ l => ?_) hraise
  refine (hcomplete result token).andThen (fun _ l => ?_) hraise
  -- the commit: only an exception that is no rate limit leads to another one
  apply finalize_obeys
  intro r
  rcases r with (e | _) | _
  · by_cases hlimit : isRateLimit e = true
    · exact .inr hlimit
    · exact .inl (by simp [Request.retried, hlimit])
  · trivial
  · trivial

theorem handleError_obeys {e : PyError} (h : m = .unsettled ∨ isRateLimit e = true) (l : Locals) :
    (handleError py job e).Obeys (commitMonitor job.id job.fenceToken) (fun _ _ _ => True) m l := by
  have hdelay : (retryDelayFor py e job.attemptCount).Quiet
      (commitMonitor job.id job.fenceToken) m := quiet_of_calls (calls_retryDelayFor (by rfl) e _)
  have hfail : (failCheckRun job e).Quiet (commitMonitor job.id job.fenceToken) m :=
    quiet_of_calls (calls_failCheckRun (fun _ _ => rfl) e)
  unfold handleError
  refine hdelay.andThen (fun delay l => ?_) fun _ _ => trivial
  split
  · exact release_obeys fun _ => trivial
  · rename_i hlimit
    obtain rfl := h.resolve_right hlimit
    refine hfail.andThen (fun _ l => ?_) fun _ _ => trivial
    refine Script.obeys_tryCatch.2 (finalize_obeys fun r => ?_)
    rcases r with (e | _) | _ <;> trivial

/-- From an unsettled claim, `process_job` finalizes at most once more than it fails to. -/
theorem processJob_obeys (l : Locals) :
    (processJob py cfg job).Obeys (commitMonitor job.id job.fenceToken) (fun _ _ _ => True)
      .unsettled l := by
  unfold processJob
  split
  · refine Script.obeys_tryCatch.2 (finalize_obeys fun r => ?_)
    rcases r with (e | _) | _ <;> trivial
  · rename_i installationId _
    refine (quiet_ask rfl).andThen (fun _ l => ?_) fun _ _ => trivial
    refine Script.Obeys.finallyDo (Script.obeys_tryCatch.2 ?_) fun _ => quiet_ask rfl
    apply (review_obeys installationId l).mono
    intro m l r hr
    rcases r with (e | _) | _
    · exact handleError_obeys hr l
    · trivial
    · trivial

end Process

/-! ## The fleet and its queue -/

namespace Life

variable {cfg : Settings} {l : Life}

theorem tokens_subset_exec (e : LifeEvent) : l.tokens ⊆ (l.exec cfg e).tokens := by
  cases e with
  | claimed worker now =>
    cases hj : l.job with
    | none => simp [exec, hj]
    | some j => simp [exec, hj]
  | finalized =>
    rw [tokens_finalized]
    exact List.Subset.refl _
  | _ => exact List.Subset.refl _

end Life

namespace Queue

variable {cfg : Settings} {s t : Queue} {e : Transaction} {id : Uuid} {token : ℕ}

theorem tokens_subset (hs : Step cfg s e t) (id : Uuid) : s.tokens id ⊆ t.tokens id := by
  have htokens : t.tokens id = ((s.life id).exec cfg (s.localize id e)).tokens := by
    rw [(life_step hs id).2]
    rfl
  rw [htokens]
  exact Life.tokens_subset_exec (l := s.life id) (s.localize id e)

end Queue

namespace Fleet

variable {py : Python} {cfg : Settings} {f g : Fleet}

/-- A task has a token that was issued, and finalizes and releases nothing else. -/
def Bound (q : Queue) (task : Task) : Prop :=
  task.token ∈ q.tokens task.id ∧
    ∃ m, task.rest.Obeys (commitMonitor task.id task.token) (fun _ _ => True) m

structure Coupled (cfg : Settings) (f : Fleet) : Prop where
  reachable : Reachable (Queue.Step cfg) .empty f.queue
  bound : ∀ task ∈ f.tasks, Bound f.queue task

theorem Bound.step {q q' : Queue} {e : Transaction} {task : Task} (h : Bound q task)
    (hs : Queue.Step cfg q e q') : Bound q' task :=
  ⟨Queue.tokens_subset hs _ h.1, h.2⟩

theorem permitted_request {q : Queue} {id : Uuid} {token : ℕ} {m : Claim} {req : Request}
    {now : Timestamp} {e : Transaction} (hissued : token ∈ q.tokens id)
    (hallow : (commitMonitor id token).allows m req) (he : req.transaction now = some e) :
    q.Permitted e := by
  cases req with
  | setCheckRunId => cases he; trivial
  | releaseJob =>
    cases he
    obtain ⟨rfl, rfl⟩ := hallow
    exact hissued
  | finalizeJob =>
    cases he
    obtain ⟨-, rfl, rfl⟩ := hallow
    exact hissued
  | _ => cases he

/-- A step of a fleet is at most one transaction: of the surroundings, of a claim, or of a task
that asks for it. -/
theorem transaction_step {e : FleetEvent} (h : ∀ task ∈ f.tasks, Bound f.queue task)
    (hs : Step py cfg f e g) : g.queue = f.queue ∨ ∃ e', Queue.Step cfg f.queue e' g.queue ∧
      (e = .environment e' ∧ e'.ofEnvironment = true ∨
        (∃ worker scan now delivered, e = .claimed worker scan now delivered ∧
          e' = .claimJob worker scan now) ∨
        ∃ n reply now id token q resume, e = .answered n reply true now ∧
          f.tasks[n]? = some ⟨id, token, .ask q resume⟩ ∧ q.transaction now = some e') := by
  cases e with
  | environment e =>
    obtain ⟨he, hq, -⟩ := step_environment hs
    exact .inr ⟨e, hq, .inl ⟨rfl, he⟩⟩
  | claimed worker scan now delivered =>
    obtain ⟨hq, -⟩ := step_claimed hs
    exact .inr ⟨_, hq, .inr (.inl ⟨worker, scan, now, delivered, rfl, rfl⟩)⟩
  | answered n reply committed now =>
    obtain ⟨id, token, q, resume, htask, -, hqueue⟩ := step_answered hs
    obtain ⟨hissued, m, hallow, -⟩ := h _ (List.mem_of_getElem? htask)
    refine hqueue.imp_right fun ⟨e', he', hcommitted, hexec⟩ => ⟨e', ?_, .inr (.inr ?_)⟩
    · exact hexec ▸ Queue.step_exec (permitted_request hissued hallow he')
    · subst hcommitted
      exact ⟨n, reply, now, id, token, q, resume, rfl, htask, he'⟩
  | killed n =>
    obtain ⟨task, -, hqueue, -⟩ := step_killed hs
    exact .inl hqueue

/-- Only a claim is a `claim_job`. -/
theorem queue_step {e : FleetEvent} (h : ∀ task ∈ f.tasks, Bound f.queue task)
    (hs : Step py cfg f e g) : g.queue = f.queue ∨ ∃ e', Queue.Step cfg f.queue e' g.queue ∧
      ∀ worker scan now, e' = .claimJob worker scan now →
        ∃ delivered, e = .claimed worker scan now delivered := by
  refine (transaction_step h hs).imp_right fun ⟨e', hq, hwhere⟩ => ⟨e', hq, ?_⟩
  rintro worker scan now rfl
  rcases hwhere with ⟨-, he⟩ | ⟨_, _, _, delivered, rfl, heq⟩ | ⟨_, _, _, _, _, q, _, -, -, he⟩
  · cases he
  · cases heq
    exact ⟨delivered, rfl⟩
  · cases q <;> cases he

theorem bound_spawn {worker : String} {scan : Scan} {now : Timestamp} {c : Job}
    (hc : claimCandidate scan now f.queue.db = some c) :
    Bound (f.queue.exec cfg (.claimJob worker scan now)) (spawn py cfg (c.claimed worker now)) :=
  ⟨by simp [Queue.exec, Queue.tokens, claimJob_fst hc, spawn, Job.claimed], .unsettled,
    processJob_obeys {}⟩

theorem coupled_step {e : FleetEvent} (h : f.Coupled cfg) (hs : Step py cfg f e g) :
    g.Coupled cfg := by
  have hkeep : Reachable (Queue.Step cfg) .empty g.queue ∧
      ∀ task, Bound f.queue task → Bound g.queue task := by
    rcases transaction_step h.bound hs with hsame | ⟨e', hq, -⟩
    · rw [hsame]
      exact ⟨h.reachable, fun _ hb => hb⟩
    · exact ⟨h.reachable.next hq, fun _ hb => hb.step hq⟩
  refine ⟨hkeep.1, fun task hmem => ?_⟩
  obtain ⟨n, hn⟩ := List.getElem?_of_mem hmem
  rcases step_tasks hs hn with hsame | ⟨worker, scan, now, c, hc, hqueue, -, rfl⟩ |
    ⟨id, token, q, resume, reply, _, _, -, htask, rfl⟩ | ⟨task₀, htask, rfl⟩
  · exact hkeep.2 task (h.bound task (List.mem_of_getElem? hsame))
  · rw [hqueue]
    exact bound_spawn hc
  · obtain ⟨hissued, m, -, hnext⟩ := h.bound _ (List.mem_of_getElem? htask)
    exact hkeep.2 _ ⟨hissued, _, hnext (reply q)⟩
  · exact hkeep.2 _ ⟨(h.bound task₀ (List.mem_of_getElem? htask)).1, .settled, trivial⟩

theorem coupled_empty : Coupled cfg empty := ⟨.refl _, fun _ hmem => nomatch hmem⟩

end Fleet

end Revix
