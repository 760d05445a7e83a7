import Revix.JsonTexts
import Revix.SwarmVerdicts
import Revix.WebhookRequests

/-! Whatever the handler calls, it calls for a request with the signature of the secret; and every
job of the queue is the job of such a request. -/
namespace Revix
open EffectPrograms EffectSessions LabelledRuns KeyedTables

section Requests

variable (lib : WebhookLibraries) (secret : String)

def WebhookRequest.Authentic (request : WebhookRequest) : Prop :=
  request.signature = some ("sha256=" ++ lib.hexdigest secret request.body)

/-- An authentic request about a pull request that was opened or updated. -/
def WebhookRequest.Announces (request : WebhookRequest) (e : PullRequestEvent) : Prop :=
  request.Authentic lib secret ∧ request.event = "pull_request" ∧
    ∃ payload, lib.loads request.body = .ok payload ∧ pullRequestEvent payload = .ok (some e)

def WebhookRequest.Commands (request : WebhookRequest) (c : IssueComment) : Prop :=
  request.Authentic lib secret ∧ request.event = "issue_comment" ∧
    ∃ payload, lib.loads request.body = .ok payload ∧ issueCommentEvent payload = .ok (some c)

/-- A signature is right, or it is refused with status 401, or the comparison raises. -/
theorem verifySignature_outcome (request : WebhookRequest) :
    (verifySignature lib secret request.body request.signature = .ok none ∧
      request.Authentic lib secret) ∨
    (∃ detail, verifySignature lib secret request.body request.signature =
      .ok (some (.httpException 401 detail))) ∨
    ∃ text, verifySignature lib secret request.body request.signature = .error text := by
  unfold verifySignature
  cases hsignature : request.signature.filter (· ≠ "") with
  | none => exact .inr (.inl ⟨_, rfl⟩)
  | some signature =>
    dsimp only
    unfold compareDigest
    split
    · by_cases hsame : "sha256=" ++ lib.hexdigest secret request.body = signature
      · have hsent : request.signature = some signature :=
          (Option.filter_eq_some_iff.1 hsignature).1
        refine .inl ⟨?_, by rw [WebhookRequest.Authentic, hsent, hsame]⟩
        rw [decide_eq_true hsame]
        rfl
      · refine .inr (.inl ⟨"Invalid signature", ?_⟩)
        rw [decide_eq_false hsame]
        rfl
    · exact .inr (.inr ⟨_, rfl⟩)

variable {lib secret}

theorem isAscii_signature {digest : String} (h : isAscii digest = true) :
    isAscii ("sha256=" ++ digest) = true := by
  rw [isAscii, String.toList_append, List.all_append, Bool.and_eq_true]
  exact ⟨by decide, h⟩

/-- A digest in ASCII is enough for the request it belongs to. -/
theorem verifySignature_authentic {request : WebhookRequest}
    (h : request.Authentic lib secret)
    (hascii : isAscii (lib.hexdigest secret request.body) = true) :
    verifySignature lib secret request.body request.signature = .ok none := by
  have hne : "sha256=" ++ lib.hexdigest secret request.body ≠ "" := by
    intro hempty
    have := congrArg String.length hempty
    simp at this
  have hfilter : request.signature.filter (· ≠ "") =
      some ("sha256=" ++ lib.hexdigest secret request.body) :=
    Option.filter_eq_some_iff.2 ⟨h, decide_eq_true hne⟩
  unfold verifySignature
  rw [hfilter]
  simp [compareDigest, isAscii_signature hascii]

/-- The pull request of an authentic request is enqueued. -/
theorem githubWebhook_of_announces {request : WebhookRequest} {e : PullRequestEvent}
    (h : request.Announces lib secret e)
    (hascii : isAscii (lib.hexdigest secret request.body) = true) (traceContext : Dict) :
    githubWebhook lib secret request traceContext = pullRequestWebhook e traceContext := by
  obtain ⟨hsigned, hevent, payload, hloads, he⟩ := h
  rw [githubWebhook, verifySignature_authentic hsigned hascii, hloads]
  simp only [payloadWebhook, if_pos hevent, he]

theorem isAuthorized_of_issueCommentEvent {payload : Json} {c : IssueComment}
    (h : issueCommentEvent payload = .ok (some c)) :
    c.isOverride = true ∧ c.isAuthorized = true := by
  simp only [issueCommentEvent, except_bind_eq_ok] at h
  obtain ⟨action, -, h⟩ := h
  split_ifs at h
  · simp only [except_bind_eq_ok] at h
    obtain ⟨comment, -, body, -, text, -, h⟩ := h
    split_ifs at h with hbody
    · simp only [except_bind_eq_ok] at h
      obtain ⟨repository, -, name, -, repo, -, issue, -, pullRequest, -, association, -, h⟩ := h
      split_ifs at h with hauthorized
      · simp only [except_bind_eq_ok] at h
        obtain ⟨number, -, num, -, installation, -, instId, -, h⟩ := h
        cases h
        exact ⟨by simpa [IssueComment.isOverride] using hbody, hauthorized⟩
      · cases h
    · cases h
  · cases h

end Requests

/-! ## What the handler calls -/

/-- What the override has been answered: the head of the pull request, and the check run of it. -/
structure OverrideProgress where
  headSha : Option String
  checkRunId : Option ℤ

def OverrideProgress.next (m : OverrideProgress) :
    (q : CheckRunCall) → Except Raised q.Answer → OverrideProgress
  | .fetchPullRequest _ _ _, .ok pr => ⟨Revix.headSha pr, none⟩
  | .getCheckRunId _ _ _, .ok checkRunId => { m with checkRunId := checkRunId }
  | _, _ => m

/-- The override works for the commented pull request, and completes the check run that the queue
names for the head commit that GitHub names. -/
def overrideMonitor (c : IssueComment) :
    Monitor CheckRunCall (fun q => Except Raised q.Answer) OverrideProgress where
  allows
    | _, .newGitHubService => True
    | _, .getToken installationId => installationId = c.installationId
    | _, .fetchPullRequest repo number _ => repo = c.repo ∧ number = c.number
    | m, .getCheckRunId repo prNumber commitSha =>
      repo = c.repo ∧ prNumber = c.number ∧ m.headSha = some commitSha
    | _, .reconcileStaleJobs => False
    | m, .updateCheckRun update _ => ∃ id, m.checkRunId = some id ∧ update = c.overrideUpdate id
    | _, .close => True
  next := OverrideProgress.next

theorem performOverride_obeys (c : IssueComment) (m : OverrideProgress) :
    (performOverride c).Obeys (overrideMonitor c) (fun _ _ _ => True) m () := by
  refine Script.obeys_bind.2 (Script.obeys_request.2 ⟨rfl, fun r => ?_⟩)
  cases r with
  | error e => trivial
  | ok token =>
    refine Script.obeys_bind.2 (Script.obeys_request.2 ⟨⟨rfl, rfl⟩, fun r => ?_⟩)
    cases r with
    | error e => trivial
    | ok pr =>
      dsimp only
      split
      · trivial
      · rename_i sha hsha
        refine Script.obeys_bind.2 (Script.obeys_request.2 ⟨⟨rfl, rfl, hsha⟩, fun r => ?_⟩)
        cases r with
        | error e => trivial
        | ok checkRunId =>
          dsimp only
          split
          · trivial
          · rename_i id hid
            have hid := (Option.filter_eq_some_iff.1 hid).1
            exact (Script.obeys_request (q := CheckRunCall.updateCheckRun _ _)).2
              ⟨⟨id, hid, rfl⟩, fun _ => trivial⟩

theorem commentWebhook_obeys (c : IssueComment) (m : OverrideProgress) :
    (commentWebhook c).Obeys (overrideMonitor c) (fun _ _ _ => True) m () := by
  unfold commentWebhook
  split
  · refine Script.obeys_bind.2
      ((Script.obeys_request (q := CheckRunCall.newGitHubService)).2 ⟨trivial, fun r => ?_⟩)
    cases r with
    | error e => trivial
    | ok _ =>
      refine Script.Obeys.finallyDo ?_ fun m => Script.quiet_request trivial fun _ => rfl
      exact obeys_tryExcept (performOverride_obeys c _) fun _ _ _ => trivial
  · trivial

section Handler

variable (lib : WebhookLibraries) (secret : String) (request : WebhookRequest)

/-- Every call is one that an authentic request asks for. -/
def webhookMonitor : Monitor WebhookCall (fun q => Except Raised q.Answer) OverrideProgress where
  allows
    | _, .enqueueIfNew e _ => request.Announces lib secret e
    | m, .override q => ∃ c : IssueComment, request.Commands lib secret c ∧
        c.isOverride = true ∧ c.isAuthorized = true ∧ (overrideMonitor c).allows m q
  next
    | m, .enqueueIfNew _ _, _ => m
    | m, .override q, r => m.next q r

def Refused (r : Except Raised WebhookResponse) : Prop :=
  (∃ text, r = .error (.exception ⟨text, none⟩)) ∨ ∃ detail, r = .ok (.httpException 401 detail)

variable {lib secret request}

theorem commentWebhook_supported {c : IssueComment} (hc : request.Commands lib secret c)
    (hauthorized : c.isOverride = true ∧ c.isAuthorized = true) (m : OverrideProgress) :
    (Script.embed WebhookCall.override (commentWebhook c)).Obeys
      (webhookMonitor lib secret request) (fun _ _ _ => True) m () := by
  refine Prog.obeys_embed.2 ?_
  have hfollow : (commentWebhook c ()).Obeys ((webhookMonitor lib secret request).pull
      WebhookCall.override) (fun m' _ => ∃ m, m = m' ∧ True) m := by
    refine Prog.Obeys.simulates (R := Eq) ?_ rfl (commentWebhook_obeys c m)
    rintro m m' q rfl hq
    exact ⟨⟨c, hc, hauthorized.1, hauthorized.2, hq⟩, fun r => rfl⟩
  exact Prog.Obeys.mono (fun _ _ _ => trivial) hfollow

/-- Whatever is answered, the handler enqueues the pull request of an authentic request and no
other, and an override works for an authentic command of somebody who may give it; a request that
is not authentic makes it call nothing at all, and is refused. -/
theorem webhook_authorized (lib : WebhookLibraries) (secret : String) (request : WebhookRequest)
    (traceContext : Dict) :
    (githubWebhook lib secret request traceContext).Obeys (webhookMonitor lib secret request)
      (fun _ _ r => request.Authentic lib secret ∨ Refused r) ⟨none, none⟩ () := by
  rcases verifySignature_outcome lib secret request with
    ⟨hverify, hauthentic⟩ | ⟨detail, hverify⟩ | ⟨text, hverify⟩
  · suffices h : (githubWebhook lib secret request traceContext).Obeys
        (webhookMonitor lib secret request) (fun _ _ _ => True) ⟨none, none⟩ () from
      h.mono fun _ _ _ _ => .inl hauthentic
    unfold githubWebhook
    rw [hverify]
    dsimp only
    split
    · trivial
    · rename_i payload hloads
      unfold payloadWebhook
      split_ifs with hpull hcomment
      · split
        · trivial
        · trivial
        · rename_i e he
          refine Script.obeys_bind.2 (Script.obeys_request.2
            ⟨⟨hauthentic, hpull, payload, hloads, he⟩, fun r => ?_⟩)
          rcases r with e | (_ | _) | _ <;> trivial
      · split
        · trivial
        · trivial
        · rename_i c hc
          refine Script.obeys_bind.2 ((commentWebhook_supported
            ⟨hauthentic, hcomment, payload, hloads, hc⟩
            (isAuthorized_of_issueCommentEvent hc) _).mono fun m s r _ => ?_)
          cases r <;> trivial
      · trivial
  · unfold githubWebhook
    rw [hverify]
    exact .inr (.inr ⟨detail, rfl⟩)
  · unfold githubWebhook
    rw [hverify]
    exact .inr (.inl ⟨text, rfl⟩)

end Handler

/-! ## Requests and workers -/

/-- How `enqueue_if_new` is kept from answering. -/
inductive Lost
  | timeout
  | raised (e : Raised)

/-- What the surroundings decide for one call of the handler. -/
structure WebhookTurn where
  /-- The random id and the time of the transaction. -/
  id : Uuid
  now : Timestamp
  /-- The result does not come, though the transaction may have committed. -/
  lost : Option Lost
  commits : Bool
  reply : (q : CheckRunCall) → Except Raised q.Answer

def Lost.answer : Lost → Except Raised Ingestion
  | .timeout => .ok .timeout
  | .raised e => .error e

/-- The database as the handler sees it; the override only reads it. -/
def webhookServer : Server WebhookCall (fun q => Except Raised q.Answer) Database WebhookTurn
  | db, .enqueueIfNew e traceContext, turn =>
    match enqueueIfNew e.sha e.repo e.number e.installationId (some traceContext) turn.id turn.now
      db with
    | .error _ => (.error (.exception ⟨"duplicate key value violates unique constraint", none⟩), db)
    | .ok (new, db') => match turn.lost with
      | none => (.ok (.enqueued new), db')
      | some lost => (lost.answer, if turn.commits then db' else db)
  | db, .override q, turn => (turn.reply q, db)

inductive SystemEvent
  | delivery (request : WebhookRequest) (traceContext : Dict) (turns : List WebhookTurn)
  /-- A transaction of a worker. -/
  | transaction (e : Transaction)

def Transaction.isEnqueue : Transaction → Bool
  | .enqueueIfNew _ _ _ _ _ _ _ => true
  | _ => false

/-- A request is handled, perhaps not to its end, or a worker commits a transaction. -/
def SystemStep (lib : WebhookLibraries) (secret : String) (cfg : Settings) (s : Queue) :
    SystemEvent → Queue → Prop
  | .delivery request traceContext turns, t => ∃ db p,
    Run (Session webhookServer) (s.db, githubWebhook lib secret request traceContext ()) turns
      (db, p) ∧ t = { s with db := db }
  | .transaction e, t => e.isEnqueue = false ∧ Queue.Step cfg s e t

def deliveries (es : List SystemEvent) : List WebhookRequest :=
  es.filterMap fun
    | .delivery request _ _ => some request
    | .transaction _ => none

section Provenance

variable {lib : WebhookLibraries} {secret : String} {cfg : Settings}

/-- What becomes of the database while the handler is at work. -/
def Ingests (request : WebhookRequest) (lib : WebhookLibraries) (secret : String)
    (traceContext : Dict) (db db' : Database) : Prop :=
  db' = db ∨ ∃ e id now new, request.Announces lib secret e ∧
    enqueueIfNew e.sha e.repo e.number e.installationId (some traceContext) id now db =
      .ok (new, db')

/-- An override leaves the database alone. -/
theorem ensures_override {α : Type} {db : Database} {inv : Database → Prop}
    {post : Database → α → Prop} (hinv : inv db) (hpost : ∀ a, post db a)
    (p : Prog CheckRunCall (fun q => Except Raised (WebhookCall.Answer (.override q))) α) :
    Ensures webhookServer (fun _ _ _ => True) inv post (p.embed WebhookCall.override) db := by
  induction p with
  | done a => exact hpost a
  | ask q resume ih => exact ⟨hinv, fun turn _ => ih _⟩

theorem ensures_pullRequestWebhook {request : WebhookRequest} {e : PullRequestEvent}
    (he : request.Announces lib secret e) (traceContext : Dict) (db : Database) :
    Script.Ensures webhookServer (fun _ _ _ => True) (Ingests request lib secret traceContext db)
      (fun db' _ _ => Ingests request lib secret traceContext db db')
      (pullRequestWebhook e traceContext) db () := by
  refine Script.ensures_bind.2 (Script.ensures_request.2 ⟨.inl rfl, fun turn _ => ?_⟩)
  have hdb : Ingests request lib secret traceContext db
      (webhookServer db (.enqueueIfNew e traceContext) turn).2 := by
    simp only [webhookServer]
    split
    · exact .inl rfl
    · rename_i new db' hnew
      split
      · exact .inr ⟨e, _, _, new, he, hnew⟩
      · split
        · exact .inr ⟨e, _, _, new, he, hnew⟩
        · exact .inl rfl
  rcases (webhookServer db (.enqueueIfNew e traceContext) turn).1 with e | (_ | _) | _ <;> exact hdb

variable (lib secret) in
theorem ensures_githubWebhook (request : WebhookRequest) (traceContext : Dict) (db : Database) :
    Script.Ensures webhookServer (fun _ _ _ => True) (Ingests request lib secret traceContext db)
      (fun db' _ _ => Ingests request lib secret traceContext db db')
      (githubWebhook lib secret request traceContext) db () := by
  rcases verifySignature_outcome lib secret request with
    ⟨hverify, hauthentic⟩ | ⟨detail, hverify⟩ | ⟨text, hverify⟩
  · unfold githubWebhook
    rw [hverify]
    dsimp only
    split
    · exact .inl rfl
    · rename_i payload hloads
      unfold payloadWebhook
      split_ifs with hpull hcomment
      · split
        · exact .inl rfl
        · exact .inl rfl
        · rename_i e he
          exact ensures_pullRequestWebhook ⟨hauthentic, hpull, payload, hloads, he⟩ _ _
      · split
        · exact .inl rfl
        · exact .inl rfl
        · refine Script.ensures_bind.2 (ensures_override (.inl rfl) (fun r => ?_) _)
          rcases r with ⟨_ | _, ⟨⟩⟩ <;> exact .inl rfl
      · exact .inl rfl
  · unfold githubWebhook
    rw [hverify]
    exact .inl rfl
  · unfold githubWebhook
    rw [hverify]
    exact .inl rfl

theorem delivery_step {s t : Queue} {request : WebhookRequest} {traceContext : Dict}
    {turns : List WebhookTurn}
    (h : SystemStep lib secret cfg s (.delivery request traceContext turns) t) :
    t = s ∨ ∃ e id now, request.Announces lib secret e ∧
      Queue.Step cfg s (.enqueueIfNew e.sha e.repo e.number e.installationId (some traceContext)
        id now) t := by
  obtain ⟨db, p, hrun, rfl⟩ := h
  have hend := (ensures_githubWebhook lib secret request traceContext s.db).run
    (guard_session hrun fun _ _ _ _ => trivial)
  have hdb : Ingests request lib secret traceContext s.db db := by
    cases p with
    | done r => exact hend
    | ask q resume => exact hend.1
  rcases hdb with rfl | ⟨e, id, now, new, he, hnew⟩
  · exact .inl rfl
  · refine .inr ⟨e, id, now, he, Queue.step_iff.2 ⟨trivial, ?_⟩⟩
    simp only [Queue.exec, hnew]

/-! ## The request behind a job -/

/-- What the webhook wrote into a job. -/
def Job.origin (j : Job) : (String × ℤ × String) × Json × Json :=
  (j.subject, j.payload, j.otelContext)

/-- A job is new, or what the webhook wrote into it is as before. -/
theorem Life.origin_step {l l' : Life} {e : LifeEvent} {j' : Job} (hs : Life.Step cfg l e l')
    (hj' : l'.job = some j') :
    (∃ j, l.job = some j ∧ j'.origin = j.origin) ∨ e = .enqueued j' := by
  obtain ⟨hperm, rfl⟩ := hs
  cases e with
  | skip => exact .inl ⟨j', hj', rfl⟩
  | enqueued row => exact .inr (congrArg _ (Option.some.inj hj'))
  | claimed worker now =>
    rw [Life.job_claimed] at hj'
    obtain ⟨j, hj, rfl⟩ := Option.map_eq_some_iff.1 hj'
    exact .inl ⟨j, hj, rfl⟩
  | renewed worker now => exact .inl ⟨j', hj', rfl⟩
  | checkRunSet checkRunId =>
    obtain ⟨j, hj, rfl⟩ := Option.map_eq_some_iff.1 hj'
    exact .inl ⟨j, hj, rfl⟩
  | finalized token verdict aiFeedback now =>
    rw [Life.job_finalized] at hj'
    obtain ⟨j, hj, rfl⟩ := Option.map_eq_some_iff.1 hj'
    refine .inl ⟨j, hj, ?_⟩
    split <;> rfl
  | released token delaySeconds now =>
    obtain ⟨j, hj, rfl⟩ := Option.map_eq_some_iff.1 hj'
    refine .inl ⟨j, hj, ?_⟩
    split <;> rfl
  | reconciled locked now =>
    obtain ⟨j, hj, rfl⟩ := Option.map_eq_some_iff.1 hj'
    refine .inl ⟨j, hj, ?_⟩
    unfold Job.expired Job.reconciled
    split <;> split <;> rfl
  | heartbeatsLost => exact .inl ⟨j', hj', rfl⟩

def PullRequestEvent.Describes (e : PullRequestEvent) (j : Job) : Prop :=
  j.subject = (e.repo, e.number, e.sha) ∧
    j.payload = .obj [("installation_id", .int e.installationId)] ∧
    ∃ fields, j.otelContext = .obj fields

theorem PullRequestEvent.Describes.congr {e : PullRequestEvent} {j j' : Job} (h : e.Describes j)
    (horigin : j'.origin = j.origin) : e.Describes j' := by
  obtain ⟨hsubject, hpayload, hcontext⟩ := h
  simp only [Job.origin, Prod.mk.injEq] at horigin
  obtain ⟨hs, hp, hc⟩ := horigin
  exact ⟨hs ▸ hsubject, hp ▸ hpayload, hc ▸ hcontext⟩

def Stems (lib : WebhookLibraries) (secret : String) (requests : List WebhookRequest) (j : Job) :
    Prop :=
  ∃ request ∈ requests, ∃ e, request.Announces lib secret e ∧ e.Describes j

def StemsAll (lib : WebhookLibraries) (secret : String) (requests : List WebhookRequest)
    (s : Queue) : Prop :=
  (∀ id j, s.db.job id = some j → Stems lib secret requests j) ∧
    ∀ row ∈ s.claims, Stems lib secret requests row

theorem Stems.congr {requests : List WebhookRequest} {j j' : Job} (h : Stems lib secret requests j)
    (horigin : j'.origin = j.origin) : Stems lib secret requests j' := by
  obtain ⟨request, hmem, e, hannounces, hdescribes⟩ := h
  exact ⟨request, hmem, e, hannounces, hdescribes.congr horigin⟩

/-- A transaction brings no jobs but the one it enqueues. -/
theorem stemsAll_step {requests : List WebhookRequest} {s t : Queue} {tr : Transaction}
    (h : StemsAll lib secret requests s) (hs : Queue.Step cfg s tr t)
    (hnew : ∀ id row, s.localize id tr = .enqueued row → Stems lib secret requests row) :
    StemsAll lib secret requests t := by
  constructor
  · intro id j hj
    rcases Life.origin_step (Queue.life_step hs id) hj with ⟨j₀, hj₀, horigin⟩ | henqueued
    · exact (h.1 id j₀ hj₀).congr horigin
    · exact hnew id j henqueued
  · intro row hmem
    rcases Queue.claims_step hs with hsame | ⟨worker, scan, now, c, -, hc, hclaims⟩
    · exact h.2 row (hsame ▸ hmem)
    · rw [hclaims] at hmem
      rcases List.mem_cons.1 hmem with rfl | hmem
      · exact (h.1 c.id c (claimCandidate_spec hc).1).congr rfl
      · exact h.2 row hmem

theorem stemsAll_system {requests : List WebhookRequest} {s t : Queue} {e : SystemEvent}
    (h : StemsAll lib secret requests s) (hs : SystemStep lib secret cfg s e t)
    (hknown : deliveries [e] ⊆ requests) : StemsAll lib secret requests t := by
  cases e with
  | delivery request traceContext turns =>
    rcases delivery_step hs with rfl | ⟨event, id, now, hannounces, hstep⟩
    · exact h
    · refine stemsAll_step h hstep fun id' row hrow => ?_
      have hmem : request ∈ requests := hknown (by simp [deliveries])
      simp only [Queue.localize] at hrow
      split_ifs at hrow
      cases hrow
      exact ⟨request, hmem, event, hannounces, rfl, rfl, _, rfl⟩
  | transaction tr =>
    refine stemsAll_step h hs.2 fun id row hrow => ?_
    have hlocal := Queue.localized s id tr
    rw [hrow] at hlocal
    cases hlocal
    cases hs.1

theorem parseJob_of_describes {py : Python} (hint : ∀ n, py.int (.int n) = .ok n)
    {e : PullRequestEvent} {j : Job} (h : e.Describes j) :
    parseJob py j = .ok e.installationId := by
  obtain ⟨-, hpayload, fields, hcontext⟩ := h
  unfold parseJob parseJobPayload parseTraceContext
  rw [hpayload, hcontext]
  simp [Dict.get, hint, bind, Except.bind, pure, Except.pure]

theorem deliveries_subset {es : List SystemEvent} {e : SystemEvent} (he : e ∈ es) :
    deliveries [e] ⊆ deliveries es := by
  intro request hrequest
  obtain ⟨e', he', hsome⟩ := List.mem_filterMap.1 hrequest
  rw [List.mem_singleton.1 he'] at hsome
  exact List.mem_filterMap.2 ⟨e, he, hsome⟩

/-- In every run of requests and workers, whatever calls and transactions fail on the way, each job
and each row that `claim_job` has returned is that of an authentic request, with the installation
that `process_job` reads from it. -/
theorem jobs_stem_from_requests (lib : WebhookLibraries) (secret : String) (cfg : Settings)
    {py : Python} (hint : ∀ n, py.int (.int n) = .ok n) {es : List SystemEvent} {s : Queue}
    (h : Run (SystemStep lib secret cfg) .empty es s) :
    ∀ j, j ∈ s.db.jobs.rows ∨ j ∈ s.claims → ∃ request ∈ deliveries es, ∃ e : PullRequestEvent,
      request.Announces lib secret e ∧ j.subject = (e.repo, e.number, e.sha) ∧
      parseJob py j = .ok e.installationId := by
  have hknown : Run (Guarded (SystemStep lib secret cfg) fun _ e _ =>
      deliveries [e] ⊆ deliveries es) .empty es s :=
    h.guard fun e he _ _ => deliveries_subset he
  have hstems : StemsAll lib secret (deliveries es) s := by
    refine hknown.invariant (I := StemsAll lib secret (deliveries es))
      (fun _ _ _ hs ht => stemsAll_system hs ht.1 ht.2) ⟨?_, ?_⟩
    · intro id j hj
      cases hj
    · intro row hrow
      cases hrow
  intro j hj
  have hstem : Stems lib secret (deliveries es) j := by
    rcases hj with hj | hj
    · exact hstems.1 j.id j (Database.job_of_mem hj)
    · exact hstems.2 j hj
  obtain ⟨request, hmem, e, hannounces, hdescribes⟩ := hstem
  exact ⟨request, hmem, e, hannounces, hdescribes.1, parseJob_of_describes hint hdescribes⟩

end Provenance

namespace Sample

def openedPayload : Json := .obj
  [("action", .str "opened"),
    ("pull_request", .obj [("number", .int 7), ("head", .obj [("sha", .str sha)])]),
    ("repository", .obj [("full_name", .str "octo/widgets")]),
    ("installation", .obj [("id", .int 42)])]

/-- The text of the payload, which is ASCII. -/
def openedBody : List UInt8 := openedPayload.dumps.map fun c => c.toNat.toUInt8

/-- The HMAC-SHA256 of the body under `webhook-secret`, and under the empty secret. -/
def openedDigest (secret : String) : String :=
  if secret = "webhook-secret" then
    "80e0766a417a08e598707a42c99cc592e74b9fe45b9f7fcefa9a395edb0dd93f"
  else if secret = "" then
    "9b3722c777190e783c61ec1f16b1133311c84d85248a521f2a44a7ab1b30caa4"
  else ""

def webhooks : WebhookLibraries where
  hexdigest secret body := if body = openedBody then openedDigest secret else ""
  loads body :=
    if body = openedBody then .ok openedPayload
    else .error "Expecting value: line 1 column 1 (char 0)"

def signed (secret : String) : WebhookRequest :=
  ⟨"pull_request", some ("sha256=" ++ openedDigest secret), openedBody⟩

theorem hexdigest_opened (secret : String) :
    webhooks.hexdigest secret openedBody = openedDigest secret := by simp [webhooks]

theorem announces_signed (secret : String) :
    (signed secret).Announces webhooks secret ⟨sha, "octo/widgets", 7, 42⟩ := by
  refine ⟨?_, rfl, openedPayload, by simp [webhooks, signed], by decide⟩
  rw [WebhookRequest.Authentic, signed, hexdigest_opened]

theorem isAscii_openedDigest (secret : String) : isAscii (openedDigest secret) = true := by
  unfold openedDigest
  split_ifs <;> decide

theorem isAscii_hexdigest (secret : String) (body : List UInt8) :
    isAscii (webhooks.hexdigest secret body) = true := by
  simp only [webhooks]
  split
  · exact isAscii_openedDigest secret
  · decide

/-- The transaction commits although the handler hears of no result. -/
def timedOut : WebhookTurn := ⟨jobId, 0, some .timeout, true, fun _ => .error .cancelled⟩

end Sample

/-- A request that times out leaves a job all the same, which a worker claims. -/
theorem jobs_stem_from_requests_timeout : ∃ s,
    Run (SystemStep Sample.webhooks "webhook-secret" {}) .empty
      [.delivery (Sample.signed "webhook-secret") [] [Sample.timedOut],
        .transaction (Sample.claim "w" 1)] s ∧
    s.claims.length = 1 ∧ ∀ j, j ∈ s.db.jobs.rows ∨ j ∈ s.claims →
      ∃ request ∈ [Sample.signed "webhook-secret"], ∃ e : PullRequestEvent,
        request.Announces Sample.webhooks "webhook-secret" e ∧
        j.subject = (e.repo, e.number, e.sha) ∧
        parseJob Sample.python j = .ok e.installationId := by
  have hhandler := githubWebhook_of_announces (Sample.announces_signed "webhook-secret")
    (Sample.isAscii_hexdigest _ _) []
  obtain ⟨db, p, hhandled, hclaimed⟩ : ∃ db p, Run (Session webhookServer)
      (Queue.empty.db, pullRequestWebhook ⟨Sample.sha, "octo/widgets", 7, 42⟩ [] ())
      [Sample.timedOut] (db, p) ∧
      (Queue.exec {} ⟨db, []⟩ (Sample.claim "w" 1)).claims.length = 1 :=
    ⟨_, _, .cons rfl (.nil _), by decide⟩
  rw [← hhandler] at hhandled
  have hdelivery : SystemStep Sample.webhooks "webhook-secret" {} .empty
      (.delivery (Sample.signed "webhook-secret") [] [Sample.timedOut]) ⟨db, []⟩ :=
    ⟨db, p, hhandled, rfl⟩
  have hclaim : SystemStep Sample.webhooks "webhook-secret" {} ⟨db, []⟩
      (.transaction (Sample.claim "w" 1)) (Queue.exec {} ⟨db, []⟩ (Sample.claim "w" 1)) :=
    ⟨rfl, Queue.step_exec trivial⟩
  have hrun := Run.cons hdelivery (.single hclaim)
  exact ⟨_, hrun, hclaimed, jobs_stem_from_requests _ _ _ (fun _ => rfl) hrun⟩

end Revix
