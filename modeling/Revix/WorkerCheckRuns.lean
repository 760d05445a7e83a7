import Revix.ExceptionHandlers
import Revix.WorkerFleet

/-! What `process_job` asks for is written down with the answers: which check runs were created
and completed, and what came in between. -/
namespace Revix
open EffectPrograms EffectSessions LabelledRuns

structure Exchange where
  request : Request
  answer : Except Raised request.Answer

/-- The exchanges so far, the latest first. -/
abbrev Transcript := List Exchange

def transcribe : Server Request (fun q => Except Raised q.Answer) Transcript Reply :=
  fun t q reply => (reply q, ⟨q, reply q⟩ :: t)

namespace Exchange

def created : Exchange → Option ℤ
  | ⟨.createCheckRun _ _ _, .ok checkRunId⟩ => some checkRunId
  | _ => none

def completed : Exchange → Option ℤ
  | ⟨.updateCheckRun update _, .ok _⟩ => some update.checkRunId
  | _ => none

def emptyToken : Exchange → Bool
  | ⟨.getToken _, .ok token⟩ => token = ""
  | _ => false

def posted : Exchange → Bool
  | ⟨.postReview _ _ _ _ _ _, .ok _⟩ => true
  | _ => false

/-- The calls from the creation of the check run to the post of the review. -/
def ofReview : Request → Bool
  | .fetchDiff _ _ _ => true
  | .fetchPullFiles _ _ _ _ => true
  | .fetchPullRequest _ _ _ => true
  | .indexFile _ _ => true
  | .persistRepoGraph _ _ _ => true
  | .analyzeDiff _ _ _ _ => true
  | .postReview _ _ _ _ _ _ => true
  | _ => false

/-- A call of the review was answered by what the worker takes for a rate limit. -/
def limited : Exchange → Bool
  | ⟨q, .error (.exception e)⟩ => ofReview q && isRateLimit e
  | _ => false

end Exchange

namespace Transcript

def created (t : Transcript) : List ℤ := t.filterMap Exchange.created

def completed (t : Transcript) : List ℤ := t.filterMap Exchange.completed

def emptyToken (t : Transcript) : Bool := t.any Exchange.emptyToken

def posted (t : Transcript) : Bool := t.any Exchange.posted

def limited (t : Transcript) : Bool := t.any Exchange.limited

/-- Every check run that was created was completed. -/
def Closed (t : Transcript) : Prop := ∀ c ∈ t.created, c ∈ t.completed

/-- What a created check run needs in order to be completed: an id that is true, no rate limit
on the way, and a token that is true unless the review was posted. -/
def Closable (t : Transcript) : Prop :=
  ∀ c ∈ t.created, c ≠ 0 ∧ t.limited = false ∧ (t.emptyToken = true → t.posted = true)

end Transcript

/-- The creation and the updates of check runs succeed, the clock works and nobody cancels. -/
def CheckRunsWork (_ : Transcript) (q : Request) (reply : Reply) : Prop :=
  reply q ≠ .error .cancelled ∧ match q with
    | .createCheckRun _ _ _ => (reply q).isOk
    | .updateCheckRun _ _ => (reply q).isOk
    | .time => (reply q).isOk
    | _ => True

/-- All that a transcript says about check runs. -/
@[ext] structure Ledger where
  created : List ℤ
  completed : List ℤ
  emptyToken : Bool
  posted : Bool
  limited : Bool

def Transcript.ledger (t : Transcript) : Ledger :=
  ⟨t.created, t.completed, t.emptyToken, t.posted, t.limited⟩

namespace Ledger

def blank : Ledger := ⟨[], [], false, false, false⟩

/-- The check run `c` was created and its review is under way. -/
def underWay (c : ℤ) (token : String) : Ledger := ⟨[c], [], token = "", false, false⟩

def failing (c : ℤ) (token : String) (e : PyError) : Ledger :=
  { underWay c token with limited := isRateLimit e }

/-- The review was posted and its check run updated, if it has an id that is true. -/
def reviewed (c : ℤ) (token : String) : Ledger :=
  { underWay c token with posted := true, completed := if c = 0 then [] else [c] }

/-- A created check run is completed just when it can be. -/
def Balanced (g : Ledger) : Prop :=
  (∀ c ∈ g.created, c ∈ g.completed) ↔
    ∀ c ∈ g.created, c ≠ 0 ∧ g.limited = false ∧ (g.emptyToken = true → g.posted = true)

theorem balanced_of_created_nil {g : Ledger} (h : g.created = []) : g.Balanced := by
  simp [Balanced, h]

theorem balanced_reviewed (c : ℤ) (token : String) : (reviewed c token).Balanced := by
  by_cases hc : c = 0 <;> simp [Balanced, reviewed, underWay, hc]

def Failed (g : Ledger) (l : Locals) (e : PyError) : Prop :=
  g.created = [] ∨ ∃ c token, l = ⟨some token, some c⟩ ∧
    (g = failing c token e ∨ g = reviewed c token)

end Ledger

section Process

variable {py : Python} {cfg : Settings} {job : Job} {t : Transcript} {l : Locals}

def Request.neutral : Request → Bool
  | .newGitHubService => true
  | .setCheckRunId _ _ => true
  | .finalizeJob _ _ _ _ => true
  | .releaseJob _ _ _ => true
  | .time => true
  | .close => true
  | _ => false

theorem ledger_neutral {q : Request} (hq : q.neutral = true) (r : Except Raised q.Answer) :
    Transcript.ledger (⟨q, r⟩ :: t) = t.ledger := by
  cases q
  all_goals
    first
    | exact absurd hq Bool.false_ne_true
    | rcases r with (_ | _) | _ <;> rfl

theorem ensures_neutral {q : Request} {post : Transcript → Locals → Except Raised q.Answer → Prop}
    (hq : q.neutral = true)
    (h : ∀ t' r, t'.ledger = t.ledger → r ≠ .error .cancelled → post t' l r) :
    Script.Ensures transcribe CheckRunsWork (fun _ => True) post (ask q) t l :=
  Script.ensures_request.2 ⟨trivial, fun reply hreply =>
    h _ _ (ledger_neutral hq (reply q)) hreply.1⟩

/-- What a step of the review under way leaves: no trace, or an exception for the handler. -/
def AfterStep (c : ℤ) (token : String) {α : Type} (t : Transcript) (l : Locals) :
    Except Raised α → Prop
  | .ok _ => t.ledger = .underWay c token ∧ l = ⟨some token, some c⟩
  | .error (.exception e) => t.ledger = .failing c token e ∧ l = ⟨some token, some c⟩
  | .error .cancelled => False

theorem ensures_read {q : Request} {c : ℤ} {token : String} (hq : Exchange.ofReview q = true)
    (hpost : ∀ r, Exchange.posted ⟨q, r⟩ = false) (hl : l = ⟨some token, some c⟩)
    (h : t.ledger = .underWay c token) :
    Script.Ensures transcribe CheckRunsWork (fun _ => True) (AfterStep c token) (ask q) t l := by
  refine Script.ensures_request.2 ⟨trivial, fun reply hreply => ?_⟩
  have hr := hreply.1
  have hp := hpost (reply q)
  simp only [transcribe]
  generalize reply q = r at hr hp ⊢
  have hnew : Transcript.ledger (⟨q, r⟩ :: t) =
      { Ledger.underWay c token with limited := Exchange.limited ⟨q, r⟩ } := by
    have hstep : Transcript.ledger (⟨q, r⟩ :: t) =
        { t.ledger with limited := Exchange.limited ⟨q, r⟩ || t.limited } := by
      cases q
      all_goals
        first
        | exact absurd hq Bool.false_ne_true
        | rcases r with (_ | _) | _ <;> first | rfl | exact absurd hp.symm Bool.false_ne_true
    rw [hstep, h]
    have hlim : t.limited = false := congrArg Ledger.limited h
    simp [hlim]
  rcases r with (e | _) | a
  · refine ⟨hnew.trans ?_, hl⟩
    simp [Exchange.limited, hq, Ledger.failing]
  · exact hr rfl
  · exact ⟨hnew, hl⟩

theorem ensures_createCheckRun {token : String} (hl : l.token = some token)
    (h : t.ledger = { Ledger.blank with emptyToken := token = "" }) :
    Script.Ensures transcribe CheckRunsWork (fun _ => True) (fun t l r =>
      ∃ c, AfterStep c token t l r) (createCheckRun job token) t l := by
  refine ensures_suppress.2 (Script.ensures_bind.2 (Script.ensures_request.2
    ⟨trivial, fun reply hreply => ?_⟩))
  have hr := hreply.2
  simp only [transcribe]
  generalize reply (.createCheckRun job.repoFullName job.commitSha token) = r at hr ⊢
  cases r with
  | error e => exact absurd hr Bool.false_ne_true
  | ok c =>
    apply Script.ensures_modify.2
    apply ensures_neutral (q := .setCheckRunId job.id c) rfl
    intro t' r hledger hcancel
    have hnew : t'.ledger = .underWay c token ∧ ({ l with checkRunId := some c } : Locals) =
        ⟨some token, some c⟩ := by
      refine ⟨?_, by rw [hl]⟩
      rw [hledger]
      exact congrArg (fun g : Ledger => { g with created := c :: g.created }) h
    rcases r with (e | _) | _
    · exact ⟨c, hnew⟩
    · exact absurd rfl hcancel
    · exact ⟨c, hnew⟩

theorem ensures_indexFile {c : ℤ} {token : String} (file : PullFile)
    (hl : l = ⟨some token, some c⟩) (h : t.ledger = .underWay c token) :
    Script.Ensures transcribe CheckRunsWork (fun _ => True) (AfterStep c token)
      (indexFile file) t l := by
  unfold indexFile
  split
  · exact ⟨h, hl⟩
  · split
    · exact ensures_read rfl (fun _ => rfl) hl h
    · exact ⟨h, hl⟩

theorem ensures_indexFiles {c : ℤ} {token : String} (prFiles : List PullFile)
    (hl : l = ⟨some token, some c⟩) (h : t.ledger = .underWay c token) :
    Script.Ensures transcribe CheckRunsWork (fun _ => True) (AfterStep c token)
      (indexFiles job prFiles) t l := by
  unfold indexFiles
  have hcollect : Script.Ensures transcribe CheckRunsWork (fun _ => True)
      (Script.Ends (fun t l => t.ledger = .underWay c token ∧ l = ⟨some token, some c⟩)
        fun t l e => AfterStep c token t l (.error e : Except Raised Unit))
      (EffectPrograms.Script.collect indexFile prFiles) t l := by
    refine Script.ensures_collect (fun file t l hI => ?_) prFiles ⟨h, hl⟩
    apply (ensures_indexFile file hI.2 hI.1).mono
    intro t l r hr
    rcases r with (_ | _) | _ <;> exact hr
  refine hcollect.andThen (fun indexed t l hI => ?_) fun e t l he => he
  dsimp only
  split
  · exact ensures_read rfl (fun _ => rfl) hI.2 hI.1
  · exact hI

def AfterBody (t : Transcript) (l : Locals) : Except Raised Unit → Prop
  | .ok _ => t.ledger.Balanced
  | .error (.exception e) => t.ledger.Failed l e
  | .error .cancelled => False

theorem afterBody_of_afterStep {c : ℤ} {token : String} {α : Type} {t : Transcript} {l : Locals}
    {e : Raised} (h : AfterStep c token t l (.error e : Except Raised α)) :
    AfterBody t l (.error e) := by
  cases e with
  | exception e => exact .inr ⟨c, token, h.2, .inl h.1⟩
  | cancelled => exact h

theorem ensures_updateCheckRun {update : CheckRunUpdate} {token : String}
    {post : Transcript → Locals → Except Raised Unit → Prop}
    (h : ∀ t', t'.ledger =
      { t.ledger with completed := update.checkRunId :: t.ledger.completed } → post t' l (.ok ())) :
    Script.Ensures transcribe CheckRunsWork (fun _ => True) post
      (ask (.updateCheckRun update token)) t l := by
  refine (Script.ensures_request (q := Request.updateCheckRun update token)).2
    ⟨trivial, fun reply hreply => ?_⟩
  have hr := hreply.2
  simp only [transcribe]
  generalize reply (.updateCheckRun update token) = r at hr ⊢
  cases r with
  | error e => exact absurd hr Bool.false_ne_true
  | ok _ => exact h _ rfl

/-- From the post of the review to its commit. -/
theorem ensures_posted {c : ℤ} {token : String} (result : ReviewResult)
    (hl : l = ⟨some token, some c⟩)
    (h : t.ledger = { Ledger.underWay c token with posted := true }) :
    Script.Ensures transcribe CheckRunsWork (fun _ => True) AfterBody (do
      completeCheckRun job result token
      ask (.finalizeJob job.id job.fenceToken .success (some result.modelDump))) t l := by
  have hcommit : ∀ t', t'.ledger = .reviewed c token →
      Script.Ensures transcribe CheckRunsWork (fun _ => True) AfterBody
        (ask (.finalizeJob job.id job.fenceToken .success (some result.modelDump))) t' l := by
    intro t' ht'
    refine ensures_neutral (q := .finalizeJob job.id job.fenceToken .success
      (some result.modelDump)) rfl fun t'' r hledger hcancel => ?_
    have hnew := hledger.trans ht'
    rcases r with (e | _) | _
    · exact .inr ⟨c, token, hl, .inr hnew⟩
    · exact absurd rfl hcancel
    · exact (congrArg Ledger.Balanced hnew).mpr (Ledger.balanced_reviewed c token)
  refine Script.ensures_bind.2 (Script.ensures_get.2 ?_)
  subst hl
  by_cases hc : c = 0
  · simp only [Locals.liveCheckRun, Option.filter, hc, ne_eq, not_true_eq_false, decide_false,
      Bool.false_eq_true, ↓reduceIte]
    have hnew : t.ledger = .reviewed c token := by simp [h, Ledger.reviewed, hc, Ledger.underWay]
    exact hc ▸ hcommit t hnew
  · simp only [Locals.liveCheckRun, Option.filter, ne_eq, hc, not_false_eq_true, decide_true,
      ↓reduceIte]
    refine ensures_updateCheckRun fun t' ht' => hcommit t' (ht'.trans ?_)
    simp [h, Ledger.reviewed, hc, Ledger.underWay]

theorem ensures_postReview {c : ℤ} {token repo commitId token' body : String} {pullNumber : ℤ}
    {comments : List PostedComment} (hl : l = ⟨some token, some c⟩)
    (h : t.ledger = .underWay c token) :
    Script.Ensures transcribe CheckRunsWork (fun _ => True) (fun t l r => match r with
      | .ok _ => t.ledger = { Ledger.underWay c token with posted := true } ∧
          l = ⟨some token, some c⟩
      | .error e => AfterStep c token t l (.error e : Except Raised Unit))
      (ask (.postReview repo pullNumber commitId comments token' body)) t l := by
  refine (Script.ensures_request
    (q := Request.postReview repo pullNumber commitId comments token' body)).2
    ⟨trivial, fun reply hreply => ?_⟩
  have hr := hreply.1
  have hlim : t.limited = false := congrArg Ledger.limited h
  simp only [transcribe]
  generalize reply (.postReview repo pullNumber commitId comments token' body) = r at hr ⊢
  rcases r with (e | _) | _
  · refine ⟨?_, hl⟩
    refine (congrArg (fun g : Ledger => { g with limited := isRateLimit e || g.limited }) h).trans ?_
    simp [Ledger.underWay, Ledger.failing]
  · exact hr rfl
  · exact ⟨congrArg (fun g : Ledger => { g with posted := true }) h, hl⟩

theorem ensures_review {installationId : ℤ} (h : t.ledger = .blank) :
    Script.Ensures transcribe CheckRunsWork (fun _ => True) AfterBody
      (review cfg job installationId) t {} := by
  unfold review
  refine Script.ensures_bind.2 (Script.ensures_request.2 ⟨trivial, fun reply hreply => ?_⟩)
  have hr := hreply.1
  simp only [transcribe]
  generalize reply (.getToken installationId) = r at hr ⊢
  rcases r with (e | _) | token
  · exact .inl (congrArg Ledger.created h)
  · exact absurd rfl hr
  apply Script.ensures_modify.2
  have hblank : Transcript.ledger (⟨.getToken installationId, .ok token⟩ :: t) =
      { Ledger.blank with emptyToken := token = "" } :=
    (congrArg (fun g : Ledger => { g with emptyToken := token = "" || g.emptyToken }) h).trans
      (by simp [Ledger.blank])
  refine (ensures_createCheckRun rfl hblank).andThen (fun _ t l ⟨c, hledger, hl⟩ => ?_)
    fun e t l ⟨c, he⟩ => afterBody_of_afterStep he
  refine (ensures_read rfl (fun _ => rfl) hl hledger).andThen (fun diff t l ht => ?_)
    fun e t l he => afterBody_of_afterStep he
  refine (ensures_read rfl (fun _ => rfl) ht.2 ht.1).andThen (fun prFiles t l ht => ?_)
    fun e t l he => afterBody_of_afterStep he
  refine (ensures_read rfl (fun _ => rfl) ht.2 ht.1).andThen (fun prDetails t l ht => ?_)
    fun e t l he => afterBody_of_afterStep he
  refine (ensures_indexFiles prFiles ht.2 ht.1).andThen (fun _ t l ht => ?_)
    fun e t l he => afterBody_of_afterStep he
  refine (ensures_read rfl (fun _ => rfl) ht.2 ht.1).andThen (fun result t l ht => ?_)
    fun e t l he => afterBody_of_afterStep he
  -- the post of the review is the last call that can leave the check run open
  refine (ensures_postReview ht.2 ht.1).andThen (fun _ t l ht => ensures_posted result ht.2 ht.1)
    fun e t l he => afterBody_of_afterStep he

theorem ensures_retryDelayFor {e : PyError} {attemptCount : ℤ} :
    Script.Ensures transcribe CheckRunsWork (fun _ => True) (fun t' l' r =>
      t'.ledger = t.ledger ∧ l' = l ∧ ∃ delay, r = .ok delay)
      (retryDelayFor py e attemptCount) t l := by
  unfold retryDelayFor
  dsimp only
  split
  · exact ⟨rfl, rfl, _, rfl⟩
  · split
    · refine Script.ensures_bind.2 ((Script.ensures_request (q := Request.time)).2
        ⟨trivial, fun reply hreply => ?_⟩)
      have hr := hreply.2
      have hledger := ledger_neutral (t := t) (q := .time) rfl (reply .time)
      simp only [transcribe]
      generalize reply .time = r at hr hledger ⊢
      cases r with
      | error e => exact absurd hr Bool.false_ne_true
      | ok now => exact ⟨hledger, rfl, _, rfl⟩
    · exact ⟨rfl, rfl, _, rfl⟩

theorem balanced_of_isRateLimit {g : Ledger} {e : PyError} (h : g.Failed l e)
    (hlimit : isRateLimit e = true) : g.Balanced := by
  rcases h with hnil | ⟨c, token, -, rfl | rfl⟩
  · exact Ledger.balanced_of_created_nil hnil
  · simp [Ledger.Balanced, Ledger.failing, Ledger.underWay, hlimit]
  · exact Ledger.balanced_reviewed c token

/-- Without an id or a token that is true no update is sent, and none is due. -/
theorem balanced_of_not_live {g : Ledger} {e : PyError} {c : ℤ} {token : String}
    (hg : g = .failing c token e ∨ g = .reviewed c token) (hdead : c = 0 ∨ token = "") :
    g.Balanced := by
  rcases hg with rfl | rfl
  · rcases hdead with rfl | rfl <;> simp [Ledger.Balanced, Ledger.failing, Ledger.underWay]
  · exact Ledger.balanced_reviewed c token

theorem balanced_of_updated {g : Ledger} {e : PyError} {c : ℤ} {token : String}
    (hg : g = .failing c token e ∨ g = .reviewed c token) (hlimit : isRateLimit e = false)
    (hc : c ≠ 0) (htoken : token ≠ "") :
    Ledger.Balanced { g with completed := c :: g.completed } := by
  rcases hg with rfl | rfl
  · simp [Ledger.Balanced, Ledger.failing, Ledger.underWay, hlimit, hc, htoken]
  · simp [Ledger.Balanced, Ledger.reviewed, Ledger.underWay, hc]

theorem ensures_failCheckRun {e : PyError} (h : t.ledger.Failed l e)
    (hlimit : isRateLimit e = false) :
    Script.Ensures transcribe CheckRunsWork (fun _ => True)
      (fun t _ _ => t.ledger.Balanced) (failCheckRun job e) t l := by
  unfold failCheckRun
  apply Script.ensures_get.2
  split
  · rename_i c token hlive htrue
    refine ensures_suppress.2 (ensures_updateCheckRun fun t' ht' => ?_)
    apply (congrArg Ledger.Balanced ht').mpr
    rcases h with hnil | ⟨c', token', rfl, hg⟩
    · exact Ledger.balanced_of_created_nil hnil
    · simp only [Locals.liveCheckRun, Option.filter] at hlive htrue
      split_ifs at hlive htrue with hc htoken
      cases hlive
      exact balanced_of_updated hg hlimit (of_decide_eq_true hc) (of_decide_eq_true htoken)
  · rename_i hdead
    rcases h with hnil | ⟨c, token, rfl, hg⟩
    · exact Ledger.balanced_of_created_nil hnil
    · apply balanced_of_not_live hg
      by_contra hne
      have hc : c ≠ 0 := fun hc => hne (.inl hc)
      have htoken : token ≠ "" := fun htoken => hne (.inr htoken)
      exact hdead c token (by simp [Locals.liveCheckRun, hc]) (by simp [htoken])

theorem ensures_handleError {e : PyError} (h : t.ledger.Failed l e) :
    Script.Ensures transcribe CheckRunsWork (fun _ => True)
      (fun t _ _ => t.ledger.Balanced) (handleError py job e) t l := by
  unfold handleError
  refine ensures_retryDelayFor.andThen (fun delay t' l' ⟨ht', hl', _⟩ => ?_)
    fun e t' l' ⟨_, _, _, he⟩ => nomatch he
  have hfailed : t'.ledger.Failed l' e := hl' ▸ ht' ▸ h
  split
  · rename_i hlimit
    refine ensures_neutral (q := .releaseJob job.id job.fenceToken delay) rfl
      fun t'' r hledger _ => ?_
    exact (congrArg Ledger.Balanced hledger).mpr (balanced_of_isRateLimit hfailed hlimit)
  · rename_i hlimit
    refine (ensures_failCheckRun hfailed (Bool.eq_false_of_not_eq_true hlimit)).andThen
      (fun _ t l ht => ?_) fun e t l ht => ht
    refine ensures_suppress.2 (ensures_neutral (q := .finalizeJob job.id job.fenceToken .failure
      (some [("error", .str e.text)])) rfl fun t'' r hledger _ => ?_)
    have hnew := (congrArg Ledger.Balanced hledger).mpr ht
    rcases r with (_ | _) | _ <;> exact hnew

theorem ensures_processJob (h : t.ledger = .blank) :
    Script.Ensures transcribe CheckRunsWork (fun _ => True)
      (fun t _ _ => t.ledger.Balanced) (processJob py cfg job) t {} := by
  have hblank : ∀ t' : Transcript, t'.ledger = t.ledger → t'.ledger.Balanced := fun t' ht' =>
    Ledger.balanced_of_created_nil (congrArg Ledger.created (ht'.trans h))
  unfold processJob
  split
  · rename_i text _
    refine ensures_suppress.2 (ensures_neutral (q := .finalizeJob job.id job.fenceToken .failure
      (some [("error", .str ("Invalid job payload: " ++ text))])) rfl fun t' r hledger _ => ?_)
    rcases r with (_ | _) | _ <;> exact hblank t' hledger
  · rename_i installationId _
    refine Script.ensures_bind.2 (ensures_neutral (q := .newGitHubService) rfl
      fun t' r hledger _ => ?_)
    cases r with
    | error e => exact hblank t' hledger
    | ok _ =>
      have hbody : Script.Ensures transcribe CheckRunsWork (fun _ => True)
          (fun t _ _ => t.ledger.Balanced)
          (exceptException (review cfg job installationId) (handleError py job)) t' {} := by
        refine ensures_exceptException.2 ((ensures_review (hledger.trans h)).mono fun t l r hr => ?_)
        rcases r with (_ | _) | _
        · exact ensures_handleError hr
        · exact hr.elim
        · exact hr
      refine Script.ensures_finallyDo.2 (hbody.mono fun t l r ht => ?_)
      apply ensures_neutral (q := .close) rfl
      intro t' r' hledger' _
      have hnew : t'.ledger.Balanced := (congrArg Ledger.Balanced hledger').mpr ht
      cases r' <;> exact hnew

/-- For every pattern of outcomes in which check runs are created and updated: what
`process_job` created it has completed exactly when it could. -/
theorem closed_iff_closable (py : Python) (cfg : Settings) (job : Job) {replies : List Reply}
    {t : Transcript} {r : Except Raised Unit × Locals}
    (h : Run (Guarded (Session transcribe) (Fits CheckRunsWork))
      ([], processJob py cfg job {}) replies (t, .done r)) : t.Closed ↔ t.Closable := by
  have hend : Script.Ensures transcribe CheckRunsWork (fun _ => True)
      (fun t _ _ => t.ledger.Balanced) (processJob py cfg job) [] {} := ensures_processJob rfl
  exact hend.complete h

end Process

namespace Sample

def row : Job :=
  (Job.enqueued jobId sha "octo/widgets" 7 42 none 0).claimed "w1" second

/-- GitHub limits the rate of the first call after the check run is created. -/
def limitedReply : Reply
  | .fetchDiff _ _ _ =>
    .error (.exception ⟨"Client error '429 Too Many Requests'", some ⟨some 429, none⟩⟩)
  | q => reply q

theorem reply_works : ∀ c ∈ List.replicate 12 reply, ∀ t q, CheckRunsWork t q c := by
  intro c hc t q
  obtain rfl := List.eq_of_mem_replicate hc
  cases q <;> exact ⟨by simp [reply], by trivial⟩

theorem limitedReply_works : ∀ c ∈ List.replicate 7 limitedReply, ∀ t q, CheckRunsWork t q c := by
  intro c hc t q
  obtain rfl := List.eq_of_mem_replicate hc
  cases q <;> exact ⟨by simp [limitedReply, reply], by trivial⟩

end Sample

theorem closed_iff_closable_reviewed : ∃ t r,
    Run (Guarded (Session transcribe) (Fits CheckRunsWork))
      ([], processJob Sample.python {} Sample.row {}) (List.replicate 12 Sample.reply)
      (t, .done r) ∧ t.created = [11] ∧ (t.Closed ↔ t.Closable) := by
  obtain ⟨t, r, hsession, hcreated⟩ := exists_result transcribe
    (s := []) (p := processJob Sample.python {} Sample.row {})
    (fun t _ => t.created = [11])
    (show (replay (advance transcribe) _ (List.replicate 12 Sample.reply)).any _ = true by decide)
  have hrun := guard_session hsession Sample.reply_works
  have hiff := closed_iff_closable Sample.python {} Sample.row hrun
  exact ⟨t, r, hrun, of_decide_eq_true hcreated, hiff⟩

/-- Limited by GitHub, the worker releases the job and leaves its check run in progress. -/
theorem not_closed_when_limited : ¬ ∀ (job : Job) (replies : List Reply) (t : Transcript)
    (r : Except Raised Unit × Locals),
    Run (Guarded (Session transcribe) (Fits CheckRunsWork))
      ([], processJob Sample.python {} job {}) replies (t, .done r) → t.Closed := by
  intro hall
  obtain ⟨t, r, hsession, hopen⟩ := exists_result transcribe
    (s := []) (p := processJob Sample.python {} Sample.row {})
    (fun t _ => t.created = [11] && t.completed = [])
    (show (replay (advance transcribe) _ (List.replicate 7 Sample.limitedReply)).any _ = true by
      decide)
  have hrun := guard_session hsession Sample.limitedReply_works
  simp only [Bool.and_eq_true, decide_eq_true_eq] at hopen
  have hclosed := hall Sample.row _ t r hrun 11
  rw [hopen.1, hopen.2] at hclosed
  simp at hclosed

end Revix
