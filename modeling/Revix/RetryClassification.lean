import Revix.Infixes
import Revix.RateLimitedReviews

/-! `_is_rate_limit` searches the text of an error, which has the URL of the request or the id of
the job in it: what these print decides whether the job is released. -/
namespace Revix
open EffectPrograms EffectSessions Infixes LabelledRuns

/-! ## Texts -/

/-- What `_is_rate_limit` looks for in the text of an error. -/
def misleading (text : String) : Bool :=
  occursIn "429".toList text.toList || occursIn "rate_limit".toList (text.toList.map Char.toLower)

theorem isRateLimit_eq {e : PyError} (h : e.response.bind Response.statusCode ≠ some 429) :
    isRateLimit e = misleading e.text := by
  simp [isRateLimit, misleading, h]

theorem occursIn_append_cons {needle as bs : List Char} {c : Char} (hc : c ∉ needle) :
    occursIn needle (as ++ c :: bs) = (occursIn needle as || occursIn needle bs) := by
  rw [Bool.eq_iff_iff, Bool.or_eq_true, occursIn_iff, occursIn_iff, occursIn_iff,
    infix_append_cons_iff hc]

theorem misleading_append {sep : String} {c : Char} (hsep : sep.toList = [c])
    (hdigits : c ∉ "429".toList) (hletters : c.toLower ∉ "rate_limit".toList) (a b : String) :
    misleading (a ++ sep ++ b) = (misleading a || misleading b) := by
  have htext : (a ++ sep ++ b).toList = a.toList ++ c :: b.toList := by
    rw [String.toList_append, String.toList_append, hsep, List.append_assoc, List.singleton_append]
  rw [misleading, htext, List.map_append, List.map_cons, occursIn_append_cons hdigits,
    occursIn_append_cons hletters]
  simp only [misleading, Bool.or_assoc, Bool.or_left_comm]

/-- Texts that are joined by a separator mislead if one of them does. -/
theorem misleading_joinTexts {sep : String} {c : Char} (hsep : sep.toList = [c])
    (hdigits : c ∉ "429".toList) (hletters : c.toLower ∉ "rate_limit".toList)
    (texts : List String) : misleading (joinTexts sep texts) = texts.any misleading := by
  induction texts with
  | nil => rfl
  | cons text texts ih =>
    cases texts with
    | nil => simp [joinTexts]
    | cons text' texts =>
      have hjoin : joinTexts sep (text :: text' :: texts) =
          text ++ sep ++ joinTexts sep (text' :: texts) := rfl
      rw [hjoin, misleading_append hsep hdigits hletters, ih]
      rfl

/-! ## The errors of external calls -/

/-- `BASE_URL` and a path. -/
def apiUrl (path : List String) : String := joinTexts "/" ("https://api.github.com" :: path)

/-- The path of a call to GitHub that can fail. Of a review only its summary can. -/
def Request.path : Request → Option (List String)
  | .getToken installationId =>
    some ["app", "installations", toString installationId, "access_tokens"]
  | .createCheckRun repo _ _ => some ["repos", repo, "check-runs"]
  | .fetchDiff repo pullNumber _ => some ["repos", repo, "pulls", toString pullNumber]
  | .fetchPullFiles repo pullNumber _ _ =>
    some ["repos", repo, "pulls", toString pullNumber, "files"]
  | .fetchPullRequest repo pullNumber _ => some ["repos", repo, "pulls", toString pullNumber]
  | .postReview repo pullNumber _ _ _ _ =>
    some ["repos", repo, "pulls", toString pullNumber, "reviews"]
  | .updateCheckRun update _ => some ["repos", update.repo, "check-runs", toString update.checkRunId]
  | _ => none

/-- What the error of a call prints of its arguments. -/
def Request.printed : Request → List String
  | .getToken installationId => [toString installationId]
  | .createCheckRun repo _ _ => [repo]
  | .fetchDiff repo pullNumber _ => [repo, toString pullNumber]
  | .fetchPullFiles repo pullNumber _ _ => [repo, toString pullNumber]
  | .fetchPullRequest repo pullNumber _ => [repo, toString pullNumber]
  | .postReview repo pullNumber _ _ _ _ => [repo, toString pullNumber]
  | .updateCheckRun update _ => [update.repo, toString update.checkRunId]
  | .finalizeJob id token _ _ => [id.text, toString token]
  | _ => []

def Job.printed (job : Job) : Request → List String
  | .getToken installationId => [toString installationId]
  | .createCheckRun _ _ _ => [job.repoFullName]
  | .fetchDiff _ _ _ => [job.repoFullName, toString job.prNumber]
  | .fetchPullFiles _ _ _ _ => [job.repoFullName, toString job.prNumber]
  | .fetchPullRequest _ _ _ => [job.repoFullName, toString job.prNumber]
  | .postReview _ _ _ _ _ _ => [job.repoFullName, toString job.prNumber]
  | .updateCheckRun update _ => [job.repoFullName, toString update.checkRunId]
  | .finalizeJob _ _ _ _ => [job.id.text, toString job.fenceToken]
  | _ => []

/-- The texts of status errors print the status and the URL. What is around the URL misleads for
no status but 429. -/
def PrintsUrl (statusText : ℕ → String → String) : Prop :=
  ∀ status, 100 ≤ status → status < 600 → status ≠ 429 → ∃ lead trail,
    occursIn (toString status).toList lead.toList = true ∧
    misleading lead = false ∧ misleading trail = false ∧
    ∀ url, statusText status url = lead ++ "'" ++ url ++ "'" ++ trail

/-- The error of `raise_for_status` for a status other than 429. -/
def StatusError (statusText : ℕ → String → String) (url : String) (e : PyError) : Prop :=
  ∃ status : ℕ, 100 ≤ status ∧ status < 600 ∧ status ≠ 429 ∧ e.text = statusText status url ∧
    e.response.bind Response.statusCode = some (status : ℤ)

/-- The error that a call of `process_job` raises: GitHub's with a status, the one for a stale token,
or any that `process_job` does not look at. -/
def FailsWith (statusText : ℕ → String → String) (q : Request) (e : PyError) : Prop :=
  match q.path, q with
  | some path, _ => StatusError statusText (apiUrl path) e
  | none, .finalizeJob id token _ _ => e = ⟨staleMessage id token, none⟩
  | none, .setCheckRunId _ _ => True
  | none, .releaseJob _ _ _ => True
  | none, .close => True
  | none, _ => False

section Texts

variable {statusText : ℕ → String → String} {q : Request} {e : PyError}

theorem misleading_apiUrl (path : List String) :
    misleading (apiUrl path) = path.any misleading := by
  have hbase : misleading "https://api.github.com" = false := by decide
  rw [apiUrl, misleading_joinTexts (c := '/') rfl (by decide) (by decide), List.any_cons, hbase,
    Bool.false_or]

theorem misleading_statusText (hprints : PrintsUrl statusText) {url : String}
    (h : StatusError statusText url e) : isRateLimit e = misleading url := by
  obtain ⟨status, hlow, hhigh, hne, htext, hstatus⟩ := h
  obtain ⟨lead, trail, -, hlead, htrail, hall⟩ := hprints status hlow hhigh hne
  have hcode : e.response.bind Response.statusCode ≠ some 429 := by
    rw [hstatus]
    intro heq
    have hint : (status : ℤ) = 429 := Option.some.inj heq
    omega
  have hquote : ∀ a b, misleading (a ++ "'" ++ b) = (misleading a || misleading b) :=
    misleading_append (c := '\'') rfl (by decide) (by decide)
  rw [isRateLimit_eq hcode, htext, hall, hquote, hquote, hlead, htrail, Bool.false_or, Bool.or_false]

theorem misleading_staleMessage (id : Uuid) (token : ℕ) :
    misleading (staleMessage id token) = (misleading id.text || misleading (toString token)) := by
  have htext : staleMessage id token = joinTexts " " ["Job", id.text, "was", "reclaimed;",
      "fence_token", toString token, "is", "stale"] := by
    rw [← String.toList_inj]
    simp [staleMessage, joinTexts, String.toList_append]
  have hwords : misleading "Job" = false ∧ misleading "was" = false ∧
      misleading "reclaimed;" = false ∧ misleading "fence_token" = false ∧
      misleading "is" = false ∧ misleading "stale" = false := by decide
  obtain ⟨hjob, hwas, hreclaimed, htoken, his, hstale⟩ := hwords
  rw [htext, misleading_joinTexts (c := ' ') rfl (by decide) (by decide)]
  simp [hjob, hwas, hreclaimed, htoken, his, hstale]

/-- The fixed parts of a path do not mislead. -/
theorem any_path {path : List String} (h : q.path = some path) :
    path.any misleading = q.printed.any misleading := by
  have hfixed : misleading "app" = false ∧ misleading "installations" = false ∧
      misleading "access_tokens" = false ∧ misleading "repos" = false ∧
      misleading "check-runs" = false ∧ misleading "pulls" = false ∧
      misleading "files" = false ∧ misleading "reviews" = false := by decide
  cases q
  all_goals
    first
    | exact absurd h (Option.some_ne_none _).symm
    | obtain rfl := Option.some.inj h
      simp [Request.printed, hfixed]

/-- The calls whose errors end a review: those to GitHub and the commit. -/
def Request.external : Request → Bool
  | .finalizeJob _ _ .success _ => true
  | .createCheckRun _ _ _ => false
  | q => q.path.isSome

/-- What is printed of its arguments decides how the error of a call is classified. -/
theorem isRateLimit_of_failsWith (hprints : PrintsUrl statusText) (hq : q.external = true)
    (h : FailsWith statusText q e) : isRateLimit e = q.printed.any misleading := by
  cases hpath : q.path with
  | some path =>
    have hstatus : StatusError statusText (apiUrl path) e := by
      unfold FailsWith at h
      rwa [hpath] at h
    rw [misleading_statusText hprints hstatus, misleading_apiUrl, any_path hpath]
  | none =>
    cases q
    case finalizeJob id token verdict aiFeedback =>
      obtain rfl : e = ⟨staleMessage id token, none⟩ := h
      have hcode : (none : Option Response).bind Response.statusCode ≠ some 429 := by simp
      rw [isRateLimit_eq hcode, misleading_staleMessage]
      simp [Request.printed]
    all_goals
      first
      | exact absurd hq Bool.false_ne_true
      | cases hpath

end Texts

/-! ## Failing runs -/

/-- Calls fail as the code says they do, GitHub names the files of a pull request and nobody
cancels. -/
def CallsFail (statusText : ℕ → String → String) (_ : Transcript) (q : Request) (reply : Reply) :
    Prop :=
  reply q ≠ .error .cancelled ∧
    (∀ e, reply q = .error (.exception e) → FailsWith statusText q e) ∧
    match q with
    | .fetchPullFiles repo pullNumber token headSha => ∀ prFiles,
        reply (.fetchPullFiles repo pullNumber token headSha) = .ok prFiles →
        ∀ f ∈ prFiles, f.filename.isSome
    | _ => True

namespace Exchange

/-- The error of an external call. -/
def fails : Exchange → Bool
  | ⟨q, .error _⟩ => q.external
  | _ => false

/-- A commit of `FAILURE`, answered or not. -/
def failed : Exchange → Bool
  | ⟨.finalizeJob _ _ .failure _, _⟩ => true
  | _ => false

end Exchange

namespace Transcript

def failure : Transcript → Option Exchange
  | [] => none
  | x :: t => (failure t).or (if x.fails then some x else none)

def failed (t : Transcript) : Bool := t.any Exchange.failed

end Transcript

section Runs

variable {statusText : ℕ → String → String} {py : Python} {cfg : Settings} {job : Job}
  {t : Transcript} {l : Locals}

/-- No external call has failed, and the job is neither released nor failed. -/
def Unfailed (t : Transcript) : Prop :=
  t.failure = none ∧ t.released = false ∧ t.failed = false

/-- An external call has failed with the exception, and the handler has done nothing yet. -/
def Raising (statusText : ℕ → String → String) (job : Job) (e : PyError) (t : Transcript) : Prop :=
  (∃ q, t.failure = some ⟨q, .error (.exception e)⟩ ∧ q.external = true ∧
    q.printed = job.printed q ∧ FailsWith statusText q e) ∧ t.released = false ∧ t.failed = false

/-- If an external call has failed, its error decided what became of the job. -/
def Classified (statusText : ℕ → String → String) (job : Job) (t : Transcript) : Prop :=
  ∀ x, t.failure = some x → ∃ q e, x = ⟨q, .error (.exception e)⟩ ∧ q.external = true ∧
    q.printed = job.printed q ∧ FailsWith statusText q e ∧
    t.released = isRateLimit e ∧ t.failed = !isRateLimit e

/-- A step of the review goes on, or raises the error of its call. -/
def Proceeds (statusText : ℕ → String → String) (job : Job) {α : Type} (t : Transcript)
    (_ : Locals) : Except Raised α → Prop
  | .ok _ => Unfailed t
  | .error (.exception e) => Raising statusText job e t
  | .error .cancelled => False

/-- A call is written down, and what it says is added to what was known. -/
theorem Unfailed.cons {x : Exchange} (h : Unfailed t) (hf : x.fails = false)
    (hr : x.released = false) (hx : x.failed = false) : Unfailed (x :: t) := by
  obtain ⟨hfailure, hreleased, hfailed⟩ := h
  refine ⟨?_, ?_, ?_⟩
  · rw [Transcript.failure, hfailure, hf]
    rfl
  · rw [Transcript.released, List.any_cons, hr]
    exact hreleased
  · rw [Transcript.failed, List.any_cons, hx]
    exact hfailed

theorem ensures_external {q : Request} (hq : q.external = true) (hjob : q.printed = job.printed q)
    (hr : ∀ r, Exchange.released ⟨q, r⟩ = false) (hx : ∀ r, Exchange.failed ⟨q, r⟩ = false)
    (h : Unfailed t) :
    Script.Ensures transcribe (CallsFail statusText) (fun _ => True) (Proceeds statusText job) (ask q)
      t l := by
  refine Script.ensures_request.2 ⟨trivial, fun reply ⟨hcancel, herror, _⟩ => ?_⟩
  simp only [transcribe]
  generalize reply q = r at hcancel herror
  have hquiet : ∀ r, Transcript.released (⟨q, r⟩ :: t) = false ∧
      Transcript.failed (⟨q, r⟩ :: t) = false := by
    intro r
    rw [Transcript.released, Transcript.failed, List.any_cons, List.any_cons, hr, hx]
    exact h.2
  rcases r with (e | _) | a
  · refine ⟨⟨q, ?_, hq, hjob, herror e rfl⟩, hquiet _⟩
    rw [Transcript.failure, h.1]
    simp [Exchange.fails, hq]
  · exact hcancel rfl
  · exact h.cons rfl (hr _) (hx _)

/-- A call whose error does not end the review. -/
theorem ensures_internal {q : Request} {post : Transcript → Locals → Except Raised q.Answer → Prop}
    (hq : q.external = false) (hr : ∀ r, Exchange.released ⟨q, r⟩ = false)
    (hx : ∀ r, Exchange.failed ⟨q, r⟩ = false) (h : Unfailed t)
    (hpost : ∀ t' r, Unfailed t' → r ≠ .error .cancelled →
      (∀ e, r = .error (.exception e) → FailsWith statusText q e) → post t' l r) :
    Script.Ensures transcribe (CallsFail statusText) (fun _ => True) post (ask q) t l := by
  refine Script.ensures_request.2 ⟨trivial, fun reply ⟨hcancel, herror, _⟩ => ?_⟩
  refine hpost _ _ (h.cons ?_ (hr _) (hx _)) hcancel herror
  generalize reply q = r
  cases r with
  | error e => exact hq
  | ok a => rfl

theorem ensures_createsCheckRun (token : String) (h : Unfailed t) :
    Script.Ensures transcribe (CallsFail statusText) (fun _ => True) (Proceeds statusText job)
      (createCheckRun job token) t l := by
  refine ensures_suppress.2 (Script.ensures_bind.2 (ensures_internal
    (q := .createCheckRun job.repoFullName job.commitSha token) rfl (fun _ => rfl) (fun _ => rfl) h
    fun t r ht hcancel _ => ?_))
  rcases r with (e | _) | checkRunId
  · exact ht
  · exact hcancel rfl
  apply Script.ensures_modify.2
  refine ensures_internal (q := .setCheckRunId job.id checkRunId) rfl (fun _ => rfl) (fun _ => rfl)
    ht fun t r ht hcancel _ => ?_
  rcases r with (e | _) | _
  · exact ht
  · exact hcancel rfl
  · exact ht

/-- A call that does not fail. -/
theorem ensures_succeeds {q : Request} (hq : q.external = false)
    (hnever : ∀ e, ¬FailsWith statusText q e) (hr : ∀ r, Exchange.released ⟨q, r⟩ = false)
    (hx : ∀ r, Exchange.failed ⟨q, r⟩ = false) (h : Unfailed t) :
    Script.Ensures transcribe (CallsFail statusText) (fun _ => True) (Proceeds statusText job) (ask q)
      t l := by
  refine ensures_internal hq hr hx h fun t r ht hcancel herror => ?_
  rcases r with (e | _) | a
  · exact absurd (herror e rfl) (hnever e)
  · exact hcancel rfl
  · exact ht

theorem proceeds_andThen {α β : Type} {x : JobScript α} {f : α → JobScript β}
    (hx : Script.Ensures transcribe (CallsFail statusText) (fun _ => True) (Proceeds statusText job) x
      t l)
    (hf : ∀ a t l, Unfailed t → Script.Ensures transcribe (CallsFail statusText) (fun _ => True)
      (Proceeds statusText job) (f a) t l) :
    Script.Ensures transcribe (CallsFail statusText) (fun _ => True) (Proceeds statusText job)
      (x >>= f) t l := by
  refine hx.andThen (fun a t l ht => hf a t l ht) fun e t l ht => ?_
  cases e with
  | exception e => exact ht
  | cancelled => exact ht

theorem ensures_indexesFiles {prFiles : List PullFile} (hfiles : ∀ f ∈ prFiles, f.filename.isSome)
    (h : Unfailed t) :
    Script.Ensures transcribe (CallsFail statusText) (fun _ => True) (Proceeds statusText job)
      (indexFiles job prFiles) t l := by
  have hcollect : ∀ (fs : List PullFile) (t : Transcript) (l : Locals),
      (∀ f ∈ fs, f.filename.isSome) → Unfailed t →
      Script.Ensures transcribe (CallsFail statusText) (fun _ => True) (Proceeds statusText job)
        (EffectPrograms.Script.collect indexFile fs) t l := by
    intro fs
    induction fs with
    | nil => exact fun _ _ _ ht => ht
    | cons f fs ih =>
      intro t l hfs ht
      refine proceeds_andThen ?_ fun _ t l ht => ?_
      · obtain ⟨filename, hname⟩ := Option.isSome_iff_exists.1 (hfs f (.head _))
        unfold indexFile
        split
        · exact ht
        · simp only [hname]
          exact ensures_succeeds rfl (fun _ h => h) (fun _ => rfl) (fun _ => rfl) ht
      · exact proceeds_andThen (ih t l (fun f hf => hfs f (.tail _ hf)) ht) fun _ _ _ ht => ht
  unfold indexFiles
  refine proceeds_andThen (hcollect prFiles t l hfiles h) fun indexed t l ht => ?_
  dsimp only
  split
  · exact ensures_succeeds rfl (fun _ h => h) (fun _ => rfl) (fun _ => rfl) ht
  · exact ht

theorem ensures_completesCheckRun (result : ReviewResult) (token : String) (h : Unfailed t) :
    Script.Ensures transcribe (CallsFail statusText) (fun _ => True) (Proceeds statusText job)
      (completeCheckRun job result token) t l := by
  unfold completeCheckRun
  apply Script.ensures_get.2
  split
  · exact h
  · exact ensures_external rfl rfl (fun _ => rfl) (fun _ => rfl) h

/-- Only the error of an external call ends a review. -/
theorem ensures_reviews (installationId : ℤ) (h : Unfailed t) :
    Script.Ensures transcribe (CallsFail statusText) (fun _ => True) (Proceeds statusText job)
      (review cfg job installationId) t l := by
  unfold review
  refine proceeds_andThen (ensures_external rfl rfl (fun _ => rfl) (fun _ => rfl) h)
    fun token t l ht => Script.ensures_modify.2 ?_
  refine proceeds_andThen (ensures_createsCheckRun token ht) fun _ t l ht => ?_
  refine proceeds_andThen (ensures_external rfl rfl (fun _ => rfl) (fun _ => rfl) ht)
    fun diff t l ht => ?_
  -- the answer names the files
  have hfetch : Script.Ensures transcribe (CallsFail statusText) (fun _ => True)
      (fun t l r => Proceeds statusText job t l r ∧ ∀ fs, r = .ok fs → ∀ f ∈ fs, f.filename.isSome)
      (ask (.fetchPullFiles job.repoFullName job.prNumber token job.commitSha)) t l := by
    refine (ensures_external rfl rfl (fun _ => rfl) (fun _ => rfl) ht).and ?_
    refine Script.ensures_request.2 ⟨trivial, fun reply ⟨_, _, hnamed⟩ fs hfs => ?_⟩
    exact hnamed fs hfs
  refine hfetch.andThen (fun prFiles t l ⟨ht, hnamed⟩ => ?_) fun e t l ⟨ht, _⟩ => ?_
  · refine proceeds_andThen (ensures_external rfl rfl (fun _ => rfl) (fun _ => rfl) ht)
      fun prDetails t l ht => ?_
    refine proceeds_andThen (ensures_indexesFiles (hnamed prFiles rfl) ht) fun _ t l ht => ?_
    refine proceeds_andThen (ensures_succeeds rfl (fun _ h => h) (fun _ => rfl) (fun _ => rfl) ht)
      fun result t l ht => ?_
    refine proceeds_andThen (ensures_external rfl rfl (fun _ => rfl) (fun _ => rfl) ht)
      fun _ t l ht => ?_
    refine proceeds_andThen (ensures_completesCheckRun result token ht) fun _ t l ht => ?_
    exact ensures_external rfl rfl (fun _ => rfl) (fun _ => rfl) ht
  · cases e with
    | exception e => exact ht
    | cancelled => exact ht

theorem Raising.cons {x : Exchange} {e : PyError} (h : Raising statusText job e t)
    (hr : x.released = false) (hx : x.failed = false) : Raising statusText job e (x :: t) := by
  obtain ⟨⟨q, hfailure, hq⟩, hreleased, hfailed⟩ := h
  refine ⟨⟨q, ?_, hq⟩, ?_, ?_⟩
  · rw [Transcript.failure, hfailure]
    rfl
  · rw [Transcript.released, List.any_cons, hr]
    exact hreleased
  · rw [Transcript.failed, List.any_cons, hx]
    exact hfailed

/-- The handler's last request decides between release and failure. -/
theorem Raising.classified {x : Exchange} {e : PyError} (h : Raising statusText job e t)
    (hr : x.released = isRateLimit e) (hx : x.failed = !isRateLimit e) :
    Classified statusText job (x :: t) := by
  obtain ⟨⟨q, hfailure, hq, hjob, hfails⟩, hreleased, hfailed⟩ := h
  intro y hy
  rw [Transcript.failure, hfailure] at hy
  obtain rfl := Option.some.inj hy
  refine ⟨q, e, rfl, hq, hjob, hfails, ?_, ?_⟩
  · rw [Transcript.released, List.any_cons, hr, ← Transcript.released, hreleased, Bool.or_false]
  · rw [Transcript.failed, List.any_cons, hx, ← Transcript.failed, hfailed, Bool.or_false]

theorem Classified.cons {x : Exchange} (h : Classified statusText job t) (hf : x.fails = false)
    (hr : x.released = false) (hx : x.failed = false) : Classified statusText job (x :: t) := by
  intro y hy
  rw [Transcript.failure, hf, if_neg Bool.false_ne_true, Option.or_none] at hy
  rw [Transcript.released, Transcript.failed, List.any_cons, List.any_cons, hr, hx]
  exact h y hy

theorem classified_of_none (h : t.failure = none) : Classified statusText job t := by
  intro x hx
  rw [h] at hx
  cases hx

/-- A call whose answer only tells how the handler goes on. -/
theorem ensures_asked {q : Request} {post : Transcript → Locals → Except Raised q.Answer → Prop}
    (h : ∀ r, r ≠ .error .cancelled → post (⟨q, r⟩ :: t) l r) :
    Script.Ensures transcribe (CallsFail statusText) (fun _ => True) post (ask q) t l :=
  Script.ensures_request.2 ⟨trivial, fun _ hreply => h _ hreply.1⟩

theorem ensures_delays {e : PyError} {attemptCount : ℤ} (h : Raising statusText job e t) :
    Script.Ensures transcribe (CallsFail statusText) (fun _ => True) (fun t' _ r =>
      Raising statusText job e t' ∧ ∃ delay, r = .ok delay) (retryDelayFor py e attemptCount) t l := by
  unfold retryDelayFor
  dsimp only
  split
  · exact ⟨h, _, rfl⟩
  · split
    · refine Script.ensures_bind.2 ((Script.ensures_request (q := Request.time)).2
        ⟨trivial, fun reply ⟨hcancel, herror, _⟩ => ?_⟩)
      simp only [transcribe]
      generalize reply .time = r at hcancel herror
      rcases r with (e' | _) | now
      · exact (herror e' rfl).elim
      · exact absurd rfl hcancel
      · exact ⟨h.cons rfl rfl, _, rfl⟩
    · exact ⟨h, _, rfl⟩

theorem ensures_failsCheckRun {e : PyError} (h : Raising statusText job e t) :
    Script.Ensures transcribe (CallsFail statusText) (fun _ => True) (fun t _ r =>
      Raising statusText job e t ∧ r = .ok ()) (failCheckRun job e) t l := by
  unfold failCheckRun
  apply Script.ensures_get.2
  split
  · rename_i checkRunId token _ _
    refine ensures_suppress.2 (ensures_asked (q := .updateCheckRun
      { repo := job.repoFullName
        checkRunId := checkRunId
        conclusion := .failure
        output := [("title", "Review Failed"), ("summary", "System Error: " ++ e.text)] } token)
      fun r hcancel => ?_)
    rcases r with (e' | _) | _
    · exact ⟨h.cons rfl rfl, rfl⟩
    · exact absurd rfl hcancel
    · exact ⟨h.cons rfl rfl, rfl⟩
  · exact ⟨h, rfl⟩

theorem ensures_handlesError {e : PyError} (h : Raising statusText job e t) :
    Script.Ensures transcribe (CallsFail statusText) (fun _ => True)
      (fun t _ _ => Classified statusText job t) (handleError py job e) t l := by
  unfold handleError
  refine (ensures_delays h).andThen (fun delay t l ⟨ht, _⟩ => ?_) fun e t l ⟨_, _, he⟩ => nomatch he
  split
  · rename_i hlimit
    exact ensures_asked (q := .releaseJob job.id job.fenceToken delay) fun r _ =>
      ht.classified hlimit.symm (by rw [hlimit]; rfl)
  · rename_i hlimit
    have hlimit := Bool.eq_false_of_not_eq_true hlimit
    refine (ensures_failsCheckRun ht).andThen (fun _ t l ⟨ht, _⟩ => ?_)
      fun e t l ⟨_, he⟩ => nomatch he
    refine ensures_suppress.2 (ensures_asked (q := .finalizeJob job.id job.fenceToken .failure
      (some [("error", .str e.text)])) fun r _ => ?_)
    have hnew := ht.classified (x := ⟨.finalizeJob job.id job.fenceToken .failure
      (some [("error", .str e.text)]), r⟩) hlimit.symm (by rw [hlimit]; rfl)
    rcases r with (_ | _) | _ <;> exact hnew

theorem ensures_classifies :
    Script.Ensures transcribe (CallsFail statusText) (fun _ => True)
      (fun t _ _ => Classified statusText job t) (processJob py cfg job) [] {} := by
  unfold processJob
  split
  · rename_i text _
    refine ensures_suppress.2 (ensures_asked (q := .finalizeJob job.id job.fenceToken .failure
      (some [("error", .str ("Invalid job payload: " ++ text))])) fun r _ => ?_)
    rcases r with (_ | _) | _ <;> exact classified_of_none rfl
  · rename_i installationId _
    refine Script.ensures_bind.2 (ensures_internal (q := .newGitHubService) rfl (fun _ => rfl)
      (fun _ => rfl) ⟨rfl, rfl, rfl⟩ fun t r ht hcancel herror => ?_)
    rcases r with (e | _) | _
    · exact (herror e rfl).elim
    · exact absurd rfl hcancel
    have hbody : Script.Ensures transcribe (CallsFail statusText) (fun _ => True)
        (fun t _ _ => Classified statusText job t)
        (exceptException (review cfg job installationId) (handleError py job)) t {} := by
      refine ensures_exceptException.2 ((ensures_reviews installationId ht).mono fun t l r hr => ?_)
      rcases r with (_ | _) | _
      · exact ensures_handlesError hr
      · exact hr.elim
      · exact classified_of_none hr.1
    refine Script.ensures_finallyDo.2 (hbody.mono fun t l r ht => ?_)
    refine ensures_asked (q := .close) fun r' _ => ?_
    cases r' with
    | error e => exact ht.cons (x := ⟨.close, .error e⟩) rfl rfl rfl
    | ok _ => exact ht.cons (x := ⟨.close, .ok ()⟩) rfl rfl rfl

end Runs

def SameBranch (t t' : Transcript) : Prop := t.released = t'.released ∧ t.failed = t'.failed

/-- What the error of the call prints of the job is taken for a rate limit. -/
def MisledBy (job : Job) (q : Request) : Prop := ∃ s ∈ job.printed q, misleading s = true

/-- Two runs in which an external call fails, not with a status 429, take the same branch and none of
them that of a rate limit, exactly if neither error prints a misleading identifier. -/
theorem same_branch_iff_not_misled (py : Python) (cfg : Settings)
    {statusText : ℕ → String → String} (hprints : PrintsUrl statusText) {job job' : Job}
    {replies replies' : List Reply} {t t' : Transcript} {r r' : Except Raised Unit × Locals}
    (h : Run (Guarded (Session transcribe) (Fits (CallsFail statusText)))
      ([], processJob py cfg job {}) replies (t, .done r))
    (h' : Run (Guarded (Session transcribe) (Fits (CallsFail statusText)))
      ([], processJob py cfg job' {}) replies' (t', .done r'))
    {x x' : Exchange} (hx : t.failure = some x) (hx' : t'.failure = some x') :
    (SameBranch t t' ∧ t.released = false ∧ t'.released = false) ↔
      ¬MisledBy job x.request ∧ ¬MisledBy job' x'.request := by
  have hmisled : ∀ {job : Job} {t : Transcript} {x : Exchange}, Classified statusText job t →
      t.failure = some x → (t.released = true ↔ MisledBy job x.request) ∧ t.failed = !t.released := by
    intro job t x hclassified hx
    obtain ⟨q, e, rfl, hq, hjob, hfails, hreleased, hfailed⟩ := hclassified x hx
    refine ⟨?_, by rw [hfailed, hreleased]⟩
    rw [hreleased, isRateLimit_of_failsWith hprints hq hfails, hjob, List.any_eq_true]
    exact Iff.rfl
  have hend : ∀ {job : Job}, Script.Ensures transcribe (CallsFail statusText) (fun _ => True)
      (fun t _ _ => Classified statusText job t) (processJob py cfg job) [] {} := ensures_classifies
  obtain ⟨hreleased, hfailed⟩ := hmisled (hend.complete h) hx
  obtain ⟨hreleased', hfailed'⟩ := hmisled (hend.complete h') hx'
  rw [← hreleased, ← hreleased', Bool.not_eq_true, Bool.not_eq_true, SameBranch, hfailed, hfailed']
  constructor
  · exact And.right
  · rintro ⟨hfirst, hsecond⟩
    rw [hfirst, hsecond]
    exact ⟨⟨rfl, rfl⟩, rfl, rfl⟩

namespace Sample

def statusText (status : ℕ) (url : String) : String :=
  "Client error '" ++ toString status ++ " Not Found' for url " ++ "'" ++ url ++ "'" ++ ""

/-- A status has three digits, and only one of them is what is looked for. -/
theorem misleading_status {status : ℕ} (h : status < 600) (hne : status ≠ 429) :
    misleading (toString status) = false := by
  have htext : (toString status).toList = Nat.toDigits 10 status := Nat.toList_repr
  have hlength : (Nat.toDigits 10 status).length ≤ 3 :=
    (Nat.length_toDigits_le_iff (by decide) (by decide)).2 (by omega)
  rw [misleading, htext, Bool.or_eq_false_iff, Bool.eq_false_iff, Bool.eq_false_iff]
  refine ⟨fun hdigits => hne ?_, fun hletters => ?_⟩
  · have hsame : "429".toList = Nat.toDigits 10 status :=
      (occursIn_iff.1 hdigits).sublist.eq_of_length_le hlength
    calc
      status = Nat.ofDigitChars 10 (Nat.toDigits 10 status) 0 := Nat.ofDigitChars_ten_toDigits.symm
      _ = Nat.ofDigitChars 10 "429".toList 0 := by rw [hsame]
      _ = 429 := by decide
  · have hle := (occursIn_iff.1 hletters).length_le
    rw [List.length_map] at hle
    have hten : "rate_limit".toList.length = 10 := by decide
    omega

theorem statusText_prints : PrintsUrl statusText := by
  intro status hlow hhigh hne
  have hspace : ∀ a b, misleading (a ++ " " ++ b) = (misleading a || misleading b) :=
    misleading_append (c := ' ') rfl (by decide) (by decide)
  have hquote : ∀ a b, misleading (a ++ "'" ++ b) = (misleading a || misleading b) :=
    misleading_append (c := '\'') rfl (by decide) (by decide)
  refine ⟨"Client error '" ++ toString status ++ " Not Found' for url ", "", ?_, ?_, rfl,
    fun url => rfl⟩
  · rw [occursIn_iff, String.toList_append, String.toList_append]
    exact List.infix_append _ _ _
  · have hlead : "Client error '" ++ toString status ++ " Not Found' for url " =
        "Client error " ++ "'" ++ (toString status ++ " " ++ "Not Found' for url ") := by
      rw [← String.toList_inj]
      simp [String.toList_append]
    have hwords : misleading "Client error " = false ∧ misleading "Not Found' for url " = false := by
      decide
    rw [hlead, hquote, hspace, hwords.1, hwords.2, misleading_status hhigh hne]
    rfl

def notFound : Reply
  | .fetchDiff repo pullNumber _ => .error (.exception
    ⟨statusText 404 (apiUrl ["repos", repo, "pulls", toString pullNumber]), some ⟨some 404, none⟩⟩)
  | q => reply q

theorem notFound_fails (n : ℕ) : ∀ c ∈ List.replicate n notFound, ∀ t q,
    CallsFail statusText t q c := by
  intro c hc t q
  obtain rfl := List.eq_of_mem_replicate hc
  cases q
  case fetchDiff repo pullNumber token =>
    refine ⟨by simp [notFound], fun e he => ?_, trivial⟩
    obtain rfl := (Raised.exception.inj (Except.error.inj he)).symm
    exact ⟨404, by decide, by decide, by decide, rfl, rfl⟩
  case fetchPullFiles repo pullNumber token headSha =>
    refine ⟨by simp [notFound, reply], fun e he => by simp [notFound, reply] at he, ?_⟩
    intro prFiles hfiles
    obtain rfl : [] = prFiles := Except.ok.inj hfiles
    exact fun f hf => absurd hf List.not_mem_nil
  all_goals exact ⟨by simp [notFound, reply], fun e he => by simp [notFound, reply] at he, trivial⟩

def rowFor (pullNumber : ℤ) : Job := { row with prNumber := pullNumber }

theorem exists_notFound_run (pullNumber : ℤ) (n : ℕ) (good : Transcript → Bool)
    (h : (replay (advance transcribe) ([], processJob python {} (rowFor pullNumber) {})
      (List.replicate n notFound)).any
        (fun y => (EffectSessions.result y.2).any fun _ => good y.1) = true) :
    ∃ t r, Run (Guarded (Session transcribe) (Fits (CallsFail statusText)))
      ([], processJob python {} (rowFor pullNumber) {}) (List.replicate n notFound) (t, .done r) ∧
      good t = true := by
  obtain ⟨t, r, hsession, hgood⟩ := exists_result transcribe (fun t _ => good t) h
  exact ⟨t, r, guard_session hsession (notFound_fails n), hgood⟩

def diffFails (t : Transcript) : Bool :=
  t.failure.any fun x => match x.request with
    | .fetchDiff _ _ _ => true
    | _ => false

/-- The job for pull request 7 fails. -/
theorem exists_failed_run : ∃ t r, Run (Guarded (Session transcribe) (Fits (CallsFail statusText)))
      ([], processJob python {} (rowFor 7) {}) (List.replicate 8 notFound) (t, .done r) ∧
      (diffFails t && (t.failed && !t.released)) = true :=
  exists_notFound_run 7 8 (fun t => diffFails t && (t.failed && !t.released)) (by decide)

theorem failure_of_diffFails {t : Transcript} (h : diffFails t = true) :
    ∃ x, t.failure = some x := by
  obtain ⟨x, hx, -⟩ := (Option.any_eq_true _ _).1 h
  exact ⟨x, hx⟩

end Sample

theorem same_branch_iff_not_misled_notFound : ∃ t t' r r' x x',
    Run (Guarded (Session transcribe) (Fits (CallsFail Sample.statusText)))
      ([], processJob Sample.python {} (Sample.rowFor 7) {}) (List.replicate 8 Sample.notFound)
      (t, .done r) ∧
    Run (Guarded (Session transcribe) (Fits (CallsFail Sample.statusText)))
      ([], processJob Sample.python {} (Sample.rowFor 8) {}) (List.replicate 8 Sample.notFound)
      (t', .done r') ∧
    t.failure = some x ∧ t'.failure = some x' ∧
    ((SameBranch t t' ∧ t.released = false ∧ t'.released = false) ↔
      ¬MisledBy (Sample.rowFor 7) x.request ∧ ¬MisledBy (Sample.rowFor 8) x'.request) := by
  obtain ⟨t, r, hrun, hfails⟩ := Sample.exists_failed_run
  obtain ⟨t', r', hrun', hfails'⟩ := Sample.exists_notFound_run 8 8 Sample.diffFails
    (by decide)
  obtain ⟨x, hx⟩ := Sample.failure_of_diffFails (Bool.and_eq_true_iff.1 hfails).1
  obtain ⟨x', hx'⟩ := Sample.failure_of_diffFails hfails'
  exact ⟨t, t', r, r', x, x', hrun, hrun', hx, hx',
    same_branch_iff_not_misled _ _ Sample.statusText_prints hrun hrun' hx hx'⟩

/-- Two jobs whose pull requests are not found: number 7 fails, number 429 is released. -/
theorem released_for_its_number : ∃ t t' r r',
    Run (Guarded (Session transcribe) (Fits (CallsFail Sample.statusText)))
      ([], processJob Sample.python {} (Sample.rowFor 7) {}) (List.replicate 8 Sample.notFound)
      (t, .done r) ∧
    Run (Guarded (Session transcribe) (Fits (CallsFail Sample.statusText)))
      ([], processJob Sample.python {} (Sample.rowFor 429) {}) (List.replicate 7 Sample.notFound)
      (t', .done r') ∧
    Sample.diffFails t = true ∧ Sample.diffFails t' = true ∧
    t.failed = true ∧ t.released = false ∧ t'.failed = false ∧ t'.released = true := by
  obtain ⟨t, r, hrun, hbranch⟩ := Sample.exists_failed_run
  obtain ⟨t', r', hrun', hbranch'⟩ := Sample.exists_notFound_run 429 7
    (fun t => Sample.diffFails t && (!t.failed && t.released)) (by decide)
  simp only [Bool.and_eq_true, Bool.not_eq_true'] at hbranch hbranch'
  exact ⟨t, t', r, r', hrun, hrun', hbranch.1, hbranch'.1, hbranch.2.1, hbranch.2.2, hbranch'.2.1,
    hbranch'.2.2⟩

end Revix
