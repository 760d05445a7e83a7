import Mathlib.Logic.Function.Basic
import Revix.PostingAttempts
import Revix.WorkerCommits

/-! A `post_review` goes on one request at a time while its task waits. Anybody may change the
reviews of a pull request between two steps, and a look-up fails or shows the first of them. -/
namespace Revix
open EffectPrograms EffectSessions LabelledRuns

structure GitHubTurn where
  /-- A look-up fails, or returns a page of this size. -/
  lookUp : Except Raised ℕ
  delivery : Delivery

def GitHubTurn.reviews (turn : GitHubTurn) (g : GitHub) (repo : String) (pullNumber : ℤ) :
    Except Raised (List StoredReview) :=
  turn.lookUp.map fun pageSize =>
    (g.stored.filter fun r => r.repo = repo && r.pullNumber = pullNumber).take pageSize

/-- `github` with look-ups that may fail, and that return the first page. -/
def pagedGithub : Server ReviewCall (fun q => Except Raised q.Answer) GitHub GitHubTurn
  | g, .getReviews repo pullNumber _, turn => (turn.reviews g repo pullNumber, g)
  | g, .sendReview repo pullNumber token payload, turn =>
    github g (.sendReview repo pullNumber token payload) turn.delivery

/-- A summary for the commit; a comment is a review with that comment in it. -/
def StoredReview.summarizes (r : StoredReview) (repo : String) (pullNumber : ℤ)
    (commitId : String) : Bool :=
  r.repo = repo && r.pullNumber = pullNumber && r.payload.commitId = commitId &&
    r.payload.comments.isEmpty

def GitHub.summarized (g : GitHub) (repo : String) (pullNumber : ℤ) (commitId : String) : Bool :=
  g.sent.any fun r => r.summarizes repo pullNumber commitId

section GitHub

variable {g : GitHub} {repo : String} {pullNumber : ℤ} {commitId : String}

theorem sent_pagedGithub (g : GitHub) (q : ReviewCall) (turn : GitHubTurn) :
    g.sent ⊆ (pagedGithub g q turn).2.sent := by
  cases q with
  | getReviews => exact List.Subset.refl _
  | sendReview => exact List.subset_append_left _ _

theorem summarized_of_subset {g' : GitHub} (hsent : g.sent ⊆ g'.sent)
    (h : g.summarized repo pullNumber commitId = true) :
    g'.summarized repo pullNumber commitId = true := by
  obtain ⟨r, hr, hsum⟩ := List.any_eq_true.1 h
  exact List.any_eq_true.2 ⟨r, hsent hr, hsum⟩

/-- A review that was sent counts, whatever became of it. -/
theorem summarized_of_send {payload : ReviewPayload} (token : String) (turn : GitHubTurn)
    (hcommit : payload.commitId = commitId) (hcomments : payload.comments.isEmpty = true) :
    (pagedGithub g (.sendReview repo pullNumber token payload) turn).2.summarized repo pullNumber
      commitId = true := by
  have hsum : (⟨repo, pullNumber, payload⟩ : StoredReview).summarizes repo pullNumber commitId =
      true := by
    simp [StoredReview.summarizes, hcommit, hcomments]
  exact List.any_eq_true.2 ⟨_, List.mem_append_right _ (.head _), hsum⟩

end GitHub

/-- What is left of a `post_review`. -/
abbrev PostingSession : Type :=
  Prog ReviewCall (fun q => Except Raised q.Answer) (Except Raised Unit × Unit)

/-- A comment as `process_job` hands it over. -/
def PostedComment.toDict (c : PostedComment) : Dict :=
  [("path", .str c.path), ("line", .int c.line), ("side", .str c.side.text), ("body", .str c.body)]

/-- What a task runs when it asks for a `post_review`. -/
def Request.session : Request → Option PostingSession
  | .postReview repo pullNumber commitId comments token body =>
    some (Revix.postReview repo pullNumber commitId (comments.map PostedComment.toDict) token body
      ())
  | _ => none

structure ReviewBoard where
  fleet : Fleet
  github : GitHub
  /-- The calls that GitHub has had a turn in. -/
  sessions : ℕ → Option PostingSession

inductive ReviewEvent
  | fleet (e : FleetEvent)
  /-- GitHub answers the `post_review` of the `n`-th task. -/
  | posting (n : ℕ) (turn : GitHubTurn)
  /-- Anybody writes, changes and deletes reviews. -/
  | edited (stored : List StoredReview)

namespace ReviewBoard

/-- Before the first webhook, with any reviews on any pull request. -/
def start (stored : List StoredReview) : ReviewBoard := ⟨.empty, ⟨stored, []⟩, fun _ => none⟩

/-- The `post_review` of the `n`-th task, as far as it has gone. -/
def session (b : ReviewBoard) (n : ℕ) : Option PostingSession :=
  (b.sessions n).or ((b.fleet.request n).bind Request.session)

/-- A task is told what its `post_review` has returned or raised. -/
def told (b : ReviewBoard) : FleetEvent → Bool
  | .answered n reply _ _ =>
    match b.fleet.request n with
    | some (.postReview repo pullNumber commitId comments token body) =>
      match b.session n, reply (.postReview repo pullNumber commitId comments token body) with
      | some (.done (.ok _, _)), .ok _ => true
      | some (.done (.error e, _)), .error e' => e = e'
      | _, _ => false
    | _ => true
  | _ => true

/-- An answer or a kill ends the call that the task waits for. -/
def ended (sessions : ℕ → Option PostingSession) : FleetEvent → ℕ → Option PostingSession
  | .answered n _ _ _ => Function.update sessions n none
  | .killed n => Function.update sessions n none
  | _ => sessions

section Steps

variable (py : Python) (cfg : Settings)

def next (b : ReviewBoard) : ReviewEvent → Option ReviewBoard
  | .fleet e =>
    if b.told e then
      (b.fleet.next py cfg e).map fun f => { b with fleet := f, sessions := ended b.sessions e }
    else none
  | .posting n turn =>
    match b.session n with
    | some (.ask q resume) =>
      let r := pagedGithub b.github q turn
      some { b with github := r.2, sessions := Function.update b.sessions n (some (resume r.1)) }
    | _ => none
  | .edited stored => some { b with github := { b.github with stored := stored } }

def Step (b : ReviewBoard) (e : ReviewEvent) (b' : ReviewBoard) : Prop := b.next py cfg e = some b'

end Steps

variable {py : Python} {cfg : Settings} {b b' : ReviewBoard}

theorem step_fleet {e : FleetEvent} (h : Step py cfg b (.fleet e) b') : b.told e = true ∧
    Fleet.Step py cfg b.fleet e b'.fleet ∧ b'.github = b.github ∧
    b'.sessions = ended b.sessions e := by
  simp only [Step, next] at h
  split_ifs at h with htold
  obtain ⟨f, hf, rfl⟩ := Option.map_eq_some_iff.1 h
  exact ⟨htold, hf, rfl, rfl⟩

theorem step_posting {n : ℕ} {turn : GitHubTurn} (h : Step py cfg b (.posting n turn) b') :
    ∃ q resume, b.session n = some (.ask q resume) ∧ b'.fleet = b.fleet ∧
      b'.github = (pagedGithub b.github q turn).2 ∧
      b'.sessions = Function.update b.sessions n
        (some (resume (pagedGithub b.github q turn).1)) := by
  simp only [Step, next] at h
  split at h
  · rename_i q resume hsession
    cases h
    exact ⟨q, resume, hsession, rfl, rfl, rfl⟩
  · cases h

/-- What the task is told is how the session ended. -/
theorem told_postReview {n : ℕ} {reply : Reply} {committed : Bool} {now : Timestamp}
    {repo commitId token body : String} {pullNumber : ℤ} {comments : List PostedComment}
    (h : b.told (.answered n reply committed now) = true)
    (hn : b.fleet.request n = some (.postReview repo pullNumber commitId comments token body)) :
    ∃ l, b.session n =
      some (.done (reply (.postReview repo pullNumber commitId comments token body), l)) := by
  simp only [told, hn] at h
  split at h
  · rename_i l hsession hreply
    exact ⟨l, by rw [hsession, hreply]⟩
  · rename_i e l e' hsession hreply
    obtain rfl := of_decide_eq_true h
    exact ⟨l, by rw [hsession, hreply]⟩
  · cases h

/-- What was sent stays sent. -/
theorem sent_step {e : ReviewEvent} (h : Step py cfg b e b') :
    b.github.sent ⊆ b'.github.sent := by
  cases e with
  | fleet e =>
    obtain ⟨-, -, hgithub, -⟩ := step_fleet h
    rw [hgithub]
    exact List.Subset.refl _
  | posting n turn =>
    obtain ⟨q, resume, -, -, hgithub, -⟩ := step_posting h
    rw [hgithub]
    exact sent_pagedGithub b.github q turn
  | edited stored =>
    cases h
    exact List.Subset.refl _

theorem exists_run (py : Python) (cfg : Settings) (b : ReviewBoard) (es : List ReviewEvent)
    (p : ReviewBoard → Bool) (h : (replay (next py cfg) b es).any p = true) :
    ∃ b', Run (Step py cfg) b es b' ∧ p b' = true := exists_run_of_replay (next py cfg) h

end ReviewBoard

end Revix
