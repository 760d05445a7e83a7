import Revix.ExceptionHandlers

/-! `post_review` looks for its signature among the reviews that are there, sends the summary, and
then each comment as a review of its own. -/
namespace Revix
open EffectPrograms EffectSessions LabelledRuns

/-- The JSON that `_send_review_payload` posts, its event being always `COMMENT`. -/
structure ReviewPayload where
  commitId : String
  body : Option String
  comments : List Dict

structure StoredReview where
  repo : String
  pullNumber : ℤ
  payload : ReviewPayload

inductive ReviewCall
  /-- `client.get(url)` -/
  | getReviews (repo : String) (pullNumber : ℤ) (token : String)
  /-- `client.post(url)` -/
  | sendReview (repo : String) (pullNumber : ℤ) (token : String) (payload : ReviewPayload)

abbrev ReviewCall.Answer : ReviewCall → Type
  | .getReviews _ _ _ => List StoredReview
  | .sendReview _ _ _ _ => Unit

abbrev ReviewScript (α : Type) : Type := EffectPrograms.Script ReviewCall ReviewCall.Answer Raised Unit α

def maxPayloadSize : ℕ := 60000

def maxCommentBodySize : ℕ := 8000

/-- What `_truncate` puts in place of what it cuts off. -/
def truncationMarker : String := "\n\n[Revix truncated this message to fit GitHub API limits.]"

def truncate (value : String) (limit : ℕ) : String :=
  if value.length ≤ limit then value
  else String.ofList (value.toList.take (limit - truncationMarker.length)) ++ truncationMarker

/-- `isinstance(line, int) and line >= 1`; a `bool` is an `int`. -/
def validLine : Json → Bool
  | .int n => 1 ≤ n
  | .bool b => b
  | _ => false

def formatReviewComment (comment : Dict) : Option Dict :=
  match Dict.get comment "path", Dict.get comment "line", Dict.get comment "body" with
  | some (.str path), some line, some (.str body) =>
    if strip path = "" || !validLine line || strip body = "" then none
    else
      let side := match Dict.get comment "side" with
        | some (.str "LEFT") => "LEFT"
        | _ => "RIGHT"
      some [("path", .str path), ("line", line), ("side", .str side),
        ("body", .str (truncate body maxCommentBodySize))]
  | _, _, _ => none

/-- The comment that tells which commit a review is for. -/
def reviewSignature (commitId : String) : String := "<!-- revix: " ++ commitId ++ " -->"

def signedWith (signature body : String) : Bool := occursIn signature.toList body.toList

/-- The summary with the signature, before it is cut to size. -/
def signBody (signature body : String) : String :=
  if signedWith signature body then body else body ++ "\n\n" ++ signature

/-- `r.get("body") and signature in r["body"]` -/
def StoredReview.bears (signature : String) (r : StoredReview) : Bool :=
  r.payload.body.any fun body => body ≠ "" && signedWith signature body

/-- `_send_review_payload`; an empty body is left out. -/
def sendReviewPayload (repo : String) (pullNumber : ℤ) (token commitId body : String)
    (comments : List Dict) : ReviewScript Unit :=
  Script.request (ReviewCall.sendReview repo pullNumber token
    { commitId := commitId
      body := if body = "" then none else some body
      comments := comments })

/-- The reviews of one call: the summary goes first, and then each comment on its own. -/
def sendReviews (repo : String) (pullNumber : ℤ) (commitId : String) (comments : List Dict)
    (token body : String) : ReviewScript Unit := do
  sendReviewPayload repo pullNumber token commitId body []
  Script.forEach (fun comment =>
      tryExcept (sendReviewPayload repo pullNumber token commitId "" [comment])
        fun _ => Script.pure ())
    (comments.filterMap formatReviewComment)

def postReview (repo : String) (pullNumber : ℤ) (commitId : String) (comments : List Dict)
    (token body : String) : ReviewScript Unit := do
  let signature := reviewSignature commitId
  let body := truncate (signBody signature body) maxPayloadSize
  let posted ← tryExcept (do
      let reviews ← Script.request (ReviewCall.getReviews repo pullNumber token)
      return reviews.any (StoredReview.bears signature))
    fun _ => Script.pure false
  if posted then Script.pure ()
  else sendReviews repo pullNumber commitId comments token body

inductive Delivery
  | accepted
  /-- GitHub stores the review, and the caller does not hear of it. -/
  | lost (e : Raised)
  | refused (e : Raised)

def Delivery.stores : Delivery → Bool
  | .accepted => true
  | .lost _ => true
  | .refused _ => false

structure GitHub where
  /-- The reviews that GitHub has. -/
  stored : List StoredReview
  /-- Every review that was sent, accepted or not. -/
  sent : List StoredReview

/-- GitHub stores what it accepts as it is, and returns all the reviews of a pull request. -/
def github : Server ReviewCall (fun q => Except Raised q.Answer) GitHub Delivery
  | g, .getReviews repo pullNumber _, _ =>
    (.ok (g.stored.filter fun r => r.repo = repo && r.pullNumber = pullNumber), g)
  | g, .sendReview repo pullNumber _ payload, d =>
    let review := ⟨repo, pullNumber, payload⟩
    let stored := if d.stores then g.stored ++ [review] else g.stored
    (match d with
      | .accepted => .ok ()
      | .lost e => .error e
      | .refused e => .error e,
      ⟨stored, g.sent ++ [review]⟩)

end Revix
