import Revix.QueueSubjects
import Revix.ReviewSwarm
import Revix.WebhookOverrides

/-! `github_webhook`. GitHub's names are texts and its numbers and ids are integers; a payload
with anything else in their place is taken to raise. -/
namespace Revix
open EffectPrograms EffectSessions LabelledRuns

structure WebhookRequest where
  /-- `X-GitHub-Event`, which the framework requires. -/
  event : String
  /-- `X-Hub-Signature-256` -/
  signature : Option String
  body : List UInt8

structure WebhookLibraries where
  /-- `hmac.new(secret.encode(), body, hashlib.sha256).hexdigest()` -/
  hexdigest : String → List UInt8 → String
  /-- `json.loads(body)` -/
  loads : List UInt8 → Except String Json

inductive WebhookResponse
  /-- `{"msg": text}` -/
  | msg (text : String)
  | httpException (statusCode : ℕ) (detail : String)
  deriving DecidableEq, Repr

/-- What the webhook reads of a `pull_request` event. -/
structure PullRequestEvent where
  sha : String
  repo : String
  number : ℤ
  installationId : ℤ
  deriving DecidableEq, Repr

/-- How the three seconds for `enqueue_if_new` end. -/
inductive Ingestion
  | enqueued (new : Bool)
  | timeout

inductive WebhookCall
  | enqueueIfNew (event : PullRequestEvent) (traceContext : Dict)
  /-- A call of the override. -/
  | override (q : CheckRunCall)

abbrev WebhookCall.Answer : WebhookCall → Type
  | .enqueueIfNew _ _ => Ingestion
  | .override q => q.Answer

abbrev WebhookScript (α : Type) : Type :=
  EffectPrograms.Script WebhookCall WebhookCall.Answer Raised Unit α

/-! ## The signature -/

def isAscii (s : String) : Bool := s.toList.all fun c => c.toNat < 128

def compareDigest (a b : String) : Except String Bool :=
  if isAscii a && isAscii b then .ok (a = b)
  else .error "comparing strings with non-ASCII characters is not supported"

section Handler

variable (lib : WebhookLibraries) (secret : String)

/-- `verify_signature`: the `HTTPException` it raises, if it raises one. -/
def verifySignature (body : List UInt8) (signature : Option String) :
    Except String (Option WebhookResponse) :=
  match signature.filter (· ≠ "") with
  | none => .ok (some (.httpException 401 "Missing signature"))
  | some signature => do
    let same ← compareDigest ("sha256=" ++ lib.hexdigest secret body) signature
    return if same then none else some (.httpException 401 "Invalid signature")

/-! ## The payload -/

/-- `data.get(key)` of any decoded value. -/
def getKey (data : Json) (key : String) : Except String (Option Json) :=
  match data with
  | .obj fields => .ok (Dict.get fields key)
  | _ => .error "object has no attribute 'get'"

def asText : Json → Except String String
  | .str s => .ok s
  | _ => .error "not a text"

def asInt : Json → Except String ℤ
  | .int n => .ok n
  | _ => .error "not an integer"

def isText (v : Option Json) (s : String) : Bool :=
  match v with
  | some (.str t) => t = s
  | _ => false

def pullRequestEvent (payload : Json) : Except String (Option PullRequestEvent) := do
  let action ← getKey payload "action"
  if isText action "opened" || isText action "synchronize" then
    let pr ← subscript payload "pull_request"
    let sha ← asText (← subscript (← subscript pr "head") "sha")
    let repo ← asText (← subscript (← subscript payload "repository") "full_name")
    let num ← asInt (← subscript pr "number")
    let instId ← asInt (← subscript (← subscript payload "installation") "id")
    return some ⟨sha, repo, num, instId⟩
  else return none

/-- The override command, if the event is one by somebody who may give it. -/
def issueCommentEvent (payload : Json) : Except String (Option IssueComment) := do
  let action ← getKey payload "action"
  if isText action "created" then
    let comment ← subscript payload "comment"
    let text ← asText (← subscript comment "body")
    let body := String.ofList ((strip text).toList.map lowerChar)
    if ["/revix-ignore", "/revix-approve", "/revix-ok"].contains body then
      let repo ← asText (← subscript (← subscript payload "repository") "full_name")
      let issue ← subscript payload "issue"
      let pullRequest ← getKey issue "pull_request"
      let association ← getKey comment "author_association"
      let association := match association with
        | some (.str s) => some s
        | _ => none
      let onPullRequest := match pullRequest with
        | none => false
        | some .null => false
        | some _ => true
      if onPullRequest && association.any ["OWNER", "MEMBER", "COLLABORATOR"].contains then
        let num ← asInt (← subscript issue "number")
        let instId ← subscript (← subscript payload "installation") "id"
        return some ⟨"created", body, repo, onPullRequest, association, num, instId⟩
      else return none
    else return none
  else return none

/-! ## The handler -/

/-- An exception that nobody catches: the framework answers with status 500. -/
def uncaught {α : Type} (text : String) : WebhookScript α :=
  Script.throw (.exception ⟨text, none⟩)

/-- `github_webhook`, for a pull request. -/
def pullRequestWebhook (event : PullRequestEvent) (traceContext : Dict) :
    WebhookScript WebhookResponse := do
  match ← Script.request (WebhookCall.enqueueIfNew event traceContext) with
  | .enqueued true => Script.pure (.msg "accepted")
  | .enqueued false => Script.pure (.msg "already exists")
  | .timeout => Script.pure (.httpException 503 "Database busy, please retry")

/-- `github_webhook` of a request whose signature is right. -/
def payloadWebhook (event : String) (payload : Json) (traceContext : Dict) :
    WebhookScript WebhookResponse :=
  if event = "pull_request" then
    match pullRequestEvent payload with
    | .error text => uncaught text
    | .ok none => Script.pure (.msg "accepted")
    | .ok (some e) => pullRequestWebhook e traceContext
  else if event = "issue_comment" then
    match issueCommentEvent payload with
    | .error text => uncaught text
    | .ok none => Script.pure (.msg "accepted")
    | .ok (some c) => do
      Script.embed WebhookCall.override (commentWebhook c)
      Script.pure (.msg "accepted")
  else Script.pure (.msg "accepted")

def githubWebhook (request : WebhookRequest) (traceContext : Dict) :
    WebhookScript WebhookResponse :=
  match verifySignature lib secret request.body request.signature with
  | .error text => uncaught text
  | .ok (some response) => Script.pure response
  | .ok none =>
    match lib.loads request.body with
    | .error text => uncaught text
    | .ok payload => payloadWebhook request.event payload traceContext

end Handler

end Revix
