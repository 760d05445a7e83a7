import Revix.EffectPrograms
import Revix.ReviewRendering
import Revix.QueueTransactions

/-! `process_job` as a script of its calls to GitHub, the agents, the database and the clock.
Tracing, logging and the waiting for the cancelled heartbeat task leave no request. -/
namespace Revix
open EffectPrograms

/-- The response an exception carries, with the names of its headers in lower case. -/
structure Response where
  statusCode : Option ℤ
  headers : Option (List (String × String))
  deriving DecidableEq, Repr

/-- An `Exception` as the error handler sees it: `str(e)` and `e.response`. -/
structure PyError where
  text : String
  response : Option Response := none
  deriving DecidableEq, Repr

/-- `CancelledError` is not an `Exception`: no handler of the worker catches it. -/
inductive Raised
  | exception (e : PyError)
  | cancelled
  deriving DecidableEq, Repr

/-- The decoders of Python's library. On failure they raise an exception with the given text. -/
structure Python where
  /-- `json.loads(s)` -/
  loads : String → Except String Json
  /-- `int(v)` -/
  int : Json → Except String ℤ

structure PostedComment where
  path : String
  line : ℤ
  side : Side
  body : String
  deriving DecidableEq, Repr

inductive Request
  /-- `GitHubService()` -/
  | newGitHubService
  | getToken (installationId : ℤ)
  | createCheckRun (repo headSha token : String)
  | setCheckRunId (id : Uuid) (checkRunId : ℤ)
  | fetchDiff (repo : String) (pullNumber : ℤ) (token : String)
  | fetchPullFiles (repo : String) (pullNumber : ℤ) (token headSha : String)
  | fetchPullRequest (repo : String) (pullNumber : ℤ) (token : String)
  | indexFile (filename source : String)
  | persistRepoGraph (repo : String) (symbols references : List Dict)
  | analyzeDiff (diff repo : String) (prFiles : List PullFile) (prDetails : Dict)
  | postReview (repo : String) (pullNumber : ℤ) (commitId : String) (comments : List PostedComment)
      (token body : String)
  | updateCheckRun (update : CheckRunUpdate) (token : String)
  | finalizeJob (id : Uuid) (token : ℕ) (verdict : Verdict) (aiFeedback : Option Dict)
  | releaseJob (id : Uuid) (token : ℕ) (delaySeconds : ℤ)
  /-- `int(time.time())` -/
  | time
  /-- `github.close()` -/
  | close

abbrev Request.Answer : Request → Type
  | .newGitHubService => Unit
  | .getToken _ => String
  | .createCheckRun _ _ _ => ℤ
  | .setCheckRunId _ _ => Unit
  | .fetchDiff _ _ _ => String
  | .fetchPullFiles _ _ _ _ => List PullFile
  | .fetchPullRequest _ _ _ => Dict
  | .indexFile _ _ => List Dict × List Dict
  | .persistRepoGraph _ _ _ => Unit
  | .analyzeDiff _ _ _ _ => ReviewResult
  | .postReview _ _ _ _ _ _ => Unit
  | .updateCheckRun _ _ => Unit
  | .finalizeJob _ _ _ _ => Unit
  | .releaseJob _ _ _ => Unit
  | .time => ℤ
  | .close => Unit

/-- The local variables that the error handler of `process_job` reads. -/
structure Locals where
  token : Option String := none
  checkRunId : Option ℤ := none
  deriving DecidableEq, Repr

abbrev JobScript (α : Type) : Type := Script Request Request.Answer Raised Locals α

def ask (q : Request) : JobScript q.Answer := Script.request q

/-- `except Exception as e` -/
def exceptException {α : Type} (x : JobScript α) (handler : PyError → JobScript α) : JobScript α :=
  x.tryCatch fun
    | .exception e => handler e
    | .cancelled => Script.throw .cancelled

/-- `with contextlib.suppress(Exception)` -/
def suppress (x : JobScript Unit) : JobScript Unit := exceptException x fun _ => Script.pure ()

/-- `_is_rate_limit`. No letter outside ASCII has a lower case in `rate_limit`. -/
def isRateLimit (e : PyError) : Bool :=
  e.response.bind Response.statusCode = some 429 || occursIn "429".toList e.text.toList ||
    occursIn "rate_limit".toList (e.text.toList.map Char.toLower)

section Process

variable (py : Python) (cfg : Settings)

def retryDelayFor (e : PyError) (attemptCount : ℤ) : JobScript ℤ :=
  let delay := max 60 (60 * max attemptCount 1)
  let headers := (e.response.bind Response.headers).getD []
  -- an absent or empty header, or one that is no number, is passed over
  let retryAfter := (headers.lookup "retry-after").filter (· ≠ "")
  let rateLimitReset := (headers.lookup "x-ratelimit-reset").filter (· ≠ "")
  match retryAfter.bind fun s => (py.int (.str s)).toOption with
  | some seconds => Script.pure (max 0 seconds)
  | none =>
    match rateLimitReset.bind fun s => (py.int (.str s)).toOption with
    | some reset => do
      let now ← ask .time
      return max 0 (reset - now)
    | none => Script.pure delay

def parseJobPayload (payload : Json) : Except String Dict := do
  let payload ← match payload with
    | .str s => py.loads s
    | payload => .ok payload
  match payload with
  | .obj fields =>
    if (Dict.get fields "installation_id").isSome then .ok fields
    else .error "Job payload is missing installation_id"
  | _ => .error "Job payload must be a JSON object"

/-- `_parse_trace_context`; the context itself only names the parent of the trace. -/
def parseTraceContext (traceContext : Json) : Except String Dict := do
  let traceContext ← match traceContext with
    | .str s => py.loads s
    | traceContext => .ok traceContext
  match traceContext with
  | .obj fields => .ok fields
  | _ => .ok []

/-- The installation id of a claimed row, or the text of what its parsing raised. The other
columns have their types already. -/
def parseJob (job : Job) : Except String ℤ := do
  let payload ← parseJobPayload py job.payload
  let installationId ← py.int ((Dict.get payload "installation_id").getD .null)
  let _ ← parseTraceContext py job.otelContext
  return installationId

/-- The part of the inner `try` that creates the check run. -/
def createCheckRun (job : Job) (token : String) : JobScript Unit :=
  suppress do
    let checkRunId ← ask (.createCheckRun job.repoFullName job.commitSha token)
    Script.modify fun l => { l with checkRunId := some checkRunId }
    ask (.setCheckRunId job.id checkRunId)

def indexFile (file : PullFile) : JobScript (List Dict × List Dict) :=
  match file.content.filter (· ≠ "") with
  | none => Script.pure ([], [])
  | some source =>
    match file.filename with
    | some filename => ask (.indexFile filename source)
    | none => Script.throw (.exception ⟨"'filename'", none⟩)

def indexFiles (job : Job) (prFiles : List PullFile) : JobScript Unit := do
  let indexed ← Script.collect indexFile prFiles
  let symbols := indexed.flatMap Prod.fst
  let references := indexed.flatMap Prod.snd
  if symbols ≠ [] ∨ references ≠ [] then
    ask (.persistRepoGraph job.repoFullName symbols references)
  else Script.pure ()

/-- `check_run_id` when it is true. -/
def Locals.liveCheckRun (l : Locals) : Option ℤ := l.checkRunId.filter (· ≠ 0)

def completeCheckRun (job : Job) (result : ReviewResult) (token : String) : JobScript Unit := do
  let l ← Script.get
  match l.liveCheckRun with
  | none => Script.pure ()
  | some checkRunId =>
    ask (.updateCheckRun
      { repo := job.repoFullName
        checkRunId := checkRunId
        conclusion := if 80 ≤ result.score then .success else .failure
        output := [("title", "Revix Review: " ++ toString result.score ++ "/100"),
          ("summary", result.summary),
          ("text", "Found " ++ toString result.comments.length ++ " violations.")] } token)

/-- The body of the outer `try`: the review and its commit. -/
def review (job : Job) (installationId : ℤ) : JobScript Unit := do
  let token ← ask (.getToken installationId)
  Script.modify fun l => { l with token := some token }
  createCheckRun job token
  let diff ← ask (.fetchDiff job.repoFullName job.prNumber token)
  let prFiles ← ask
    (.fetchPullFiles job.repoFullName job.prNumber token job.commitSha)
  let prDetails ← ask (.fetchPullRequest job.repoFullName job.prNumber token)
  indexFiles job prFiles
  let result ← ask (.analyzeDiff diff job.repoFullName prFiles prDetails)
  let inlineComments := selectInlineComments cfg result.comments
  ask (.postReview job.repoFullName job.prNumber job.commitSha
    (inlineComments.map fun c => ⟨c.path, c.line, c.side, formatInlineComment c⟩)
    token (formatReviewBody result inlineComments prFiles))
  completeCheckRun job result token
  ask (.finalizeJob job.id job.fenceToken .success (some result.modelDump))

def failCheckRun (job : Job) (e : PyError) : JobScript Unit := do
  let l ← Script.get
  match l.liveCheckRun, l.token.filter (· ≠ "") with
  | some checkRunId, some token =>
    suppress (ask (.updateCheckRun
      { repo := job.repoFullName
        checkRunId := checkRunId
        conclusion := .failure
        output := [("title", "Review Failed"), ("summary", "System Error: " ++ e.text)] } token))
  | _, _ => Script.pure ()

/-- The handler of the outer `try`. -/
def handleError (job : Job) (e : PyError) : JobScript Unit := do
  let delay ← retryDelayFor py e job.attemptCount
  if isRateLimit e then
    ask (.releaseJob job.id job.fenceToken delay)
  else
    failCheckRun job e
    suppress (ask
      (.finalizeJob job.id job.fenceToken .failure (some [("error", .str e.text)])))

def processJob (job : Job) : JobScript Unit :=
  match parseJob py job with
  | .error text =>
    suppress (ask (.finalizeJob job.id job.fenceToken .failure
      (some [("error", .str ("Invalid job payload: " ++ text))])))
  | .ok installationId => do
    ask .newGitHubService
    (exceptException (review cfg job installationId) (handleError py job)).finallyDo
      (ask .close)

end Process

end Revix
