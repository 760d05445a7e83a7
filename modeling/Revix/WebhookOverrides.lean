import Revix.ExceptionHandlers
import Revix.QueueReconciliation

/-! Besides `process_job`, two parts of the system complete check runs: the webhook, for an
override command, and `reconciliation_loop`, for the jobs it reclaims. -/
namespace Revix
open EffectPrograms EffectSessions

inductive CheckRunCall
  /-- `GitHubService()` -/
  | newGitHubService
  | getToken (installationId : Json)
  | fetchPullRequest (repo : String) (number : ℤ) (token : String)
  | getCheckRunId (repo : String) (prNumber : ℤ) (commitSha : String)
  | reconcileStaleJobs
  | updateCheckRun (update : CheckRunUpdate) (token : String)
  /-- `github.close()` -/
  | close

abbrev CheckRunCall.Answer : CheckRunCall → Type
  | .newGitHubService => Unit
  | .getToken _ => String
  | .fetchPullRequest _ _ _ => Dict
  | .getCheckRunId _ _ _ => Option ℤ
  | .reconcileStaleJobs => List ReconciledRow
  | .updateCheckRun _ _ => Unit
  | .close => Unit

abbrev CheckRunScript (α : Type) : Type :=
  EffectPrograms.Script CheckRunCall CheckRunCall.Answer Raised Unit α

def invoke (q : CheckRunCall) : CheckRunScript q.Answer := Script.request q

/-- What the webhook reads of an `issue_comment` event. -/
structure IssueComment where
  action : String
  /-- `payload["comment"]["body"].strip().lower()` -/
  body : String
  repo : String
  /-- `issue.get("pull_request") is not None` -/
  onPullRequest : Bool
  authorAssociation : Option String
  number : ℤ
  installationId : Json

namespace IssueComment

def isOverride (c : IssueComment) : Bool :=
  c.action = "created" && ["/revix-ignore", "/revix-approve", "/revix-ok"].contains c.body

def isAuthorized (c : IssueComment) : Bool :=
  c.onPullRequest && c.authorAssociation.any ["OWNER", "MEMBER", "COLLABORATOR"].contains

def overrideUpdate (c : IssueComment) (checkRunId : ℤ) : CheckRunUpdate where
  repo := c.repo
  checkRunId := checkRunId
  conclusion := .success
  output := [("title", "Manual Override: Approved"),
    ("summary", "Review status overridden by user comment: " ++ c.body),
    ("text", "The quality gate has been manually bypassed.")]

end IssueComment

/-- `pr["head"]["sha"]`; what is no text raises here or in the query. -/
def headSha (pr : Dict) : Option String :=
  match Dict.get pr "head" with
  | some (.obj head) =>
    match Dict.get head "sha" with
    | some (.str sha) => some sha
    | _ => none
  | _ => none

/-- The body of the override's `try`. -/
def performOverride (c : IssueComment) : CheckRunScript Unit := do
  let token ← invoke (.getToken c.installationId)
  let pr ← invoke (.fetchPullRequest c.repo c.number token)
  match headSha pr with
  | none => Script.throw (.exception ⟨"'head'", none⟩)
  | some sha => do
    let checkRunId ← invoke (.getCheckRunId c.repo c.number sha)
    match Option.filter (· ≠ 0) checkRunId with
    | none => Script.pure ()
    | some checkRunId => invoke (.updateCheckRun (c.overrideUpdate checkRunId) token)

/-- `github_webhook`, for an `issue_comment`. -/
def commentWebhook (c : IssueComment) : CheckRunScript Unit :=
  if c.isOverride && c.isAuthorized then do
    invoke .newGitHubService
    (tryExcept (performOverride c) fun _ => Script.pure ()).finallyDo (invoke .close)
  else Script.pure ()

/-- The body of the `for` loop of a reconciliation; its exceptions are logged. -/
def reportStalled (loads : String → Option Json) (row : ReconciledRow) : CheckRunScript Unit :=
  match stalledUpdate loads row with
  | none => Script.pure ()
  | some (instId, update) =>
    tryExcept (do
      let token ← invoke (.getToken instId)
      invoke (.updateCheckRun update token)) fun _ => Script.pure ()

/-- One turn of `reconciliation_loop`. -/
def reconciliation (loads : String → Option Json) : CheckRunScript Unit :=
  tryExcept (do
    let reconciled ← invoke .reconcileStaleJobs
    if List.isEmpty reconciled then Script.pure ()
    else do
      invoke .newGitHubService
      (Script.forEach (reportStalled loads) reconciled).finallyDo (invoke .close))
    fun _ => Script.pure ()

/-- Either marks a check run as a success, or one of the returned rows has it. -/
def reportMonitor : Monitor CheckRunCall (fun q => Except Raised q.Answer) (List ReconciledRow) where
  allows
    | rows, .updateCheckRun update _ => update.conclusion = .success ∨
      ∃ row ∈ rows, row.githubCheckRunId = some update.checkRunId
    | _, _ => True
  next
    | _, .reconcileStaleJobs, .ok rows => rows
    | rows, _, _ => rows

theorem stalledUpdate_checkRunId {loads : String → Option Json} {row : ReconciledRow}
    {instId : Json} {update : CheckRunUpdate} (h : stalledUpdate loads row = some (instId, update)) :
    row.githubCheckRunId = some update.checkRunId := by
  unfold stalledUpdate at h
  split at h
  · cases h
  · rename_i checkRunId hrow
    split at h
    · split at h
      · split at h
        · split at h
          · cases h
            exact hrow
          · cases h
        · cases h
      · cases h
    · cases h

section Reports

variable {loads : String → Option Json} {rows : List ReconciledRow}

/-- The calls the monitor does not notice. -/
def CheckRunCall.plain : CheckRunCall → Bool
  | .reconcileStaleJobs => false
  | .updateCheckRun _ _ => false
  | _ => true

theorem quiet_invoke {q : CheckRunCall} (h : q.plain = true) :
    (invoke q).Quiet reportMonitor rows := by
  cases q with
  | reconcileStaleJobs => cases h
  | updateCheckRun => cases h
  | _ => exact Script.quiet_request trivial fun _ => rfl

theorem quiet_logged {x : CheckRunScript Unit} (hx : x.Quiet reportMonitor rows) :
    (tryExcept x fun _ => Script.pure ()).Quiet reportMonitor rows :=
  quiet_tryExcept hx fun _ => Script.quiet_pure _

theorem quiet_performOverride (c : IssueComment) :
    (performOverride c).Quiet reportMonitor rows := by
  unfold performOverride
  refine (quiet_invoke rfl).bind fun token => ?_
  refine (quiet_invoke rfl).bind fun pr => ?_
  split
  · exact Script.quiet_throw _
  · refine (quiet_invoke rfl).bind fun checkRunId => ?_
    split
    · exact Script.quiet_pure _
    · exact Script.quiet_request (.inl rfl) fun _ => rfl

theorem quiet_commentWebhook (c : IssueComment) :
    (commentWebhook c).Quiet reportMonitor rows := by
  unfold commentWebhook
  split
  · refine (quiet_invoke rfl).bind fun _ => ?_
    exact (quiet_logged (quiet_performOverride c)).finallyDo (quiet_invoke rfl)
  · exact Script.quiet_pure _

theorem quiet_reportStalled {row : ReconciledRow} (h : row ∈ rows) :
    (reportStalled loads row).Quiet reportMonitor rows := by
  unfold reportStalled
  split
  · exact Script.quiet_pure _
  · rename_i instId update hupdate
    have hrow := stalledUpdate_checkRunId hupdate
    refine quiet_logged ((quiet_invoke rfl).bind fun token => ?_)
    exact Script.quiet_request (.inr ⟨row, h, hrow⟩) fun _ => rfl

theorem quiet_forEach_reportStalled (reports : List ReconciledRow) (h : reports ⊆ rows) :
    (Script.forEach (reportStalled loads) reports).Quiet reportMonitor rows := by
  induction reports with
  | nil => exact Script.quiet_pure _
  | cons row reports ih =>
    have hrow : row ∈ rows := h List.mem_cons_self
    have hreports : reports ⊆ rows := fun row' h' => h (List.mem_cons_of_mem _ h')
    exact (quiet_reportStalled hrow).bind fun _ => ih hreports

theorem reconciliation_obeys :
    (reconciliation loads).Obeys reportMonitor (fun _ _ _ => True) rows () := by
  unfold reconciliation
  refine Script.obeys_tryCatch.2 (Script.obeys_bind.2 (Script.obeys_request.2
    ⟨trivial, fun r => ?_⟩))
  cases r with
  | error e => cases e <;> trivial
  | ok reconciled =>
    dsimp only
    split
    · trivial
    · have hreports : (invoke .newGitHubService >>= fun _ =>
          (Script.forEach (reportStalled loads) reconciled).finallyDo (invoke .close)).Quiet
            reportMonitor reconciled := by
        refine (quiet_invoke rfl).bind fun _ => ?_
        exact (quiet_forEach_reportStalled reconciled (List.Subset.refl _)).finallyDo
          (quiet_invoke rfl)
      apply hreports.obeys
      intro _ r
      cases r with
      | ok _ => trivial
      | error e => cases e <;> trivial

end Reports

end Revix
