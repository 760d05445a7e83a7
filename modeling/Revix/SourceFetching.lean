import Revix.EffectSessions
import Revix.ExceptionHandlers
import Revix.ReviewChunks
import Revix.StableSorting
import Revix.WorkerFleet

/-! `fetch_pull_files` lists the files of a pull request and attaches the source of the changed
ones. A budget bounds the requests. -/
namespace Revix
open EffectPrograms EffectSessions LabelledRuns

structure ContentsResponse where
  statusCode : ℕ
  content : ByteArray

inductive SourceCall
  /-- The list of files, once its status has been checked and its JSON decoded. -/
  | listFiles (repo : String) (pullNumber : ℤ) (token : String)
  /-- `GET /repos/{repo}/contents/{path}` at `ref` -/
  | contents (repo path ref token : String)

abbrev SourceCall.Answer : SourceCall → Type
  | .listFiles _ _ _ => List PullFile
  | .contents _ _ _ _ => ContentsResponse

abbrev SourceScript (α : Type) : Type :=
  EffectPrograms.Script SourceCall SourceCall.Answer Raised Unit α

def maxSourceFetchBytes : ℕ := 400000

def maxSourceFetches : ℕ := 20

/-- The source in a response, or `None` if it is of no use. -/
def ContentsResponse.source (resp : ContentsResponse) : Option String :=
  if resp.statusCode ≠ 200 then none
  else if maxSourceFetchBytes < resp.content.size then none
  else String.fromUTF8? resp.content

def fetchFileContent (repo path ref token : String) : SourceScript (Option String) := do
  let resp ← Script.request (SourceCall.contents repo path ref token)
  return ContentsResponse.source resp

namespace PullFile

/-- `f.get("status") == "removed" or not f.get("patch")` -/
def unpatched (f : PullFile) : Bool :=
  (match Dict.get f.fields "status" with
    | some (.str s) => s = "removed"
    | _ => false) || (f.patch.filter (· ≠ "")).isNone

/-- `int(f.get("changes", 0))` -/
def changes (py : Python) (f : PullFile) : Except String ℤ :=
  py.int ((Dict.get f.fields "changes").getD (.int 0))

/-- `f["content"] = content` -/
def withContent (f : PullFile) (content : Option String) : PullFile :=
  match content with
  | none => f
  | some content => { f with content := some content }

end PullFile

section Fetching

variable (py : Python) (repo headSha token : String)

/-- The `try` of one file. A file without a name raises in it. -/
def fetchSource (f : PullFile) : SourceScript (Option String) :=
  tryExcept
    (match f.filename with
      | none => Script.throw (.exception ⟨"'filename'", none⟩)
      | some filename => fetchFileContent repo filename headSha token)
    fun _ => Script.pure none

/-- `_attach_source`, with the files as they are afterwards. -/
def attachSource : ℕ → List PullFile → SourceScript (List PullFile)
  | 0, files => Script.pure files
  | _, [] => Script.pure []
  | budget + 1, f :: files =>
    if f.unpatched then do
      let rest ← attachSource (budget + 1) files
      return f :: rest
    else
      match f.changes py with
      | .error text => Script.throw (.exception ⟨text, none⟩)
      | .ok changes =>
        if changes = 0 then do
          let rest ← attachSource (budget + 1) files
          return f :: rest
        else do
          let content ← fetchSource repo headSha token f
          let rest ← attachSource budget files
          return f.withContent content :: rest

def fetchPullFiles (pullNumber : ℤ) : SourceScript (List PullFile) := do
  let files ← Script.request (SourceCall.listFiles repo pullNumber token)
  if headSha = "" then Script.pure files
  else attachSource py repo headSha token maxSourceFetches files

end Fetching

/-- The source is fetched while the budget lasts. -/
def PullFile.eligible (py : Python) (f : PullFile) : Bool :=
  !f.unpatched && (f.changes py).toOption.any (· ≠ 0)

/-- Each of the first `budget` eligible files has what `Got` says of it attached, and every other
file is as it was. -/
def AttachedTo (py : Python) (Got : PullFile → Option String → Prop) (budget : ℕ)
    (files files' : List PullFile) : Prop :=
  files'.length = files.length ∧ ∀ i f, files[i]? = some f →
    if f.eligible py = true ∧ (files.take i).countP (PullFile.eligible py) < budget then
      ∃ content, Got f content ∧ files'[i]? = some (f.withContent content)
    else files'[i]? = some f

section Attached

variable {py : Python} {Got : PullFile → Option String → Prop} {budget : ℕ} {f : PullFile}
  {files files' : List PullFile}

theorem AttachedTo.skip (h : AttachedTo py Got budget files files') (hf : f.eligible py = false) :
    AttachedTo py Got budget (f :: files) (f :: files') := by
  refine ⟨congrArg (· + 1) h.1, fun i g hg => ?_⟩
  cases i with
  | zero =>
    cases hg
    rw [if_neg fun h => Bool.noConfusion (hf.symm.trans h.1)]
    rfl
  | succ i =>
    simp only [List.take_succ_cons, List.getElem?_cons_succ,
      List.countP_cons_of_neg (Bool.eq_false_iff.1 hf)]
    exact h.2 i g hg

end Attached

section Fetching

variable {py : Python} {repo headSha token : String} {Got : PullFile → Option String → Prop}
  {fits : List SourceCall → SourceCall → SourceReply → Prop}

def sourceCall (repo headSha token : String) (f : PullFile) : Option SourceCall :=
  f.filename.map fun filename => .contents repo filename headSha token

def sourceCalls (py : Python) (repo headSha token : String) (budget : ℕ) (files : List PullFile) :
    List SourceCall :=
  ((files.filter (PullFile.eligible py)).take budget).filterMap (sourceCall repo headSha token)

/-- How the attaching of sources ends: the requests are the first of those that are due, and all of
them when nothing is raised. -/
structure Attaching (py : Python) (repo headSha token : String)
    (Got : PullFile → Option String → Prop) (budget : ℕ) (files : List PullFile)
    (calls calls' : List SourceCall) (r : Except Raised (List PullFile)) : Prop where
  sent : ∃ sent, calls' = calls ++ sent ∧ sent <+: sourceCalls py repo headSha token budget files
  returned : ∀ files', r = .ok files' →
    calls' = calls ++ sourceCalls py repo headSha token budget files ∧
      AttachedTo py Got budget files files'
  raised : ∀ e, r = .error e → e = .cancelled ∨ ∃ f ∈ files, ∃ text, f.changes py = .error text

theorem sourceCalls_skip {budget : ℕ} {f : PullFile} {files : List PullFile}
    (hf : f.eligible py = false) :
    sourceCalls py repo headSha token budget (f :: files) =
      sourceCalls py repo headSha token budget files := by
  rw [sourceCalls, List.filter_cons_of_neg (Bool.eq_false_iff.1 hf), sourceCalls]

/-- A file that needs no source is passed over. -/
theorem Attaching.skip {budget : ℕ} {f : PullFile} {files : List PullFile}
    (hf : f.eligible py = false) {calls calls' : List SourceCall}
    {r : Except Raised (List PullFile)}
    (h : Attaching py repo headSha token Got budget files calls calls' r) :
    Attaching py repo headSha token Got budget (f :: files) calls calls' (r.map (f :: ·)) where
  sent := by
    rw [sourceCalls_skip hf]
    exact h.sent
  returned files' hr := by
    cases r with
    | error e => cases hr
    | ok rest =>
      cases hr
      obtain ⟨hcalls, hattached⟩ := h.returned rest rfl
      rw [sourceCalls_skip hf]
      exact ⟨hcalls, hattached.skip hf⟩
  raised e hr := by
    cases r with
    | error e' =>
      cases hr
      exact (h.raised e rfl).imp id fun ⟨g, hg, hchanges⟩ => ⟨g, .tail _ hg, hchanges⟩
    | ok rest => cases hr

/-- Nothing more is attached. -/
theorem Attaching.stop {budget : ℕ} {files : List PullFile} (calls : List SourceCall)
    (hcalls : sourceCalls py repo headSha token budget files = [])
    (hattached : AttachedTo py Got budget files files) :
    Attaching py repo headSha token Got budget files calls calls (.ok files) where
  sent := ⟨[], (List.append_nil _).symm, List.nil_prefix⟩
  returned files' hr := by
    cases hr
    exact ⟨by rw [hcalls, List.append_nil], hattached⟩
  raised e hr := nomatch hr

end Fetching

namespace Sample

end Sample

end Revix
