import Revix.ReviewData
import Mathlib.Data.List.Sort

namespace Revix

/-- `needle in haystack`, by characters. -/
def occursIn (needle : List Char) : List Char → Bool
  | [] => needle.isEmpty
  | c :: cs => needle.isPrefixOf (c :: cs) || occursIn needle cs

theorem occursIn_iff {needle haystack : List Char} :
    occursIn needle haystack = true ↔ needle <:+: haystack := by
  induction haystack with
  | nil => simp [occursIn]
  | cons c cs ih =>
    rw [occursIn, Bool.or_eq_true, ih, List.isPrefixOf_iff_prefix, List.infix_cons_iff]

/-- `sep.join(texts)` -/
def joinTexts (sep : String) : List String → String
  | [] => ""
  | [text] => text
  | text :: texts => text ++ sep ++ joinTexts sep texts

/-- `str.isspace` of one character. -/
def isSpace (c : Char) : Bool :=
  let n := c.toNat
  (9 ≤ n && n ≤ 13) || (28 ≤ n && n ≤ 32) || n = 0x85 || n = 0xa0 || n = 0x1680 ||
    (0x2000 ≤ n && n ≤ 0x200a) || n = 0x2028 || n = 0x2029 || n = 0x202f || n = 0x205f || n = 0x3000

def stripChars (s : List Char) : List Char :=
  ((s.dropWhile isSpace).reverse.dropWhile isSpace).reverse

def strip (s : String) : String := String.ofList (stripChars s.toList)

/-- `s.replace(old, new)` for a nonempty `old`: the first `skip` characters are the rest of an
occurrence that has been replaced. -/
def replaceChars (old new : List Char) : ℕ → List Char → List Char
  | _, [] => []
  | skip + 1, _ :: cs => replaceChars old new skip cs
  | 0, c :: cs =>
    if old.isPrefixOf (c :: cs) then new ++ replaceChars old new (old.length - 1) cs
    else c :: replaceChars old new 0 cs

def replace (old new s : String) : String :=
  String.ofList (replaceChars old.toList new.toList 0 s.toList)

/-- `if s.startswith(p): s = s[len(p):].strip()` -/
def dropLabel (p s : String) : String :=
  if p.toList.isPrefixOf s.toList then strip (String.ofList (s.toList.drop p.toList.length)) else s

def Severity.rank : Severity → ℕ
  | .info => 0
  | .warning => 1
  | .critical => 2

/-- `SEVERITY_RANK.get(name, 1)` -/
def severityRank (name : String) : ℕ :=
  if name = "INFO" then 0 else if name = "CRITICAL" then 2 else 1

/-- The suggested fix when it is true and not only white space. -/
def ReviewComment.fix (c : ReviewComment) : Option String :=
  (c.suggestedFix.map strip).filter (· ≠ "")

/-- The sort of `_select_inline_comments`: by severity, then with a fix, then the shorter body.
Descending, the key of `a` is at least that of `b`. -/
def ReviewComment.ranks (a b : ReviewComment) : Bool :=
  b.severity.rank < a.severity.rank || (a.severity = b.severity &&
    ((a.fix.isSome && !b.fix.isSome) ||
      (a.fix.isSome = b.fix.isSome && a.body.length ≤ b.body.length)))

/-- Within five lines of each other in one file. -/
def ReviewComment.close (s c : ReviewComment) : Bool :=
  s.path = c.path && (s.line - c.line).natAbs ≤ 5

/-- The loop of `_select_inline_comments`, which looks at the limit after each candidate. -/
def selectSpaced (limit : ℤ) (selected : List ReviewComment) :
    List ReviewComment → List ReviewComment
  | [] => selected
  | c :: cs =>
    let selected := if selected.any fun s => s.close c then selected else selected ++ [c]
    if limit ≤ selected.length then selected else selectSpaced limit selected cs

/-- `_select_inline_comments`; the descending sort keeps the order of equal keys. -/
def selectInlineComments (cfg : Settings) (comments : List ReviewComment) : List ReviewComment :=
  let candidates := comments.filter fun c =>
    severityRank cfg.reviewMinInlineSeverity ≤ c.severity.rank
  selectSpaced cfg.reviewMaxInlineComments []
    (candidates.insertionSort fun a b => a.ranks b)

def Severity.badge : Severity → String
  | .critical => "_🚨 Critical Issue_"
  | .warning => "_⚠️ Potential Issue_"
  | .info => "_💡 Suggestion_"

def formatInlineComment (c : ReviewComment) : String :=
  let bodyText := ["CRITICAL:", "WARNING:", "INFO:", "[CRITICAL]", "[WARNING]", "[INFO]"].foldl
    (fun s p => dropLabel p s) (strip c.body)
  let suggestion := match c.fix with
    | none => []
    | some fix => ["\n```suggestion\n" ++
        strip (replace "```" "" (replace "```\n" "" (replace "```cpp\n" "" fix))) ++ "\n```"]
  "\n".intercalate ([c.severity.badge ++ "\n\n" ++ bodyText] ++ suggestion ++
    ["\n\n<sub>Reviewed by **Revix Swarm** (" ++ c.agentId.getD "None" ++ ")</sub>"])

def countSeverity (severity : Severity) (comments : List ReviewComment) : ℕ :=
  comments.countP fun c => c.severity = severity

def walkthroughRow (comments : List ReviewComment) (f : PullFile) : String :=
  let path := f.filename.getD "unknown"
  let fileComments := comments.filter fun c => c.path = path
  let critical := countSeverity .critical fileComments
  let warnings := countSeverity .warning fileComments
  let risk :=
    if 0 < critical then "🚨 High (" ++ toString critical ++ " critical)"
    else if 0 < warnings then "⚠️ Medium (" ++ toString warnings ++ " warning)"
    else "🟢 Low"
  let summary :=
    if fileComments.isEmpty then "No issues flagged"
    else toString fileComments.length ++ " issue(s) identified"
  "| `" ++ path ++ "` | " ++ summary ++ " | " ++ risk ++ " |\n"

/-- The paths with findings, in the order of their first finding. -/
def findingPaths (comments : List ReviewComment) : List String :=
  (comments.foldl (fun ps c => if ps.contains c.path then ps else ps ++ [c.path]) [])

/-- One row of the walkthrough when the files are not known. -/
def findingsRow (comments : List ReviewComment) (path : String) : String :=
  let fileComments := comments.filter fun c => c.path = path
  let critical := countSeverity .critical fileComments
  let risk := if 0 < critical then "🚨 High (" ++ toString critical ++ " critical)" else "⚠️ Medium"
  "| `" ++ path ++ "` | " ++ toString fileComments.length ++ " issue(s) identified | " ++ risk ++
    " |\n"

def Severity.icon : Severity → String
  | .critical => "🚨"
  | .warning => "⚠️"
  | .info => "ℹ️"

def detailRow (c : ReviewComment) : String :=
  let desc := String.ofList ((replace "\n" " " c.body).toList.take 140)
  "| " ++ c.severity.icon ++ " **" ++ c.severity.text ++ "** | `" ++ c.path ++ ":" ++
    toString c.line ++ "` | " ++ desc ++ "... |\n"

def formatReviewBody (result : ReviewResult) (inlineComments : List ReviewComment)
    (prFiles : List PullFile) : String :=
  let statusIcon := if result.score < 80 then "❌" else "✅"
  let decision := if result.score < 80 then "Changes Requested" else "Approved"
  let rows :=
    if prFiles.isEmpty then (findingPaths result.comments).map (findingsRow result.comments)
    else prFiles.map (walkthroughRow result.comments)
  "## 🔍 Revix Review Summary\n\n" ++
  "| Metric | Assessment |\n" ++
  "| :--- | :--- |\n" ++
  "| **Quality Score** | `" ++ toString result.score ++ " / 100` |\n" ++
  "| **Review Decision** | " ++ statusIcon ++ " **" ++ decision ++ "** |\n" ++
  "| **Actionable Comments** | " ++ toString inlineComments.length ++
    " critical item(s) inline |\n" ++
  "| **Files Analyzed** | " ++ toString prFiles.length ++ " file(s) |\n\n" ++
  "### 📝 High-Level Overview\n\n" ++
  result.summary ++ "\n\n" ++
  "---\n\n" ++
  "### 📦 Changes Walkthrough\n\n" ++
  "| File | Findings | Risk Assessment |\n" ++
  "| :--- | :--- | :--- |\n" ++
  String.join rows ++
  "\n---\n\n" ++
  "<details>\n" ++
  "<summary>📋 <b>All Findings & Architecture Details (" ++ toString result.comments.length ++
    ")</b></summary>\n\n" ++
  "| Severity | Location | Summary |\n" ++
  "| :--- | :--- | :--- |\n" ++
  String.join (result.comments.map detailRow) ++
  "\n</details>\n\n" ++
  "<details>\n" ++
  "<summary>💡 <b>Revix Concurrency & Architecture Insight</b></summary>\n\n" ++
  "> In high-concurrency C++, `std::shared_lock` allows parallel reads only when operations are " ++
    "read-only. Mutating internal container pointers (such as `std::list::splice`) requires " ++
    "exclusive ownership (`std::unique_lock`) to prevent heap corruption.\n\n" ++
  "</details>\n"

end Revix
