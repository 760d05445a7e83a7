import Revix.QueueSchema

namespace Revix

/-- Python's `bool(v)` of a decoded value. -/
def Json.truthy : Json → Bool
  | .null => false
  | .bool b => b
  | .int n => n ≠ 0
  | .float text => text ≠ "0.0" && text ≠ "-0.0"
  | .str s => s ≠ ""
  | .arr xs => !xs.isEmpty
  | .obj fields => !fields.isEmpty

inductive Severity
  | info
  | warning
  | critical
  deriving DecidableEq, Repr

def Severity.text : Severity → String
  | .info => "INFO"
  | .warning => "WARNING"
  | .critical => "CRITICAL"

inductive Side
  | left
  | right
  deriving DecidableEq, Repr

def Side.text : Side → String
  | .left => "LEFT"
  | .right => "RIGHT"

structure ReviewComment where
  path : String
  line : ℤ
  side : Side := .right
  body : String
  severity : Severity := .info
  suggestedFix : Option String := none
  agentId : Option String := none
  path_ne : path ≠ ""
  line_pos : 1 ≤ line

structure ReviewResult where
  summary : String
  score : ℤ
  comments : List ReviewComment := []
  agentReports : Dict := []
  score_nonneg : 0 ≤ score
  score_le : score ≤ 100

theorem ReviewResult.full_nonneg : (0 : ℤ) ≤ 100 := by decide

theorem ReviewResult.full_le : (100 : ℤ) ≤ 100 := Int.le_refl 100

def textOrNull : Option String → Json
  | none => .null
  | some s => .str s

def ReviewComment.modelDump (c : ReviewComment) : Json := .obj
  [("path", .str c.path), ("line", .int c.line), ("side", .str c.side.text),
    ("body", .str c.body), ("severity", .str c.severity.text),
    ("suggested_fix", textOrNull c.suggestedFix), ("agent_id", textOrNull c.agentId)]

def ReviewResult.modelDump (r : ReviewResult) : Dict :=
  [("summary", .str r.summary), ("score", .int r.score),
    ("comments", .arr (r.comments.map ReviewComment.modelDump)),
    ("agent_reports", .obj r.agentReports)]

/-- A record of `fetch_pull_files`. -/
structure PullFile where
  filename : Option String
  content : Option String
  /-- What GitHub sends besides. -/
  fields : Dict

inductive Conclusion
  | success
  | failure
  | actionRequired
  deriving DecidableEq, Repr

/-- The arguments of `update_check_run` apart from the token. -/
structure CheckRunUpdate where
  repo : String
  checkRunId : ℤ
  conclusion : Conclusion
  output : List (String × String)
  deriving DecidableEq, Repr

end Revix
