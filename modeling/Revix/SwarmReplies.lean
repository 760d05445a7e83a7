import Revix.ReviewChunks
import Revix.WorkerProcess

namespace Revix

/-- The text before the first occurrence of `needle`, and the text after it. -/
def splitOnce (needle : List Char) : List Char → Option (List Char × List Char)
  | [] => if needle.isEmpty then some ([], []) else none
  | c :: cs =>
    if needle.isPrefixOf (c :: cs) then some ([], (c :: cs).drop needle.length)
    else (splitOnce needle cs).map fun (before, after) => (c :: before, after)

/-- The text up to the last occurrence of a character, which it ends with. -/
def upToLast (c : Char) (cs : List Char) : Option (List Char) :=
  if c ∈ cs then some (cs.reverse.dropWhile (· ≠ c)).reverse else none

/-- The match of the pattern for an array or an object: from the first bracket that is closed
later to the last bracket that closes it. -/
def bracketed : List Char → Option (List Char)
  | [] => none
  | c :: cs =>
    let close := if c = '[' then some ']' else if c = '\x7b' then some '\x7d' else none
    match close.bind fun d => upToLast d cs with
    | some rest => some (c :: rest)
    | none => bracketed cs

/-- The part of a reply that `extract_json_payload` decodes: the first fenced block of JSON, or
the outermost brackets once the fences are gone. -/
def jsonText (content : String) : String :=
  let content := strip content
  match (splitOnce "```json".toList content.toList).bind fun p => splitOnce "```".toList p.2 with
  | some (block, _) => String.ofList (stripChars block)
  | none =>
    let content := replace "```" "" content
    ((bracketed content.toList).map String.ofList).getD content

def extractJsonPayload (py : Python) (content : String) : Except String Json :=
  py.loads (jsonText content)

def parseToolArguments (py : Python) : Json → Except String Dict
  | .obj fields => .ok fields
  | .str s => do
    match ← py.loads s with
    | .obj fields => .ok fields
    | _ => .error "Tool arguments must be a JSON object"
  | _ => .error "Tool arguments must be a JSON object"

/-- `d[key]` -/
def getItem (d : Dict) (key : String) : Except String Json :=
  match Dict.get d key with
  | some v => .ok v
  | none => .error ("'" ++ key ++ "'")

def validAgentIds : List String :=
  ["ReviewAgent", "SecurityAgent", "PerformanceAgent", "PlanningAgent", "VerificationAgent"]

def namedAgents : Json → List String
  | .obj fields => match Dict.get fields "agents" with
    | some (.arr agents) => agents.filterMap agentName
    | _ => ["ReviewAgent"]
  | .arr agents => agents.filterMap agentName
  | _ => ["ReviewAgent"]
where
  /-- A string that is the id of an agent. -/
  agentName : Json → Option String
    | .str s => if s ∈ validAgentIds then some s else none
    | _ => none

def normalizeAgentIds (cfg : SwarmSettings) (agents : Json) (chunk : String) : List String :=
  let named := namedAgents agents
  let normalized := if named.isEmpty then ["ReviewAgent"] else named
  let normalized :=
    if cfg.reviewProfile ≠ "chill" &&
        (occursIn "import ".toList chunk.toList || occursIn "def ".toList chunk.toList) &&
        !normalized.contains "VerificationAgent" then
      normalized ++ ["VerificationAgent"]
    else normalized
  normalized.eraseDups

/-- `priority.get(agent, 99)` -/
def agentPriority : String → ℕ
  | "SecurityAgent" => 0
  | "ReviewAgent" => 1
  | "PlanningAgent" => 2
  | "PerformanceAgent" => 3
  | "VerificationAgent" => 4
  | _ => 99

def capAgentIds (cfg : SwarmSettings) (agents : List String) : List String :=
  if (agents.length : ℤ) ≤ cfg.reviewMaxAgentsPerChunk then agents
  else sliceTo cfg.reviewMaxAgentsPerChunk
    (agents.insertionSort fun a b => agentPriority a ≤ agentPriority b)

end Revix
