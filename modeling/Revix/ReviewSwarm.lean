import Revix.ReviewPosting
import Revix.SwarmReplies

/-! `analyze_diff` as a script that makes one call after the other. The settings that only the
completion library reads and the schemas of the tools are left out. -/
namespace Revix
open EffectPrograms EffectSessions

structure ToolCall where
  id : String
  name : String
  arguments : Json

/-- `response.choices[0].message`. No tool calls are an empty list. -/
structure AssistantMessage where
  content : Option String
  toolCalls : List ToolCall

inductive Message
  | system (content : String)
  | user (content : String)
  | assistant (message : AssistantMessage)
  | tool (toolCallId name content : String)

/-- The arguments of `acompletion`, the tools by their names. -/
structure Completion where
  model : String
  messages : List Message
  tools : List String := []
  toolChoice : Option String := none

inductive SwarmCall
  | completion (c : Completion)
  /-- `_run_in_sandbox` -/
  | sandbox (script : Json)

abbrev SwarmCall.Answer : SwarmCall → Type
  | .completion _ => AssistantMessage
  | .sandbox _ => Dict

abbrev SwarmScript (α : Type) : Type :=
  EffectPrograms.Script SwarmCall SwarmCall.Answer Raised Unit α

/-- The libraries the agents rest on. -/
structure Libraries where
  python : Python
  /-- `str(v)` of a decoded value -/
  str : Json → String
  /-- `json.dumps(d)` -/
  dumps : Dict → String
  /-- A field of type `str` in a validated model. -/
  textField : Json → Except String String
  /-- A field of type `int` in a validated model. -/
  intField : Json → Except String ℤ
  /-- `ReviewResult.model_validate(data)` -/
  validateResult : Json → Except String ReviewResult
  /-- `_chunk_by_ast`, of a file's name, source and patch -/
  chunkByAst : String → String → String → List String

def complete (c : Completion) : SwarmScript AssistantMessage :=
  Script.request (SwarmCall.completion c)

def orRaise {α : Type} : Except String α → SwarmScript α
  | .ok a => Script.pure a
  | .error text => Script.throw (.exception ⟨text, none⟩)

/-! ## Prompts -/

def languageDirective : String :=
  "Write every user-facing string in English, regardless of the language used in the code or " ++
  "its comments. "

def coordinatorPrompt : String :=
  "You are the Swarm Coordinator. Analyze the PR intent and diff. " ++
  "Route specific code chunks to the appropriate sub-agents: " ++
  "ReviewAgent (logic), SecurityAgent (vulns), PerformanceAgent (speed), " ++
  "VerificationAgent (execution), PlanningAgent (alignment). " ++
  "Return a JSON list of routing decisions."

def reviewAgentPrompt : String := languageDirective ++
  "You are the Review Agent. Focus on logic, flow control, and edge-cases. " ++
  "Identify bugs and suggest fixes in JSON format. " ++
  "Review profile is chill: report only actionable defects likely to affect correctness, " ++
  "security, data integrity, or production behavior. Do not report style nitpicks, vague " ++
  "refactors, or duplicate concerns. Keep each finding concise."

def securityAgentPrompt : String := languageDirective ++
  "You are the Security Agent. Focus on vulnerabilities, injection risks, and anomalous " ++
  "network calls. Identify risks and suggest fixes in JSON format. Report only exploitable or " ++
  "realistic risks."

def performanceAgentPrompt : String := languageDirective ++
  "You are the Performance Agent. Analyze asymptotic complexity and memory allocation. " ++
  "Identify bottlenecks and suggest optimizations in JSON format. Only comment when the issue " ++
  "is measurable or likely to affect production scale."

def planningAgentPrompt : String := languageDirective ++
  "You are the Planning Agent. Compare the implementation with the PR intent/ticket. " ++
  "Ensure the changes align with the original requirements. Report only meaningful mismatches."

def verificationAgentPrompt : String := languageDirective ++
  "You are the Verification Agent. Generate a standalone Python script to test the logic of " ++
  "the provided code. The script will be executed in a gVisor sandbox. Use the " ++
  "'run_in_sandbox' tool only when execution can validate a concrete high-risk behavior."

/-- `prompts.get(agent_id, self.REVIEW_AGENT_PROMPT)` -/
def agentPrompt : String → String
  | "SecurityAgent" => securityAgentPrompt
  | "PerformanceAgent" => performanceAgentPrompt
  | "PlanningAgent" => planningAgentPrompt
  | "VerificationAgent" => verificationAgentPrompt
  | _ => reviewAgentPrompt

def routingPrompt (intent chunk : String) : String :=
  "Decide which agents should analyze this code chunk based on the PR intent.\n" ++
  "Use a chill review profile: choose the fewest agents needed, prefer ReviewAgent " ++
  "or SecurityAgent, and avoid VerificationAgent unless execution is clearly valuable.\n" ++
  "PR INTENT:\n" ++ intent ++ "\n\n" ++
  "CODE CHUNK:\n" ++ chunk ++ "\n\n" ++
  "AVAILABLE AGENTS: ReviewAgent, SecurityAgent, PerformanceAgent, VerificationAgent, " ++
  "PlanningAgent.\n" ++
  "Return only a JSON list of agent IDs."

section Swarm

variable (lib : Libraries) (models : Settings) (cfg : SwarmSettings)

/-! ## Routing -/

def coordinateRouting (chunk intent : String) : SwarmScript (List String) :=
  tryExcept (do
      let message ← complete
        { model := models.aiModelMap
          messages := [.system coordinatorPrompt, .user (routingPrompt intent chunk)] }
      match message.content.filter (· ≠ "") with
      | none => Script.throw (.exception ⟨"Empty response from Coordinator", none⟩)
      | some content =>
        let data ← orRaise (extractJsonPayload lib.python content)
        return capAgentIds cfg (normalizeAgentIds cfg data chunk))
    fun _ => Script.pure ["ReviewAgent", "SecurityAgent"]

/-! ## Agents -/

def agentTools (agentId : String) : List String :=
  if agentId = "VerificationAgent" then ["submit_review", "run_in_sandbox"] else ["submit_review"]

/-- `for c in res.comments: c.agent_id = agent_id` -/
def stampAgent (agentId : String) (r : ReviewResult) : ReviewResult :=
  { r with comments := r.comments.map fun c => { c with agentId := some agentId } }

/-- The loop over the tool calls of the first message: every call of the sandbox is answered to
the model, whose reply takes the place of the message. -/
def runToolCalls (request : Completion) (message : AssistantMessage) :
    List ToolCall → SwarmScript AssistantMessage
  | [] => Script.pure message
  | call :: calls =>
    if call.name = "run_in_sandbox" then do
      let arguments ← orRaise (parseToolArguments lib.python call.arguments)
      let script ← orRaise (getItem arguments "script")
      let sandboxRes ← Script.request (SwarmCall.sandbox script)
      let request := { request with
        messages := request.messages ++
          [.assistant message, .tool call.id "run_in_sandbox" (lib.dumps sandboxRes)] }
      let reply ← complete request
      runToolCalls request reply calls
    else runToolCalls request message calls

/-- The first review that a message submits. -/
def submittedReview (agentId : String) : List ToolCall → SwarmScript (Option ReviewResult)
  | [] => Script.pure none
  | call :: calls =>
    if call.name = "submit_review" then do
      let arguments ← orRaise (parseToolArguments lib.python call.arguments)
      let res ← orRaise (lib.validateResult (.obj arguments))
      return some (stampAgent agentId res)
    else submittedReview agentId calls

def writtenReview (agentId : String) (message : AssistantMessage) :
    SwarmScript (Option ReviewResult) :=
  match message.content.filter (· ≠ "") with
  | none => Script.pure none
  | some content =>
    tryExcept (do
        let data ← orRaise (extractJsonPayload lib.python content)
        let res ← orRaise (lib.validateResult data)
        return some (stampAgent agentId res))
      fun _ => Script.pure none

def analyzeChunkWithAgent (agentId systemPrompt chunk intent : String) :
    SwarmScript (Option ReviewResult) :=
  tryExcept (do
      let request : Completion :=
        { model := models.aiModelMap
          messages := [.system systemPrompt,
            .user ("PR INTENT:\n" ++ intent ++ "\n\nCODE:\n" ++ chunk)]
          tools := agentTools agentId
          toolChoice := some "auto" }
      let first ← complete request
      let message ← runToolCalls lib request first first.toolCalls
      -- without calls in the first message there are none to look through
      match ← submittedReview lib agentId message.toolCalls with
      | some res => return some res
      | none => writtenReview lib agentId message)
    fun _ => Script.pure none

def executeAgent (agentId chunk intent : String) : SwarmScript (Option ReviewResult) :=
  analyzeChunkWithAgent lib models agentId (agentPrompt agentId) chunk intent

/-! ## Synthesis -/

/-- `ReviewResult(summary=.., score=.., comments=..)` -/
def constructResult (summary score : Json) (comments : List ReviewComment) :
    Except String ReviewResult := do
  let summary ← lib.textField summary
  let score ← lib.intField score
  if h : 0 ≤ score ∧ score ≤ 100 then
    .ok { summary := summary, score := score, comments := comments, score_nonneg := h.1,
          score_le := h.2 }
  else .error "1 validation error for ReviewResult"

/-- The result of a structured reply: the arguments of its first tool call. -/
def structuredResult (message : AssistantMessage) (comments : List ReviewComment) :
    Except String ReviewResult := do
  match message.toolCalls with
  | [] => .error "'NoneType' object is not subscriptable"
  | call :: _ =>
    let output ← parseToolArguments lib.python call.arguments
    constructResult lib (← getItem output "global_summary") (← getItem output "global_score")
      comments

/-- `data[key]` of any decoded value; only objects have string keys. -/
def subscript (data : Json) (key : String) : Except String Json :=
  match data with
  | .obj fields => getItem fields key
  | _ => .error "indices must be integers or slices, not str"

def fallbackResult (message : AssistantMessage) (comments : List ReviewComment) :
    Except String (Option ReviewResult) :=
  match message.content.filter (· ≠ "") with
  | none => .ok none
  | some content => do
    let data ← extractJsonPayload lib.python content
    let summary ← subscript data "global_summary"
    let score ← lib.python.int (← subscript data "global_score")
    let res ← constructResult lib summary (.int score) comments
    return some res

def synthesisFailed (comments : List ReviewComment) : ReviewResult where
  summary := "Synthesis failed."
  score := 0
  comments := comments
  score_nonneg := le_rfl
  score_le := ReviewResult.full_nonneg

def structuredRequest (summaries : List String) : Completion where
  model := models.aiModelReduce
  messages := [.system (languageDirective ++ "Synthesize these summaries into one global review."),
    .user ("Summaries:\n" ++ "\n".intercalate summaries)]
  tools := ["synthesize_review"]
  toolChoice := some "required"

def fallbackRequest (summaries : List String) : Completion where
  model := models.aiModelReduce
  messages := [.system (languageDirective ++
      "You are a review synthesis helper. Output JSON only."),
    .user ("Synthesize these summaries into one global review.\n" ++
      "You must respond with a JSON object containing:\n" ++
      "- 'global_summary': a string summary of the changes\n" ++
      "- 'global_score': an integer score from 0 to 100\n\n" ++
      "Summaries:\n" ++ "\n".intercalate summaries)]

/-- What `_reduce_summaries` does when the structured reply cannot be used. -/
def fallbackSynthesis (summaries : List String) (comments : List ReviewComment) :
    SwarmScript ReviewResult := do
  let res ← tryExcept (do
      let message ← complete (fallbackRequest models summaries)
      orRaise (fallbackResult lib message comments))
    fun _ => Script.pure none
  return res.getD (synthesisFailed comments)

def reduceSummaries (summaries : List String) (comments : List ReviewComment) :
    SwarmScript ReviewResult :=
  tryExcept (do
      let message ← complete (structuredRequest models summaries)
      orRaise (structuredResult lib message comments))
    fun _ => fallbackSynthesis lib models summaries comments

/-! ## The analysis -/

def nothingFound : ReviewResult where
  summary := "No issues found by swarm."
  score := 100
  score_nonneg := ReviewResult.full_nonneg
  score_le := ReviewResult.full_le

/-- `f"{pr_details.get(key)}"` -/
def detail (prDetails : Dict) (key : String) : String :=
  match Dict.get prDetails key with
  | some v => lib.str v
  | none => "None"

def agentTasks (chunks : List String) (routing : List (List String)) : List (String × String) :=
  (chunks.zip routing).flatMap fun (chunk, decision) =>
    (capAgentIds cfg decision).map fun agentId => (agentId, chunk)

/-- The part of `analyze_diff` that runs the swarm: what every agent call returned. -/
def runSwarm (prFiles : List PullFile) (prDetails : Dict) :
    SwarmScript (List (Option ReviewResult)) := do
  let intent := "TITLE: " ++ detail lib prDetails "title" ++ "\nBODY: " ++ detail lib prDetails "body"
  let chunks ← orRaise (buildReviewChunks lib.chunkByAst cfg prFiles)
  let routing ← Script.collect (fun chunk => coordinateRouting lib models cfg chunk intent) chunks
  Script.collect (fun (agentId, chunk) => executeAgent lib models agentId chunk intent)
    (agentTasks cfg chunks routing)

/-- The part of `analyze_diff` that makes one review of the results. -/
def synthesize (results : List (Option ReviewResult)) : SwarmScript ReviewResult :=
  -- no result means no agent call
  if results.isEmpty then Script.pure nothingFound
  else
    let reviews := results.filterMap id
    reduceSummaries lib models (reviews.map ReviewResult.summary)
      (reviews.flatMap ReviewResult.comments)

/-- `analyze_diff`, apart from its tracing; the diff and the name of the repository are unused. -/
def analyzeDiff (prFiles : List PullFile) (prDetails : Dict) : SwarmScript ReviewResult := do
  let results ← runSwarm lib models cfg prFiles prDetails
  synthesize lib models results

end Swarm

end Revix
