import Revix.ReviewSwarm

namespace Revix
open EffectPrograms EffectSessions

section Agents

variable (lib : Libraries) (models : Settings)

def toolScript (call : ToolCall) : Except String Json := do
  let arguments ← parseToolArguments lib.python call.arguments
  getItem arguments "script"

def firstRequest (agentId systemPrompt chunk intent : String) : Completion where
  model := models.aiModelMap
  messages := [.system systemPrompt, .user ("PR INTENT:\n" ++ intent ++ "\n\nCODE:\n" ++ chunk)]
  tools := agentTools agentId
  toolChoice := some "auto"

def reviewIn (agentId : String) (message : AssistantMessage) :
    SwarmScript (Option ReviewResult) := do
  match ← submittedReview lib agentId message.toolCalls with
  | some res => return some res
  | none => writtenReview lib agentId message

def submissionOf (call : ToolCall) : Except String ReviewResult := do
  let arguments ← parseToolArguments lib.python call.arguments
  lib.validateResult (.obj arguments)

def writtenIn (m : AssistantMessage) : Option ReviewResult :=
  (m.content.filter (· ≠ "")).bind fun content =>
    ((extractJsonPayload lib.python content).bind lib.validateResult).toOption

def AssistantMessage.submitCall (m : AssistantMessage) : Option ToolCall :=
  m.toolCalls.find? fun call => call.name = "submit_review"

/-- The review in a message, before it is stamped. -/
def foundIn (m : AssistantMessage) : Except String (Option ReviewResult) :=
  match m.submitCall with
  | some call => (submissionOf lib call).map some
  | none => .ok (writtenIn lib m)

variable {lib models}

theorem runToolCalls_sandbox {request : Completion} {message : AssistantMessage} {call : ToolCall}
    {calls : List ToolCall} (h : call.name = "run_in_sandbox") :
    runToolCalls lib request message (call :: calls) = (do
      let script ← orRaise (toolScript lib call)
      let sandboxRes ← Script.request (SwarmCall.sandbox script)
      let request := { request with
        messages := request.messages ++
          [.assistant message, .tool call.id "run_in_sandbox" (lib.dumps sandboxRes)] }
      let reply ← complete request
      runToolCalls lib request reply calls) := by
  rw [runToolCalls, if_pos h, toolScript]
  cases parseToolArguments lib.python call.arguments <;> rfl

theorem runToolCalls_other {request : Completion} {message : AssistantMessage} {call : ToolCall}
    {calls : List ToolCall} (h : call.name ≠ "run_in_sandbox") :
    runToolCalls lib request message (call :: calls) = runToolCalls lib request message calls := by
  rw [runToolCalls, if_neg h]

theorem submittedReview_eq (agentId : String) (calls : List ToolCall) :
    submittedReview lib agentId calls =
      match calls.find? fun call => call.name = "submit_review" with
      | some call => orRaise ((submissionOf lib call).map fun r => some (stampAgent agentId r))
      | none => Script.pure none := by
  induction calls with
  | nil => rfl
  | cons call calls ih =>
    rw [submittedReview]
    by_cases hname : call.name = "submit_review"
    · rw [if_pos hname, List.find?_cons_of_pos (by simpa using hname)]
      simp only [submissionOf]
      cases parseToolArguments lib.python call.arguments with
      | error text => rfl
      | ok arguments =>
        show (orRaise (lib.validateResult (.obj arguments)) >>= _) = orRaise (Except.map _
          (lib.validateResult (.obj arguments)))
        cases lib.validateResult (.obj arguments) <;> rfl
    · rw [if_neg hname, List.find?_cons_of_neg (by simpa using hname), ih]

theorem writtenReview_eq (agentId : String) (m : AssistantMessage) :
    writtenReview lib agentId m = Script.pure ((writtenIn lib m).map (stampAgent agentId)) := by
  unfold writtenReview writtenIn
  cases m.content.filter (· ≠ "") with
  | none => rfl
  | some content =>
    simp only [Option.bind_some]
    cases extractJsonPayload lib.python content with
    | error text => rfl
    | ok data =>
      show tryExcept (orRaise (lib.validateResult data) >>= _) _ =
        Script.pure (Option.map _ (lib.validateResult data).toOption)
      cases lib.validateResult data <;> rfl

/-- Looking for a review takes no request. -/
theorem reviewIn_eq (agentId : String) (m : AssistantMessage) :
    reviewIn lib agentId m =
      orRaise ((foundIn lib m).map (Option.map (stampAgent agentId))) := by
  unfold reviewIn foundIn AssistantMessage.submitCall
  rw [submittedReview_eq]
  cases m.toolCalls.find? fun call => call.name = "submit_review" with
  | none => exact writtenReview_eq agentId m
  | some call =>
    simp only
    cases submissionOf lib call <;> rfl

theorem analyzeChunkWithAgent_eq (agentId systemPrompt chunk intent : String) :
    analyzeChunkWithAgent lib models agentId systemPrompt chunk intent =
      tryExcept (do
        let first ← complete (firstRequest models agentId systemPrompt chunk intent)
        runToolCalls lib (firstRequest models agentId systemPrompt chunk intent) first
          first.toolCalls >>= reviewIn lib agentId)
      fun _ => Script.pure none := rfl

end Agents

end Revix
