import Revix.AgentMessages
import Revix.JsonTexts
import Revix.SwarmVerdicts

/-! A transcript follows the tool protocol when every assistant message is followed by one tool
message for each of its calls, and by no other. -/
namespace Revix
open EffectPrograms EffectSessions LabelledRuns

/-! ## The tool protocol -/

def AssistantMessage.callIds (m : AssistantMessage) : List String := m.toolCalls.map ToolCall.id

/-- The ids that are answered before the next message of another role. -/
def answeredIds : List Message → List String
  | .tool id _ _ :: messages => id :: answeredIds messages
  | _ => []

/-- The rest of a transcript, where tool messages may answer the ids `owner`. -/
def toolProtocol (owner : List String) : List Message → Prop
  | [] => True
  | .tool id _ _ :: messages => id ∈ owner ∧ toolProtocol owner messages
  | .assistant m :: messages =>
    (∀ id ∈ m.callIds, (answeredIds messages).count id = 1) ∧ toolProtocol m.callIds messages
  | .system _ :: messages => toolProtocol [] messages
  | .user _ :: messages => toolProtocol [] messages

def WellFormed (messages : List Message) : Prop := toolProtocol [] messages

/-- A message that makes one call, or several with one id. -/
def AssistantMessage.CallsOnly (m : AssistantMessage) (id : String) : Prop :=
  m.callIds ≠ [] ∧ ∀ id' ∈ m.callIds, id' = id

theorem answeredIds_append (messages : List Message) (m : AssistantMessage) (rest : List Message) :
    answeredIds (messages ++ .assistant m :: rest) = answeredIds messages := by
  induction messages with
  | nil => rfl
  | cons message messages ih =>
    cases message with
    | tool id name content => simp only [List.cons_append, answeredIds, ih]
    | _ => rfl

theorem toolProtocol_answer {m : AssistantMessage} {id name content : String} :
    (∀ id' ∈ m.callIds, (answeredIds [.tool id name content]).count id' = 1) ∧
      toolProtocol m.callIds [.tool id name content] ↔ m.CallsOnly id := by
  have hcount : ∀ id', (answeredIds [.tool id name content]).count id' = 1 ↔ id' = id := by
    intro id'
    simp only [answeredIds, List.count_singleton', eq_comm (a := id)]
    split <;> simp [*]
  simp only [hcount, toolProtocol, and_true]
  constructor
  · rintro ⟨hall, hmem⟩
    exact ⟨List.ne_nil_of_mem hmem, hall⟩
  · rintro ⟨hne, hall⟩
    obtain ⟨id', hid⟩ := List.exists_mem_of_ne_nil _ hne
    refine ⟨hall, ?_⟩
    rw [← hall id' hid]
    exact hid

/-- A transcript goes on well when the answer is to the only call of its message. -/
theorem toolProtocol_append {messages : List Message} {owner : List String}
    {m : AssistantMessage} {id name content : String} :
    toolProtocol owner (messages ++ [.assistant m, .tool id name content]) ↔
      toolProtocol owner messages ∧ m.CallsOnly id := by
  induction messages generalizing owner with
  | nil => exact toolProtocol_answer.trans (by simp [toolProtocol])
  | cons message messages ih =>
    cases message with
    | assistant m' =>
      simp only [List.cons_append, toolProtocol, answeredIds_append, ih, and_assoc]
    | tool id' name' content' => simp only [List.cons_append, toolProtocol, ih, and_assoc]
    | system text => simp only [List.cons_append, toolProtocol, ih]
    | user text => simp only [List.cons_append, toolProtocol, ih]

/-! ## What an agent sends -/

def record (received : List AssistantMessage) :
    (q : SwarmCall) → Except Raised q.Answer → List AssistantMessage
  | .completion _, .ok message => received ++ [message]
  | _, _ => received

def recorder (allows : List AssistantMessage → SwarmCall → Prop) :
    Monitor SwarmCall (fun q => Except Raised q.Answer) (List AssistantMessage) where
  allows := allows
  next := record

/-- The models reply anything, and what they reply is kept. -/
def recording : Server SwarmCall (fun q => Except Raised q.Answer) (List AssistantMessage)
    SwarmReply :=
  follow (recorder fun _ _ => True)

section Agents

variable (lib : Libraries) (models : Settings)

/-- The calls that are answered: those of the sandbox before one without a script. -/
def sandboxCalls (calls : List ToolCall) : List ToolCall :=
  (calls.filter fun call => call.name = "run_in_sandbox").takeWhile fun call =>
    (toolScript lib call).isOk

/-- The messages received, each with the call of the first message that is answered under it. -/
def answered : List AssistantMessage → List (AssistantMessage × ToolCall)
  | [] => []
  | first :: received => (first :: received).zip (sandboxCalls lib first.toolCalls)

def AnsweredAlone (received : List AssistantMessage) : Prop :=
  ∀ p ∈ answered lib received, p.1.CallsOnly p.2.id

/-- The transcript in a request is well-formed when every answer in it is to the only call of its
message. -/
def Sound (received : List AssistantMessage) : SwarmCall → Prop
  | .completion c => WellFormed c.messages ↔ AnsweredAlone lib received
  | .sandbox _ => True

variable {lib models}

theorem sandboxCalls_other {call : ToolCall} {calls : List ToolCall}
    (h : call.name ≠ "run_in_sandbox") :
    sandboxCalls lib (call :: calls) = sandboxCalls lib calls := by
  simp [sandboxCalls, h]

theorem sandboxCalls_cons {call : ToolCall} {calls : List ToolCall}
    (h : call.name = "run_in_sandbox") {script : Json} (hscript : toolScript lib call = .ok script) :
    sandboxCalls lib (call :: calls) = call :: sandboxCalls lib calls := by
  simp [sandboxCalls, h, hscript, Except.isOk, Except.toBool]

/-- The messages received grow with the calls that are answered, one message for each. -/
theorem answered_append {first : AssistantMessage} (message : AssistantMessage)
    {received : List AssistantMessage} {done calls : List ToolCall} {call : ToolCall}
    (hhead : (received ++ [message]).head? = some first)
    (hlength : received.length = done.length)
    (hcalls : sandboxCalls lib first.toolCalls = done ++ call :: calls) :
    answered lib (received ++ [message]) = received.zip done ++ [(message, call)] := by
  have hanswered : answered lib (received ++ [message]) =
      (received ++ [message]).zip (sandboxCalls lib first.toolCalls) := by
    cases received with
    | nil =>
      cases hhead
      rfl
    | cons first' received =>
      cases hhead
      rfl
  rw [hanswered, hcalls, List.zip_append hlength]
  simp

/-- While the loop goes on, the messages received before the one at hand are answered in the
transcript, each for one call. -/
theorem obeys_runToolCalls {first message : AssistantMessage} {calls : List ToolCall}
    {request : Completion} (received : List AssistantMessage) (done : List ToolCall)
    (hhead : (received ++ [message]).head? = some first)
    (hlength : received.length = done.length)
    (hcalls : sandboxCalls lib first.toolCalls = done ++ sandboxCalls lib calls)
    (hrequest : WellFormed request.messages ↔ ∀ p ∈ received.zip done, p.1.CallsOnly p.2.id) :
    Script.Obeys (recorder (Sound lib)) (fun _ _ _ => True)
      (runToolCalls lib request message calls) (received ++ [message]) () := by
  induction calls generalizing received message done request with
  | nil => trivial
  | cons call calls ih =>
    by_cases hname : call.name = "run_in_sandbox"
    · rw [runToolCalls_sandbox hname]
      cases hscript : toolScript lib call with
      | error text => trivial
      | ok script =>
        rw [sandboxCalls_cons hname hscript] at hcalls
        have hgrow := answered_append message hhead hlength hcalls
        refine ⟨trivial, fun r => ?_⟩
        cases r with
        | error e => trivial
        | ok sandboxRes =>
          have hsound : WellFormed (request.messages ++
              [.assistant message, .tool call.id "run_in_sandbox" (lib.dumps sandboxRes)]) ↔
              AnsweredAlone lib (received ++ [message]) := by
            unfold AnsweredAlone WellFormed
            rw [hgrow, toolProtocol_append, List.forall_mem_append, List.forall_mem_singleton]
            exact and_congr hrequest Iff.rfl
          refine ⟨hsound, fun r => ?_⟩
          cases r with
          | error e => trivial
          | ok reply =>
            refine ih (received ++ [message]) (done ++ [call]) ?_ ?_ ?_ ?_
            · simpa using hhead
            · simp [hlength]
            · simp [hcalls]
            · simpa [AnsweredAlone, hgrow, List.zip_append hlength] using hsound
    · rw [runToolCalls_other hname]
      rw [sandboxCalls_other hname] at hcalls
      exact ih received done hhead hlength hcalls hrequest

theorem calls_orRaise {P : SwarmCall → Prop} {α : Type} (x : Except String α) :
    (orRaise x).Calls P := by
  cases x with
  | error text => exact Script.calls_throw _
  | ok a => exact Script.calls_pure a

theorem calls_reviewIn {P : SwarmCall → Prop} (agentId : String) (message : AssistantMessage) :
    (reviewIn lib agentId message).Calls P := by
  rw [reviewIn_eq]
  exact calls_orRaise _

theorem obeys_afterFirst (agentId : String) {first : AssistantMessage} {request : Completion}
    (h : WellFormed request.messages) :
    Script.Obeys (recorder (Sound lib)) (fun _ _ _ => True)
      (runToolCalls lib request first first.toolCalls >>= reviewIn lib agentId) [first] () := by
  have hloop : Script.Obeys (recorder (Sound lib)) (fun _ _ _ => True)
      (runToolCalls lib request first first.toolCalls) [first] () :=
    obeys_runToolCalls [] [] rfl rfl rfl (iff_of_true h fun _ hp => nomatch hp)
  refine Script.obeys_bind.2 (hloop.mono fun received _ r _ => ?_)
  cases r with
  | error e => trivial
  | ok message =>
    have hquiet : (reviewIn lib agentId message).Quiet (recorder (Sound lib)) received :=
      (calls_reviewIn (P := fun _ => False) agentId message).quiet fun _ hq => hq.elim
    exact hquiet.obeys fun _ _ => trivial

theorem obeys_analyzeChunkWithAgent (agentId systemPrompt chunk intent : String) :
    Script.Obeys (recorder (Sound lib)) (fun _ _ _ => True)
      (analyzeChunkWithAgent lib models agentId systemPrompt chunk intent) [] () := by
  rw [analyzeChunkWithAgent_eq]
  refine obeys_tryExcept (Script.obeys_bind.2 ⟨?_, fun r => ?_⟩) fun _ _ _ => trivial
  · exact iff_of_true trivial fun _ hp => nomatch hp
  · cases r with
    | error e => trivial
    | ok first => exact obeys_afterFirst agentId trivial

/-! ## The messages that are received -/

variable (lib models)

/-- In some run of the agent, the request `c` comes after the messages `received`. -/
def Sends (agentId systemPrompt chunk intent : String) (received : List AssistantMessage)
    (c : Completion) : Prop :=
  ∃ replies resume,
    Run (Session recording)
      ([], analyzeChunkWithAgent lib models agentId systemPrompt chunk intent ()) replies
      (received, .ask (.completion c) resume)

variable {lib models} {agentId systemPrompt chunk intent : String}

theorem Sends.sound {received : List AssistantMessage} {c : Completion}
    (h : Sends lib models agentId systemPrompt chunk intent received c) :
    WellFormed c.messages ↔ AnsweredAlone lib received := by
  obtain ⟨replies, resume, hrun⟩ := h
  exact Script.allowed_of_run (obeys_analyzeChunkWithAgent agentId systemPrompt chunk intent) hrun

end Agents

namespace Sample

def agents : Libraries := { libraries with dumps := fun d => String.ofList (Json.obj d).dumps }

def scriptCall (id : String) : ToolCall :=
  ⟨id, "run_in_sandbox", .obj [("script", .str "print(1)")]⟩

end Sample

end Revix
