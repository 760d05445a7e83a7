import Revix.ReplyExtraction
import Revix.StableSorting
import Revix.SwarmVerdicts

namespace Revix
open EffectPrograms EffectSessions LabelledRuns StableSorting

def listedAgents : Json → List Json
  | .arr agents => agents
  | .obj fields => match Dict.get fields "agents" with
    | some (.arr agents) => agents
    | _ => []
  | _ => []

def Names (reply : Json) (agentId : String) : Prop := Json.str agentId ∈ listedAgents reply

/-- The agents that a reply chooses before any is added to them. -/
def chosenAgents (reply : Json) : List String :=
  let named := (listedAgents reply).filterMap namedAgents.agentName
  if named.isEmpty then ["ReviewAgent"] else named

def ForcesVerification (cfg : SwarmSettings) (chunk : String) : Prop :=
  cfg.reviewProfile ≠ "chill" ∧
    (occursIn "import ".toList chunk.toList = true ∨ occursIn "def ".toList chunk.toList = true)

structure Runnable (cfg : SwarmSettings) (agents : List String) : Prop where
  nonempty : agents ≠ []
  nodup : agents.Nodup
  capped : (agents.length : ℤ) ≤ cfg.reviewMaxAgentsPerChunk
  valid : ∀ a ∈ agents, a ∈ validAgentIds

/-! ## Normalisation -/

theorem nodup_eraseDups {α : Type} [BEq α] [LawfulBEq α] (l : List α) : l.eraseDups.Nodup := by
  induction h : l.length using Nat.strong_induction_on generalizing l with
  | _ n ih =>
    cases l with
    | nil => simp
    | cons a l =>
      rw [List.eraseDups_cons, List.nodup_cons]
      constructor
      · simp [List.mem_eraseDups]
      · refine ih _ ?_ _ rfl
        rw [← h]
        exact Nat.lt_succ_of_le (List.length_filter_le _ _)

section Normalisation

variable {cfg : SwarmSettings} {reply : Json} {chunk a : String}

theorem mem_filterMap_agentName {vs : List Json} :
    a ∈ vs.filterMap namedAgents.agentName ↔ a ∈ validAgentIds ∧ Json.str a ∈ vs := by
  rw [List.mem_filterMap]
  constructor
  · rintro ⟨v, hv, hname⟩
    unfold namedAgents.agentName at hname
    split at hname
    · split at hname
      · cases hname
        exact ⟨‹_›, hv⟩
      · cases hname
    · cases hname
  · rintro ⟨hvalid, hmem⟩
    exact ⟨.str a, hmem, if_pos hvalid⟩

/-- A reply that lists nothing is read like one that names the reviewer. -/
theorem namedAgents_chosen (reply : Json) :
    (if (namedAgents reply).isEmpty then ["ReviewAgent"] else namedAgents reply) =
      chosenAgents reply := by
  unfold namedAgents chosenAgents listedAgents
  cases reply with
  | obj fields =>
    simp only
    cases Dict.get fields "agents" with
    | none => rfl
    | some v => cases v <;> rfl
  | _ => rfl

theorem mem_chosenAgents : a ∈ chosenAgents reply ↔
    (a ∈ validAgentIds ∧ Names reply a) ∨
      (a = "ReviewAgent" ∧ ∀ b ∈ validAgentIds, ¬ Names reply b) := by
  simp only [chosenAgents]
  split
  · rename_i hnone
    rw [List.isEmpty_iff, List.eq_nil_iff_forall_not_mem] at hnone
    have hnames : ∀ b ∈ validAgentIds, ¬ Names reply b := fun b hvalid hb =>
      hnone b (mem_filterMap_agentName.2 ⟨hvalid, hb⟩)
    rw [List.mem_singleton]
    constructor
    · rintro rfl
      exact .inr ⟨rfl, hnames⟩
    · rintro (⟨hvalid, hb⟩ | ⟨rfl, -⟩)
      · exact absurd hb (hnames a hvalid)
      · rfl
  · rename_i hsome
    rw [List.isEmpty_iff] at hsome
    obtain ⟨b, hb⟩ := List.exists_mem_of_ne_nil _ hsome
    obtain ⟨hvalid, hb⟩ := mem_filterMap_agentName.1 hb
    rw [mem_filterMap_agentName]
    refine ⟨.inl, ?_⟩
    rintro (h | ⟨-, hnone⟩)
    · exact h
    · exact absurd hb (hnone b hvalid)

theorem mem_normalizeAgentIds : a ∈ normalizeAgentIds cfg reply chunk ↔
    a ∈ chosenAgents reply ∨ (ForcesVerification cfg chunk ∧ a = "VerificationAgent") := by
  simp only [normalizeAgentIds, namedAgents_chosen, List.mem_eraseDups]
  split
  · rename_i h
    simp only [Bool.and_eq_true, Bool.or_eq_true, decide_eq_true_eq] at h
    have hforced : ForcesVerification cfg chunk := h.1
    simp [hforced]
  · rename_i h
    simp only [Bool.and_eq_true, Bool.or_eq_true, decide_eq_true_eq, Bool.not_eq_true',
      List.contains_eq_mem, decide_eq_false_iff_not, not_and, not_not] at h
    constructor
    · exact .inl
    · rintro (hmem | ⟨hforced, rfl⟩)
      · exact hmem
      · exact h hforced

theorem valid_of_mem_normalizeAgentIds (h : a ∈ normalizeAgentIds cfg reply chunk) :
    a ∈ validAgentIds := by
  rcases mem_normalizeAgentIds.1 h with hmem | ⟨-, rfl⟩
  · rcases mem_chosenAgents.1 hmem with ⟨hvalid, -⟩ | ⟨rfl, -⟩
    · exact hvalid
    · simp [validAgentIds]
  · simp [validAgentIds]

theorem nodup_normalizeAgentIds : (normalizeAgentIds cfg reply chunk).Nodup := nodup_eraseDups _

end Normalisation

/-! ## The limit -/

section Limit

variable {cfg : SwarmSettings} {agents : List String}

theorem least_priority {b : String} (hb : b ∈ validAgentIds)
    (hle : agentPriority b ≤ agentPriority "SecurityAgent") : b = "SecurityAgent" := by
  revert b
  decide

theorem capAgentIds_of_le (h : (agents.length : ℤ) ≤ cfg.reviewMaxAgentsPerChunk) :
    capAgentIds cfg agents = agents := if_pos h

theorem capAgentIds_of_lt (hcap : 0 ≤ cfg.reviewMaxAgentsPerChunk)
    (h : cfg.reviewMaxAgentsPerChunk < agents.length) :
    capAgentIds cfg agents = smallest agentPriority cfg.reviewMaxAgentsPerChunk.toNat agents := by
  rw [capAgentIds, if_neg (not_le.2 h), sliceTo, if_pos hcap, smallest]

theorem length_capAgentIds (hcap : 0 ≤ cfg.reviewMaxAgentsPerChunk) (agents : List String) :
    ((capAgentIds cfg agents).length : ℤ) ≤ cfg.reviewMaxAgentsPerChunk := by
  by_cases h : (agents.length : ℤ) ≤ cfg.reviewMaxAgentsPerChunk
  · rwa [capAgentIds_of_le h]
  · rw [capAgentIds_of_lt hcap (not_le.1 h), length_smallest]
    omega

theorem capAgentIds_capAgentIds (hcap : 0 ≤ cfg.reviewMaxAgentsPerChunk) (agents : List String) :
    capAgentIds cfg (capAgentIds cfg agents) = capAgentIds cfg agents :=
  capAgentIds_of_le (length_capAgentIds hcap agents)

theorem mem_of_mem_capAgentIds (hcap : 0 ≤ cfg.reviewMaxAgentsPerChunk) {a : String}
    (h : a ∈ capAgentIds cfg agents) : a ∈ agents := by
  by_cases hle : (agents.length : ℤ) ≤ cfg.reviewMaxAgentsPerChunk
  · rwa [capAgentIds_of_le hle] at h
  · rw [capAgentIds_of_lt hcap (not_le.1 hle)] at h
    exact mem_of_mem_smallest h

theorem nodup_capAgentIds (hcap : 0 ≤ cfg.reviewMaxAgentsPerChunk) (h : agents.Nodup) :
    (capAgentIds cfg agents).Nodup := by
  by_cases hle : (agents.length : ℤ) ≤ cfg.reviewMaxAgentsPerChunk
  · rwa [capAgentIds_of_le hle]
  · rw [capAgentIds_of_lt hcap (not_le.1 hle)]
    exact nodup_smallest h

theorem security_mem_capAgentIds (hcap : 1 ≤ cfg.reviewMaxAgentsPerChunk)
    (hvalid : ∀ a ∈ agents, a ∈ validAgentIds) (h : "SecurityAgent" ∈ agents) :
    "SecurityAgent" ∈ capAgentIds cfg agents := by
  by_cases hle : (agents.length : ℤ) ≤ cfg.reviewMaxAgentsPerChunk
  · rwa [capAgentIds_of_le hle]
  · rw [capAgentIds_of_lt (by omega) (not_le.1 hle)]
    exact mem_smallest_of_least (by omega) h fun b hb hpriority =>
      least_priority (hvalid b hb) hpriority

/-- The limit leaves some of the agents it is given. -/
theorem runnable_capAgentIds (hcap : 1 ≤ cfg.reviewMaxAgentsPerChunk) (hne : agents ≠ [])
    (hnodup : agents.Nodup) (hvalid : ∀ a ∈ agents, a ∈ validAgentIds) :
    Runnable cfg (capAgentIds cfg agents) where
  nonempty := capAgentIds_ne_nil hcap hne
  nodup := nodup_capAgentIds (by omega) hnodup
  capped := length_capAgentIds (by omega) agents
  valid a ha := hvalid a (mem_of_mem_capAgentIds (by omega) ha)

theorem runnable_normalizeAgentIds (hcap : 1 ≤ cfg.reviewMaxAgentsPerChunk) (reply : Json)
    (chunk : String) : Runnable cfg (capAgentIds cfg (normalizeAgentIds cfg reply chunk)) :=
  runnable_capAgentIds hcap (normalizeAgentIds_ne_nil reply chunk) nodup_normalizeAgentIds
    fun _ => valid_of_mem_normalizeAgentIds

end Limit

/-! ## The routing calls -/

def routingRequest (models : Settings) (chunk intent : String) : Completion where
  model := models.aiModelMap
  messages := [.system coordinatorPrompt, .user (routingPrompt intent chunk)]

def coordinatorReply (lib : Libraries) (models : Settings) (chunk intent : String)
    (reply : SwarmReply) : Option Json :=
  match reply (.completion (routingRequest models chunk intent)) with
  | .ok m => (m.content.filter (· ≠ "")).bind fun content =>
    (extractJsonPayload lib.python content).toOption
  | .error _ => none

section Routed

variable {lib : Libraries} {models : Settings} {cfg : SwarmSettings} {reply : Json}
  {chunk intent : String}

/-- The coordinator's reply is one decoded value, or else two agents are chosen without it. -/
theorem run_coordinateRouting {replies : List SwarmReply} {agents : List String}
    (h : Run (Session swarm) ((), coordinateRouting lib models cfg chunk intent ()) replies
      ((), .done (.ok agents, ()))) :
    ∃ reply, replies = [reply] ∧
      agents = (coordinatorReply lib models chunk intent reply).elim
        ["ReviewAgent", "SecurityAgent"]
        fun data => capAgentIds cfg (normalizeAgentIds cfg data chunk) := by
  rcases run_ask.1 h with ⟨-, hy⟩ | ⟨reply, rest, rfl, hrest⟩
  · cases hy
  simp only [swarm] at hrest
  refine ⟨reply, ?_⟩
  unfold coordinatorReply routingRequest
  generalize reply (.completion _) = v at hrest ⊢
  rcases v with (e | _) | message
  · obtain ⟨rfl, hy⟩ := run_done.1 hrest
    cases hy
    exact ⟨rfl, rfl⟩
  · cases (run_done.1 hrest).2
  · simp only [Prog.bind] at hrest ⊢
    cases hcontent : message.content.filter (· ≠ "") with
    | none =>
      rw [hcontent] at hrest
      obtain ⟨rfl, hy⟩ := run_done.1 hrest
      cases hy
      exact ⟨rfl, rfl⟩
    | some content =>
      rw [hcontent] at hrest
      rw [Option.bind_some]
      cases hdata : extractJsonPayload lib.python content with
      | error text =>
        simp only [hdata] at hrest
        obtain ⟨rfl, hy⟩ := run_done.1 hrest
        cases hy
        exact ⟨rfl, rfl⟩
      | ok data =>
        simp only [hdata] at hrest
        obtain ⟨rfl, hy⟩ := run_done.1 hrest
        cases hy
        exact ⟨rfl, rfl⟩

/-- Whatever becomes of the request, the agents that run on the chunk are known ones. -/
theorem runnable_of_run (hcap : 1 ≤ cfg.reviewMaxAgentsPerChunk) {replies : List SwarmReply}
    {agents : List String}
    (h : Run (Session swarm) ((), coordinateRouting lib models cfg chunk intent ()) replies
      ((), .done (.ok agents, ()))) : Runnable cfg (capAgentIds cfg agents) := by
  obtain ⟨reply, -, rfl⟩ := run_coordinateRouting h
  cases coordinatorReply lib models chunk intent reply with
  | none =>
    rw [Option.elim_none]
    exact runnable_capAgentIds hcap (List.cons_ne_nil _ _) (by decide) (by simp [validAgentIds])
  | some data =>
    rw [Option.elim_some, capAgentIds_capAgentIds (by omega)]
    exact runnable_normalizeAgentIds hcap data chunk

/-- Whatever the coordinator replies, known agents run, and security among them when it is named.
So they do when the reply is lost. -/
theorem routing_safe (hcap : 1 ≤ cfg.reviewMaxAgentsPerChunk) (reply : Json) (chunk : String) :
    Runnable cfg (capAgentIds cfg (capAgentIds cfg (normalizeAgentIds cfg reply chunk))) ∧
      (Names reply "SecurityAgent" → "SecurityAgent" ∈
        capAgentIds cfg (capAgentIds cfg (normalizeAgentIds cfg reply chunk))) ∧
      capAgentIds cfg (capAgentIds cfg (normalizeAgentIds cfg reply chunk)) =
        capAgentIds cfg (normalizeAgentIds cfg reply chunk) ∧
      ∀ (lib : Libraries) models intent replies agents,
        Run (Session swarm) ((), coordinateRouting lib models cfg chunk intent ()) replies
          ((), .done (.ok agents, ())) → Runnable cfg (capAgentIds cfg agents) := by
  rw [capAgentIds_capAgentIds (by omega)]
  refine ⟨runnable_normalizeAgentIds hcap reply chunk, fun hnames => ?_, rfl,
    fun lib models intent replies agents h => runnable_of_run hcap h⟩
  apply security_mem_capAgentIds hcap fun _ => valid_of_mem_normalizeAgentIds
  rw [mem_normalizeAgentIds, mem_chosenAgents]
  exact .inl (.inl ⟨by simp [validAgentIds], hnames⟩)

end Routed

namespace Sample

/-- A reply that names four agents, where two may run. -/
def fourAgents : Json :=
  .arr [.str "VerificationAgent", .str "PerformanceAgent", .str "SecurityAgent", .str "ReviewAgent"]

def pythonChunk : String := "def f():\n    return 1"

end Sample

theorem routing_safe_fourAgents :
    (1 : ℤ) ≤ ({} : SwarmSettings).reviewMaxAgentsPerChunk ∧
    capAgentIds {} (capAgentIds {} (normalizeAgentIds {} Sample.fourAgents Sample.pythonChunk)) =
      ["SecurityAgent", "ReviewAgent"] ∧
    Runnable {}
      (capAgentIds {} (capAgentIds {} (normalizeAgentIds {} Sample.fourAgents Sample.pythonChunk))) ∧
    (Names Sample.fourAgents "SecurityAgent" → "SecurityAgent" ∈
      capAgentIds {} (capAgentIds {} (normalizeAgentIds {} Sample.fourAgents Sample.pythonChunk))) ∧
    capAgentIds {} (capAgentIds {} (normalizeAgentIds {} Sample.fourAgents Sample.pythonChunk)) =
      capAgentIds {} (normalizeAgentIds {} Sample.fourAgents Sample.pythonChunk) ∧
    ∀ (lib : Libraries) models intent replies agents,
      Run (Session swarm) ((), coordinateRouting lib models {} Sample.pythonChunk intent ()) replies
        ((), .done (.ok agents, ())) → Runnable {} (capAgentIds {} agents) :=
  ⟨by decide, by decide, routing_safe (by decide) Sample.fourAgents Sample.pythonChunk⟩

/-! ## Forced verification -/

section Forced

variable {lib : Libraries} {models : Settings} {cfg : SwarmSettings} {reply : Json}
  {chunk intent : String}

end Forced

namespace Sample

def oneAgent : Json := .arr [.str "ReviewAgent"]

def twoAgents : Json := .arr [.str "ReviewAgent", .str "SecurityAgent"]

def routing : Libraries := { libraries with python := reader [oneAgent, twoAgents] }

end Sample

end Revix
