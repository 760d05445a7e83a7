import Revix.EffectSessions
import Mathlib.Data.List.Basic
import Mathlib.Order.WellFounded

/-! Programs that run together under a semaphore. A `Flow` starts some programs, waits for all of
them and goes on with their results; in a `Pool` several flows share the permits. -/
namespace Revix.GatheredPrograms
open EffectPrograms EffectSessions LabelledRuns

universe u

section Flows

variable (Q : Type u) (A : Q → Type u)

/-- Programs that are started together, and what is made of their results. -/
inductive Flow (β : Type u) : Type (u + 1)
  | done (b : β)
  | gather {α : Type u} (progs : List (Prog Q A α)) (next : List α → Flow β)

structure Task (α : Type u) where
  /-- Its request has been sent and has no answer yet. -/
  sent : Bool
  prog : Prog Q A α

inductive Running (β : Type u) : Type (u + 1)
  | done (b : β)
  | gather {α : Type u} (tasks : List (Task Q A α)) (next : List α → Flow Q A β)

inductive Action
  /-- The task at a position sends its request. -/
  | sent (i : ℕ)
  | answered (i : ℕ) (reply : (q : Q) → A q)
  /-- All tasks are done. -/
  | joined

structure Pool (β : Type u) where
  permits : ℕ
  flows : List (Running Q A β)

end Flows

variable {Q : Type u} {A : Q → Type u} {α β : Type u}

def Task.idle (p : Prog Q A α) : Task Q A α := ⟨false, p⟩

/-- The request that has been sent and not been answered. -/
def Task.inFlight : Task Q A α → Option Q
  | ⟨true, .ask q _⟩ => some q
  | _ => none

/-- The results of tasks that are all done. -/
def results : List (Task Q A α) → Option (List α)
  | [] => some []
  | t :: ts => match result t.prog, results ts with
    | some a, some as => some (a :: as)
    | _, _ => none

def collectAll : List (Prog Q A α) → Prog Q A (List α)
  | [] => .done []
  | p :: ps => p.bind fun a => (collectAll ps).bind fun as => .done (a :: as)

namespace Flow

def start : Flow Q A β → Running Q A β
  | .done b => .done b
  | .gather progs next => .gather (progs.map .idle) next

/-- The programs one after the other. -/
def seq : Flow Q A β → Prog Q A β
  | .done b => .done b
  | .gather progs next => (collectAll progs).bind fun as => (next as).seq

/-- Only one program. -/
def await [Inhabited β] (p : Prog Q A α) (next : α → Flow Q A β) : Flow Q A β :=
  .gather [p] fun as => as.head?.elim (.done default) next

end Flow

namespace Running

/-- What is left to do, one program after the other. -/
def seq : Running Q A β → Prog Q A β
  | .done b => .done b
  | .gather tasks next => (collectAll (tasks.map Task.prog)).bind fun as => (next as).seq

def isDone : Running Q A β → Bool
  | .done _ => true
  | .gather _ _ => false

def inFlight : Running Q A β → List Q
  | .done _ => []
  | .gather tasks _ => tasks.filterMap Task.inFlight

variable (gated : Q → Bool)

/-- The permits a request holds until its answer. -/
def need (q : Q) : ℕ := if gated q then 1 else 0

/-- A gated request waits for a permit, and its answer gives the permit back. -/
def next (permits : ℕ) : Running Q A β → Action Q A → Option (ℕ × Running Q A β)
  | .done _, _ => none
  | .gather tasks next, .sent i => match tasks[i]? with
    | some ⟨false, .ask q resume⟩ =>
      if need gated q ≤ permits then
        some (permits - need gated q, .gather (tasks.set i ⟨true, .ask q resume⟩) next)
      else none
    | _ => none
  | .gather tasks next, .answered i reply => match tasks[i]? with
    | some ⟨true, .ask q resume⟩ =>
      some (permits + need gated q, .gather (tasks.set i ⟨false, resume (reply q)⟩) next)
    | _ => none
  | .gather tasks next, .joined => (results tasks).map fun as => (permits, (next as).start)

end Running

/-- The request of a task that has been sent and not been answered. -/
def Running.waiting (j : ℕ) : Running Q A β → Option Q
  | .done _ => none
  | .gather tasks _ => tasks[j]?.bind Task.inFlight

theorem exists_of_waiting {f : Running Q A β} {j : ℕ} {q : Q} (h : f.waiting j = some q) :
    ∃ (α : Type u) (tasks : List (Task Q A α)) (next : List α → Flow Q A β) (t : Task Q A α)
      (resume : A q → Prog Q A α), f = .gather tasks next ∧ tasks[j]? = some t ∧
        t.prog = .ask q resume := by
  cases f with
  | done b => cases h
  | gather tasks next =>
    obtain ⟨t, ht, hsent⟩ := Option.bind_eq_some_iff.1 h
    obtain ⟨sent | sent, a | ⟨q', resume⟩⟩ := t
    · cases hsent
    · cases hsent
    · cases hsent
    · cases hsent
      exact ⟨_, tasks, next, _, resume, rfl, ht, rfl⟩

def Running.outcome : Running Q A β → Option β
  | .done b => some b
  | .gather _ _ => none

theorem Running.eq_done_of_outcome {f : Running Q A β} {b : β} (h : f.outcome = some b) :
    f = .done b := by
  cases f with
  | done b' => rw [Option.some.inj h]
  | gather tasks next => cases h

def Action.replies : Action Q A → List ((q : Q) → A q)
  | .answered _ reply => [reply]
  | _ => []

def Action.isSent : Action Q A → Bool
  | .sent _ => true
  | _ => false

def repliesTo (n : ℕ) (es : List (ℕ × Action Q A)) : List ((q : Q) → A q) :=
  es.flatMap fun e => if e.1 = n then e.2.replies else []

def requestsOf (n : ℕ) (es : List (ℕ × Action Q A)) : ℕ :=
  es.countP fun e => e.1 = n ∧ e.2.isSent

namespace Pool

def inFlight (p : Pool Q A β) : List Q := p.flows.flatMap Running.inFlight

/-- One flow moves. -/
def next (gated : Q → Bool) (p : Pool Q A β) (e : ℕ × Action Q A) : Option (Pool Q A β) :=
  p.flows[e.1]?.bind fun f =>
    (f.next gated p.permits e.2).map fun m => ⟨m.1, p.flows.set e.1 m.2⟩

def Step (gated : Q → Bool) (p : Pool Q A β) (e : ℕ × Action Q A) (p' : Pool Q A β) : Prop :=
  p.next gated e = some p'

def start (limit : ℕ) (flows : List (Flow Q A β)) : Pool Q A β := ⟨limit, flows.map Flow.start⟩

end Pool

/-! ## What a flow can do -/

theorem exists_split {γ : Type*} {l : List γ} {i : ℕ} {a : γ} (h : l[i]? = some a) :
    ∃ before after, l = before ++ a :: after ∧ before.length = i := by
  induction l generalizing i with
  | nil => cases h
  | cons b l ih =>
    cases i with
    | zero =>
      cases h
      exact ⟨[], l, rfl, rfl⟩
    | succ i =>
      obtain ⟨before, after, rfl, rfl⟩ := ih h
      exact ⟨b :: before, after, rfl, rfl⟩

theorem set_split {γ : Type*} (before after : List γ) (a b : γ) :
    (before ++ a :: after).set before.length b = before ++ b :: after := by simp

theorem getElem?_split {γ : Type*} (before after : List γ) (a : γ) :
    (before ++ a :: after)[before.length]? = some a := by simp

section Moves

variable (gated : Q → Bool)

open Running in
/-- The moves of a flow, with the free permits before and after. -/
inductive Running.Moves : ℕ → Running Q A β → Action Q A → ℕ → Running Q A β → Prop
  | send {α : Type u} {q : Q} {resume : A q → Prog Q A α} (before after : List (Task Q A α))
      (next : List α → Flow Q A β) {n m : ℕ} (free : n = m + need gated q) :
      Moves n (.gather (before ++ ⟨false, .ask q resume⟩ :: after) next) (.sent before.length)
        m (.gather (before ++ ⟨true, .ask q resume⟩ :: after) next)
  | answer {α : Type u} {q : Q} {resume : A q → Prog Q A α} (before after : List (Task Q A α))
      (next : List α → Flow Q A β) (n : ℕ) (reply : (q : Q) → A q) :
      Moves n (.gather (before ++ ⟨true, .ask q resume⟩ :: after) next)
        (.answered before.length reply) (n + need gated q)
        (.gather (before ++ ⟨false, resume (reply q)⟩ :: after) next)
  | join {α : Type u} {tasks : List (Task Q A α)} {as : List α} (next : List α → Flow Q A β)
      (n : ℕ) (finished : results tasks = some as) :
      Moves n (.gather tasks next) .joined n (next as).start

variable {gated}

theorem Running.moves_of_next {n : ℕ} {f : Running Q A β} {e : Action Q A}
    {m : ℕ × Running Q A β} (h : f.next gated n e = some m) : Moves gated n f e m.1 m.2 := by
  cases f with
  | done b => cases h
  | gather tasks next =>
    cases e with
    | sent i =>
      simp only [Running.next] at h
      split at h
      · rename_i q resume htask
        obtain ⟨before, after, rfl, rfl⟩ := exists_split htask
        split at h
        · cases h
          rw [set_split]
          exact .send before after next (by omega)
        · cases h
      · cases h
    | answered i reply =>
      simp only [Running.next] at h
      split at h
      · rename_i q resume htask
        obtain ⟨before, after, rfl, rfl⟩ := exists_split htask
        cases h
        rw [set_split]
        exact .answer before after next n reply
      · cases h
    | joined =>
      obtain ⟨as, has, rfl⟩ := Option.map_eq_some_iff.1 h
      exact .join next n has

theorem Running.Moves.next {n m : ℕ} {f f' : Running Q A β} {e : Action Q A}
    (h : Moves gated n f e m f') : f.next gated n e = some (m, f') := by
  cases h with
  | send before after next free =>
    simp only [Running.next, getElem?_split, set_split]
    rw [if_pos (by omega), free, Nat.add_sub_cancel]
  | answer before after next n reply => simp only [Running.next, getElem?_split, set_split]
  | join next n finished => simp only [Running.next, finished, Option.map_some]

theorem Pool.step_iff_moves {p p' : Pool Q A β} {e : ℕ × Action Q A} :
    Pool.Step gated p e p' ↔ ∃ f f', p.flows[e.1]? = some f ∧
      f.Moves gated p.permits e.2 p'.permits f' ∧ p'.flows = p.flows.set e.1 f' := by
  constructor
  · intro h
    obtain ⟨f, hf, h⟩ := Option.bind_eq_some_iff.1 h
    obtain ⟨m, hm, rfl⟩ := Option.map_eq_some_iff.1 h
    exact ⟨f, m.2, hf, Running.moves_of_next hm, rfl⟩
  · rintro ⟨f, f', hf, hmove, hflows⟩
    cases p'
    simp only at hflows hmove
    subst hflows
    rw [Pool.Step, Pool.next, hf, Option.bind_some, hmove.next, Option.map_some]

/-- One flow of a pool moves, and the others stay as they are. -/
theorem Pool.step_iff {p p' : Pool Q A β} {e : ℕ × Action Q A} :
    Pool.Step gated p e p' ↔ ∃ before after f f', p.flows = before ++ f :: after ∧
      before.length = e.1 ∧ f.Moves gated p.permits e.2 p'.permits f' ∧
      p'.flows = before ++ f' :: after := by
  refine step_iff_moves.trans ⟨?_, ?_⟩
  · rintro ⟨f, f', hf, hmove, hflows⟩
    obtain ⟨before, after, hsplit, hlen⟩ := exists_split hf
    exact ⟨before, after, f, f', hsplit, hlen, hmove, by rw [hflows, hsplit, ← hlen, set_split]⟩
  · rintro ⟨before, after, f, f', hsplit, hlen, hmove, hflows⟩
    refine ⟨f, f', ?_, hmove, ?_⟩
    · rw [hsplit, ← hlen, getElem?_split]
    · rw [hflows, hsplit, ← hlen, set_split]

/-! ## The permits -/

theorem Task.inFlight_done (sent : Bool) (a : α) :
    (⟨sent, .done a⟩ : Task Q A α).inFlight = none := by
  cases sent <;> rfl

theorem inFlight_idle (progs : List (Prog Q A α)) :
    (progs.map Task.idle).filterMap Task.inFlight = [] := by
  simp [Task.idle, Task.inFlight]

theorem inFlight_eq_nil_of_results {tasks : List (Task Q A α)} {as : List α}
    (h : results tasks = some as) : tasks.filterMap Task.inFlight = [] := by
  induction tasks generalizing as with
  | nil => rfl
  | cons t tasks ih =>
    obtain ⟨sent, a | ⟨q, resume⟩⟩ := t
    · unfold results at h
      split at h
      · rename_i htasks
        rw [List.filterMap_cons, Task.inFlight_done]
        exact ih htasks
      · cases h
    · cases h

theorem Flow.start_inFlight (f : Flow Q A β) : f.start.inFlight = [] := by
  cases f with
  | done b => rfl
  | gather progs next => exact inFlight_idle progs

/-- A permit is free or held by a gated request in flight. -/
theorem Running.Moves.permits {n m : ℕ} {f f' : Running Q A β} {e : Action Q A}
    (h : Moves gated n f e m f') :
    m + f'.inFlight.countP gated = n + f.inFlight.countP gated := by
  cases h with
  | send before after next free =>
    simp only [inFlight, List.filterMap_append, List.filterMap_cons, Task.inFlight,
      List.countP_append, List.countP_cons]
    simp only [need] at free
    omega
  | answer before after next n reply =>
    simp only [inFlight, List.filterMap_append, List.filterMap_cons, Task.inFlight,
      List.countP_append, List.countP_cons, need]
    omega
  | join next n finished =>
    rw [Flow.start_inFlight, Running.inFlight, inFlight_eq_nil_of_results finished]

theorem Pool.Step.permits {p p' : Pool Q A β} {e : ℕ × Action Q A} (h : Pool.Step gated p e p') :
    p'.permits + p'.inFlight.countP gated = p.permits + p.inFlight.countP gated := by
  obtain ⟨before, after, f, f', hflows, -, hmove, hflows'⟩ := Pool.step_iff.1 h
  have := hmove.permits
  simp only [Pool.inFlight, hflows, hflows', List.flatMap_append, List.flatMap_cons,
    List.countP_append]
  omega

theorem Pool.start_inFlight (limit : ℕ) (flows : List (Flow Q A β)) :
    (Pool.start limit flows).inFlight = [] := by
  simp [Pool.start, Pool.inFlight, Flow.start_inFlight]

/-- In every run the free permits and the gated requests in flight are as many as the limit. -/
theorem Pool.permits_of_run {limit : ℕ} {flows : List (Flow Q A β)} {p : Pool Q A β}
    {es : List (ℕ × Action Q A)} (h : Run (Pool.Step gated) (.start limit flows) es p) :
    p.permits + p.inFlight.countP gated = limit := by
  refine h.invariant (I := fun p => p.permits + p.inFlight.countP gated = limit) ?_ ?_
  · intro p e p' hp hstep
    rw [hstep.permits, hp]
  · rw [Pool.start_inFlight]
    rfl

/-! ## One program after the other -/

/-- The answer of a request is all it leaves behind. -/
def answering : Server Q A Unit ((q : Q) → A q) := fun _ q reply => (reply q, ())

def Completes (p : Prog Q A α) (replies : List ((q : Q) → A q)) (a : α) : Prop :=
  Run (Session answering) ((), p) replies ((), .done a)

theorem exists_run_of_answering {σ : Type*} {srv : Server Q A σ ((q : Q) → A q)}
    (hsrv : ∀ s q reply, (srv s q reply).1 = reply q) {p p' : Prog Q A α}
    {rs : List ((q : Q) → A q)} (h : Run (Session answering) ((), p) rs ((), p')) (s : σ) :
    ∃ s', Run (Session srv) (s, p) rs (s', p') := by
  induction rs generalizing s p with
  | nil =>
    cases h
    exact ⟨s, .nil _⟩
  | cons reply rs ih =>
    cases p with
    | done a => cases (run_done.1 h).1
    | ask q resume =>
      rcases run_ask.1 h with ⟨hnil, -⟩ | ⟨_, _, hcons, hrest⟩
      · cases hnil
      · cases hcons
        obtain ⟨s', hrun⟩ := ih hrest (srv s q reply).2
        refine ⟨s', .cons rfl ?_⟩
        rwa [hsrv]

theorem completes_bind {p : Prog Q A α} {g : α → Prog Q A β} {rs rs' : List ((q : Q) → A q)}
    {a : α} {b : β} (h : Completes p rs a) (h' : Completes (g a) rs' b) :
    Completes (p.bind g) (rs ++ rs') b :=
  (run_bind_left h g).append h'

theorem exists_of_completes_bind {p : Prog Q A α} {g : α → Prog Q A β}
    {rs : List ((q : Q) → A q)} {b : β} (h : Completes (p.bind g) rs b) :
    ∃ rs₁ rs₂ a, rs = rs₁ ++ rs₂ ∧ Completes p rs₁ a ∧ Completes (g a) rs₂ b := by
  obtain ⟨rs₁, rs₂, ⟨⟩, a, hsplit, hfirst, hthen⟩ := exists_of_run_bind h
  exact ⟨rs₁, rs₂, a, hsplit, hfirst, hthen⟩

theorem results_eq_some_iff {tasks : List (Task Q A α)} {as : List α} :
    results tasks = some as ↔ tasks.map Task.prog = as.map .done := by
  induction tasks generalizing as with
  | nil => cases as <;> simp [results]
  | cons t tasks ih =>
    obtain ⟨sent, a | ⟨q, resume⟩⟩ := t
    · cases htasks : results tasks with
      | none =>
        cases as with
        | nil => simp [results, result, htasks]
        | cons a' as => simp [results, result, htasks, ← ih]
      | some as' =>
        cases as with
        | nil => simp [results, result, htasks]
        | cons a' as => simp [results, result, htasks, ← ih]
    · cases as <;> simp [results, result]

theorem completes_results {tasks : List (Task Q A α)} {as : List α}
    (h : results tasks = some as) : Completes (collectAll (tasks.map Task.prog)) [] as := by
  induction tasks generalizing as with
  | nil =>
    cases h
    exact .nil _
  | cons t tasks ih =>
    obtain ⟨sent, a | ⟨q, resume⟩⟩ := t
    · unfold results at h
      split at h
      · rename_i ha htasks
        cases h
        cases ha
        have hrest : Completes ((collectAll (tasks.map Task.prog)).bind fun as => .done (a :: as))
            ([] ++ []) (a :: _) := completes_bind (ih htasks) (.nil _)
        exact hrest
      · cases h
    · cases h

/-- An answer that one of the programs gets while the others are on their way could have come
when it is this program's turn. -/
theorem completes_answer {q : Q} {resume : A q → Prog Q A α} (reply : (q : Q) → A q)
    (before after : List (Prog Q A α)) {rs : List ((q : Q) → A q)} {as : List α}
    (h : Completes (collectAll (before ++ resume (reply q) :: after)) rs as) :
    ∃ rs', rs'.Perm (reply :: rs) ∧
      Completes (collectAll (before ++ .ask q resume :: after)) rs' as := by
  induction before generalizing rs as with
  | nil =>
    obtain ⟨rs₁, rs₂, a, rfl, hfirst, hthen⟩ := exists_of_completes_bind h
    have hasks : Completes (.ask q resume) (reply :: rs₁) a := .cons rfl hfirst
    exact ⟨reply :: (rs₁ ++ rs₂), .refl _, completes_bind hasks hthen⟩
  | cons p before ih =>
    obtain ⟨rs₁, rs₂, a, rfl, hfirst, hthen⟩ := exists_of_completes_bind h
    obtain ⟨rs₂, rs₃, as, rfl, hrest, hend⟩ := exists_of_completes_bind hthen
    obtain ⟨rs₂', hperm, hrest'⟩ := ih hrest
    refine ⟨rs₁ ++ (rs₂' ++ rs₃), ?_, completes_bind hfirst (completes_bind hrest' hend)⟩
    have hinner : (rs₁ ++ (rs₂' ++ rs₃)).Perm (rs₁ ++ reply :: (rs₂ ++ rs₃)) :=
      (hperm.append_right rs₃).append_left rs₁
    exact hinner.trans List.perm_middle

theorem Flow.start_seq (f : Flow Q A β) : f.start.seq = f.seq := by
  cases f with
  | done b => rfl
  | gather progs next =>
    have hprogs : (progs.map Task.idle).map Task.prog = progs := by
      rw [List.map_map]
      exact List.map_id _
    simp only [Flow.start, Running.seq, Flow.seq, hprogs]

/-- What a flow can end with after a move, one program after the other, it could end with before. -/
theorem Running.Moves.seq {n m : ℕ} {f f' : Running Q A β} {e : Action Q A}
    (h : Moves gated n f e m f') {rs : List ((q : Q) → A q)} {b : β}
    (hend : Completes f'.seq rs b) :
    ∃ rs', rs'.Perm (e.replies ++ rs) ∧ Completes f.seq rs' b := by
  cases h with
  | send before after next free =>
    refine ⟨rs, .refl _, ?_⟩
    simpa only [Running.seq, List.map_append, List.map_cons] using hend
  | answer before after next n reply =>
    obtain ⟨rs₁, rs₂, as, rfl, hgather, hnext⟩ := exists_of_completes_bind hend
    rw [List.map_append, List.map_cons] at hgather
    obtain ⟨rs', hperm, hgather'⟩ := completes_answer reply _ _ hgather
    refine ⟨rs' ++ rs₂, hperm.append_right rs₂, completes_bind ?_ hnext⟩
    rwa [List.map_append, List.map_cons]
  | join next n finished =>
    rw [Flow.start_seq] at hend
    exact ⟨rs, .refl _, completes_bind (completes_results finished) hend⟩

theorem Pool.Step.flow {p p' : Pool Q A β} {e : ℕ × Action Q A} (h : Pool.Step gated p e p')
    {i : ℕ} {f' : Running Q A β} (hf' : p'.flows[i]? = some f') : ∃ f, p.flows[i]? = some f ∧
      if e.1 = i then f.Moves gated p.permits e.2 p'.permits f' else f' = f := by
  obtain ⟨before, after, f, f₁, hflows, hlen, hmove, hflows'⟩ := Pool.step_iff.1 h
  rw [hflows'] at hf'
  rw [hflows]
  by_cases hi : e.1 = i
  · subst hi
    rw [← hlen, getElem?_split] at hf'
    cases hf'
    exact ⟨f, by rw [← hlen, getElem?_split], by rwa [if_pos rfl]⟩
  · rw [← set_split before after f f₁, hlen, List.getElem?_set_ne hi] at hf'
    exact ⟨f', hf', by rw [if_neg hi]⟩

/-- Every run of a pool is, for each of its flows, a run of one program after the other with the
same replies in another order. -/
theorem Pool.seq_of_run {p p' : Pool Q A β} {es : List (ℕ × Action Q A)}
    (h : Run (Pool.Step gated) p es p') {i : ℕ} {f' : Running Q A β}
    (hf' : p'.flows[i]? = some f') : ∃ f, p.flows[i]? = some f ∧
      ∀ rs b, Completes f'.seq rs b →
        ∃ rs', rs'.Perm (repliesTo i es ++ rs) ∧ Completes f.seq rs' b := by
  induction h with
  | nil p => exact ⟨f', hf', fun rs b hend => ⟨rs, .refl _, hend⟩⟩
  | @cons p p₁ p' e es first rest ih =>
    obtain ⟨f₁, hf₁, hlater⟩ := ih hf'
    obtain ⟨f, hf, hfirst⟩ := first.flow hf₁
    refine ⟨f, hf, fun rs b hend => ?_⟩
    obtain ⟨rs₁, hperm₁, hend₁⟩ := hlater rs b hend
    rw [repliesTo, List.flatMap_cons, List.append_assoc]
    split_ifs at hfirst ⊢ with hi
    · obtain ⟨rs', hperm, hend'⟩ := hfirst.seq hend₁
      exact ⟨rs', hperm.trans (hperm₁.append_left _), hend'⟩
    · subst hfirst
      exact ⟨rs₁, hperm₁, hend₁⟩

/-- A flow that is done has ended as it does one program after the other. -/
theorem Pool.completes_of_run {limit : ℕ} {flows : List (Flow Q A β)} {p : Pool Q A β}
    {es : List (ℕ × Action Q A)} (h : Run (Pool.Step gated) (.start limit flows) es p) {i : ℕ}
    {b : β} (hdone : p.flows[i]? = some (.done b)) : ∃ f, flows[i]? = some f ∧
      ∃ rs, rs.Perm (repliesTo i es) ∧ Completes f.seq rs b := by
  obtain ⟨f, hf, hseq⟩ := Pool.seq_of_run h hdone
  obtain ⟨f, hflow, rfl⟩ : ∃ f₀, flows[i]? = some f₀ ∧ f₀.start = f := by
    rw [Pool.start, List.getElem?_map] at hf
    exact Option.map_eq_some_iff.1 hf
  obtain ⟨rs, hperm, hend⟩ := hseq [] b (.nil _)
  rw [List.append_nil] at hperm
  rw [Flow.start_seq] at hend
  exact ⟨f, hflow, rs, hperm, hend⟩

theorem Pool.length_of_run {p p' : Pool Q A β} {es : List (ℕ × Action Q A)}
    (h : Run (Pool.Step gated) p es p') : p'.flows.length = p.flows.length := by
  refine h.invariant (I := fun p' => p'.flows.length = p.flows.length) ?_ rfl
  intro p₁ e p₂ hlen hstep
  obtain ⟨before, after, f, f', hflows, -, -, hflows'⟩ := Pool.step_iff.1 hstep
  rw [← hlen, hflows, hflows', List.length_append, List.length_append]
  rfl

/-! ## The tasks of a flow -/

/-- What a flow can go on with, whatever its programs end with. -/
inductive Flow.Reaches (f : Flow Q A β) : Flow Q A β → Prop
  | refl : Reaches f f
  | next {α : Type u} {progs : List (Prog Q A α)} {next : List α → Flow Q A β}
      (h : Reaches f (.gather progs next)) (as : List α) : Reaches f (next as)

/-- The answers to a task after an event of its flow. -/
def Action.answers (j : ℕ) (rs : List ((q : Q) → A q)) : Action Q A → List ((q : Q) → A q)
  | .sent _ => rs
  | .answered k reply => if k = j then rs ++ [reply] else rs
  | .joined => []

/-- The answers to a task of a flow since it was gathered, after those in `rs`. -/
def answersFrom (i j : ℕ) (rs : List ((q : Q) → A q)) (es : List (ℕ × Action Q A)) :
    List ((q : Q) → A q) :=
  es.foldl (fun rs e => if e.1 = i then e.2.answers j rs else rs) rs

def answersTo (i j : ℕ) (es : List (ℕ × Action Q A)) : List ((q : Q) → A q) := answersFrom i j [] es

/-- Each task is what remains of its program after the answers to it. -/
def Running.Remains (flow : Flow Q A β) (answers : ℕ → List ((q : Q) → A q)) :
    Running Q A β → Prop
  | .done b => flow.Reaches (.done b)
  | .gather tasks next => ∃ progs, flow.Reaches (.gather progs next) ∧
      ∀ j t, tasks[j]? = some t → ∃ prog, progs[j]? = some prog ∧
        Run (Session answering) ((), prog) (answers j) ((), t.prog)

theorem Flow.start_remains {flow f : Flow Q A β} (h : flow.Reaches f) :
    f.start.Remains flow fun _ => [] := by
  cases f with
  | done b => exact h
  | gather progs next =>
    refine ⟨progs, h, fun j t ht => ?_⟩
    obtain ⟨prog, hprog, rfl⟩ := Option.map_eq_some_iff.1 (List.getElem?_map ▸ ht)
    exact ⟨prog, hprog, .nil _⟩

theorem Running.Moves.remains {n m : ℕ} {f f' : Running Q A β} {e : Action Q A}
    (h : Moves gated n f e m f') {flow : Flow Q A β} {answers : ℕ → List ((q : Q) → A q)}
    (hf : f.Remains flow answers) : f'.Remains flow fun j => e.answers j (answers j) := by
  cases h with
  | @send _ q resume before after next free =>
    obtain ⟨progs, hreaches, htasks⟩ := hf
    refine ⟨progs, hreaches, fun j t ht => ?_⟩
    rw [← set_split before after ⟨false, .ask q resume⟩, List.getElem?_set] at ht
    split_ifs at ht with hj
    · cases ht
      subst hj
      exact htasks before.length ⟨false, .ask q resume⟩ (getElem?_split before after _)
    · exact htasks j t ht
  | @answer _ q resume before after next n reply =>
    obtain ⟨progs, hreaches, htasks⟩ := hf
    refine ⟨progs, hreaches, fun j t ht => ?_⟩
    rw [← set_split before after ⟨true, .ask q resume⟩, List.getElem?_set] at ht
    simp only [Action.answers]
    split_ifs at ht ⊢ with hj
    · cases ht
      obtain ⟨prog, hprog, hrun⟩ := htasks before.length _ (getElem?_split before after _)
      subst hj
      exact ⟨prog, hprog, hrun.append (.single rfl)⟩
    · exact htasks j t ht
  | join next n finished =>
    obtain ⟨progs, hreaches, -⟩ := hf
    exact Flow.start_remains (.next hreaches _)

theorem Pool.remains_of_run {p p' : Pool Q A β} {es : List (ℕ × Action Q A)}
    (h : Run (Pool.Step gated) p es p') {i : ℕ} {f' : Running Q A β}
    (hf' : p'.flows[i]? = some f') : ∃ f, p.flows[i]? = some f ∧
      ∀ flow answers, f.Remains flow answers →
        f'.Remains flow fun j => answersFrom i j (answers j) es := by
  induction h with
  | nil p => exact ⟨f', hf', fun flow answers h => h⟩
  | @cons p p₁ p' e es first rest ih =>
    obtain ⟨f₁, hf₁, hlater⟩ := ih hf'
    obtain ⟨f, hf, hfirst⟩ := first.flow hf₁
    refine ⟨f, hf, fun flow answers h => ?_⟩
    simp only [answersFrom, List.foldl_cons]
    split_ifs at hfirst ⊢ with hi
    · exact hlater flow _ (hfirst.remains h)
    · subst hfirst
      exact hlater flow answers h

/-- At every moment of every run, each task is what remains of the program that its flow has
gathered, after the answers to it. -/
theorem Pool.exists_program {limit : ℕ} {flows : List (Flow Q A β)} {p : Pool Q A β}
    {es : List (ℕ × Action Q A)} (h : Run (Pool.Step gated) (.start limit flows) es p) {i j : ℕ}
    {flow : Flow Q A β} (hflow : flows[i]? = some flow) {tasks : List (Task Q A α)}
    {next : List α → Flow Q A β} (hf : p.flows[i]? = some (.gather tasks next)) {t : Task Q A α}
    (ht : tasks[j]? = some t) : ∃ progs prog, flow.Reaches (.gather progs next) ∧
      progs[j]? = some prog ∧
      Run (Session answering) ((), prog) (answersTo i j es) ((), t.prog) := by
  obtain ⟨f, hstart, hremains⟩ := Pool.remains_of_run h hf
  rw [Pool.start, List.getElem?_map, hflow] at hstart
  cases hstart
  obtain ⟨progs, hreaches, htasks⟩ := hremains flow (fun _ => []) (Flow.start_remains .refl)
  obtain ⟨prog, hprog, hrun⟩ := htasks j t ht
  exact ⟨progs, prog, hreaches, hprog, hrun⟩

/-! ## The requests of a flow -/

theorem Running.Moves.requests {n m : ℕ} {f f' : Running Q A β} {e : Action Q A}
    (h : Moves gated n f e m f') :
    f'.inFlight.length + e.replies.length = f.inFlight.length + if e.isSent then 1 else 0 := by
  cases h with
  | send before after next free =>
    simp only [inFlight, List.filterMap_append, List.filterMap_cons, Task.inFlight,
      List.length_append, List.length_cons, Action.replies, Action.isSent, List.length_nil, if_true]
    omega
  | answer before after next n reply =>
    simp only [inFlight, List.filterMap_append, List.filterMap_cons, Task.inFlight,
      List.length_append, List.length_cons, Action.replies, Action.isSent, List.length_nil,
      Bool.false_eq_true, if_false]
    omega
  | join next n finished =>
    rw [Flow.start_inFlight, Running.inFlight, inFlight_eq_nil_of_results finished]
    rfl

/-- Every request that a flow has sent has been answered or is in flight. -/
theorem Pool.requests_of_run {p p' : Pool Q A β} {es : List (ℕ × Action Q A)}
    (h : Run (Pool.Step gated) p es p') {i : ℕ} {f' : Running Q A β}
    (hf' : p'.flows[i]? = some f') : ∃ f, p.flows[i]? = some f ∧
      f'.inFlight.length + (repliesTo i es).length = f.inFlight.length + requestsOf i es := by
  induction h with
  | nil p => exact ⟨f', hf', rfl⟩
  | @cons p p₁ p' e es first rest ih =>
    obtain ⟨f₁, hf₁, hlater⟩ := ih hf'
    obtain ⟨f, hf, hfirst⟩ := first.flow hf₁
    refine ⟨f, hf, ?_⟩
    simp only [repliesTo, requestsOf, List.flatMap_cons, List.length_append, List.countP_cons]
      at hlater ⊢
    by_cases hi : e.1 = i
    · rw [if_pos hi] at hfirst ⊢
      have hmove := hfirst.requests
      simp only [hi, true_and, decide_eq_true_eq] at hmove ⊢
      omega
    · rw [if_neg hi] at hfirst ⊢
      subst hfirst
      simp only [hi, false_and, decide_false, Bool.false_eq_true, if_false, List.length_nil]
      omega

section Completions

variable (reply : (q : Q) → A q)

theorem exists_completes (p : Prog Q A α) : ∃ n a, Completes p (List.replicate n reply) a := by
  have hanswers : ∀ (s : Unit) (q : Q), (answering s q reply).1 = reply q := fun _ _ => rfl
  obtain ⟨n, ⟨⟩, hrun⟩ := exists_run_play hanswers () p
  exact ⟨n, _, hrun⟩

theorem exists_completes_tasks (tasks : List (Task Q A α)) : ∃ n as,
    Completes (collectAll (tasks.map Task.prog)) (List.replicate n reply) as ∧
      (tasks.filterMap Task.inFlight).length ≤ n := by
  induction tasks with
  | nil => exact ⟨0, [], .nil _, Nat.le_refl _⟩
  | cons t tasks ih =>
    obtain ⟨n, as, hrest, hle⟩ := ih
    obtain ⟨m, a, hfirst⟩ := exists_completes reply t.prog
    refine ⟨m + (n + 0), a :: as, ?_, ?_⟩
    · rw [← List.replicate_append_replicate, ← List.replicate_append_replicate]
      exact completes_bind hfirst (completes_bind hrest (.nil _))
    · have hsent : (t.inFlight.toList).length ≤ m := by
        obtain ⟨_ | _, a | ⟨q, resume⟩⟩ := t
        · exact Nat.zero_le m
        · exact Nat.zero_le m
        · exact Nat.zero_le m
        · cases m with
          | zero => cases hfirst
          | succ m => exact Nat.succ_le_succ (Nat.zero_le m)
      cases hflight : t.inFlight with
      | none =>
        rw [List.filterMap_cons_none hflight]
        omega
      | some q =>
        rw [hflight] at hsent
        rw [List.filterMap_cons_some hflight]
        simp only [Option.toList_some, List.length_cons, List.length_nil] at hsent ⊢
        omega

/-- What is left of a flow asks at least for what is in flight. -/
theorem Running.exists_completes (f : Running Q A β) : ∃ n b,
    Completes f.seq (List.replicate n reply) b ∧ f.inFlight.length ≤ n := by
  cases f with
  | done b => exact ⟨0, b, .nil _, Nat.le_refl _⟩
  | gather tasks next =>
    obtain ⟨n, as, htasks, hle⟩ := exists_completes_tasks reply tasks
    obtain ⟨m, b, hnext⟩ := GatheredPrograms.exists_completes reply (next as).seq
    refine ⟨n + m, b, ?_, hle.trans (Nat.le_add_right n m)⟩
    rw [← List.replicate_append_replicate]
    exact completes_bind htasks hnext

/-- The requests of a flow at any moment are among those of a run of one program after the
other, which goes on from the replies so far with any reply. -/
theorem Pool.exists_completion {limit : ℕ} {flows : List (Flow Q A β)} {p : Pool Q A β}
    {es : List (ℕ × Action Q A)} (h : Run (Pool.Step gated) (.start limit flows) es p) {i : ℕ}
    {f : Flow Q A β} (hf : flows[i]? = some f) : ∃ n rs b,
      rs.Perm (repliesTo i es ++ List.replicate n reply) ∧ Completes f.seq rs b ∧
      requestsOf i es ≤ rs.length := by
  have hstart : (Pool.start limit flows).flows[i]? = some f.start := by
    rw [Pool.start, List.getElem?_map, hf, Option.map_some]
  have hlen : i < p.flows.length := by
    rw [Pool.length_of_run h]
    exact (List.getElem?_eq_some_iff.1 hstart).1
  have hf' : p.flows[i]? = some p.flows[i] := List.getElem?_eq_getElem hlen
  obtain ⟨f₁, hf₁, hrequests⟩ := Pool.requests_of_run h hf'
  obtain ⟨f₂, hf₂, hseq⟩ := Pool.seq_of_run h hf'
  rw [hstart] at hf₁ hf₂
  cases hf₁
  cases hf₂
  obtain ⟨n, b, hend, hle⟩ := Running.exists_completes reply p.flows[i]
  obtain ⟨rs, hperm, hcompletes⟩ := hseq _ b hend
  rw [Flow.start_seq] at hcompletes
  refine ⟨n, rs, b, hperm, hcompletes, ?_⟩
  rw [hperm.length_eq, List.length_append, List.length_replicate]
  rw [Flow.start_inFlight, List.length_nil, Nat.zero_add] at hrequests
  omega

end Completions

/-! ## Every schedule ends -/

/-- One element of a list is replaced by one that is smaller. -/
def Replaced {γ : Type*} (r : γ → γ → Prop) (l' l : List γ) : Prop :=
  ∃ before after a' a, r a' a ∧ l = before ++ a :: after ∧ l' = before ++ a' :: after

theorem acc_replaced_cons {γ : Type*} {r : γ → γ → Prop} {a : γ} {l : List γ} (ha : Acc r a)
    (hl : Acc (Replaced r) l) : Acc (Replaced r) (a :: l) := by
  induction ha generalizing l with
  | intro a _ iha =>
    induction hl with
    | intro l hl ihl =>
      constructor
      rintro _ ⟨_ | ⟨b, before⟩, after, a', c, hr, heq, rfl⟩
      · cases heq
        exact iha a' hr (Acc.intro l hl)
      · cases heq
        exact ihl _ ⟨before, after, a', c, hr, rfl, rfl⟩

theorem acc_replaced {γ : Type*} {r : γ → γ → Prop} {l : List γ} (h : ∀ a ∈ l, Acc r a) :
    Acc (Replaced r) l := by
  induction l with
  | nil =>
    refine ⟨_, ?_⟩
    rintro _ ⟨before, after, a', a, -, heq, -⟩
    simp at heq
  | cons a l ih =>
    exact acc_replaced_cons (h a (by simp)) (ih fun b hb => h b (by simp [hb]))

/-- A task after it has sent its request, or after the answer. -/
inductive Task.After : Task Q A α → Task Q A α → Prop
  | sent {q : Q} {resume : A q → Prog Q A α} : After ⟨true, .ask q resume⟩ ⟨false, .ask q resume⟩
  | answered {q : Q} {resume : A q → Prog Q A α} (a : A q) :
    After ⟨false, resume a⟩ ⟨true, .ask q resume⟩

theorem Task.acc (t : Task Q A α) : Acc After t := by
  obtain ⟨sent, p⟩ := t
  induction p generalizing sent with
  | done a =>
    refine ⟨_, ?_⟩
    rintro _ ⟨⟩
  | ask q resume ih =>
    have hsent : Acc After (⟨true, .ask q resume⟩ : Task Q A α) := by
      refine ⟨_, ?_⟩
      rintro _ ⟨⟩
      exact ih _ false
    cases sent with
    | true => exact hsent
    | false =>
      refine ⟨_, ?_⟩
      rintro _ ⟨⟩
      exact hsent

def Running.After (gated : Q → Bool) (f' f : Running Q A β) : Prop :=
  ∃ n e m, f.Moves gated n e m f'

theorem Running.acc_gather {tasks : List (Task Q A α)} {next : List α → Flow Q A β}
    (hnext : ∀ as, Acc (After gated) (next as).start) :
    Acc (After gated) (.gather tasks next) := by
  induction acc_replaced (r := Task.After) fun t (_ : t ∈ tasks) => t.acc with
  | intro tasks _ ih =>
    refine ⟨_, ?_⟩
    rintro _ ⟨n, e, m, hmove⟩
    cases hmove with
    | send before after next free => exact ih _ ⟨before, after, _, _, .sent, rfl, rfl⟩
    | answer before after next n reply =>
      exact ih _ ⟨before, after, _, _, .answered _, rfl, rfl⟩
    | join next n finished => exact hnext _

theorem Running.acc_done (b : β) : Acc (After gated) (.done b : Running Q A β) := by
  refine ⟨_, ?_⟩
  rintro _ ⟨n, e, m, hmove⟩
  cases hmove

theorem Flow.acc_start (f : Flow Q A β) : Acc (Running.After gated) f.start := by
  induction f with
  | done b => exact Running.acc_done b
  | gather progs next ih => exact Running.acc_gather ih

theorem Running.acc (f : Running Q A β) : Acc (After gated) f := by
  cases f with
  | done b => exact Running.acc_done b
  | gather tasks next => exact Running.acc_gather fun as => (next as).acc_start

theorem Pool.acc (p : Pool Q A β) : Acc (fun p' p => ∃ e, Pool.Step gated p e p') p := by
  have hflows : Acc (Replaced (Running.After gated)) p.flows := acc_replaced fun f _ => f.acc
  refine Subrelation.accessible ?_ (InvImage.accessible Pool.flows hflows)
  rintro p' p ⟨e, hstep⟩
  obtain ⟨before, after, f, f', hflows, -, hmove, hflows'⟩ := Pool.step_iff.1 hstep
  exact ⟨before, after, f', f, ⟨_, _, _, hmove⟩, hflows, hflows'⟩

/-- No schedule of a pool goes on for ever. -/
theorem Pool.ends (schedule : ℕ → Pool Q A β) :
    ∃ n, ∀ e, ¬ Pool.Step gated (schedule n) e (schedule (n + 1)) := by
  by_contra hsteps
  push Not at hsteps
  exact (acc_iff_isEmpty_descending_chain.1 (Pool.acc (schedule 0))).false ⟨schedule, rfl, hsteps⟩

/-! ## No flow waits for ever -/

/-- A task has a request, or all are done. -/
theorem exists_ask (tasks : List (Task Q A α)) :
    (∃ before sent q resume after, tasks = before ++ ⟨sent, .ask q resume⟩ :: after) ∨
      ∃ as, results tasks = some as := by
  induction tasks with
  | nil => exact .inr ⟨[], rfl⟩
  | cons t tasks ih =>
    obtain ⟨sent, a | ⟨q, resume⟩⟩ := t
    · rcases ih with ⟨before, sent', q, resume, after, rfl⟩ | ⟨as, has⟩
      · exact .inl ⟨_ :: before, sent', q, resume, after, rfl⟩
      · refine .inr ⟨a :: as, ?_⟩
        simp only [results, result, has]
    · exact .inl ⟨[], sent, q, resume, tasks, rfl⟩

variable (reply : (q : Q) → A q)

/-- With a free permit a flow that is not done can move. -/
theorem Running.exists_moves {n : ℕ} (hn : 1 ≤ n) {f : Running Q A β} (hf : f.isDone = false) :
    ∃ e m f', f.Moves gated n e m f' ∧ ∀ r ∈ e.replies, r = reply := by
  cases f with
  | done b => cases hf
  | gather tasks next =>
    rcases exists_ask tasks with ⟨before, sent, q, resume, after, rfl⟩ | ⟨as, has⟩
    · cases sent with
      | false =>
        have hneed : need gated q ≤ 1 := by
          unfold need
          split <;> omega
        have hfree := Nat.sub_add_cancel (Nat.le_trans hneed hn)
        exact ⟨_, _, _, .send before after next hfree.symm, nofun⟩
      | true => exact ⟨_, _, _, .answer before after next n reply, by simp [Action.replies]⟩
    · exact ⟨_, _, _, .join next n has, nofun⟩

/-- A request in flight can be answered. -/
theorem Running.exists_answer (n : ℕ) {f : Running Q A β} {q : Q} (hq : q ∈ f.inFlight) :
    ∃ e m f', f.Moves gated n e m f' ∧ ∀ r ∈ e.replies, r = reply := by
  cases f with
  | done b => cases hq
  | gather tasks next =>
    obtain ⟨t, ht, hsent⟩ := List.mem_filterMap.1 hq
    obtain ⟨before, after, rfl⟩ := List.append_of_mem ht
    obtain ⟨sent | sent, a | ⟨q', resume⟩⟩ := t
    · cases hsent
    · cases hsent
    · cases hsent
    · exact ⟨_, _, _, .answer before after next n reply, by simp [Action.replies]⟩

theorem Pool.exists_step_of_moves {p : Pool Q A β} {f : Running Q A β} (hf : f ∈ p.flows)
    (h : ∃ e m f', f.Moves gated p.permits e m f' ∧ ∀ r ∈ e.replies, r = reply) :
    ∃ e p', Pool.Step gated p e p' ∧ ∀ r ∈ e.2.replies, r = reply := by
  obtain ⟨e, m, f', hmove, hreplies⟩ := h
  obtain ⟨before, after, hsplit⟩ := List.append_of_mem hf
  exact ⟨(before.length, e), ⟨m, before ++ f' :: after⟩,
    Pool.step_iff.2 ⟨before, after, f, f', hsplit, rfl, hmove, rfl⟩, hreplies⟩

/-- As long as there is a permit at all, no pool is stuck before all its flows are done. -/
theorem Pool.exists_step {p : Pool Q A β} (hp : 1 ≤ p.permits + p.inFlight.countP gated)
    {f : Running Q A β} (hf : f ∈ p.flows) (hdone : f.isDone = false) :
    ∃ e p', Pool.Step gated p e p' ∧ ∀ r ∈ e.2.replies, r = reply := by
  by_cases hfree : 1 ≤ p.permits
  · exact Pool.exists_step_of_moves reply hf (Running.exists_moves reply hfree hdone)
  · obtain ⟨q, hq, -⟩ := List.countP_pos_iff.1 (show 0 < p.inFlight.countP gated by omega)
    obtain ⟨f', hf', hq⟩ := List.mem_flatMap.1 hq
    exact Pool.exists_step_of_moves reply hf' (Running.exists_answer reply p.permits hq)

/-- A run can always go on until all flows are done. -/
theorem Pool.exists_run {p : Pool Q A β} (hp : 1 ≤ p.permits + p.inFlight.countP gated) :
    ∃ es p', Run (Pool.Step gated) p es p' ∧ (∀ f ∈ p'.flows, f.isDone = true) ∧
      ∀ e ∈ es, ∀ r ∈ e.2.replies, r = reply := by
  have hacc : Acc (fun p' p => ∃ e, Pool.Step gated p e p') p := p.acc
  induction hacc with
  | intro p _ ih =>
    by_cases hall : ∀ f ∈ p.flows, f.isDone = true
    · exact ⟨[], p, .nil p, hall, nofun⟩
    · push Not at hall
      obtain ⟨f, hf, hdone⟩ := hall
      obtain ⟨e, p₁, hstep, hreplies⟩ := Pool.exists_step reply hp hf (by simpa using hdone)
      obtain ⟨es, p', hrun, hend, hrest⟩ := ih p₁ ⟨e, hstep⟩ (hstep.permits ▸ hp)
      exact ⟨e :: es, p', .cons hstep hrun, hend, List.forall_mem_cons.2 ⟨hreplies, hrest⟩⟩

end Moves

/-! ## Scripts -/

section Scripts

variable {E γ δ : Type u} {fits : Unit → Q → ((q : Q) → Except E (A q)) → Prop}

/-- Scripts that raise nothing are gathered as a loop collects them. -/
theorem collect_of_collectAll {body : γ → Script Q A E PUnit δ}
    (hbody : ∀ c, Script.Raises answering fits (fun _ => False) (body c)) {cs : List γ}
    {rs : List ((q : Q) → Except E (A q))} (hrs : ∀ r ∈ rs, ∀ q, fits () q r)
    {ds : List (Except E δ × PUnit)}
    (h : Completes (collectAll (cs.map fun c => body c ⟨⟩)) rs ds) :
    ∃ values, ds = values.map (fun d => (.ok d, ⟨⟩)) ∧
      Completes (Script.collect body cs ⟨⟩) rs (.ok values, ⟨⟩) := by
  induction cs generalizing rs ds with
  | nil =>
    obtain ⟨rfl, hend⟩ := run_done.1 h
    cases hend
    exact ⟨[], rfl, .nil _⟩
  | cons c cs ih =>
    obtain ⟨rs₁, rs₂, ⟨d, ⟨⟩⟩, rfl, hfirst, hthen⟩ := exists_of_completes_bind h
    obtain ⟨rs₂, rs₃, ds, rfl, hrest, hend⟩ := exists_of_completes_bind hthen
    obtain ⟨rfl, heq⟩ := run_done.1 hend
    cases heq
    obtain ⟨d, rfl⟩ := (hbody c).complete
      (guard_session hfirst fun r hr _ q => hrs r (by simp [hr]) q)
    obtain ⟨values, rfl, hcollect⟩ := ih (fun r hr => hrs r (by simp [hr])) hrest
    refine ⟨d :: values, rfl, ?_⟩
    exact completes_bind hfirst (completes_bind hcollect (.nil _))

/-- A script that returns goes on with what it returned. -/
theorem completes_script_bind {x : Script Q A E PUnit γ} {f : γ → Script Q A E PUnit δ}
    {rs rs' : List ((q : Q) → Except E (A q))} {c : γ} {d : Except E δ × PUnit}
    (h : Completes (x ⟨⟩) rs (.ok c, ⟨⟩)) (h' : Completes (f c ⟨⟩) rs' d) :
    Completes ((x >>= f) ⟨⟩) (rs ++ rs') d :=
  completes_bind h h'

end Scripts

end Revix.GatheredPrograms
