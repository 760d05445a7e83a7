import Revix.LabelledRuns
import Mathlib.Logic.Function.Basic

/-! Calls of an atomic object overlap, but each takes effect in a step of its own. A system is
linearizable if what is seen of its runs is seen of runs of such an object. -/
namespace Revix.AtomicObjects
open LabelledRuns

section Objects

variable {σ κ ω ρ ε : Type*}

inductive Call (ω ρ : Type*)
  | pending (op : ω)
  /-- It has taken effect and has not responded yet. -/
  | decided (result : ρ)

structure Atomic (σ κ ω ρ : Type*) where
  state : σ
  calls : κ → Option (Call ω ρ)

/-- What is seen of a step. -/
inductive Visible (κ ω ρ ε : Type*)
  | invoked (k : κ) (op : ω)
  | responded (k : κ) (result : ρ)
  /-- The caller never hears of its call again. -/
  | lost (k : κ)
  /-- The state changes in another way. -/
  | other (e : ε)

variable [DecidableEq κ]

def Atomic.setCall (a : Atomic σ κ ω ρ) (k : κ) (call : Option (Call ω ρ)) : Atomic σ κ ω ρ :=
  { a with calls := Function.update a.calls k call }

@[simp] theorem Atomic.setCall_state (a : Atomic σ κ ω ρ) (k : κ) (call : Option (Call ω ρ)) :
    (a.setCall k call).state = a.state := rfl

@[simp] theorem Atomic.setCall_self (a : Atomic σ κ ω ρ) (k : κ) (call : Option (Call ω ρ)) :
    (a.setCall k call).calls k = call := Function.update_self ..

theorem Atomic.setCall_of_ne (a : Atomic σ κ ω ρ) {k k' : κ} (h : k' ≠ k)
    (call : Option (Call ω ρ)) : (a.setCall k call).calls k' = a.calls k' :=
  Function.update_of_ne h ..

theorem Atomic.setCall_same (a : Atomic σ κ ω ρ) (k : κ) : a.setCall k (a.calls k) = a := by
  rw [setCall, Function.update_eq_self]

theorem Atomic.setCall_again (a : Atomic σ κ ω ρ) (k : κ) (s : σ) (call call' : Option (Call ω ρ)) :
    Atomic.setCall { a.setCall k call with state := s } k call' =
      { a.setCall k call' with state := s } := by
  simp only [setCall, Function.update_idem]

variable (effect : σ → ω → ρ → σ → Prop) (step : σ → ε → σ → Prop)

/-- Only the effect of a call is not seen. -/
inductive Atomic.Step :
    Atomic σ κ ω ρ → Option (Visible κ ω ρ ε) → Atomic σ κ ω ρ → Prop
  | invoke {a : Atomic σ κ ω ρ} {k : κ} (op : ω) (free : a.calls k = none) :
      Step a (some (.invoked k op)) (a.setCall k (some (.pending op)))
  | takeEffect {a : Atomic σ κ ω ρ} {k : κ} {op : ω} {result : ρ} {s : σ}
      (pending : a.calls k = some (.pending op)) (now : effect a.state op result s) :
      Step a none { a.setCall k (some (.decided result)) with state := s }
  | respond {a : Atomic σ κ ω ρ} {k : κ} {result : ρ}
      (decided : a.calls k = some (.decided result)) :
      Step a (some (.responded k result)) (a.setCall k none)
  | lose {a : Atomic σ κ ω ρ} {k : κ} {call : Call ω ρ} (unanswered : a.calls k = some call) :
      Step a (some (.lost k)) (a.setCall k none)
  | other {a : Atomic σ κ ω ρ} {e : ε} {s : σ} (move : step a.state e s) :
      Step a (some (.other e)) { a with state := s }

end Objects

section Simulation

variable {σ τ ε δ γ : Type*} {step : σ → ε → σ → Prop} {step' : τ → δ → τ → Prop}
  {shows : ε → Option γ} {shows' : δ → Option γ} {R : σ → τ → Prop}

/-- When every step is matched by a run that shows the same, every run is. -/
theorem exists_traced
    (hstep : ∀ s e s' t, R s t → step s e s' →
      ∃ ds t', Run step' t ds t' ∧ ds.filterMap shows' = (shows e).toList ∧ R s' t')
    {s s' : σ} {es : List ε} (h : Run step s es s') {t : τ} (hR : R s t) :
    ∃ ds t', Run step' t ds t' ∧ ds.filterMap shows' = es.filterMap shows ∧ R s' t' := by
  induction h generalizing t with
  | nil s => exact ⟨[], t, .nil t, rfl, hR⟩
  | @cons s s₁ s' e es first _ ih =>
    obtain ⟨ds, t₁, hfirst, hshown, hR₁⟩ := hstep s e s₁ t hR first
    obtain ⟨ds', t', hrest, hshown', hR'⟩ := ih hR₁
    refine ⟨ds ++ ds', t', hfirst.append hrest, ?_, hR'⟩
    rw [List.filterMap_append, hshown, hshown']
    cases he : shows e with
    | none => rw [List.filterMap_cons_none he, Option.toList_none, List.nil_append]
    | some c => rw [List.filterMap_cons_some he, Option.toList_some, List.singleton_append]

end Simulation

end Revix.AtomicObjects
