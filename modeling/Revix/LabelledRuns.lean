import Mathlib.Data.List.Basic
import Mathlib.Order.Basic

/-! A system is a relation `step : σ → ε → σ → Prop`; the label of a step is everything the
environment chose for it. -/
namespace Revix.LabelledRuns

variable {σ τ ε δ : Type*} {step : σ → ε → σ → Prop} {step' : τ → δ → τ → Prop}

inductive Run (step : σ → ε → σ → Prop) : σ → List ε → σ → Prop
  | nil (s : σ) : Run step s [] s
  | cons {s t u : σ} {e : ε} {es : List ε}
      (first : step s e t) (rest : Run step t es u) : Run step s (e :: es) u

/-- The steps of a system that have the property `P`. A run of `Guarded step P` is a run
of the system all of whose steps have it. -/
def Guarded (step : σ → ε → σ → Prop) (P : σ → ε → σ → Prop) (s : σ) (e : ε) (t : σ) : Prop :=
  step s e t ∧ P s e t

def Reachable (step : σ → ε → σ → Prop) (s t : σ) : Prop := ∃ es, Run step s es t

theorem Run.single {s t : σ} {e : ε} (h : step s e t) : Run step s [e] t :=
  .cons h (.nil t)

theorem Run.append {s t u : σ} {es fs : List ε} (h : Run step s es t) (h' : Run step t fs u) :
    Run step s (es ++ fs) u := by
  induction h with
  | nil => exact h'
  | cons first _ ih => exact .cons first (ih h')

theorem Reachable.refl (s : σ) : Reachable step s s := ⟨[], .nil s⟩

theorem Reachable.run {s t u : σ} {es : List ε} (h : Reachable step s t) (h' : Run step t es u) :
    Reachable step s u := by
  obtain ⟨fs, hf⟩ := h
  exact ⟨fs ++ es, hf.append h'⟩

theorem Reachable.next {s t u : σ} {e : ε} (h : Reachable step s t) (h' : step t e u) :
    Reachable step s u := h.run (.single h')

/-- What every step preserves, every run preserves. -/
theorem Run.invariant {I : σ → Prop} (hI : ∀ s e t, I s → step s e t → I t)
    {s t : σ} {es : List ε} (h : Run step s es t) (hs : I s) : I t := by
  induction h with
  | nil => exact hs
  | cons first _ ih => exact ih (hI _ _ _ hs first)

theorem Reachable.invariant {I : σ → Prop} (hI : ∀ s e t, I s → step s e t → I t)
    {s t : σ} (h : Reachable step s t) (hs : I s) : I t := by
  obtain ⟨es, hr⟩ := h
  exact hr.invariant hI hs

/-- A reflexive and transitive relation that every step respects relates the ends of a run,
under an invariant of the system. -/
theorem Run.relates {I : σ → Prop} {R : σ → σ → Prop} (hI : ∀ s e t, I s → step s e t → I t)
    (hrefl : ∀ s, R s s) (htrans : ∀ {s t u}, R s t → R t u → R s u)
    (hR : ∀ s e t, I s → step s e t → R s t)
    {s t : σ} {es : List ε} (h : Run step s es t) (hs : I s) : R s t := by
  induction h with
  | nil => exact hrefl _
  | cons first _ ih => exact htrans (hR _ _ _ hs first) (ih (hI _ _ _ hs first))

/-- A run is guarded by what holds of each of its labels, whatever the states. -/
theorem Run.guard {P : σ → ε → σ → Prop} {s t : σ} {es : List ε} (h : Run step s es t)
    (hP : ∀ e ∈ es, ∀ s t, P s e t) : Run (Guarded step P) s es t := by
  induction h with
  | nil s => exact .nil s
  | cons first _ ih =>
    exact .cons ⟨first, hP _ (.head _) _ _⟩ (ih fun e he => hP e (.tail _ he))

/-- Two properties that agree on the steps out of states with the invariant `I` guard the same
runs. The invariant may rest on the property itself, which holds of every step so far. -/
theorem Run.guarded_congr {I : σ → Prop} {P Q : σ → ε → σ → Prop}
    (hPQ : ∀ s e t, I s → step s e t → (P s e t ↔ Q s e t))
    (hI : ∀ s e t, I s → step s e t → P s e t → I t)
    {s t : σ} {es : List ε} (hs : I s) :
    Run (Guarded step P) s es t ↔ Run (Guarded step Q) s es t := by
  induction es generalizing s with
  | nil => constructor <;> rintro ⟨⟩ <;> exact .nil _
  | cons e es ih =>
    constructor
    · rintro (_ | ⟨⟨h, hp⟩, hrest⟩)
      exact .cons ⟨h, (hPQ _ _ _ hs h).1 hp⟩ ((ih (hI _ _ _ hs h hp)).1 hrest)
    · rintro (_ | ⟨⟨h, hq⟩, hrest⟩)
      have hp := (hPQ _ _ _ hs h).2 hq
      exact .cons ⟨h, hp⟩ ((ih (hI _ _ _ hs h hp)).2 hrest)

/-- Step-by-step simulation lifts to runs: every step of the first system is matched by a run
of the second. -/
theorem Run.simulates {I : σ → Prop} {f : σ → τ} (hI : ∀ s e t, I s → step s e t → I t)
    (hf : ∀ s e t, I s → step s e t → Reachable step' (f s) (f t))
    {s t : σ} {es : List ε} (h : Run step s es t) (hs : I s) : Reachable step' (f s) (f t) :=
  h.relates (R := fun s t => Reachable step' (f s) (f t)) hI (fun _ => .refl _)
    (fun h₁ ⟨_, h₂⟩ => h₁.run h₂) hf hs

/-- Execute a list of labels, for a system whose step is a partial function. -/
def replay (next : σ → ε → Option σ) (s : σ) : List ε → Option σ
  | [] => some s
  | e :: es => (next s e).bind fun t => replay next t es

theorem run_iff_replay (next : σ → ε → Option σ) {s t : σ} {es : List ε} :
    Run (fun s e t => next s e = some t) s es t ↔ replay next s es = some t := by
  induction es generalizing s with
  | nil =>
    constructor
    · rintro ⟨⟩
      rfl
    · rintro ⟨⟩
      exact .nil _
  | cons e es ih =>
    simp only [replay, Option.bind_eq_some_iff]
    constructor
    · rintro (_ | ⟨h, hrest⟩)
      exact ⟨_, h, ih.1 hrest⟩
    · rintro ⟨u, h, hrest⟩
      exact .cons h (ih.2 hrest)

theorem exists_run_of_replay (next : σ → ε → Option σ) {s : σ} {es : List ε} {p : σ → Bool}
    (h : (replay next s es).any p = true) :
    ∃ t, Run (fun s e t => next s e = some t) s es t ∧ p t = true := by
  obtain ⟨t, ht, hp⟩ := (Option.any_eq_true _ _).1 h
  exact ⟨t, (run_iff_replay next).2 ht, hp⟩

/-- Executing a list of labels with a check before each of them. -/
theorem exists_guarded_run_of_replay (next : σ → ε → Option σ) (guard : σ → ε → Bool) {s : σ}
    {es : List ε} {p : σ → Bool}
    (h : (replay (fun s e => if guard s e then next s e else none) s es).any p = true) :
    ∃ t, Run (Guarded (fun s e t => next s e = some t) fun s e _ => guard s e = true) s es t ∧
      p t = true := by
  obtain ⟨t, hr, hp⟩ := exists_run_of_replay _ h
  refine ⟨t, ?_, hp⟩
  clear h hp
  induction hr with
  | nil s => exact .nil s
  | cons first _ ih =>
    split_ifs at first with hguard
    exact .cons ⟨first, hguard⟩ ih

end Revix.LabelledRuns
