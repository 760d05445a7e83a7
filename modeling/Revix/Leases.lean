import Mathlib.Order.Lattice

/-! A lease is held until a check finds that its last renewal is before the check's limit. -/
namespace Revix.Leases

variable {T : Type*}

inductive Event (T : Type*)
  | renewed (now : T)
  /-- A lease that was last renewed before the limit is taken away. -/
  | checked (limit : T)
  | other

def renew (last : T) : Event T → T
  | .renewed now => now
  | _ => last

def lastRenewal (last : T) (es : List (Event T)) : T := es.foldl renew last

variable [LinearOrder T]

/-- The last renewal of a lease that is held. -/
def next : Option T → Event T → Option T
  | none, _ => none
  | some last, .checked limit => if last < limit then none else some last
  | some last, e => some (renew last e)

/-- No check comes later than the last renewal before it allows. -/
def Timely (last : T) (es : List (Event T)) : Prop :=
  ∀ before limit after, es = before ++ .checked limit :: after → limit ≤ lastRenewal last before

variable {last : T} {e : Event T} {es : List (Event T)}

theorem timely_nil : Timely last ([] : List (Event T)) := by
  intro before limit after h
  cases before <;> cases h

theorem timely_cons : Timely last (e :: es) ↔
    (∀ limit, e = .checked limit → limit ≤ last) ∧ Timely (renew last e) es := by
  constructor
  · intro h
    refine ⟨fun limit he => h [] limit es (by rw [he]; rfl), fun before limit after hes => ?_⟩
    exact h (e :: before) limit after (by rw [hes]; rfl)
  · rintro ⟨hfirst, hrest⟩ before limit after h
    cases before with
    | nil =>
      cases h
      exact hfirst limit rfl
    | cons e' before =>
      cases h
      exact hrest before limit after rfl

theorem foldl_next_none : es.foldl next (none : Option T) = none := by
  induction es with
  | nil => rfl
  | cons e es ih => exact ih

/-- The lease is kept when all checks are in time, and lost for good at the first that is not. -/
theorem kept_iff_timely : (es.foldl next (some last)).isSome ↔ Timely last es := by
  induction es generalizing last with
  | nil => exact iff_of_true rfl timely_nil
  | cons e es ih =>
    rw [List.foldl_cons, timely_cons]
    cases e with
    | renewed now => simpa [next] using ih
    | other => simpa [next] using ih
    | checked limit =>
      by_cases hlate : last < limit
      · rw [next, if_pos hlate, foldl_next_none]
        exact iff_of_false Bool.false_ne_true fun h => (h.1 limit rfl).not_gt hlate
      · rw [next, if_neg hlate]
        exact ih.trans (and_iff_right fun limit' he => by cases he; exact not_lt.1 hlate).symm

end Revix.Leases
