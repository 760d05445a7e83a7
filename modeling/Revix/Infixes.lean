import Mathlib.Data.List.Infix

namespace Revix.Infixes

variable {α : Type*} {needle xs ys ws : List α} {a c : α}

/-- What starts a list up to a letter that it does not have is before that letter. -/
theorem prefix_of_prefix_append_cons (hc : c ∉ needle) (h : needle <+: xs ++ c :: ys) :
    needle <+: xs := by
  by_cases hlen : needle.length ≤ xs.length
  · exact List.prefix_of_prefix_length_le h (List.prefix_append _ _) hlen
  · have hbefore : xs ++ [c] <+: xs ++ c :: ys := ⟨ys, by simp⟩
    have hin : xs ++ [c] <+: needle := by
      apply List.prefix_of_prefix_length_le hbefore h
      rw [List.length_append, List.length_singleton]
      omega
    exact absurd (hin.subset (List.mem_append_right _ (List.mem_singleton_self c))) hc

/-- A letter that the needle does not have separates its occurrences. -/
theorem infix_append_cons_iff (hc : c ∉ needle) :
    needle <:+: xs ++ c :: ys ↔ needle <:+: xs ∨ needle <:+: ys := by
  constructor
  · intro h
    induction xs with
    | nil =>
      rw [List.nil_append, List.infix_cons_iff] at h
      rcases h with h | h
      · have hnil : needle <+: [] := prefix_of_prefix_append_cons hc h
        exact .inl hnil.isInfix
      · exact .inr h
    | cons x xs ih =>
      rw [List.cons_append, List.infix_cons_iff] at h
      rcases h with h | h
      · exact .inl (prefix_of_prefix_append_cons hc h).isInfix
      · exact (ih h).imp_left fun hin => List.infix_cons_iff.2 (.inr hin)
  · rintro (h | h)
    · exact h.trans (List.prefix_append _ _).isInfix
    · exact h.trans ((List.suffix_cons c ys).trans (List.suffix_append _ _)).isInfix

/-- Letters that the needle does not have can be left out at the front. -/
theorem infix_append_iff (hws : ∀ c ∈ ws, c ∉ needle) :
    needle <:+: ws ++ ys ↔ needle <:+: ys := by
  induction ws with
  | nil => rfl
  | cons w ws ih =>
    rw [List.cons_append, ← List.nil_append (w :: _), infix_append_cons_iff (hws w (.head _)),
      ih fun c hc => hws c (.tail _ hc)]
    exact or_iff_right_of_imp fun h => h.trans List.nil_infix

/-- A needle does not begin in a part that lacks its first letter. -/
theorem infix_of_head_not_mem (ha : a ∉ ws) (h : a :: needle <:+: ws ++ ys) :
    a :: needle <:+: ys := by
  induction ws with
  | nil => exact h
  | cons w ws ih =>
    have hw : a ≠ w := fun heq => ha (heq ▸ .head _)
    have hrest : a ∉ ws := fun hmem => ha (.tail _ hmem)
    rw [List.cons_append, List.infix_cons_iff] at h
    rcases h with h | h
    · exact absurd (List.cons_prefix_cons.1 h).1 hw
    · exact ih hrest h

/-- A needle is found in the first part when the second lacks its last letter. -/
theorem infix_append_of_last (ha : a ∉ ys) :
    needle ++ [a] <:+: ws ++ ys ↔ needle ++ [a] <:+: ws := by
  constructor
  · intro h
    rcases List.infix_append_iff_ne_nil.1 h with h | h | ⟨l₁, l₂, -, hl₂, hsplit, -, hpre⟩
    · exact h
    · exact absurd (h.subset (by simp)) ha
    · have hmem : a ∈ l₂ := by
        have hends := congrArg List.getLast? hsplit
        rw [List.getLast?_append_of_ne_nil _ hl₂, List.getLast?_concat] at hends
        exact List.mem_of_getLast? hends.symm
      exact absurd (hpre.subset hmem) ha
  · exact fun h => h.trans List.infix_append_left

theorem infix_intercalate_iff {sep : List α} {texts : List (List α)}
    (hsep : ∀ c ∈ sep, c ∉ needle) (hne : needle ≠ []) (hsome : sep ≠ []) :
    needle <:+: sep.intercalate texts ↔ ∃ t ∈ texts, needle <:+: t := by
  induction texts with
  | nil => simp [List.intercalate, hne]
  | cons t ts ih =>
    cases ts with
    | nil => simp [List.intercalate]
    | cons t' ts =>
      obtain ⟨c, cs, rfl⟩ := List.exists_cons_of_ne_nil hsome
      have hcons : (c :: cs).intercalate (t :: t' :: ts) =
          t ++ c :: (cs ++ (c :: cs).intercalate (t' :: ts)) := by simp [List.intercalate]
      rw [hcons, infix_append_cons_iff (hsep c (.head _)),
        infix_append_iff fun d hd => hsep d (.tail _ hd), ih]
      simp only [List.mem_cons, exists_eq_or_imp]

end Revix.Infixes
