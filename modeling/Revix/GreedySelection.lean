import Mathlib.Data.List.Sort
import Mathlib.Order.Basic

/-! An element of a list is taken unless it conflicts with one taken before, until there are
`limit` of them. Each that is left out conflicts with one that ranks at least as high. -/
namespace Revix.GreedySelection

variable {α : Type*} (conflict : α → α → Bool) (limit : ℤ)

/-- The elements taken after `c` has been looked at. -/
def take (taken : List α) (c : α) : List α :=
  if taken.any fun s => conflict s c then taken else taken ++ [c]

/-- The limit is looked at after each element. -/
def select (taken : List α) : List α → List α
  | [] => taken
  | c :: cs =>
    if limit ≤ (take conflict taken c).length then take conflict taken c
    else select (take conflict taken c) cs

variable {conflict limit} {taken cs : List α}

theorem take_of_conflict {s c : α} (hs : s ∈ taken) (h : conflict s c = true) :
    take conflict taken c = taken :=
  if_pos (List.any_eq_true.2 ⟨s, hs, h⟩)

theorem take_of_forall {c : α} (h : ∀ s ∈ taken, conflict s c = false) :
    take conflict taken c = taken ++ [c] := by
  refine if_neg fun hany => ?_
  obtain ⟨s, hs, hconflict⟩ := List.any_eq_true.1 hany
  rw [h s hs] at hconflict
  cases hconflict

theorem take_eq_or (conflict : α → α → Bool) (taken : List α) (c : α) :
    (take conflict taken c = taken ∧ ∃ s ∈ taken, conflict s c = true) ∨
      (take conflict taken c = taken ++ [c] ∧ ∀ s ∈ taken, conflict s c = false) := by
  by_cases h : ∃ s ∈ taken, conflict s c = true
  · obtain ⟨s, hs, hconflict⟩ := h
    exact .inl ⟨take_of_conflict hs hconflict, s, hs, hconflict⟩
  · have hall : ∀ s ∈ taken, conflict s c = false := by simpa using h
    exact .inr ⟨take_of_forall hall, hall⟩

theorem mem_or_eq_of_mem_take {s c : α} (h : s ∈ take conflict taken c) : s ∈ taken ∨ s = c := by
  rcases take_eq_or conflict taken c with ⟨heq, -⟩ | ⟨heq, -⟩
  · exact .inl (heq ▸ h)
  · simpa [heq] using h

/-- What is taken is a part of the list, in its order. -/
theorem exists_select (conflict : α → α → Bool) (limit : ℤ) (taken cs : List α) :
    ∃ picked, picked.Sublist cs ∧ select conflict limit taken cs = taken ++ picked := by
  induction cs generalizing taken with
  | nil => exact ⟨[], .slnil, (List.append_nil _).symm⟩
  | cons c cs ih =>
    rw [select]
    rcases take_eq_or conflict taken c with ⟨htake, -⟩ | ⟨htake, -⟩ <;> rw [htake]
    · split
      · exact ⟨[], List.nil_sublist _, (List.append_nil _).symm⟩
      · obtain ⟨picked, hsub, heq⟩ := ih taken
        exact ⟨picked, hsub.cons c, heq⟩
    · split
      · exact ⟨[c], by simp, rfl⟩
      · obtain ⟨picked, hsub, heq⟩ := ih (taken ++ [c])
        exact ⟨c :: picked, hsub.cons_cons c, by rw [heq, List.append_cons taken c picked]⟩

theorem select_sublist (cs : List α) : (select conflict limit [] cs).Sublist cs := by
  obtain ⟨picked, hsub, heq⟩ := exists_select conflict limit [] cs
  rw [heq]
  exact hsub

theorem mem_select_of_mem {s : α} (h : s ∈ taken) : s ∈ select conflict limit taken cs := by
  obtain ⟨picked, -, heq⟩ := exists_select conflict limit taken cs
  rw [heq]
  exact List.mem_append_left _ h

theorem take_pairwise {c : α} (h : taken.Pairwise fun s c => conflict s c = false) :
    (take conflict taken c).Pairwise fun s c => conflict s c = false := by
  rcases take_eq_or conflict taken c with ⟨heq, -⟩ | ⟨heq, hall⟩ <;> rw [heq]
  · exact h
  · rw [List.pairwise_append]
    refine ⟨h, List.pairwise_singleton _ _, fun s hs c' hc' => ?_⟩
    rw [List.mem_singleton.1 hc']
    exact hall s hs

/-- No two elements that are taken conflict. -/
theorem select_pairwise (h : taken.Pairwise fun s c => conflict s c = false) :
    (select conflict limit taken cs).Pairwise fun s c => conflict s c = false := by
  induction cs generalizing taken with
  | nil => exact h
  | cons c cs ih =>
    rw [select]
    split
    · exact take_pairwise h
    · exact ih (take_pairwise h)

theorem length_take_le (conflict : α → α → Bool) (taken : List α) (c : α) :
    (take conflict taken c).length ≤ taken.length + 1 := by
  rcases take_eq_or conflict taken c with ⟨heq, -⟩ | ⟨heq, -⟩ <;> simp [heq]

theorem length_take_pos (conflict : α → α → Bool) (taken : List α) (c : α) :
    0 < (take conflict taken c).length := by
  rcases take_eq_or conflict taken c with ⟨heq, s, hs, -⟩ | ⟨heq, -⟩
  · rw [heq]
    exact List.length_pos_of_mem hs
  · simp [heq]

/-- At most `limit` elements are taken, but one in any case. -/
theorem length_select (h : taken = [] ∨ (taken.length : ℤ) < limit) :
    ((select conflict limit taken cs).length : ℤ) ≤ max limit 1 := by
  induction cs generalizing taken with
  | nil =>
    rw [select]
    rcases h with rfl | h
    · simp
    · omega
  | cons c cs ih =>
    have hle := length_take_le conflict taken c
    rw [select]
    split
    · rcases h with rfl | h
      · rw [List.length_nil] at hle
        omega
      · omega
    · rename_i hlimit
      exact ih (.inr (not_le.1 hlimit))

/-- With a list that is sorted, each element conflicts with one that is taken and ranks at least
as high, or the limit was reached by elements that do. -/
theorem select_dominates {ranks : α → α → Prop} (hrefl : ∀ c, ranks c c)
    (hself : ∀ c, conflict c c = true) (hcs : cs.Pairwise ranks)
    (htaken : ∀ s ∈ taken, ∀ c ∈ cs, ranks s c) {c : α} (hc : c ∈ cs) :
    (∃ s ∈ select conflict limit taken cs, conflict s c = true ∧ ranks s c) ∨
      (max limit 1 ≤ (select conflict limit taken cs).length ∧
        ∀ s ∈ select conflict limit taken cs, ranks s c) := by
  induction cs generalizing taken with
  | nil => cases hc
  | cons c' cs ih =>
    rw [List.pairwise_cons] at hcs
    rw [select]
    -- everything taken so far ranks at least as high as the rest of the list
    have hrest : ∀ s ∈ take conflict taken c', ∀ c ∈ cs, ranks s c := by
      intro s hs d hd
      rcases mem_or_eq_of_mem_take hs with hs | rfl
      · exact htaken s hs d (.tail _ hd)
      · exact hcs.1 d hd
    rcases List.mem_cons.1 hc with rfl | hc
    · have hcovered : ∃ s ∈ take conflict taken c, conflict s c = true ∧ ranks s c := by
        rcases take_eq_or conflict taken c with ⟨heq, s, hs, hconflict⟩ | ⟨heq, -⟩ <;> rw [heq]
        · exact ⟨s, hs, hconflict, htaken s hs c (.head _)⟩
        · exact ⟨c, List.mem_append_right _ (.head _), hself c, hrefl c⟩
      obtain ⟨s, hs, hconflict⟩ := hcovered
      split
      · exact .inl ⟨s, hs, hconflict⟩
      · exact .inl ⟨s, mem_select_of_mem hs, hconflict⟩
    · split
      · rename_i hlimit
        have hpos := length_take_pos conflict taken c'
        exact .inr ⟨by omega, fun s hs => hrest s hs c hc⟩
      · exact ih hcs.2 hrest hc

/-- A list without conflicts that is not too long is taken as it is. -/
theorem select_of_pairwise (h : (taken ++ cs).Pairwise fun s c => conflict s c = false)
    (hlength : ((taken ++ cs).length : ℤ) ≤ max limit 1) :
    select conflict limit taken cs = taken ++ cs := by
  induction cs generalizing taken with
  | nil => rw [select, List.append_nil]
  | cons c cs ih =>
    have hapart : ∀ s ∈ taken, conflict s c = false := fun s hs =>
      (List.pairwise_append.1 h).2.2 s hs c (.head _)
    rw [select, take_of_forall hapart]
    rw [List.append_cons taken c cs] at h hlength ⊢
    split
    · rename_i hlimit
      have hnil : cs = [] := by
        simp only [List.length_append, List.length_singleton] at hlength hlimit
        exact List.length_eq_zero_iff.1 (by omega)
      rw [hnil, List.append_nil]
    · exact ih h hlength

theorem select_eq_foldl (h : ((select conflict limit taken cs).length : ℤ) < limit) :
    select conflict limit taken cs = cs.foldl (take conflict) taken := by
  induction cs generalizing taken with
  | nil => rfl
  | cons c cs ih =>
    rw [select] at h ⊢
    split at h
    · rename_i hlimit
      exact absurd hlimit (not_le.2 h)
    · rename_i hlimit
      rw [if_neg hlimit]
      exact ih h

/-- A position stands unless one before it stands and its element conflicts with this one. -/
def Stands (conflict : α → α → Bool) (cs : List α) (n : ℕ) : Prop :=
  ∀ m, m < n → ∀ a b, cs[m]? = some a → cs[n]? = some b → conflict a b = true →
    ¬ Stands conflict cs m
termination_by n

theorem stands_iff {n : ℕ} {c : α} (hc : cs[n]? = some c) :
    Stands conflict cs n ↔
      ∀ m, m < n → ∀ a, cs[m]? = some a → Stands conflict cs m → conflict a c = false := by
  rw [Stands]
  constructor
  · intro h m hm a ha hstands
    refine Bool.eq_false_iff.2 fun hconflict => ?_
    exact h m hm a c ha hc hconflict hstands
  · intro h m hm a b ha hb hconflict hstands
    obtain rfl : c = b := Option.some.inj (hc.symm.trans hb)
    rw [h m hm a ha hstands] at hconflict
    cases hconflict

/-- What is taken of the first elements is what stands among them. -/
theorem mem_foldl_take_iff {a : α} {n : ℕ} :
    a ∈ (cs.take n).foldl (take conflict) [] ↔
      ∃ m, m < n ∧ cs[m]? = some a ∧ Stands conflict cs m := by
  induction n generalizing a with
  | zero => simp
  | succ n ih =>
    rw [Nat.exists_lt_succ_right, ← ih, List.take_add_one, List.foldl_append]
    cases hc : cs[n]? with
    | none => simp
    | some c =>
      have hstands : Stands conflict cs n ↔
          ∀ s ∈ (cs.take n).foldl (take conflict) [], conflict s c = false := by
        rw [stands_iff hc]
        constructor
        · intro h s hs
          obtain ⟨m, hm, hsm, hstands⟩ := ih.1 hs
          exact h m hm s hsm hstands
        · intro h m hm s hsm hstands
          exact h s (ih.2 ⟨m, hm, hsm, hstands⟩)
      rw [Option.toList_some, List.foldl_cons, List.foldl_nil, hstands, Option.some.injEq]
      rcases take_eq_or conflict ((cs.take n).foldl (take conflict) []) c with
        ⟨htake, s, hs, hconflict⟩ | ⟨htake, hall⟩ <;> rw [htake]
      · refine ⟨.inl, fun h => h.elim id fun hnew => ?_⟩
        rw [hnew.2 s hs] at hconflict
        cases hconflict
      · rw [List.mem_append, List.mem_singleton]
        refine or_congr_right ⟨fun h => ⟨h.symm, hall⟩, fun h => h.1.symm⟩

/-- Where the limit is not reached, what is selected is what stands. -/
theorem mem_select_iff {a : α} (h : ((select conflict limit [] cs).length : ℤ) < limit) :
    a ∈ select conflict limit [] cs ↔ ∃ n, cs[n]? = some a ∧ Stands conflict cs n := by
  rw [select_eq_foldl h]
  conv_lhs => rw [← List.take_length (l := cs)]
  rw [mem_foldl_take_iff]
  constructor
  · rintro ⟨n, -, ha⟩
    exact ⟨n, ha⟩
  · rintro ⟨n, ha⟩
    exact ⟨n, (List.getElem?_eq_some_iff.1 ha.1).1, ha⟩

end Revix.GreedySelection
