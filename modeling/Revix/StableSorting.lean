import Mathlib.Data.List.Sort

namespace Revix.StableSorting

variable {α K : Type*} [LinearOrder K] {key : α → K} {input output : List α}

/-- `output` is `input` by descending keys, with equal keys in their order. -/
structure StablySorted (key : α → K) (input output : List α) : Prop where
  perm : output.Perm input
  descending : output.Pairwise fun a b => key b ≤ key a
  ties : ∀ k, output.filter (fun a => key a = k) = input.filter fun a => key a = k

theorem pairwise_insertionSort (key : α → K) (l : List α) :
    (l.insertionSort fun a b => key b ≤ key a).Pairwise fun a b => key b ≤ key a := by
  have : IsTrans α fun a b => key b ≤ key a := ⟨fun _ _ _ hab hbc => hbc.trans hab⟩
  have : Std.Total fun a b : α => key b ≤ key a := ⟨fun a b => le_total (key b) (key a)⟩
  exact List.pairwise_insertionSort _ l

/-- An element is inserted before those of its key. -/
theorem filter_orderedInsert (a : α) (l : List α) (k : K) :
    (l.orderedInsert (fun a b => key b ≤ key a) a).filter (fun b => key b = k) =
      (a :: l).filter fun b => key b = k := by
  induction l with
  | nil => rfl
  | cons b l ih =>
    rw [List.orderedInsert_cons]
    split
    · rfl
    · rename_i hlt
      have hne : key a = k → key b ≠ k := by
        rintro rfl heq
        exact hlt heq.le
      rw [List.filter_cons, ih]
      by_cases ha : key a = k
      · simp [ha, hne ha]
      · simp [List.filter_cons, ha]

theorem stablySorted_insertionSort (key : α → K) (l : List α) :
    StablySorted key l (l.insertionSort fun a b => key b ≤ key a) where
  perm := List.perm_insertionSort _ l
  descending := pairwise_insertionSort key l
  ties k := by
    induction l with
    | nil => rfl
    | cons a l ih =>
      rw [List.insertionSort_cons, filter_orderedInsert, List.filter_cons, ih, List.filter_cons]

/-- What a sorted list begins with has the greatest key. -/
theorem key_le_of_filter_eq {a b : α} {l l' : List α}
    (hl' : (b :: l').Pairwise fun a b => key b ≤ key a)
    (h : ∀ k, (a :: l).filter (fun a => key a = k) = (b :: l').filter fun a => key a = k) :
    key a ≤ key b := by
  have hmem : a ∈ (b :: l').filter fun c => key c = key a := by
    rw [← h]
    simp
  rcases List.mem_cons.1 (List.mem_of_mem_filter hmem) with rfl | hmem
  · exact le_rfl
  · exact (List.pairwise_cons.1 hl').1 a hmem

theorem eq_of_filter_eq {l l' : List α} (hl : l.Pairwise fun a b => key b ≤ key a)
    (hl' : l'.Pairwise fun a b => key b ≤ key a)
    (h : ∀ k, l.filter (fun a => key a = k) = l'.filter fun a => key a = k) : l = l' := by
  induction l generalizing l' with
  | nil =>
    cases l' with
    | nil => rfl
    | cons b l' => simpa using h (key b)
  | cons a l ih =>
    cases l' with
    | nil => simpa using h (key a)
    | cons b l' =>
      have hkey : key b = key a :=
        le_antisymm (key_le_of_filter_eq hl fun k => (h k).symm) (key_le_of_filter_eq hl' h)
      have hhead : a = b := by
        have heq := h (key a)
        simp only [List.filter_cons, hkey, decide_true, ↓reduceIte, List.cons.injEq] at heq
        exact heq.1
      subst hhead
      rw [ih (List.pairwise_cons.1 hl).2 (List.pairwise_cons.1 hl').2]
      intro k
      have heq := h k
      by_cases hk : key a = k
      · simpa [List.filter_cons, hk] using heq
      · simpa [List.filter_cons, hk] using heq

/-- There is one stable sort. -/
theorem StablySorted.unique {output' : List α} (h : StablySorted key input output)
    (h' : StablySorted key input output') : output = output' :=
  eq_of_filter_eq h.descending h'.descending fun k => (h.ties k).trans (h'.ties k).symm

section Smallest

variable {n : ℕ} {l : List α} {a : α}

def smallest (key : α → K) (n : ℕ) (l : List α) : List α :=
  (l.insertionSort fun a b => key a ≤ key b).take n

theorem pairwise_insertionSort_ascending (key : α → K) (l : List α) :
    (l.insertionSort fun a b => key a ≤ key b).Pairwise fun a b => key a ≤ key b :=
  pairwise_insertionSort (K := Kᵒᵈ) key l

theorem mem_of_mem_smallest (h : a ∈ smallest key n l) : a ∈ l :=
  (List.perm_insertionSort _ l).subset (List.mem_of_mem_take h)

theorem nodup_smallest (h : l.Nodup) : (smallest key n l).Nodup :=
  ((List.perm_insertionSort _ l).nodup_iff.2 h).sublist (List.take_sublist n _)

theorem length_smallest : (smallest key n l).length = min n l.length := by
  rw [smallest, List.length_take, List.length_insertionSort]

/-- An element with the least key is first. -/
theorem mem_smallest_of_least (hn : 0 < n) (ha : a ∈ l) (hleast : ∀ b ∈ l, key b ≤ key a → b = a) :
    a ∈ smallest key n l := by
  have hperm := List.perm_insertionSort (fun a b => key a ≤ key b) l
  have hsorted := pairwise_insertionSort_ascending key l
  unfold smallest
  generalize l.insertionSort (fun a b => key a ≤ key b) = sorted at hperm hsorted ⊢
  obtain ⟨m, rfl⟩ := Nat.exists_eq_succ_of_ne_zero hn.ne'
  cases sorted with
  | nil => exact absurd (hperm.mem_iff.2 ha) List.not_mem_nil
  | cons b sorted =>
    rw [List.take_succ_cons]
    suffices b = a from this ▸ List.mem_cons_self
    rcases List.mem_cons.1 (hperm.mem_iff.2 ha) with rfl | hmem
    · rfl
    · exact hleast b (hperm.subset List.mem_cons_self) ((List.pairwise_cons.1 hsorted).1 a hmem)

end Smallest

section Replaced

variable {β : Type*} {R : α → β → Prop} {key' : β → K} {as : List α} {bs : List β}

end Replaced

end Revix.StableSorting
