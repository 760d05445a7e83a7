import Mathlib.Algebra.GroupWithZero.Nat
import Mathlib.Data.List.Basic

/-! Weighted items are put into groups as they come. An added item closes the open group first if
the two together would exceed the budget; a pushed one joins it whatever it weighs. -/
namespace Revix.GreedyPacking

variable {α β : Type*}

inductive Parcel (α β : Type*)
  | group (items : List α)
  | single (b : β)
  deriving DecidableEq, Repr

def Parcel.items? : Parcel α β → Option (List α)
  | .group items => some items
  | .single _ => none

def Parcel.single? : Parcel α β → Option β
  | .group _ => none
  | .single b => some b

structure Packer (α β : Type*) where
  sent : List (Parcel α β)
  pending : List α
  load : ℕ

namespace Packer

def empty : Packer α β := ⟨[], [], 0⟩

def flush (s : Packer α β) : Packer α β :=
  if s.pending.isEmpty then s else ⟨s.sent ++ [.group s.pending], [], 0⟩

def push (weight : α → ℕ) (s : Packer α β) (a : α) : Packer α β :=
  ⟨s.sent, s.pending ++ [a], s.load + weight a⟩

def add (budget : ℕ) (weight : α → ℕ) (s : Packer α β) (a : α) : Packer α β :=
  push weight (if !s.pending.isEmpty && budget < s.load + weight a then s.flush else s) a

def send (s : Packer α β) (b : β) : Packer α β := { s with sent := s.sent ++ [.single b] }

def groups (s : Packer α β) : List (List α) := s.sent.filterMap Parcel.items?

def singles (s : Packer α β) : List β := s.sent.filterMap Parcel.single?

variable {budget : ℕ} {weight : α → ℕ} {strict : α → Bool} {s : Packer α β}
  {added : List α} {alone : List β}

theorem mem_groups {g : List α} : g ∈ s.groups ↔ .group g ∈ s.sent := by
  rw [groups, List.mem_filterMap]
  constructor
  · rintro ⟨_ | _, hmem, heq⟩ <;> cases heq
    exact hmem
  · exact fun hmem => ⟨_, hmem, rfl⟩

theorem mem_singles {b : β} : b ∈ s.singles ↔ .single b ∈ s.sent := by
  rw [singles, List.mem_filterMap]
  constructor
  · rintro ⟨_ | _, hmem, heq⟩ <;> cases heq
    exact hmem
  · exact fun hmem => ⟨_, hmem, rfl⟩

theorem sent_eq_groups (h : s.singles = []) : s.sent = s.groups.map .group := by
  unfold singles groups at *
  generalize s.sent = sent at *
  induction sent with
  | nil => rfl
  | cons p ps ih =>
    cases p with
    | group items => exact congrArg _ (ih h)
    | single b => cases h

/-- Up to each of its strict items but the first item, the group is within the budget. -/
def Fits (budget : ℕ) (weight : α → ℕ) (strict : α → Bool) (g : List α) : Prop :=
  ∀ before a after, g = before ++ a :: after → before ≠ [] → strict a = true →
    ((before ++ [a]).map weight).sum ≤ budget

theorem fits_nil : Fits budget weight strict [] := by
  intro before a after h
  simp at h

theorem Fits.concat {g : List α} {a : α} (h : Fits budget weight strict g)
    (ha : g ≠ [] → strict a = true → (g.map weight).sum + weight a ≤ budget) :
    Fits budget weight strict (g ++ [a]) := by
  intro before b after heq hne hb
  rcases List.eq_nil_or_concat after with rfl | ⟨after, c, rfl⟩
  · obtain ⟨rfl, hab⟩ := List.append_inj' heq rfl
    obtain rfl := List.singleton_inj.1 hab
    simpa using ha hne hb
  · have heq' : g ++ [a] = (before ++ b :: after) ++ [c] := by simpa using heq
    obtain ⟨rfl, -⟩ := List.append_inj' heq' rfl
    exact h before b after rfl hne hb

/-- A group all of whose items are strict has one item or is within the budget. -/
theorem Fits.sum_le {g : List α} (h : Fits budget weight strict g) (hs : ∀ a ∈ g, strict a = true) :
    g.length ≤ 1 ∨ (g.map weight).sum ≤ budget := by
  rcases List.eq_nil_or_concat g with rfl | ⟨before, a, rfl⟩
  · exact .inl (by simp)
  · rcases List.eq_nil_or_concat before with rfl | ⟨first, b, rfl⟩
    · exact .inl (by simp)
    · rw [List.concat_eq_append] at h hs ⊢
      exact .inr (h _ a [] rfl (by simp) (hs a (by simp)))

/-- The items that were added or pushed are in the groups and in the open group, each once and in
order; what was sent on its own is there too; and every group fits. -/
structure Packed (budget : ℕ) (weight : α → ℕ) (strict : α → Bool) (s : Packer α β)
    (added : List α) (alone : List β) : Prop where
  items : s.groups.flatten ++ s.pending = added
  singles : s.singles = alone
  nonempty : ∀ g ∈ s.groups, g ≠ []
  load : s.load = (s.pending.map weight).sum
  fits : ∀ g ∈ s.groups, Fits budget weight strict g
  fitsPending : Fits budget weight strict s.pending

theorem packed_empty : Packed budget weight strict (empty : Packer α β) [] [] where
  items := rfl
  singles := rfl
  nonempty _ hg := absurd hg List.not_mem_nil
  load := rfl
  fits _ hg := absurd hg List.not_mem_nil
  fitsPending := fits_nil

theorem groups_group (sent : List (Parcel α β)) (g : List α) :
    Packer.groups ⟨sent ++ [.group g], [], 0⟩ = sent.filterMap Parcel.items? ++ [g] :=
  List.filterMap_append

theorem singles_group (sent : List (Parcel α β)) (g : List α) :
    Packer.singles ⟨sent ++ [.group g], [], 0⟩ = sent.filterMap Parcel.single? :=
  List.filterMap_append.trans (List.append_nil _)

theorem groups_send (b : β) : (s.send b).groups = s.groups :=
  List.filterMap_append.trans (List.append_nil _)

theorem singles_send (b : β) : (s.send b).singles = s.singles ++ [b] := List.filterMap_append

theorem Packed.flush (h : Packed budget weight strict s added alone) :
    Packed budget weight strict s.flush added alone := by
  unfold Packer.flush
  cases hp : s.pending with
  | nil =>
    rw [List.isEmpty_nil, if_pos rfl]
    exact h
  | cons a as =>
    rw [List.isEmpty_cons, if_neg Bool.false_ne_true, ← hp]
    have hitems := h.items
    constructor
    · rw [groups_group, List.flatten_append, List.flatten_singleton, List.append_nil]
      exact hitems
    · rw [singles_group]
      exact h.singles
    · intro g hg
      rw [groups_group] at hg
      rcases List.mem_append.1 hg with hg | hg
      · exact h.nonempty g hg
      · obtain rfl := List.mem_singleton.1 hg
        simp [hp]
    · rfl
    · intro g hg
      rw [groups_group] at hg
      rcases List.mem_append.1 hg with hg | hg
      · exact h.fits g hg
      · obtain rfl := List.mem_singleton.1 hg
        exact h.fitsPending
    · exact fits_nil

theorem flush_pending : s.flush.pending = [] := by
  unfold Packer.flush
  split_ifs with h
  · simpa using h
  · rfl

theorem Packed.push (h : Packed budget weight strict s added alone) {a : α}
    (ha : s.pending ≠ [] → strict a = true → s.load + weight a ≤ budget) :
    Packed budget weight strict (s.push weight a) (added ++ [a]) alone where
  items := by
    rw [← h.items, List.append_assoc]
    rfl
  singles := h.singles
  nonempty := h.nonempty
  load := by simp [Packer.push, h.load]
  fits := h.fits
  fitsPending := h.fitsPending.concat (by rwa [← h.load])

theorem Packed.add (h : Packed budget weight strict s added alone) (a : α) :
    Packed budget weight strict (s.add budget weight a) (added ++ [a]) alone := by
  unfold Packer.add
  split_ifs with hc
  · apply h.flush.push
    intro hne
    exact absurd flush_pending hne
  · apply h.push
    intro hne _
    by_contra hgt
    exact hc (by simp [hne, Nat.lt_of_not_le hgt])

theorem Packed.send (h : Packed budget weight strict s added alone) (b : β) :
    Packed budget weight strict (s.send b) added (alone ++ [b]) where
  items := by
    rw [groups_send]
    exact h.items
  singles := by rw [singles_send, h.singles]
  nonempty := by
    rw [groups_send]
    exact h.nonempty
  load := h.load
  fits := by
    rw [groups_send]
    exact h.fits
  fitsPending := h.fitsPending

theorem Packed.addAll (h : Packed budget weight strict s added alone) (as : List α) :
    Packed budget weight strict (as.foldl (Packer.add budget weight) s) (added ++ as) alone := by
  induction as generalizing s added with
  | nil => simpa using h
  | cons a as ih => simpa using ih (h.add a)

/-- Items that fit the budget all together join the open group. -/
theorem addAll_of_le {as : List α} (hload : s.load + (as.map weight).sum ≤ budget) :
    as.foldl (Packer.add budget weight) s =
      ⟨s.sent, s.pending ++ as, s.load + (as.map weight).sum⟩ := by
  induction as generalizing s with
  | nil => simp
  | cons a as ih =>
    rw [List.map_cons, List.sum_cons] at hload ⊢
    have hadd : s.add budget weight a = s.push weight a := by
      rw [Packer.add, if_neg]
      simp only [Bool.and_eq_true, decide_eq_true_eq, not_and]
      intro _
      omega
    have hpush : (s.push weight a).load = s.load + weight a := rfl
    rw [List.foldl_cons, hadd, ih (by omega), hpush]
    simp [Packer.push, Nat.add_assoc]

theorem Packed.sendAll (h : Packed budget weight strict s added alone) (bs : List β) :
    Packed budget weight strict (bs.foldl Packer.send s) added (alone ++ bs) := by
  induction bs generalizing s alone with
  | nil => simpa using h
  | cons b bs ih => simpa using ih (h.send b)

/-- Groups of images are images of groups. -/
theorem exists_groups_of_flatten_map {γ : Type*} {f : γ → α} {gs : List (List α)} {cs : List γ}
    (h : gs.flatten = cs.map f) :
    ∃ hs : List (List γ), gs = hs.map (List.map f) ∧ hs.flatten = cs := by
  induction gs generalizing cs with
  | nil =>
    have hnil := List.map_eq_nil_iff.1 h.symm
    exact ⟨[], rfl, hnil.symm⟩
  | cons g gs ih =>
    rw [List.flatten_cons] at h
    obtain ⟨c₁, c₂, rfl, rfl, hrest⟩ := List.map_eq_append_iff.1 h.symm
    obtain ⟨hs, rfl, hflat⟩ := ih hrest.symm
    exact ⟨c₁ :: hs, rfl, by rw [List.flatten_cons, hflat]⟩

/-- At the end every item is in exactly one group, in order. -/
theorem Packed.finish (h : Packed budget weight strict s added alone) :
    s.flush.groups.flatten = added ∧ s.flush.singles = alone ∧
      ∀ g ∈ s.flush.groups, g ≠ [] ∧ Fits budget weight strict g := by
  have hf := h.flush
  refine ⟨?_, hf.singles, fun g hg => ⟨hf.nonempty g hg, hf.fits g hg⟩⟩
  simpa [flush_pending] using hf.items

end Packer
end Revix.GreedyPacking
