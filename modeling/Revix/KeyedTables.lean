import Mathlib.Data.List.Nodup

/-! A `Table` is a list of rows that violates no unique constraint. Each statement has one lemma
that says what a lookup by a unique column returns after it. -/
namespace Revix.KeyedTables

universe u

section Order

variable {α : Type u}

/-- `.. ORDER BY .. LIMIT 1` over a list of rows: the earliest row that no later one precedes. -/
def firstBy (before : α → α → Bool) : List α → Option α
  | [] => none
  | a :: as =>
    match firstBy before as with
    | none => some a
    | some b => if before b a then some b else some a

theorem firstBy_mem {before : α → α → Bool} {as : List α} {a : α}
    (h : firstBy before as = some a) : a ∈ as := by
  induction as generalizing a with
  | nil => cases h
  | cons c cs ih =>
    simp only [firstBy] at h
    split at h
    · cases h
      exact List.mem_cons_self
    · rename_i b hb
      split at h <;> cases h
      · exact List.mem_cons_of_mem c (ih hb)
      · exact List.mem_cons_self

theorem firstBy_eq_none_iff {before : α → α → Bool} {as : List α} :
    firstBy before as = none ↔ as = [] := by
  cases as with
  | nil => simp [firstBy]
  | cons a as =>
    simp only [firstBy, reduceCtorEq, iff_false]
    split
    · simp
    · split <;> simp

/-- No row precedes the one that is chosen, in an order whose ties are transitive. -/
theorem not_before_firstBy {before : α → α → Bool}
    (hasymm : ∀ a b, before a b = true → before b a = false)
    (htotal : ∀ a b c, before a c = true → before a b = true ∨ before b c = true)
    {as : List α} {a : α} (h : firstBy before as = some a) :
    ∀ b ∈ as, before b a = false := by
  have hself : ∀ d, before d d = false := fun d =>
    Bool.eq_false_iff.2 fun hd => Bool.noConfusion ((hasymm d d hd).symm.trans hd)
  induction as generalizing a with
  | nil => cases h
  | cons c cs ih =>
    simp only [firstBy] at h
    split at h
    · rename_i hnone
      cases h
      rw [firstBy_eq_none_iff.1 hnone]
      simpa using hself c
    · rename_i d hd
      rw [List.forall_mem_cons]
      split at h
      · rename_i hdc
        obtain rfl := Option.some.inj h
        exact ⟨hasymm _ _ hdc, ih hd⟩
      · rename_i hdc
        obtain rfl := Option.some.inj h
        refine ⟨hself _, fun b hb => Bool.eq_false_iff.2 fun hbc => ?_⟩
        rcases htotal b d _ hbc with hbd | hdc'
        · exact Bool.noConfusion ((ih hd b hb).symm.trans hbd)
        · exact hdc hdc'

/-- The choice of a row does not depend on what the order does not look at. -/
theorem firstBy_map {before : α → α → Bool} {g : α → α}
    (hg : ∀ a b, before (g a) (g b) = before a b) (as : List α) :
    firstBy before (as.map g) = (firstBy before as).map g := by
  induction as with
  | nil => rfl
  | cons a as ih =>
    simp only [List.map_cons, firstBy, ih]
    cases firstBy before as with
    | none => rfl
    | some b =>
      simp only [Option.map_some, hg]
      split <;> rfl

end Order

/-- The unique constraints of a row type: their names and the value each reads off a row. -/
class Keyed (α : Type u) where
  Column : Type
  Value : Column → Type
  value : (c : Column) → α → Value c
  decEq : (c : Column) → DecidableEq (Value c)

attribute [reducible, instance] Keyed.decEq

export Keyed (Column Value value)

def KeepsKeys {α : Type u} [Keyed α] (f : α → α) : Prop :=
  ∀ (c : Column α) (a : α), value c (f a) = value c a

structure Table (α : Type u) [Keyed α] where
  rows : List α
  unique : ∀ c : Column α, (rows.map (value c)).Nodup

namespace Table

variable {α : Type u} [Keyed α]

@[ext] theorem ext {t t' : Table α} (h : t.rows = t'.rows) : t = t' := by
  cases t
  cases t'
  simpa using h

def empty : Table α := ⟨[], fun _ => List.nodup_nil⟩

def find (t : Table α) (c : Column α) (v : Value c) : Option α :=
  t.rows.find? fun a => decide (value c a = v)

/-- `UPDATE .. SET f WHERE hit`, for an assignment that keeps the unique columns. -/
def update (t : Table α) (hit : α → Bool) (f : α → α) (hf : KeepsKeys f) : Table α where
  rows := t.rows.map fun a => if hit a then f a else a
  unique c := by
    have hkey : ∀ a, value c (if hit a then f a else a) = value c a := by
      intro a
      split
      · exact hf c a
      · rfl
    simpa only [List.map_map, Function.comp_def, hkey] using t.unique c

def delete (t : Table α) (hit : α → Bool) : Table α where
  rows := t.rows.filter fun a => !hit a
  unique c := (t.unique c).sublist (List.Sublist.map _ List.filter_sublist)

/-- `INSERT` of a row that violates no unique constraint. -/
def insert (t : Table α) (a : α) (h : ∀ c : Column α, t.find c (value c a) = none) :
    Table α where
  rows := t.rows ++ [a]
  unique c := by
    have hnone := List.find?_eq_none.1 (h c)
    simp only [List.map_append, List.map_cons, List.map_nil]
    refine List.nodup_append.2 ⟨t.unique c, List.nodup_singleton _, ?_⟩
    intro x hx y hy
    obtain ⟨b, hb, rfl⟩ := List.mem_map.1 hx
    rw [List.mem_singleton.1 hy]
    simpa using hnone b hb

theorem find_eq_none_iff {t : Table α} {c : Column α} {v : Value c} :
    t.find c v = none ↔ ∀ a ∈ t.rows, value c a ≠ v := by
  simp [find]

theorem find_mem {t : Table α} {c : Column α} {v : Value c} {a : α} (h : t.find c v = some a) :
    a ∈ t.rows := List.mem_of_find?_eq_some h

theorem find_value {t : Table α} {c : Column α} {v : Value c} {a : α}
    (h : t.find c v = some a) : value c a = v := by
  simpa using List.find?_some h

theorem eq_of_value_eq (t : Table α) (c : Column α) {a b : α} (ha : a ∈ t.rows)
    (hb : b ∈ t.rows) (h : value c a = value c b) : a = b :=
  List.inj_on_of_nodup_map (t.unique c) ha hb h

theorem find_eq_some_iff {t : Table α} {c : Column α} {v : Value c} {a : α} :
    t.find c v = some a ↔ a ∈ t.rows ∧ value c a = v := by
  refine ⟨fun h => ⟨find_mem h, find_value h⟩, ?_⟩
  rintro ⟨ha, rfl⟩
  cases h : t.find c (value c a) with
  | none => exact absurd rfl (find_eq_none_iff.1 h a ha)
  | some b => rw [t.eq_of_value_eq c (find_mem h) ha (find_value h)]

theorem find_update (t : Table α) (hit : α → Bool) (f : α → α) (hf : KeepsKeys f)
    (c : Column α) (v : Value c) :
    (t.update hit f hf).find c v = (t.find c v).map fun a => if hit a then f a else a := by
  have hkey : ∀ a, value c (if hit a then f a else a) = value c a := by
    intro a
    split
    · exact hf c a
    · rfl
  simp only [find, update, List.find?_map, Function.comp_def, hkey]

theorem find_delete (t : Table α) (hit : α → Bool) (c : Column α) (v : Value c) :
    (t.delete hit).find c v = (t.find c v).filter fun a => !hit a := by
  cases h : t.find c v with
  | none =>
    apply find_eq_none_iff.2
    intro a ha
    exact find_eq_none_iff.1 h a (List.mem_of_mem_filter ha)
  | some a =>
    obtain ⟨ha, hv⟩ := find_eq_some_iff.1 h
    by_cases hhit : hit a = true
    · rw [Option.filter_some_neg (by simpa using hhit)]
      apply find_eq_none_iff.2
      intro b hb hbv
      obtain ⟨hb, hnot⟩ := List.mem_filter.1 hb
      rw [t.eq_of_value_eq c hb ha (hbv.trans hv.symm)] at hnot
      simp [hhit] at hnot
    · rw [Option.filter_some_pos (by simpa using hhit)]
      exact find_eq_some_iff.2 ⟨List.mem_filter.2 ⟨ha, by simpa using hhit⟩, hv⟩

theorem find_insert (t : Table α) (a : α) (h : ∀ c : Column α, t.find c (value c a) = none)
    (c : Column α) (v : Value c) :
    (t.insert a h).find c v = if value c a = v then some a else t.find c v := by
  split_ifs with hv
  · exact find_eq_some_iff.2 ⟨by simp [insert], hv⟩
  · simp [find, insert, List.find?_append, hv]

/-- A `WHERE` that fixes a unique column selects at most the row found there. -/
theorem find?_and_value (t : Table α) (p : α → Bool) (c : Column α) (v : Value c) :
    (t.rows.find? fun a => decide (value c a = v) && p a) = (t.find c v).filter p := by
  cases h : t.find c v with
  | none =>
    refine List.find?_eq_none.2 fun a ha => ?_
    simp [find_eq_none_iff.1 h a ha]
  | some a =>
    obtain ⟨ha, hv⟩ := find_eq_some_iff.1 h
    have honly : ∀ b ∈ t.rows, value c b = v → b = a := fun b hb hbv =>
      t.eq_of_value_eq c hb ha (hbv.trans hv.symm)
    cases hf : t.rows.find? fun a => decide (value c a = v) && p a with
    | none =>
      have hp := List.find?_eq_none.1 hf a ha
      simp only [hv, decide_true, Bool.true_and, Bool.not_eq_true] at hp
      exact (Option.filter_some_neg (by simp [hp])).symm
    | some b =>
      have hb := List.find?_some hf
      simp only [Bool.and_eq_true, decide_eq_true_eq] at hb
      obtain rfl := honly b (List.mem_of_find?_eq_some hf) hb.1
      exact (Option.filter_some_pos hb.2).symm

/-- An `UPDATE` whose `WHERE` fixes a unique column, seen through that column. -/
theorem find_update_at (t : Table α) {hit : α → Bool} {f : α → α} (hf : KeepsKeys f)
    (c : Column α) (v w : Value c) (p : α → Bool)
    (h : ∀ a, hit a = (decide (value c a = v) && p a)) :
    (t.update hit f hf).find c w =
      if w = v then (t.find c v).map fun a => if p a then f a else a else t.find c w := by
  rw [find_update]
  split_ifs with hw
  · subst hw
    cases ha : t.find c w with
    | none => rfl
    | some a => simp [h, find_value ha]
  · cases ha : t.find c w with
    | none => rfl
    | some a =>
      have hne : value c a ≠ v := fun he => hw ((find_value ha).symm.trans he)
      simp [h, hne]

/-- A `DELETE` whose `WHERE` fixes a unique column, seen through that column. -/
theorem find_delete_at (t : Table α) (c : Column α) (v w : Value c) :
    (t.delete fun a => decide (value c a = v)).find c w = if w = v then none else t.find c w := by
  rw [find_delete]
  cases h : t.find c w with
  | none => simp
  | some a =>
    have ha := find_value h
    subst ha
    by_cases hv : value c a = v <;> simp [hv, Option.filter]

theorem update_eq_self (t : Table α) (hit : α → Bool) (f : α → α) (hf : KeepsKeys f)
    (h : ∀ a ∈ t.rows, hit a = false) : t.update hit f hf = t := by
  ext1
  conv_rhs => rw [← List.map_id t.rows]
  exact List.map_congr_left fun a ha => by simp [h a ha]

theorem delete_eq_self (t : Table α) (hit : α → Bool) (h : ∀ a ∈ t.rows, hit a = false) :
    t.delete hit = t := by
  ext1
  exact List.filter_eq_self.2 fun a ha => by simp [h a ha]

def updateAll (t : Table α) (g : α → α) (hg : KeepsKeys g) : Table α :=
  t.update (fun _ => true) g hg

theorem find_updateAll (t : Table α) (g : α → α) (hg : KeepsKeys g) (c : Column α) (v : Value c) :
    (t.updateAll g hg).find c v = (t.find c v).map g := by
  simp [updateAll, find_update]

theorem rows_updateAll (t : Table α) (g : α → α) (hg : KeepsKeys g) :
    (t.updateAll g hg).rows = t.rows.map g := by
  simp [updateAll, update]

section Overwritten

variable {g : α → α} (hg : KeepsKeys g) (hgg : ∀ a, g (g a) = g a)

include hgg

theorem updateAll_updateAll (t : Table α) : (t.updateAll g hg).updateAll g hg = t.updateAll g hg := by
  ext1
  simp only [rows_updateAll, List.map_map, Function.comp_def, hgg]

/-- What `g` overwrites in the end may be overwritten before an `UPDATE` that does not read it. -/
theorem updateAll_update {hit : α → Bool} {f : α → α} (hf : KeepsKeys f)
    (hhit : ∀ a, hit (g a) = hit a) (hfg : ∀ a, g (f (g a)) = g (f a)) (t : Table α) :
    ((t.updateAll g hg).update hit f hf).updateAll g hg = (t.update hit f hf).updateAll g hg := by
  ext1
  simp only [updateAll, update, List.map_map]
  apply List.map_congr_left
  intro a _
  simp only [Function.comp_apply, ↓reduceIte, hhit]
  split
  · exact hfg a
  · exact hgg a

theorem updateAll_insert (t : Table α) (a : α) (h : ∀ c : Column α, t.find c (value c a) = none)
    (h' : ∀ c : Column α, (t.updateAll g hg).find c (value c a) = none) :
    ((t.updateAll g hg).insert a h').updateAll g hg = (t.insert a h).updateAll g hg := by
  ext1
  simp only [rows_updateAll, insert, List.map_append, List.map_map, Function.comp_def, hgg]

end Overwritten

section Upsert

variable [Subsingleton (Column α)]

/-- `INSERT .. ON CONFLICT (c) DO UPDATE SET f`, for a table whose only unique column is `c`. -/
def upsert (t : Table α) (c : Column α) (a : α) (f : α → α) (hf : KeepsKeys f) : Table α :=
  if h : t.find c (value c a) = none then
    t.insert a fun c' => by rwa [Subsingleton.elim c' c]
  else t.update (fun b => decide (value c b = value c a)) f hf

theorem find_upsert (t : Table α) (c : Column α) (a : α) (f : α → α) (hf : KeepsKeys f)
    (v : Value c) :
    (t.upsert c a f hf).find c v =
      if value c a = v then some ((t.find c v).elim a f) else t.find c v := by
  unfold upsert
  split_ifs with h hv hv
  · subst hv
    simp [find_insert, h]
  · simp [find_insert, hv]
  · subst hv
    obtain ⟨b, hb⟩ := Option.ne_none_iff_exists'.1 h
    simp [find_update, hb, find_value hb]
  · rw [find_update]
    cases hb : t.find c v with
    | none => rfl
    | some b =>
      have hne : value c b ≠ value c a := fun he => hv (he.symm.trans (find_value hb))
      simp [hne]

end Upsert

end Table

end Revix.KeyedTables
