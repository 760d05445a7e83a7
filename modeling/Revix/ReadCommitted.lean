import Revix.LabelledRuns
import Mathlib.Data.List.Perm.Basic

/-! A `DELETE` takes its targets from what is committed when it starts, and visits them one by
one. A target that another transaction has deleted makes it wait for the commit and is skipped
then; rows that are committed after the start are not looked for. -/
namespace Revix.ReadCommitted
open LabelledRuns

variable {κ ρ τ : Type*}

/-- A version without a creator was there before. -/
structure Version (ρ τ : Type*) where
  row : ρ
  creator : Option τ
  deleter : Option τ

/-- `DELETE .. WHERE hit`, with a name for the log, and the insertion of some rows. -/
inductive Statement (κ ρ : Type*)
  | delete (name : κ) (hit : ρ → Bool)
  | insert (rows : List ρ)

namespace Statement

def isDelete : Statement κ ρ → Bool
  | .delete _ _ => true
  | .insert _ => false

def rows : Statement κ ρ → List ρ
  | .delete _ _ => []
  | .insert rows => rows

def scan : Statement κ ρ → Option (κ × (ρ → Bool))
  | .delete name hit => some (name, hit)
  | .insert _ => none

end Statement

/-- A `DELETE` that was started, with the transactions that were committed then. -/
structure Scan (κ ρ τ : Type*) where
  owner : τ
  name : κ
  hit : ρ → Bool
  saw : List τ

def Scan.sees [DecidableEq τ] (d : Scan κ ρ τ) (creator : Option τ) (r : ρ) : Bool :=
  d.hit r && creator.all fun t => t ∈ d.saw

/-- The versions, the transactions that have committed, what each still has to do, and the
targets that its running `DELETE` has not visited yet. -/
structure Store (κ ρ τ : Type*) where
  versions : List (Version ρ τ)
  committed : List τ
  todo : τ → List (Statement κ ρ)
  targets : τ → List ℕ
  log : List (Scan κ ρ τ)

namespace Store

variable [DecidableEq τ]

def initial (rows : List ρ) (programs : τ → List (Statement κ ρ)) : Store κ ρ τ :=
  ⟨rows.map fun r => ⟨r, none, none⟩, [], programs, fun _ => [], []⟩

def visible (s : Store κ ρ τ) (t : τ) (v : Version ρ τ) : Bool :=
  (v.creator.all fun c => c ∈ s.committed ∨ c = t) &&
    v.deleter.all fun u => ¬(u ∈ s.committed ∨ u = t)

/-- What everybody sees once all have committed. -/
def contents (s : Store κ ρ τ) : List ρ :=
  (s.versions.filter fun v =>
    (v.creator.all fun c => c ∈ s.committed) && v.deleter.all fun u => u ∉ s.committed).map
      Version.row

def targetsOf (s : Store κ ρ τ) (t : τ) (hit : ρ → Bool) : List ℕ :=
  (List.range s.versions.length).filter fun i =>
    (s.versions[i]?).any fun v => s.visible t v && hit v.row

def mark (s : Store κ ρ τ) (t : τ) (i : ℕ) (rest : List ℕ) : Store κ ρ τ :=
  { s with
    versions := s.versions.modify i fun v => { v with deleter := some t }
    targets := Function.update s.targets t rest }

def pass (s : Store κ ρ τ) (t : τ) (rest : List ℕ) : Store κ ρ τ :=
  { s with targets := Function.update s.targets t rest }

/-- The running `DELETE` comes to its next target, and waits if someone else's deletion of it is
not decided. -/
def visit (s : Store κ ρ τ) (t : τ) (i : ℕ) (rest : List ℕ) : Option (Store κ ρ τ) :=
  (s.versions[i]?).bind fun v =>
    match v.deleter with
    | none => some (s.mark t i rest)
    | some u => if u ∈ s.committed ∨ u = t then some (s.pass t rest) else none

def execute (s : Store κ ρ τ) (t : τ) (rest : List (Statement κ ρ)) :
    Statement κ ρ → Store κ ρ τ
  | .delete name hit =>
    { s with
      todo := Function.update s.todo t rest
      targets := Function.update s.targets t (s.targetsOf t hit)
      log := s.log ++ [⟨t, name, hit, s.committed⟩] }
  | .insert rows =>
    { s with
      versions := s.versions ++ rows.map fun r => ⟨r, some t, none⟩
      todo := Function.update s.todo t rest }

def commit (s : Store κ ρ τ) (t : τ) : Store κ ρ τ := { s with committed := t :: s.committed }

def next (s : Store κ ρ τ) (t : τ) : Option (Store κ ρ τ) :=
  match s.targets t with
  | i :: rest => s.visit t i rest
  | [] =>
    match s.todo t with
    | st :: rest => some (s.execute t rest st)
    | [] => if t ∈ s.committed then none else some (s.commit t)

def Step (s : Store κ ρ τ) (t : τ) (s' : Store κ ρ τ) : Prop := s.next t = some s'

variable {s s' : Store κ ρ τ} {t : τ}

/-- The four things that a step can be, the start of a `DELETE` and an insertion apart. -/
inductive Outcome (s : Store κ ρ τ) (t : τ) : Store κ ρ τ → Prop
  | mark {i : ℕ} {rest : List ℕ} {v : Version ρ τ} (htargets : s.targets t = i :: rest)
      (hv : s.versions[i]? = some v) (hfree : v.deleter = none) : Outcome s t (s.mark t i rest)
  | pass {i : ℕ} {rest : List ℕ} {v : Version ρ τ} (htargets : s.targets t = i :: rest)
      (hv : s.versions[i]? = some v) (hgone : v.deleter.isSome = true) : Outcome s t (s.pass t rest)
  | execute (st : Statement κ ρ) (rest : List (Statement κ ρ)) (htargets : s.targets t = [])
      (htodo : s.todo t = st :: rest) : Outcome s t (s.execute t rest st)
  | commit (htargets : s.targets t = []) (htodo : s.todo t = []) : Outcome s t (s.commit t)

theorem step_outcome (h : Step s t s') : Outcome s t s' := by
  unfold Step next at h
  cases htargets : s.targets t with
  | cons i rest =>
    simp only [htargets, visit, Option.bind_eq_some_iff] at h
    obtain ⟨v, hv, h⟩ := h
    cases hd : v.deleter with
    | none =>
      simp only [hd, Option.some.injEq] at h
      exact h ▸ .mark htargets hv hd
    | some u =>
      simp only [hd, Option.ite_none_right_eq_some, Option.some.injEq] at h
      exact h.2 ▸ .pass htargets hv (by simp [hd])
  | nil =>
    simp only [htargets] at h
    cases htodo : s.todo t with
    | cons st rest =>
      simp only [htodo, Option.some.injEq] at h
      exact h ▸ .execute st rest htargets htodo
    | nil =>
      simp only [htodo, Option.ite_none_left_eq_some, Option.some.injEq] at h
      exact h.2 ▸ .commit htargets htodo

def DeletesFirst (program : List (Statement κ ρ)) : Prop :=
  program.Pairwise fun a b => b.isDelete = true → a.isDelete = true

def Doomed (s : Store κ ρ τ) (v : Version ρ τ) : Prop :=
  ∃ d ∈ s.log, d.sees v.creator v.row = true

/-- In every reachable state the deleted versions are those that some scan sees, up to the
targets that a running `DELETE` still has to visit. -/
structure Sound (s : Store κ ρ τ) : Prop where
  done : ∀ t ∈ s.committed, s.todo t = [] ∧ s.targets t = []
  saw : ∀ d ∈ s.log, ∀ t ∈ d.saw, t ∈ s.committed
  shaped : ∀ t, DeletesFirst (s.todo t)
  own : ∀ v ∈ s.versions, ∀ t, v.creator = some t → ∀ st ∈ s.todo t, st.isDelete = false
  deleted : ∀ v ∈ s.versions, v.deleter.isSome = true → s.Doomed v
  pending : ∀ t, ∀ i ∈ s.targets t, ∃ v, s.versions[i]? = some v ∧ s.Doomed v
  seen : ∀ i v, s.versions[i]? = some v → ∀ d ∈ s.log, d.sees v.creator v.row = true →
    v.deleter.isSome = true ∨ i ∈ s.targets d.owner

theorem sound_initial {rows : List ρ} {programs : τ → List (Statement κ ρ)}
    (h : ∀ t, DeletesFirst (programs t)) : (initial rows programs).Sound where
  done t ht := absurd ht List.not_mem_nil
  saw d hd := absurd hd List.not_mem_nil
  shaped := h
  own v hv t ht := by
    obtain ⟨r, -, rfl⟩ := List.mem_map.1 hv
    cases ht
  deleted v hv hd := by
    obtain ⟨r, -, rfl⟩ := List.mem_map.1 hv
    cases hd
  pending t i hi := absurd hi List.not_mem_nil
  seen i v hv d hd := absurd hd List.not_mem_nil

theorem getElem?_mark {i j : ℕ} {rest : List ℕ} :
    (s.mark t i rest).versions[j]? =
      (s.versions[j]?).map fun v => if i = j then { v with deleter := some t } else v := by
  simp [mark, List.getElem?_modify]

/-- A marked store has the old versions, except that one may be deleted now. -/
theorem getElem?_mark_some {i j : ℕ} {rest : List ℕ} {v : Version ρ τ}
    (h : (s.mark t i rest).versions[j]? = some v) :
    ∃ v₀, s.versions[j]? = some v₀ ∧ v.creator = v₀.creator ∧ v.row = v₀.row ∧
      v.deleter = if i = j then some t else v₀.deleter := by
  rw [getElem?_mark, Option.map_eq_some_iff] at h
  obtain ⟨v₀, hv₀, rfl⟩ := h
  refine ⟨v₀, hv₀, ?_⟩
  split_ifs <;> exact ⟨rfl, rfl, rfl⟩

theorem Doomed.congr {v v₀ : Version ρ τ} (h : s.Doomed v₀) (hlog : s.log ⊆ s'.log)
    (hc : v.creator = v₀.creator) (hr : v.row = v₀.row) : s'.Doomed v := by
  obtain ⟨d, hd, hs⟩ := h
  exact ⟨d, hlog hd, by rw [hc, hr]; exact hs⟩

/-- A transaction that has something left to do is not committed. -/
theorem Sound.busy (h : s.Sound) {u : τ} (hu : u ∈ s.committed)
    (hbusy : s.todo t ≠ [] ∨ s.targets t ≠ []) : u ≠ t := by
  rintro rfl
  obtain ⟨htodo, htargets⟩ := h.done u hu
  rcases hbusy with hbusy | hbusy
  · exact hbusy htodo
  · exact hbusy htargets

/-- A running `DELETE` that has come to its next target. -/
theorem mem_targets_iff {i j : ℕ} {rest : List ℕ} (htargets : s.targets t = i :: rest) {u : τ} :
    j ∈ s.targets u ↔ (u = t ∧ j = i) ∨ j ∈ Function.update s.targets t rest u := by
  by_cases hu : u = t
  · subst hu
    rw [htargets, Function.update_self, List.mem_cons]
    simp
  · rw [Function.update_of_ne hu]
    simp [hu]

theorem Sound.done_rest (h : s.Sound) {i : ℕ} {rest : List ℕ} (htargets : s.targets t = i :: rest)
    {u : τ} (hu : u ∈ s.committed) :
    s.todo u = [] ∧ Function.update s.targets t rest u = [] := by
  have hne : u ≠ t := h.busy hu (.inr (by simp [htargets]))
  rw [Function.update_of_ne hne]
  exact h.done u hu

/-- What is left to do of a program is in order. -/
theorem Sound.shaped_rest (h : s.Sound) {st : Statement κ ρ} {rest : List (Statement κ ρ)}
    (htodo : s.todo t = st :: rest) (u : τ) : DeletesFirst (Function.update s.todo t rest u) := by
  by_cases hu : u = t
  · subst hu
    have hshaped := h.shaped u
    rw [htodo] at hshaped
    rw [Function.update_self]
    exact (List.pairwise_cons.1 hshaped).2
  · rw [Function.update_of_ne hu]
    exact h.shaped u

theorem Sound.mark (h : s.Sound) {i : ℕ} {rest : List ℕ} (htargets : s.targets t = i :: rest) :
    (s.mark t i rest).Sound where
  done u hu := h.done_rest htargets hu
  saw := h.saw
  shaped := h.shaped
  own w hw u hu := by
    obtain ⟨j, hj⟩ := List.mem_iff_getElem?.1 hw
    obtain ⟨w₀, hw₀, hc, -, -⟩ := getElem?_mark_some hj
    exact h.own w₀ (List.mem_of_getElem? hw₀) u (hc.symm.trans hu)
  deleted w hw hd := by
    obtain ⟨j, hj⟩ := List.mem_iff_getElem?.1 hw
    obtain ⟨w₀, hw₀, hc, hr, hdel⟩ := getElem?_mark_some hj
    by_cases hij : i = j
    · subst hij
      obtain ⟨w₁, hw₁, hdoomed⟩ := h.pending t i (by simp [htargets])
      obtain rfl : w₀ = w₁ := Option.some.inj (hw₀.symm.trans hw₁)
      exact hdoomed.congr (List.Subset.refl _) hc hr
    · rw [hdel, if_neg hij] at hd
      exact (h.deleted w₀ (List.mem_of_getElem? hw₀) hd).congr (List.Subset.refl _) hc hr
  pending u j hj := by
    obtain ⟨w₀, hw₀, hdoomed⟩ := h.pending u j ((mem_targets_iff htargets).2 (.inr hj))
    refine ⟨_, by rw [getElem?_mark, hw₀]; rfl, ?_⟩
    apply hdoomed.congr (List.Subset.refl _)
    · split_ifs <;> rfl
    · split_ifs <;> rfl
  seen j w hj d hd hs := by
    obtain ⟨w₀, hw₀, hc, hr, hdel⟩ := getElem?_mark_some hj
    by_cases hij : i = j
    · left
      rw [hdel, if_pos hij]
      rfl
    · rw [hdel, if_neg hij]
      rw [hc, hr] at hs
      refine (h.seen j w₀ hw₀ d hd hs).imp id fun hmem => ?_
      exact ((mem_targets_iff htargets).1 hmem).resolve_left fun he => hij he.2.symm

theorem Sound.pass (h : s.Sound) {i : ℕ} {rest : List ℕ} {v : Version ρ τ}
    (htargets : s.targets t = i :: rest) (hv : s.versions[i]? = some v)
    (hgone : v.deleter.isSome = true) : (s.pass t rest).Sound where
  done u hu := h.done_rest htargets hu
  saw := h.saw
  shaped := h.shaped
  own := h.own
  deleted := h.deleted
  pending u j hj := h.pending u j ((mem_targets_iff htargets).2 (.inr hj))
  seen j w hj d hd hs := by
    rcases h.seen j w hj d hd hs with hdel | hmem
    · exact .inl hdel
    · rcases (mem_targets_iff htargets).1 hmem with ⟨-, rfl⟩ | hmem
      · obtain rfl : w = v := Option.some.inj (hj.symm.trans hv)
        exact .inl hgone
      · exact .inr hmem

theorem mem_targetsOf {hit : ρ → Bool} {i : ℕ} :
    i ∈ s.targetsOf t hit ↔
      ∃ v, s.versions[i]? = some v ∧ s.visible t v = true ∧ hit v.row = true := by
  simp only [targetsOf, List.mem_filter, List.mem_range, Option.any_eq_true, Bool.and_eq_true]
  constructor
  · rintro ⟨-, v, hv, hvis⟩
    exact ⟨v, hv, hvis⟩
  · rintro ⟨v, hv, hvis⟩
    exact ⟨(List.getElem?_eq_some_iff.1 hv).1, v, hv, hvis⟩

theorem visible_iff {v : Version ρ τ} :
    s.visible t v = true ↔ (∀ c, v.creator = some c → c ∈ s.committed ∨ c = t) ∧
      ∀ u, v.deleter = some u → u ∉ s.committed ∧ u ≠ t := by
  simp [visible, Option.all_eq_true]

theorem sees_iff {d : Scan κ ρ τ} {creator : Option τ} {r : ρ} :
    d.sees creator r = true ↔ d.hit r = true ∧ ∀ c, creator = some c → c ∈ d.saw := by
  simp [Scan.sees, Option.all_eq_true]

/-- A transaction that is about to delete has inserted nothing, so that its scan sees no version
of its own. -/
theorem Sound.delete (h : s.Sound) {name : κ} {hit : ρ → Bool} {rest : List (Statement κ ρ)}
    (htargets : s.targets t = []) (htodo : s.todo t = .delete name hit :: rest) :
    (s.execute t rest (.delete name hit)).Sound where
  done u hu := by
    obtain ⟨hdone, hnone⟩ := h.done u hu
    have hne : u ≠ t := h.busy hu (.inl (by simp [htodo]))
    exact ⟨(Function.update_of_ne hne _ _).trans hdone,
      (Function.update_of_ne hne _ _).trans hnone⟩
  saw d hd u hu := by
    rcases List.mem_append.1 hd with hd | hd
    · exact h.saw d hd u hu
    · obtain rfl := List.mem_singleton.1 hd
      exact hu
  shaped := h.shaped_rest htodo
  own v hv u hu st hst := by
    apply h.own v hv u hu st
    by_cases hut : u = t
    · subst hut
      rw [htodo]
      simp only [Store.execute, Function.update_self] at hst
      exact List.mem_cons_of_mem _ hst
    · simpa only [Store.execute, Function.update_of_ne hut] using hst
  deleted v hv hd := (h.deleted v hv hd).congr (List.subset_append_left _ _) rfl rfl
  pending u i hi := by
    by_cases hu : u = t
    · subst hu
      simp only [Store.execute, Function.update_self] at hi
      obtain ⟨v, hv, hvis, hhit⟩ := mem_targetsOf.1 hi
      refine ⟨v, hv, ⟨u, name, hit, s.committed⟩, by simp [Store.execute],
        sees_iff.2 ⟨hhit, ?_⟩⟩
      intro c hc
      refine ((visible_iff.1 hvis).1 c hc).resolve_right ?_
      rintro rfl
      have hnot := h.own v (List.mem_of_getElem? hv) c hc (.delete name hit) (by simp [htodo])
      cases hnot
    · simp only [Store.execute, Function.update_of_ne hu] at hi
      obtain ⟨v, hv, hdoomed⟩ := h.pending u i hi
      exact ⟨v, hv, hdoomed.congr (List.subset_append_left _ _) rfl rfl⟩
  seen i v hv d hd hs := by
    rcases List.mem_append.1 hd with hd | hd
    · refine (h.seen i v hv d hd hs).imp id fun hmem => ?_
      have hne : d.owner ≠ t := by
        intro hu
        rw [hu, htargets] at hmem
        cases hmem
      simpa only [Store.execute, Function.update_of_ne hne] using hmem
    · obtain rfl := List.mem_singleton.1 hd
      obtain ⟨hhit, hcreator⟩ := sees_iff.1 hs
      cases hdel : v.deleter with
      | some u => exact .inl rfl
      | none =>
        right
        simp only [Store.execute, Function.update_self]
        refine mem_targetsOf.2 ⟨v, hv, visible_iff.2 ⟨fun c hc => .inl (hcreator c hc), ?_⟩, hhit⟩
        simp [hdel]

theorem getElem?_insert {rows : List ρ} {rest : List (Statement κ ρ)} {i : ℕ} {v : Version ρ τ}
    (h : (s.execute t rest (.insert rows)).versions[i]? = some v) :
    s.versions[i]? = some v ∨ (v.creator = some t ∧ v.deleter = none) := by
  have hmem : (s.versions ++ rows.map fun r => (⟨r, some t, none⟩ : Version ρ τ))[i]? = some v := h
  by_cases hi : i < s.versions.length
  · exact .inl (by rwa [List.getElem?_append_left hi] at hmem)
  · right
    rw [List.getElem?_append_right (by omega)] at hmem
    obtain ⟨r, -, rfl⟩ := List.mem_map.1 (List.mem_of_getElem? hmem)
    exact ⟨rfl, rfl⟩

theorem mem_insert {rows : List ρ} {rest : List (Statement κ ρ)} {v : Version ρ τ}
    (h : v ∈ (s.execute t rest (.insert rows)).versions) :
    v ∈ s.versions ∨ (v.creator = some t ∧ v.deleter = none) := by
  obtain ⟨i, hi⟩ := List.mem_iff_getElem?.1 h
  exact (getElem?_insert hi).imp_left List.mem_of_getElem?

theorem Sound.insert (h : s.Sound) {rows : List ρ} {rest : List (Statement κ ρ)}
    (htodo : s.todo t = .insert rows :: rest) : (s.execute t rest (.insert rows)).Sound where
  done u hu := by
    obtain ⟨hdone, hnone⟩ := h.done u hu
    have hne : u ≠ t := h.busy hu (.inl (by simp [htodo]))
    exact ⟨(Function.update_of_ne hne _ _).trans hdone, hnone⟩
  saw := h.saw
  shaped := h.shaped_rest htodo
  own v hv u hu st hst := by
    by_cases hut : u = t
    · subst hut
      simp only [Store.execute, Function.update_self] at hst
      have hshaped := h.shaped u
      rw [htodo] at hshaped
      by_contra hdel
      have hfirst := (List.pairwise_cons.1 hshaped).1 st hst (by simpa using hdel)
      cases hfirst
    · simp only [Store.execute, Function.update_of_ne hut] at hst
      rcases mem_insert hv with hv | ⟨hc, -⟩
      · exact h.own v hv u hu st hst
      · exact absurd (Option.some.inj (hu.symm.trans hc)) hut
  deleted v hv hd := by
    rcases mem_insert hv with hv | ⟨-, hnone⟩
    · exact h.deleted v hv hd
    · rw [hnone] at hd
      cases hd
  pending u i hi := by
    obtain ⟨v, hv, hdoomed⟩ := h.pending u i hi
    exact ⟨v, (List.getElem?_append_left (List.getElem?_eq_some_iff.1 hv).1).trans hv, hdoomed⟩
  seen i v hv d hd hs := by
    rcases getElem?_insert hv with hv | ⟨hc, -⟩
    · exact h.seen i v hv d hd hs
    · -- a transaction that a scan saw is done, and inserts nothing any more
      have hdone := (h.done t (h.saw d hd t ((sees_iff.1 hs).2 t hc))).1
      rw [htodo] at hdone
      cases hdone

theorem Sound.commit (h : s.Sound) (htargets : s.targets t = []) (htodo : s.todo t = []) :
    (s.commit t).Sound where
  done u hu := by
    rcases List.mem_cons.1 hu with rfl | hu
    · exact ⟨htodo, htargets⟩
    · exact h.done u hu
  saw d hd u hu := List.mem_cons_of_mem t (h.saw d hd u hu)
  shaped := h.shaped
  own := h.own
  deleted := h.deleted
  pending := h.pending
  seen := h.seen

theorem sound_step (h : s.Sound) (hs : Step s t s') : s'.Sound := by
  cases step_outcome hs with
  | mark htargets _ _ => exact h.mark htargets
  | pass htargets hv hgone => exact h.pass htargets hv hgone
  | execute st rest htargets htodo =>
    cases st with
    | delete name hit => exact h.delete htargets htodo
    | insert rows => exact h.insert htodo
  | commit htargets htodo => exact h.commit htargets htodo

theorem sound_of_run {rows : List ρ} {programs : τ → List (Statement κ ρ)}
    (hfirst : ∀ t, DeletesFirst (programs t)) {es : List τ}
    (h : Run Step (initial rows programs) es s) : s.Sound :=
  h.invariant (fun _ _ _ hs hstep => sound_step hs hstep) (sound_initial hfirst)

def rowsOf (s : Store κ ρ τ) (creator : Option τ) : List ρ :=
  (s.versions.filter fun v => v.creator = creator).map Version.row

/-- What a transaction has inserted and started to delete, with what it still has to do, is its
program. -/
structure Accounts (rows : List ρ) (programs : τ → List (Statement κ ρ)) (s : Store κ ρ τ) :
    Prop where
  initially : s.rowsOf none = rows
  created : ∀ t, s.rowsOf (some t) ++ (s.todo t).flatMap Statement.rows =
    (programs t).flatMap Statement.rows
  scans : ∀ t, ((s.log.filter fun d => d.owner = t).map fun d => (d.name, d.hit)) ++
    (s.todo t).filterMap Statement.scan = (programs t).filterMap Statement.scan

variable {rows : List ρ} {programs : τ → List (Statement κ ρ)}

theorem accounts_initial : (initial rows programs).Accounts rows programs where
  initially := by simp [rowsOf, initial, List.filter_map, Function.comp_def]
  created t := by simp [rowsOf, initial, List.filter_map, Function.comp_def]
  scans t := by simp [initial]

theorem rowsOf_mark {i : ℕ} {rest : List ℕ} (creator : Option τ) :
    (s.mark t i rest).rowsOf creator = s.rowsOf creator := by
  simp only [rowsOf, Store.mark]
  generalize s.versions = versions
  induction versions generalizing i with
  | nil => simp
  | cons v vs ih =>
    cases i with
    | zero =>
      simp only [List.modify_zero_cons, List.filter_cons]
      split <;> rfl
    | succ i =>
      simp only [List.modify_succ_cons, List.filter_cons]
      split
      · simp only [List.map_cons, ih]
      · exact ih

theorem rowsOf_insert {added : List ρ} {rest : List (Statement κ ρ)} (creator : Option τ) :
    (s.execute t rest (.insert added)).rowsOf creator =
      s.rowsOf creator ++ if some t = creator then added else [] := by
  simp only [rowsOf, execute, List.filter_append, List.map_append, List.filter_map, List.map_map,
    Function.comp_def]
  congr 1
  split_ifs with h <;> simp [h]

theorem accounts_step (h : s.Accounts rows programs) (hs : Step s t s') :
    s'.Accounts rows programs := by
  cases step_outcome hs with
  | mark _ _ _ =>
    exact ⟨(rowsOf_mark none).trans h.initially, fun u => by rw [rowsOf_mark]; exact h.created u,
      h.scans⟩
  | pass _ _ _ => exact ⟨h.initially, h.created, h.scans⟩
  | commit _ _ => exact ⟨h.initially, h.created, h.scans⟩
  | execute st rest _ htodo =>
    have hcreated := h.created t
    have hscans := h.scans t
    rw [htodo] at hcreated hscans
    cases st with
    | delete name hit =>
      refine ⟨h.initially, fun u => ?_, fun u => ?_⟩
      · by_cases hu : u = t
        · subst hu
          simpa [execute, rowsOf, Statement.rows] using hcreated
        · simpa [execute, rowsOf, Function.update_of_ne hu] using h.created u
      · by_cases hu : u = t
        · subst hu
          simpa [execute, List.filter_append, Statement.scan] using hscans
        · have hne : ¬t = u := fun he => hu he.symm
          simpa [execute, List.filter_append, Function.update_of_ne hu, hne] using h.scans u
    | insert added =>
      refine ⟨?_, fun u => ?_, fun u => ?_⟩
      · rw [rowsOf_insert, if_neg (by simp), List.append_nil]
        exact h.initially
      · rw [rowsOf_insert]
        by_cases hu : u = t
        · subst hu
          simpa [execute, Statement.rows] using hcreated
        · have hne : ¬some t = some u := fun he => hu (Option.some.inj he).symm
          rw [if_neg hne, List.append_nil]
          simpa [execute, Function.update_of_ne hu] using h.created u
      · by_cases hu : u = t
        · subst hu
          rw [List.filterMap_cons_none rfl] at hscans
          simpa [execute] using hscans
        · simpa [execute, Function.update_of_ne hu] using h.scans u

theorem accounts_of_run {es : List τ} (h : Run Step (initial rows programs) es s) :
    s.Accounts rows programs :=
  h.invariant (fun _ _ _ hs hstep => accounts_step hs hstep) accounts_initial

/-- Later scans see more, and none sees the commit of a transaction that scans at the same time or
later. -/
structure Ordered (s : Store κ ρ τ) : Prop where
  later : s.log.Pairwise fun a b => a.saw ⊆ b.saw ∧ b.owner ∉ a.saw
  opened : ∀ d ∈ s.log, d.owner ∉ d.saw

theorem ordered_step (h : s.Ordered) (hsound : s.Sound) (hs : Step s t s') : s'.Ordered := by
  cases step_outcome hs with
  | mark _ _ _ => exact ⟨h.later, h.opened⟩
  | pass _ _ _ => exact ⟨h.later, h.opened⟩
  | commit _ _ => exact ⟨h.later, h.opened⟩
  | execute st rest _ htodo =>
    cases st with
    | insert added => exact ⟨h.later, h.opened⟩
    | delete name hit =>
      have hopen : t ∉ s.committed := fun ht => hsound.busy ht (.inl (by simp [htodo])) rfl
      constructor
      · refine List.pairwise_append.2 ⟨h.later, List.pairwise_singleton _ _, ?_⟩
        intro a ha b hb
        obtain rfl := List.mem_singleton.1 hb
        exact ⟨hsound.saw a ha, fun ht => hopen (hsound.saw a ha t ht)⟩
      · intro d hd
        rcases List.mem_append.1 hd with hd | hd
        · exact h.opened d hd
        · obtain rfl := List.mem_singleton.1 hd
          exact hopen

theorem ordered_of_run {es : List τ} (hfirst : ∀ t, DeletesFirst (programs t))
    (h : Run Step (initial rows programs) es s) : s.Ordered :=
  (h.invariant (I := fun s => s.Sound ∧ s.Ordered)
    (fun _ _ _ hs hstep => ⟨sound_step hs.1 hstep, ordered_step hs.2 hs.1 hstep⟩)
    ⟨sound_initial hfirst, .nil, fun _ hd => absurd hd List.not_mem_nil⟩).2

omit [DecidableEq τ] in
/-- Of two transactions at most one scans after the other's commit. -/
theorem Ordered.not_both (h : s.Ordered) {a b : Scan κ ρ τ} (ha : a ∈ s.log) (hb : b ∈ s.log)
    (hab : b.owner ∈ a.saw) : a.owner ∉ b.saw := by
  have hpair : s.log.Pairwise fun a b => b.owner ∈ a.saw → a.owner ∉ b.saw :=
    h.later.imp fun hlater hmem => absurd hmem hlater.2
  have hflip : s.log.Pairwise (flip fun a b => b.owner ∈ a.saw → a.owner ∉ b.saw) :=
    h.later.imp fun hlater _ hmem => hlater.2 hmem
  have hself : ∀ d ∈ s.log, d.owner ∈ d.saw → d.owner ∉ d.saw := fun d hd _ => h.opened d hd
  exact List.Pairwise.forall_of_forall_of_flip hself hpair hflip ha hb hab

/-- Some scan deletes the rows of this creator that are like `r`. -/
def overtaken (s : Store κ ρ τ) (creator : Option τ) (r : ρ) : Bool :=
  s.log.any fun d => d.sees creator r

theorem Sound.deleter_isNone (h : s.Sound) (hall : ∀ t, t ∈ s.committed) {v : Version ρ τ}
    (hv : v ∈ s.versions) : v.deleter.isNone = !s.overtaken v.creator v.row := by
  have hiff : v.deleter.isSome = true ↔ s.overtaken v.creator v.row = true := by
    rw [overtaken, List.any_eq_true]
    constructor
    · exact h.deleted v hv
    · rintro ⟨d, hd, hs⟩
      obtain ⟨i, hi⟩ := List.mem_iff_getElem?.1 hv
      refine (h.seen i v hi d hd hs).resolve_right fun hmem => ?_
      rw [(h.done d.owner (hall _)).2] at hmem
      cases hmem
  rw [← Option.not_isSome, Bool.eq_iff_iff.2 hiff]

/-- Once all have committed, the rows of a creator are those that no scan overtook. -/
theorem Sound.contents_eq (h : s.Sound) (hall : ∀ t, t ∈ s.committed) :
    s.contents = (s.versions.filter fun v => !s.overtaken v.creator v.row).map Version.row := by
  unfold contents
  congr 1
  apply List.filter_congr
  intro v hv
  rw [← h.deleter_isNone hall hv]
  cases hd : v.deleter <;> cases hc : v.creator <;> simp [hall]

theorem perm_partition {α β : Type*} [DecidableEq β] (f : α → β) {keys : List β} {l : List α}
    (hkeys : keys.Nodup) (hl : ∀ a ∈ l, f a ∈ keys) :
    l.Perm (keys.flatMap fun k => l.filter fun a => f a = k) := by
  induction keys generalizing l with
  | nil =>
    cases l with
    | nil => exact .nil
    | cons a l => exact absurd (hl a List.mem_cons_self) List.not_mem_nil
  | cons k ks ih =>
    have hrest : (l.filter fun a => !decide (f a = k)).Perm
        (ks.flatMap fun k' => l.filter fun a => f a = k') := by
      have hmem : ∀ a ∈ l.filter fun a => !decide (f a = k), f a ∈ ks := by
        intro a ha
        obtain ⟨ha, hne⟩ := List.mem_filter.1 ha
        refine (List.mem_cons.1 (hl a ha)).resolve_left ?_
        simpa using hne
      refine (ih hkeys.of_cons hmem).trans (List.Perm.of_eq ?_)
      apply List.flatMap_congr
      intro k' hk'
      rw [List.filter_filter]
      apply List.filter_congr
      intro a _
      have hne : k' ≠ k := fun he => (List.nodup_cons.1 hkeys).1 (he ▸ hk')
      by_cases hak : f a = k' <;> simp [hak, hne]
    exact (List.filter_append_perm _ l).symm.trans (hrest.append_left _)

/-- What is there when all have committed, creator by creator: the rows it wrote, without those
that some scan overtook. -/
theorem contents_perm (h : s.Sound) (ha : s.Accounts rows programs) (hall : ∀ t, t ∈ s.committed)
    {ts : List τ} (hnodup : ts.Nodup) (hts : ∀ t, t ∈ ts) :
    s.contents.Perm ((rows.filter fun r => !s.overtaken none r) ++ ts.flatMap fun t =>
      ((programs t).flatMap Statement.rows).filter fun r => !s.overtaken (some t) r) := by
  have hrows : ∀ creator, ((s.versions.filter fun v => !s.overtaken v.creator v.row).filter
      fun v => v.creator = creator).map Version.row =
        (s.rowsOf creator).filter fun r => !s.overtaken creator r := by
    intro creator
    rw [rowsOf, List.filter_map, List.filter_filter, List.filter_filter]
    congr 1
    apply List.filter_congr
    intro v _
    by_cases hc : v.creator = creator <;> simp [hc]
  have hdone : ∀ t, s.rowsOf (some t) = (programs t).flatMap Statement.rows := by
    intro t
    have hcreated := ha.created t
    rwa [(h.done t (hall t)).1, List.flatMap_nil, List.append_nil] at hcreated
  have hkeys : (none :: ts.map some).Nodup := by
    have hinj : ∀ a b : τ, a ≠ b → some a ≠ some b := fun a b hne he => hne (Option.some.inj he)
    exact List.nodup_cons.2 ⟨by simp, List.Pairwise.map some hinj hnodup⟩
  have hperm := perm_partition Version.creator hkeys (l := s.versions.filter fun v =>
    !s.overtaken v.creator v.row) (fun v _ => by cases v.creator <;> simp [hts])
  rw [h.contents_eq hall]
  refine (hperm.map Version.row).trans (List.Perm.of_eq ?_)
  rw [List.map_flatMap, List.flatMap_cons, List.flatMap_map, hrows none, ha.initially]
  congr 1
  apply List.flatMap_congr
  intro t _
  rw [hrows (some t), hdone t]

end Store
end Revix.ReadCommitted
