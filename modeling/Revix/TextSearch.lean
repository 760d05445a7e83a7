import Revix.Infixes
import Revix.SwarmReplies
import Mathlib.Data.List.TakeWhile

namespace Revix
open Infixes

section Strip

variable {s before after : List Char}

def Stripped (s : List Char) : Prop :=
  (∀ c ∈ s.head?, isSpace c = false) ∧ ∀ c ∈ s.getLast?, isSpace c = false

theorem head?_dropWhile_isSpace {c : Char} (h : c ∈ (s.dropWhile isSpace).head?) :
    isSpace c = false := by
  have hhead := List.head?_dropWhile_not isSpace s
  rw [Option.mem_def] at h
  rw [h] at hhead
  exact hhead

theorem stripped_stripChars (s : List Char) : Stripped (stripChars s) := by
  constructor
  · intro c hc
    have hprefix : stripChars s <+: s.dropWhile isSpace := by
      rw [← List.reverse_suffix, stripChars, List.reverse_reverse]
      exact List.dropWhile_suffix _
    obtain ⟨rest, hrest⟩ := hprefix
    apply head?_dropWhile_isSpace (s := s)
    rw [Option.mem_def] at hc ⊢
    rw [← hrest, List.head?_append, hc]
    rfl
  · intro c hc
    rw [stripChars, List.getLast?_reverse] at hc
    exact head?_dropWhile_isSpace hc

/-- White space at the ends is what is taken away. -/
theorem stripChars_append (hbefore : ∀ c ∈ before, isSpace c = true) (hs : Stripped s)
    (hafter : ∀ c ∈ after, isSpace c = true) : stripChars (before ++ s ++ after) = s := by
  rw [stripChars, List.append_assoc, List.dropWhile_append_of_pos hbefore]
  rcases List.eq_nil_or_concat s with rfl | ⟨init, last, rfl⟩
  · have hnone : after.dropWhile isSpace = [] := by
      rw [← List.append_nil after, List.dropWhile_append_of_pos hafter]
      rfl
    rw [List.nil_append, hnone]
    rfl
  · have hfirst : (init.concat last ++ after).dropWhile isSpace = init.concat last ++ after := by
      cases init with
      | nil =>
        have hlast := hs.1 last rfl
        exact List.dropWhile_cons_of_neg (by simp [hlast])
      | cons c cs =>
        have hc := hs.1 c rfl
        exact List.dropWhile_cons_of_neg (by simp [hc])
    have hlast : isSpace last = false := hs.2 last (by simp)
    have hspaces : ∀ c ∈ after.reverse, isSpace c = true := fun c hc =>
      hafter c (List.mem_reverse.1 hc)
    rw [hfirst, List.reverse_append, List.dropWhile_append_of_pos hspaces, List.concat_eq_append,
      List.reverse_append, List.reverse_singleton, List.singleton_append,
      List.dropWhile_cons_of_neg (by simp [hlast]), List.reverse_cons, List.reverse_reverse]

theorem stripChars_of_stripped (hs : Stripped s) : stripChars s = s := by
  have hnone : ∀ c ∈ ([] : List Char), isSpace c = true := fun c hc => absurd hc List.not_mem_nil
  have hends := stripChars_append hnone hs hnone
  rwa [List.nil_append, List.append_nil] at hends

theorem stripChars_append_left (hbefore : ∀ c ∈ before, isSpace c = true) (s : List Char) :
    stripChars (before ++ s) = stripChars s := by
  rw [stripChars, List.dropWhile_append_of_pos hbefore, stripChars]

/-- From a text that begins visibly only the end is taken away. -/
theorem stripChars_isPrefix (h : ∀ c ∈ s.head?, isSpace c = false) : stripChars s <+: s := by
  have hdrop : s.dropWhile isSpace = s := by
    cases s with
    | nil => rfl
    | cons c cs => exact List.dropWhile_cons_of_neg (by simp [h c rfl])
  rw [← List.reverse_suffix, stripChars, List.reverse_reverse, hdrop]
  exact List.dropWhile_suffix _

theorem exists_strip (s : List Char) : ∃ before after,
    s = before ++ stripChars s ++ after ∧ (∀ c ∈ before, isSpace c = true) ∧
      ∀ c ∈ after, isSpace c = true := by
  refine ⟨s.takeWhile isSpace, ((s.dropWhile isSpace).reverse.takeWhile isSpace).reverse, ?_,
    fun c hc => List.mem_takeWhile_imp hc,
    fun c hc => List.mem_takeWhile_imp (List.mem_reverse.1 hc)⟩
  rw [stripChars, List.append_assoc, ← List.reverse_append, List.takeWhile_append_dropWhile,
    List.reverse_reverse, List.takeWhile_append_dropWhile]

end Strip

section Search

variable {needle xs ys cs : List Char} {c : Char}

theorem splitOnce_eq_none (h : ¬needle <:+: cs) : splitOnce needle cs = none := by
  induction cs with
  | nil =>
    rw [splitOnce, if_neg]
    intro hempty
    rw [List.isEmpty_iff.1 hempty] at h
    exact h List.nil_infix
  | cons c cs ih =>
    have hhead : needle.isPrefixOf (c :: cs) = false := by
      rw [← Bool.not_eq_true, List.isPrefixOf_iff_prefix]
      exact fun hp => h hp.isInfix
    have htail : ¬needle <:+: cs := fun hin => h (List.infix_cons_iff.2 (.inr hin))
    rw [splitOnce, hhead, if_neg Bool.false_ne_true, ih htail]
    rfl

theorem splitOnce_append (needle ys : List Char) :
    splitOnce needle (needle ++ ys) = some ([], ys) := by
  cases needle with
  | nil => cases ys <;> rfl
  | cons c cs =>
    have hp : (c :: cs).isPrefixOf (c :: (cs ++ ys)) = true :=
      List.isPrefixOf_iff_prefix.2 (List.prefix_append (c :: cs) ys)
    rw [List.cons_append, splitOnce, if_pos hp]
    simp

/-- The first occurrence is behind a part without any that a foreign letter ends. -/
theorem splitOnce_append_cons (hc : c ∉ needle) (hxs : ¬needle <:+: xs) (ys : List Char) :
    splitOnce needle (xs ++ c :: ys) =
      (splitOnce needle ys).map fun p => (xs ++ c :: p.1, p.2) := by
  have hstep : ∀ {x : Char} {rest : List Char}, ¬needle <+: x :: rest →
      splitOnce needle (x :: rest) = (splitOnce needle rest).map fun p => (x :: p.1, p.2) := by
    intro x rest hp
    rw [splitOnce, if_neg (fun h => hp (List.isPrefixOf_iff_prefix.1 h))]
  have hne : needle ≠ [] := by
    rintro rfl
    exact hxs List.nil_infix
  induction xs with
  | nil =>
    have hp : ¬needle <+: c :: ys := by
      intro hp
      have hnil : needle <+: [] := prefix_of_prefix_append_cons hc hp
      exact hne (List.prefix_nil.1 hnil)
    exact hstep hp
  | cons x xs ih =>
    have hp : ¬needle <+: x :: (xs ++ c :: ys) := by
      intro hp
      have hbefore : needle <+: x :: xs := prefix_of_prefix_append_cons hc hp
      exact hxs hbefore.isInfix
    have hrest : ¬needle <:+: xs := fun hin => hxs (List.infix_cons_iff.2 (.inr hin))
    rw [List.cons_append, hstep hp, ih hrest, Option.map_map]
    rfl

/-- What is before the first occurrence, and what is behind it. -/
theorem exists_splitOnce (h : needle <:+: cs) : ∃ before after,
    splitOnce needle cs = some (before, after) ∧ cs = before ++ needle ++ after ∧
      ∀ rest, splitOnce needle (before ++ needle ++ rest) = some (before, rest) := by
  induction cs with
  | nil =>
    obtain rfl := List.infix_nil.1 h
    exact ⟨[], [], rfl, rfl, splitOnce_append []⟩
  | cons c cs ih =>
    by_cases hp : needle <+: c :: cs
    · obtain ⟨after, hafter⟩ := hp
      refine ⟨[], after, ?_, hafter.symm, splitOnce_append needle⟩
      rw [← hafter]
      exact splitOnce_append needle after
    · obtain ⟨before, after, hsplit, hcs, hrest⟩ := ih ((List.infix_cons_iff.1 h).resolve_left hp)
      refine ⟨c :: before, after, ?_, congrArg (c :: ·) hcs, fun rest => ?_⟩
      · rw [splitOnce, if_neg (fun hpre => hp (List.isPrefixOf_iff_prefix.1 hpre)), hsplit]
        rfl
      · have hlen : needle.length ≤ (c :: (before ++ needle)).length := by
          simp only [List.length_cons, List.length_append]
          omega
        have hp' : ¬needle <+: c :: (before ++ needle ++ rest) := by
          intro hpre
          have hshort : needle <+: c :: (before ++ needle) :=
            List.prefix_of_prefix_length_le hpre (List.prefix_append (c :: _) rest) hlen
          apply hp
          rw [hcs]
          exact hshort.trans (List.prefix_append (c :: (before ++ needle)) after)
        rw [List.cons_append, List.cons_append, splitOnce,
          if_neg (fun hpre => hp' (List.isPrefixOf_iff_prefix.1 hpre)), hrest]
        rfl

end Search

section Replace

variable {old new xs ys cs : List Char}

theorem replaceChars_skip (old new : List Char) (skip : ℕ) (cs : List Char) :
    replaceChars old new skip cs = replaceChars old new 0 (cs.drop skip) := by
  induction cs generalizing skip with
  | nil => cases skip <;> rfl
  | cons c cs ih =>
    cases skip with
    | zero => rfl
    | succ skip => exact ih skip

theorem replaceChars_prefix (hne : old ≠ []) (new ys : List Char) :
    replaceChars old new 0 (old ++ ys) = new ++ replaceChars old new 0 ys := by
  obtain ⟨c, cs, rfl⟩ := List.exists_cons_of_ne_nil hne
  have hp : (c :: cs).isPrefixOf (c :: (cs ++ ys)) = true :=
    List.isPrefixOf_iff_prefix.2 (List.prefix_append (c :: cs) ys)
  rw [List.cons_append, replaceChars, if_pos hp, replaceChars_skip]
  simp

theorem replaceChars_cons {c : Char} (h : ¬old <+: c :: cs) (new : List Char) :
    replaceChars old new 0 (c :: cs) = c :: replaceChars old new 0 cs := by
  rw [replaceChars, if_neg (fun hp => h (List.isPrefixOf_iff_prefix.1 hp))]

theorem replaceChars_of_not_infix (h : ¬old <:+: cs) (new : List Char) :
    replaceChars old new 0 cs = cs := by
  induction cs with
  | nil => rfl
  | cons c cs ih =>
    have hp : ¬old <+: c :: cs := fun hp => h hp.isInfix
    have hrest : ¬old <:+: cs := fun hin => h (List.infix_cons_iff.2 (.inr hin))
    rw [replaceChars_cons hp, ih hrest]

end Replace

end Revix
