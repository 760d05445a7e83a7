import Revix.Infixes
import Revix.ReviewRendering

namespace Revix
open Infixes

/-- The four digits of `\u`. -/
def hexDigits (n : ℕ) : List Char :=
  [Nat.digitChar (n / 4096 % 16), Nat.digitChar (n / 256 % 16), Nat.digitChar (n / 16 % 16),
    Nat.digitChar (n % 16)]

/-- A character inside a string. Above the basic plane it is escaped as a pair of surrogates. -/
def escapeChar (c : Char) : List Char :=
  let n := c.toNat
  if c = '"' then ['\\', '"']
  else if c = '\\' then ['\\', '\\']
  else if n = 8 then ['\\', 'b']
  else if n = 9 then ['\\', 't']
  else if n = 10 then ['\\', 'n']
  else if n = 12 then ['\\', 'f']
  else if n = 13 then ['\\', 'r']
  else if 32 ≤ n && n ≤ 126 then [c]
  else if n < 0x10000 then '\\' :: 'u' :: hexDigits n
  else '\\' :: 'u' :: hexDigits (0xd800 + (n - 0x10000) / 1024) ++
    '\\' :: 'u' :: hexDigits (0xdc00 + (n - 0x10000) % 1024)

def dumpString (s : String) : List Char := '"' :: s.toList.flatMap escapeChar ++ ['"']

/-- A float by its `repr`, unless it is not finite. -/
def dumpFloat (text : String) : List Char :=
  (if text = "nan" then "NaN" else if text = "inf" then "Infinity"
    else if text = "-inf" then "-Infinity" else text).toList

mutual

def Json.dumps : Json → List Char
  | .null => "null".toList
  | .bool b => (if b then "true" else "false").toList
  | .int n => (toString n).toList
  | .float text => dumpFloat text
  | .str s => dumpString s
  | .arr xs => '[' :: [',', ' '].intercalate (dumpItems xs) ++ [']']
  | .obj fields => '\x7b' :: [',', ' '].intercalate (dumpFields fields) ++ ['\x7d']

def dumpItems : List Json → List (List Char)
  | [] => []
  | v :: vs => v.dumps :: dumpItems vs

def dumpFields : List (String × Json) → List (List Char)
  | [] => []
  | (key, v) :: fields => (dumpString key ++ ':' :: ' ' :: v.dumps) :: dumpFields fields

end

def Json.isContainer : Json → Bool
  | .arr _ => true
  | .obj _ => true
  | _ => false

example : String.ofList (Json.obj [("a", .arr [.int 1, .str "x\n"]), ("b", .null)]).dumps =
    "\x7b\"a\": [1, \"x\\n\"], \"b\": null\x7d" := by
  decide

def fence : List Char := ['`', '`', '`']

mutual

def Json.hasFence : Json → Bool
  | .null => false
  | .bool _ => false
  | .int _ => false
  | .float text => occursIn fence (dumpFloat text)
  | .str s => occursIn fence s.toList
  | .arr xs => itemsHaveFence xs
  | .obj fields => fieldsHaveFence fields

def itemsHaveFence : List Json → Bool
  | [] => false
  | v :: vs => v.hasFence || itemsHaveFence vs

def fieldsHaveFence : List (String × Json) → Bool
  | [] => false
  | (key, v) :: fields => occursIn fence key.toList || v.hasFence || fieldsHaveFence fields

end

section Fences

variable {s xs ys ws : List Char} {c : Char}

theorem fence_ne_nil : fence ≠ [] := List.cons_ne_nil _ _

theorem not_mem_fence (hc : c ≠ '`') : c ∉ fence := by
  simp [fence, hc]

theorem fence_not_inside (h : '`' ∉ s) : ¬fence <:+: s := fun hin =>
  h (hin.subset (.head _))

/-- Another letter separates the fences before it from those behind it. -/
theorem fence_infix_append_cons_iff (hc : c ≠ '`') :
    fence <:+: xs ++ c :: ys ↔ fence <:+: xs ∨ fence <:+: ys :=
  infix_append_cons_iff (not_mem_fence hc)

theorem fence_infix_append_iff (hws : '`' ∉ ws) : fence <:+: ws ++ ys ↔ fence <:+: ys := by
  apply infix_append_iff
  intro c hc
  exact not_mem_fence fun heq => hws (heq ▸ hc)

theorem fence_infix_cons_iff (hc : c ≠ '`') : fence <:+: c :: ys ↔ fence <:+: ys := by
  have hsingle : '`' ∉ [c] := fun h => hc (List.mem_singleton.1 h).symm
  exact fence_infix_append_iff hsingle

theorem not_mem_hexDigits (n : ℕ) : '`' ∉ hexDigits n := by
  have hdigit : ∀ k < 16, '`' ≠ Nat.digitChar k := by decide
  have hmod : ∀ m, '`' ≠ Nat.digitChar (m % 16) := fun m => hdigit _ (Nat.mod_lt m (by decide))
  simp only [hexDigits, List.mem_cons, List.not_mem_nil, hmod, or_self,
    not_false_eq_true]

theorem escapeChar_tick : escapeChar '`' = ['`'] := rfl

/-- What is escaped has no back tick but for the back tick itself. -/
theorem not_mem_escapeChar (hc : c ≠ '`') : '`' ∉ escapeChar c := by
  have hunicode : ∀ n, '`' ∉ '\\' :: 'u' :: hexDigits n := by
    intro n
    simp [not_mem_hexDigits n]
  unfold escapeChar
  iterate 7 refine iteInduction (motive := fun w => '`' ∉ w) (fun _ => by simp) fun _ => ?_
  refine iteInduction (motive := fun w => '`' ∉ w) (fun _ h => ?_) fun _ => ?_
  · exact hc (List.mem_singleton.1 h).symm
  · refine iteInduction (motive := fun w => '`' ∉ w) (fun _ => hunicode _) fun _ h => ?_
    rcases List.mem_append.1 h with h | h
    · exact hunicode _ h
    · exact hunicode _ h

theorem escapeChar_ne_nil (c : Char) : escapeChar c ≠ [] := by
  unfold escapeChar
  iterate 9 refine iteInduction (motive := fun w => w ≠ []) (fun _ => List.cons_ne_nil _ _) fun _ => ?_
  exact List.cons_ne_nil _ _

theorem ticks_prefix_flatMap_iff (k : ℕ) :
    List.replicate k '`' <+: s.flatMap escapeChar ↔ List.replicate k '`' <+: s := by
  induction s generalizing k with
  | nil => rfl
  | cons c cs ih =>
    cases k with
    | zero => simp
    | succ k =>
      rw [List.flatMap_cons, List.replicate_succ]
      by_cases hc : c = '`'
      · rw [hc, escapeChar_tick, List.singleton_append, List.cons_prefix_cons,
          List.cons_prefix_cons, ih]
      · obtain ⟨d, ds, hd⟩ := List.exists_cons_of_ne_nil (escapeChar_ne_nil c)
        have hne : d ≠ '`' := fun heq => not_mem_escapeChar hc (by rw [hd, heq]; exact .head _)
        rw [hd, List.cons_append, List.cons_prefix_cons, List.cons_prefix_cons]
        exact iff_of_false (fun h => hne h.1.symm) fun h => hc h.1.symm

theorem fence_infix_flatMap_iff : fence <:+: s.flatMap escapeChar ↔ fence <:+: s := by
  induction s with
  | nil => rfl
  | cons c cs ih =>
    by_cases hc : c = '`'
    · have hprefix := ticks_prefix_flatMap_iff (s := c :: cs) 3
      rw [List.flatMap_cons, hc, escapeChar_tick, List.singleton_append] at hprefix
      rw [List.flatMap_cons, hc, escapeChar_tick, List.singleton_append, List.infix_cons_iff,
        List.infix_cons_iff, ih]
      exact or_congr_left hprefix
    · rw [List.flatMap_cons, fence_infix_append_iff (not_mem_escapeChar hc), ih,
        fence_infix_cons_iff hc]

theorem fence_infix_dumpString_iff (s : String) :
    fence <:+: dumpString s ↔ occursIn fence s.toList = true := by
  rw [dumpString, List.cons_append, fence_infix_cons_iff (by simp),
    fence_infix_append_cons_iff (by simp), fence_infix_flatMap_iff, occursIn_iff]
  simp [fence]

theorem tick_not_mem_toString (n : ℤ) : '`' ∉ (toString n).toList := by
  have hnat : ∀ m : ℕ, '`' ∉ (toString m).toList := by
    intro m hm
    have htext : (toString m).toList = Nat.toDigits 10 m := Nat.toList_repr
    rw [htext] at hm
    exact absurd (Nat.isDigit_of_mem_toDigits (by omega) (by omega) hm) (by decide)
  cases n with
  | ofNat m => exact hnat m
  | negSucc m =>
    have htext : (toString (Int.negSucc m)).toList = '-' :: (toString (m + 1)).toList := by
      simp [toString, Int.repr]
    rw [htext, List.mem_cons, not_or]
    exact ⟨by simp, hnat (m + 1)⟩

/-- Between brackets nothing but the items can have a fence. -/
theorem fence_infix_bracketed_iff {l r : Char} (hl : l ≠ '`') (hr : r ≠ '`')
    (texts : List (List Char)) :
    fence <:+: l :: [',', ' '].intercalate texts ++ [r] ↔ ∃ t ∈ texts, fence <:+: t := by
  rw [List.cons_append, fence_infix_cons_iff hl, fence_infix_append_cons_iff hr,
    infix_intercalate_iff (by simp [fence]) fence_ne_nil (by simp)]
  simp [fence]

mutual

/-- A serialisation has a code fence exactly where a string or a key has one. -/
theorem fence_infix_dumps_iff : ∀ v : Json, fence <:+: v.dumps ↔ v.hasFence = true
  | .null => iff_of_false (fence_not_inside (by simp [Json.dumps])) Bool.false_ne_true
  | .bool true => iff_of_false (fence_not_inside (by simp [Json.dumps])) Bool.false_ne_true
  | .bool false => iff_of_false (fence_not_inside (by simp [Json.dumps])) Bool.false_ne_true
  | .int n => iff_of_false (fence_not_inside (tick_not_mem_toString n)) Bool.false_ne_true
  | .float _ => occursIn_iff.symm
  | .str s => fence_infix_dumpString_iff s
  | .arr xs => by
    rw [Json.dumps, fence_infix_bracketed_iff (by simp) (by simp), fence_infix_items_iff,
      Json.hasFence]
  | .obj fields => by
    rw [Json.dumps, fence_infix_bracketed_iff (by simp) (by simp), fence_infix_fields_iff,
      Json.hasFence]

theorem fence_infix_items_iff : ∀ vs : List Json,
    (∃ t ∈ dumpItems vs, fence <:+: t) ↔ itemsHaveFence vs = true
  | [] => by simp [dumpItems, itemsHaveFence]
  | v :: vs => by
    rw [dumpItems, itemsHaveFence, Bool.or_eq_true, ← fence_infix_dumps_iff v,
      ← fence_infix_items_iff vs]
    simp only [List.mem_cons, exists_eq_or_imp]

theorem fence_infix_fields_iff : ∀ fields : List (String × Json),
    (∃ t ∈ dumpFields fields, fence <:+: t) ↔ fieldsHaveFence fields = true
  | [] => by simp [dumpFields, fieldsHaveFence]
  | (key, v) :: fields => by
    have hfield : fence <:+: dumpString key ++ ':' :: ' ' :: v.dumps ↔
        occursIn fence key.toList = true ∨ v.hasFence = true := by
      rw [fence_infix_append_cons_iff (by simp), fence_infix_dumpString_iff,
        fence_infix_cons_iff (by simp), fence_infix_dumps_iff v]
    rw [dumpFields, fieldsHaveFence, Bool.or_eq_true, Bool.or_eq_true, ← hfield,
      ← fence_infix_fields_iff fields]
    simp only [List.mem_cons, exists_eq_or_imp]

end

end Fences

end Revix
