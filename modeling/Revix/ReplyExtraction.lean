import Revix.JsonTexts
import Revix.TextSearch

namespace Revix
open Infixes

def Json.text (v : Json) : String := String.ofList v.dumps

theorem Json.toList_text (v : Json) : v.text.toList = v.dumps := String.toList_ofList

def fencedReply (s : String) : String := "```json\n" ++ s ++ "\n```"

section Extraction

variable {s : List Char} {v : Json} {l r : Char} {body : List Char}

theorem exists_brackets (hv : v.isContainer = true) : ∃ l body r, v.dumps = l :: body ++ [r] ∧
    (l = '[' ∧ r = ']' ∨ l = '\x7b' ∧ r = '\x7d') := by
  cases v with
  | arr xs => exact ⟨_, _, _, rfl, .inl ⟨rfl, rfl⟩⟩
  | obj fields => exact ⟨_, _, _, rfl, .inr ⟨rfl, rfl⟩⟩
  | _ => cases hv

theorem upToLast_concat (c : Char) (s : List Char) : upToLast c (s ++ [c]) = some (s ++ [c]) := by
  rw [upToLast, if_pos (List.mem_append_right _ (List.mem_singleton_self c)), List.reverse_append,
    List.reverse_singleton, List.singleton_append, List.dropWhile_cons_of_neg (by simp),
    List.reverse_cons, List.reverse_reverse]

theorem bracketed_brackets (h : l = '[' ∧ r = ']' ∨ l = '\x7b' ∧ r = '\x7d') (body : List Char) :
    bracketed (l :: body ++ [r]) = some (l :: body ++ [r]) := by
  rcases h with ⟨rfl, rfl⟩ | ⟨rfl, rfl⟩
  · simp [bracketed, upToLast_concat]
  · simp [bracketed, upToLast_concat]

theorem stripped_brackets (h : l = '[' ∧ r = ']' ∨ l = '\x7b' ∧ r = '\x7d') (body : List Char) :
    Stripped (l :: body ++ [r]) := by
  have hvisible : isSpace l = false ∧ isSpace r = false := by
    rcases h with ⟨rfl, rfl⟩ | ⟨rfl, rfl⟩
    · exact ⟨rfl, rfl⟩
    · exact ⟨rfl, rfl⟩
  constructor
  · intro c hc
    obtain rfl := Option.some.inj hc
    exact hvisible.1
  · intro c hc
    rw [List.getLast?_concat] at hc
    obtain rfl := Option.some.inj hc
    exact hvisible.2

theorem jsonMark_eq : "```json".toList = fence ++ ['j', 's', 'o', 'n'] := by decide

theorem fence_eq : "```".toList = fence := by decide

/-- Without a fence in it, the outermost brackets are found. -/
theorem jsonText_bare (hv : v.isContainer = true) (hfence : ¬fence <:+: v.dumps) :
    jsonText v.text = v.text := by
  obtain ⟨l, body, r, hdumps, hbrackets⟩ := exists_brackets hv
  have hstrip : strip v.text = v.text := by
    rw [strip, v.toList_text, hdumps, stripChars_of_stripped (stripped_brackets hbrackets body),
      ← hdumps, Json.text]
  have hmark : splitOnce "```json".toList v.text.toList = none := by
    apply splitOnce_eq_none
    rw [v.toList_text, jsonMark_eq]
    exact fun h => hfence ((List.prefix_append fence _).isInfix.trans h)
  have hreplace : replace "```" "" v.text = v.text := by
    rw [replace, fence_eq, v.toList_text, replaceChars_of_not_infix hfence, Json.text]
  have hfound : bracketed v.text.toList = some v.dumps := by
    rw [v.toList_text, hdumps, bracketed_brackets hbrackets]
  simp only [jsonText, hstrip, hmark, Option.bind_none, hreplace, hfound]
  rfl

theorem toList_fencedReply (v : Json) : (fencedReply v.text).toList =
    "```json".toList ++ ([] ++ '\n' :: (v.dumps ++ '\n' :: fence)) := by
  have hopen : "```json\n".toList = "```json".toList ++ ['\n'] := by decide
  have hclose : "\n```".toList = '\n' :: fence := by decide
  rw [fencedReply, String.toList_append, String.toList_append, v.toList_text, hopen, hclose,
    List.append_assoc, List.append_assoc]
  rfl

/-- The block of a fenced reply goes up to the first fence. -/
theorem jsonText_fenced {before after : List Char}
    (h : splitOnce fence (v.dumps ++ '\n' :: fence) = some (before, after)) :
    jsonText (fencedReply v.text) = String.ofList (stripChars before) := by
  have hstripped : Stripped (fencedReply v.text).toList := by
    rw [toList_fencedReply]
    constructor
    · intro c hc
      have hhead : ("```json".toList ++ ([] ++ '\n' :: (v.dumps ++ '\n' :: fence))).head? =
          some '`' := rfl
      rw [hhead] at hc
      obtain rfl := Option.some.inj hc
      rfl
    · intro c hc
      have hlast : ("```json".toList ++ ([] ++ '\n' :: (v.dumps ++ '\n' :: fence))).getLast? =
          some '`' := by
        have hsplit : "```json".toList ++ ([] ++ '\n' :: (v.dumps ++ '\n' :: fence)) =
            ("```json".toList ++ '\n' :: v.dumps ++ ['\n', '`', '`']) ++ ['`'] := by simp [fence]
        rw [hsplit, List.getLast?_concat]
      rw [hlast] at hc
      obtain rfl := Option.some.inj hc
      rfl
  have hstrip : strip (fencedReply v.text) = fencedReply v.text := by
    rw [strip, stripChars_of_stripped hstripped, String.ofList_toList]
  have hblock : splitOnce fence ([] ++ '\n' :: (v.dumps ++ '\n' :: fence)) =
      some ('\n' :: before, after) := by
    rw [splitOnce_append_cons (not_mem_fence (by simp)) (by simp [fence]), h]
    rfl
  have hspace : ∀ c ∈ ['\n'], isSpace c = true := fun c hc => List.mem_singleton.1 hc ▸ rfl
  have hstart : stripChars ('\n' :: before) = stripChars before :=
    stripChars_append_left hspace before
  have hmark : splitOnce "```json".toList (fencedReply v.text).toList =
      some ([], [] ++ '\n' :: (v.dumps ++ '\n' :: fence)) := by
    rw [toList_fencedReply]
    exact splitOnce_append _ _
  simp only [jsonText, hstrip, hmark, Option.bind_some, fence_eq, hblock, hstart]

/-- Without a fence in it, the whole serialisation is the block. -/
theorem jsonText_fenced_of_not_infix (hv : v.isContainer = true) (hfence : ¬fence <:+: v.dumps) :
    jsonText (fencedReply v.text) = v.text := by
  obtain ⟨l, body, r, hdumps, hbrackets⟩ := exists_brackets hv
  have hsplit : splitOnce fence (v.dumps ++ '\n' :: fence) = some (v.dumps ++ ['\n'], []) := by
    rw [splitOnce_append_cons (not_mem_fence (by simp)) hfence]
    rfl
  have hstrip : stripChars ([] ++ v.dumps ++ ['\n']) = v.dumps := by
    apply stripChars_append (fun c hc => absurd hc List.not_mem_nil)
    · rw [hdumps]
      exact stripped_brackets hbrackets body
    · exact fun c hc => List.mem_singleton.1 hc ▸ rfl
  rw [List.nil_append] at hstrip
  rw [jsonText_fenced hsplit, hstrip, Json.text]

/-- With a fence in it, the serialisation is cut off before its end. -/
theorem jsonText_fenced_of_infix (hv : v.isContainer = true) (hfence : fence <:+: v.dumps) :
    ∃ cut, jsonText (fencedReply v.text) = String.ofList cut ∧ cut <+: v.dumps ∧ cut ≠ v.dumps := by
  obtain ⟨l, body, r, hdumps, hbrackets⟩ := exists_brackets hv
  obtain ⟨before, after, -, hparts, hsplit⟩ := exists_splitOnce hfence
  have hbefore : before <+: v.dumps := by
    rw [hparts, List.append_assoc]
    exact List.prefix_append _ _
  have hblock : splitOnce fence (v.dumps ++ '\n' :: fence) =
      some (before, after ++ '\n' :: fence) := by
    rw [hparts, List.append_assoc]
    exact hsplit _
  have hvisible : ∀ c ∈ before.head?, isSpace c = false := by
    intro c hc
    apply (stripped_brackets hbrackets body).1
    obtain ⟨rest, hrest⟩ := hbefore
    rw [Option.mem_def] at hc ⊢
    rw [← hdumps, ← hrest, List.head?_append, hc]
    rfl
  refine ⟨stripChars before, jsonText_fenced hblock, (stripChars_isPrefix hvisible).trans hbefore,
    fun heq => ?_⟩
  have hshort := (stripChars_isPrefix hvisible).length_le
  have hlength := congrArg List.length hparts
  rw [heq] at hshort
  simp only [List.length_append, fence, List.length_cons, List.length_nil] at hlength
  omega

end Extraction

/-- Both replies are decoded to what was encoded exactly if no string and no key of it has a code
fence. -/
theorem reply_decoded_iff (py : Python) {v : Json} (hv : v.isContainer = true)
    (hloads : py.loads v.text = .ok v)
    (hcut : ∀ cut, cut <+: v.dumps → cut ≠ v.dumps → ∃ e, py.loads (String.ofList cut) = .error e) :
    (extractJsonPayload py v.text = .ok v ∧ extractJsonPayload py (fencedReply v.text) = .ok v) ↔
      v.hasFence = false := by
  rw [← Bool.not_eq_true, ← fence_infix_dumps_iff]
  constructor
  · rintro ⟨-, hfenced⟩ hfence
    obtain ⟨cut, htext, hprefix, hne⟩ := jsonText_fenced_of_infix hv hfence
    obtain ⟨e, he⟩ := hcut cut hprefix hne
    rw [extractJsonPayload, htext, he] at hfenced
    cases hfenced
  · intro hfence
    rw [extractJsonPayload, extractJsonPayload, jsonText_bare hv hfence,
      jsonText_fenced_of_not_infix hv hfence]
    exact ⟨hloads, hloads⟩

namespace Sample

/-- A decoder as far as these values go. -/
def reader (vs : List Json) : Python where
  loads s := match vs.find? fun v => v.text = s with
    | some v => .ok v
    | none => .error "Expecting value: line 1 column 1 (char 0)"
  int _ := .error "int() argument must be a string"

def approval : Json := .obj [("summary", .str "ok"), ("score", .int 90), ("comments", .arr [])]

def fencedFix : Json := .obj [("suggested_fix", .str "```\nx = 1\n```")]

def bareFix : Json := .obj [("suggested_fix", .str "\nx = 1\n")]

end Sample

theorem reply_decoded_iff_approval :
    Sample.approval.isContainer = true ∧
      (Sample.reader [Sample.approval]).loads Sample.approval.text = .ok Sample.approval ∧
      ((extractJsonPayload (Sample.reader [Sample.approval]) Sample.approval.text =
          .ok Sample.approval ∧
        extractJsonPayload (Sample.reader [Sample.approval]) (fencedReply Sample.approval.text) =
          .ok Sample.approval) ↔ Sample.approval.hasFence = false) := by
  have hloads : (Sample.reader [Sample.approval]).loads Sample.approval.text =
      .ok Sample.approval := by simp [Sample.reader]
  refine ⟨rfl, hloads, reply_decoded_iff _ rfl hloads fun cut _ hne => ?_⟩
  have htext : Sample.approval.text ≠ String.ofList cut := by
    intro heq
    apply hne
    rw [← Sample.approval.toList_text, heq, String.toList_ofList]
  exact ⟨"Expecting value: line 1 column 1 (char 0)", by simp [Sample.reader, htext]⟩

/-- Bare, the fix loses its fences; in a fenced reply, the whole finding is lost. -/
theorem fenced_fix_lost :
    (Sample.reader [Sample.fencedFix, Sample.bareFix]).loads Sample.fencedFix.text =
        .ok Sample.fencedFix ∧
      extractJsonPayload (Sample.reader [Sample.fencedFix, Sample.bareFix]) Sample.fencedFix.text =
        .ok Sample.bareFix ∧
      Sample.bareFix ≠ Sample.fencedFix ∧
      extractJsonPayload (Sample.reader [Sample.fencedFix, Sample.bareFix])
          (fencedReply Sample.fencedFix.text) =
        .error "Expecting value: line 1 column 1 (char 0)" := by
  have hne : Sample.fencedFix.text ≠ Sample.bareFix.text := by decide
  have hbare : jsonText Sample.fencedFix.text = Sample.bareFix.text := by decide
  have hcut : jsonText (fencedReply Sample.fencedFix.text) =
      "\x7b\"suggested_fix\": \"" := by decide
  have hneither : Sample.fencedFix.text ≠ "\x7b\"suggested_fix\": \"" ∧
      Sample.bareFix.text ≠ "\x7b\"suggested_fix\": \"" := by decide
  refine ⟨?_, ?_, ?_, ?_⟩
  · simp [Sample.reader]
  · simp [extractJsonPayload, hbare, Sample.reader, hne]
  · simp [Sample.fencedFix, Sample.bareFix]
  · simp [extractJsonPayload, hcut, Sample.reader, hneither]

end Revix
