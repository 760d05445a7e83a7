import Revix.JsonTexts
import Revix.TextSearch

namespace Revix
open Infixes

/-! ## The text of a comment -/

def commentHead (c : ReviewComment) : String :=
  c.severity.badge ++ "\n\n" ++
    ["CRITICAL:", "WARNING:", "INFO:", "[CRITICAL]", "[WARNING]", "[INFO]"].foldl
      (fun s p => dropLabel p s) (strip c.body)

def commentTail (c : ReviewComment) : String :=
  "\n\n<sub>Reviewed by **Revix Swarm** (" ++ c.agentId.getD "None" ++ ")</sub>"

def suggestionBlock (content : String) : String := "\n```suggestion\n" ++ content ++ "\n```"

def cleanFix (fix : String) : String :=
  strip (replace "```" "" (replace "```\n" "" (replace "```cpp\n" "" fix)))

def withSuggestion (c : ReviewComment) (content : String) : String :=
  commentHead c ++ "\n" ++ suggestionBlock content ++ "\n" ++ commentTail c

theorem formatInlineComment_of_none {c : ReviewComment} (h : c.fix = none) :
    formatInlineComment c = commentHead c ++ "\n" ++ commentTail c := by
  unfold formatInlineComment
  rw [h]
  rfl

theorem formatInlineComment_of_fix {c : ReviewComment} {fix : String} (h : c.fix = some fix) :
    formatInlineComment c = withSuggestion c (cleanFix fix) := by
  unfold formatInlineComment
  rw [h]
  rfl

theorem withSuggestion_inj {c : ReviewComment} {content content' : String} :
    withSuggestion c content = withSuggestion c content' ↔ content = content' := by
  unfold withSuggestion suggestionBlock
  simp [String.append_assoc]

theorem formatInlineComment_suggested (c : ReviewComment) {code : String} (h : strip code ≠ "") :
    formatInlineComment { c with suggestedFix := some code } =
      withSuggestion c (cleanFix (strip code)) := by
  have hfix : ({ c with suggestedFix := some code } : ReviewComment).fix = some (strip code) := by
    simp [ReviewComment.fix, h]
  exact formatInlineComment_of_fix hfix

/-! ## The replacements -/

section Replacements

variable {new w t m rest : List Char}

/-- A text without backticks is left alone. -/
theorem replaceChars_plain (hm : '`' ∉ m) :
    replaceChars (fence ++ w) new 0 (m ++ rest) = m ++ replaceChars (fence ++ w) new 0 rest := by
  induction m with
  | nil => rfl
  | cons c m ih =>
    have hc : c ≠ '`' := fun heq => hm (heq ▸ .head _)
    have hp : ¬fence ++ w <+: c :: (m ++ rest) := fun hp => hc (List.cons_prefix_cons.1 hp).1.symm
    rw [List.cons_append, replaceChars_cons hp, ih fun hmem => hm (.tail _ hmem), List.cons_append]

/-- A fence that something else follows is left alone. -/
theorem replaceChars_fence (h : ¬w <+: t) (ht : ∀ c ∈ t.head?, c ≠ '`') :
    replaceChars (fence ++ w) new 0 (fence ++ t) = fence ++ replaceChars (fence ++ w) new 0 t := by
  have hnone : ∀ l, ¬['`'] ++ l <+: t := by
    rintro l ⟨rest, rfl⟩
    exact ht '`' rfl rfl
  have hfirst : ¬fence ++ w <+: '`' :: '`' :: '`' :: t := fun hp =>
    h ((List.prefix_append_right_inj fence).1 hp)
  have hsecond : ¬fence ++ w <+: '`' :: '`' :: t := fun hp =>
    hnone w ((List.prefix_append_right_inj ['`', '`']).1 hp)
  have hthird : ¬fence ++ w <+: '`' :: t := fun hp =>
    hnone ('`' :: w) ((List.prefix_append_right_inj ['`']).1 hp)
  show replaceChars (fence ++ w) new 0 ('`' :: '`' :: '`' :: t) = _
  rw [replaceChars_cons hfirst, replaceChars_cons hsecond, replaceChars_cons hthird]
  rfl

theorem replaceChars_closing (hm : '`' ∉ m) (hw : w ≠ []) :
    replaceChars (fence ++ w) new 0 (m ++ '\n' :: fence) = m ++ '\n' :: fence := by
  have hline : '`' ∉ m ++ ['\n'] := by simp [hm]
  have hend : replaceChars (fence ++ w) new 0 (fence ++ []) = fence :=
    replaceChars_fence (fun hp => hw (List.prefix_nil.1 hp)) (by simp)
  rw [List.append_cons, replaceChars_plain hline]
  exact congrArg (m ++ ['\n'] ++ ·) hend

/-- A line that starts a text is its first line. -/
theorem line_prefix_iff {v tag : List Char} (hv : '\n' ∉ v) (htag : '\n' ∉ tag) :
    v ++ ['\n'] <+: tag ++ '\n' :: rest ↔ v = tag := by
  constructor
  · induction v generalizing tag with
    | nil =>
      cases tag with
      | nil => exact fun _ => rfl
      | cons c tag =>
        intro hp
        exact absurd (.head _) ((List.cons_prefix_cons.1 hp).1 ▸ htag)
    | cons c v ih =>
      cases tag with
      | nil =>
        intro hp
        exact absurd (.head _) ((List.cons_prefix_cons.1 hp).1 ▸ hv)
      | cons d tag =>
        intro hp
        obtain ⟨rfl, hrest⟩ := List.cons_prefix_cons.1 hp
        rw [ih (fun h => hv (.tail _ h)) (fun h => htag (.tail _ h)) hrest]
  · rintro rfl
    exact ⟨rest, by simp⟩

/-- The opening fence of the language `v` is taken away, and other fences are not. -/
theorem replaceChars_fenced {v tag code : List Char} (hv : '\n' ∉ v)
    (htag : ∀ c ∈ tag, c ≠ '`' ∧ c ≠ '\n') (hcode : '`' ∉ code) :
    replaceChars (fence ++ (v ++ ['\n'])) [] 0 (fence ++ (tag ++ '\n' :: (code ++ '\n' :: fence))) =
      if v = tag then code ++ '\n' :: fence
      else fence ++ (tag ++ '\n' :: (code ++ '\n' :: fence)) := by
  have hnl : '\n' ∉ tag := fun h => (htag _ h).2 rfl
  have htick : '`' ∉ tag := fun h => (htag _ h).1 rfl
  split
  · rename_i heq
    subst heq
    have hsplit : fence ++ (v ++ '\n' :: (code ++ '\n' :: fence)) =
        fence ++ (v ++ ['\n']) ++ (code ++ '\n' :: fence) := by simp
    rw [hsplit, replaceChars_prefix (by simp [fence]), List.nil_append,
      replaceChars_closing hcode (by simp)]
  · rename_i hne
    have hm : '`' ∉ tag ++ '\n' :: code := by simp [htick, hcode]
    have htext : tag ++ '\n' :: (code ++ '\n' :: fence) = tag ++ '\n' :: code ++ '\n' :: fence := by
      simp
    rw [replaceChars_fence (fun hp => hne ((line_prefix_iff hv hnl).1 hp)), htext,
      replaceChars_closing hm (by simp)]
    intro c hc
    cases tag with
    | nil =>
      cases hc
      decide
    | cons d tag =>
      rw [List.cons_append, List.head?_cons, Option.mem_some_iff] at hc
      exact hc ▸ (htag d (.head _)).1

theorem toList_cleanFix (fix : String) : (cleanFix fix).toList =
    stripChars (replaceChars (fence ++ []) [] 0
      (replaceChars (fence ++ ([] ++ ['\n'])) [] 0
        (replaceChars (fence ++ (['c', 'p', 'p'] ++ ['\n'])) [] 0 fix.toList))) := by
  simp only [cleanFix, strip, replace, String.toList_ofList]
  rfl

end Replacements

/-! ## Fenced code -/

/-- Code in a Markdown fence with a language tag. -/
def fencedCode (tag code : String) : String := "```" ++ tag ++ "\n" ++ code ++ "\n```"

theorem toList_fencedCode (tag code : String) : (fencedCode tag code).toList =
    fence ++ (tag.toList ++ '\n' :: (code.toList ++ '\n' :: fence)) := by
  simp [fencedCode, fence]

section Code

variable {tag code : String}

/-- Code without backticks is left alone by the replacements. -/
theorem cleanFix_plain (hcode : '`' ∉ code.toList) : cleanFix code = strip code := by
  have hplain : ∀ w, replaceChars (fence ++ w) [] 0 code.toList = code.toList := by
    intro w
    have hrest : replaceChars (fence ++ w) [] 0 (code.toList ++ []) =
        code.toList ++ replaceChars (fence ++ w) [] 0 [] := replaceChars_plain hcode
    rwa [List.append_nil, replaceChars, List.append_nil] at hrest
  rw [String.ext_iff, toList_cleanFix, hplain, hplain, hplain, strip, String.toList_ofList]

theorem strip_strip (s : String) : strip (strip s) = strip s := by
  rw [String.ext_iff]
  simp only [strip, String.toList_ofList]
  exact stripChars_of_stripped (stripped_stripChars _)

theorem not_mem_strip {c : Char} (h : c ∉ code.toList) : c ∉ (strip code).toList := by
  obtain ⟨before, after, hcode, -, -⟩ := exists_strip code.toList
  rw [hcode] at h
  rw [strip, String.toList_ofList]
  exact fun hc => h (List.mem_append_left _ (List.mem_append_right _ hc))

theorem strip_fencedCode (tag code : String) : strip (fencedCode tag code) = fencedCode tag code := by
  rw [String.ext_iff, strip, String.toList_ofList]
  apply stripChars_of_stripped
  rw [toList_fencedCode]
  constructor
  · intro c hc
    cases hc
    decide
  · intro c hc
    have hlast : fence ++ (tag.toList ++ '\n' :: (code.toList ++ '\n' :: fence)) =
        fence ++ (tag.toList ++ '\n' :: (code.toList ++ '\n' :: ['`', '`'])) ++ ['`'] := by
      simp [fence]
    rw [hlast, List.getLast?_concat] at hc
    cases hc
    decide

/-- The tags whose fences are taken away. -/
def KnownTag (tag : String) : Prop := tag = "" ∨ tag = "cpp"

theorem stripChars_newline (s : List Char) : stripChars (s ++ ['\n']) = stripChars s := by
  obtain ⟨before, after, hs, hbefore, hafter⟩ := exists_strip s
  have hends : s ++ ['\n'] = before ++ stripChars s ++ (after ++ ['\n']) := by
    rw [← List.append_assoc, ← hs]
  rw [hends]
  refine stripChars_append hbefore (stripped_stripChars s) fun c hc => ?_
  rcases List.mem_append.1 hc with hc | hc
  · exact hafter c hc
  · rw [List.mem_singleton.1 hc]
    decide

/-- What is left of fenced code before it is stripped. -/
theorem cleanFix_fencedCode (htag : ∀ c ∈ tag.toList, c ≠ '`' ∧ isSpace c = false)
    (hcode : '`' ∉ code.toList) : (cleanFix (fencedCode tag code)).toList =
      stripChars (if ['c', 'p', 'p'] = tag.toList ∨ [] = tag.toList then code.toList
        else tag.toList ++ '\n' :: code.toList) := by
  have hline : ∀ c ∈ tag.toList, c ≠ '`' ∧ c ≠ '\n' := by
    refine fun c hc => ⟨(htag c hc).1, ?_⟩
    rintro rfl
    exact absurd (htag _ hc).2 (by decide)
  have hlast : replaceChars (fence ++ []) [] 0 fence = [] := by decide
  have hclosed : ∀ m, '`' ∉ m →
      replaceChars (fence ++ []) [] 0 (m ++ '\n' :: fence) = m ++ ['\n'] := by
    intro m hm
    have hnl : '`' ∉ m ++ ['\n'] := by simp [hm]
    rw [List.append_cons, replaceChars_plain hnl, hlast, List.append_nil]
  have hopened : ∀ t, replaceChars (fence ++ []) [] 0 (fence ++ t) =
      replaceChars (fence ++ []) [] 0 t := fun t => replaceChars_prefix (by decide) [] t
  have hclosing : replaceChars (fence ++ ([] ++ ['\n'])) [] 0 (code.toList ++ '\n' :: fence) =
      code.toList ++ '\n' :: fence := replaceChars_closing hcode (by simp)
  rw [toList_cleanFix, toList_fencedCode, replaceChars_fenced (by decide) hline hcode]
  by_cases hcpp : ['c', 'p', 'p'] = tag.toList
  · rw [if_pos hcpp, if_pos (.inl hcpp), hclosing, hclosed _ hcode, stripChars_newline]
  · rw [if_neg hcpp, replaceChars_fenced (by decide) hline hcode]
    by_cases hnil : [] = tag.toList
    · rw [if_pos hnil, if_pos (.inr hnil), hclosed _ hcode, stripChars_newline]
    · have hm : '`' ∉ tag.toList ++ '\n' :: code.toList := by
        have htick : '`' ∉ tag.toList := fun h => (htag _ h).1 rfl
        simp [htick, hcode]
      have htext : tag.toList ++ '\n' :: (code.toList ++ '\n' :: fence) =
          tag.toList ++ '\n' :: code.toList ++ '\n' :: fence := by simp
      rw [if_neg hnil, if_neg (not_or.2 ⟨hcpp, hnil⟩), hopened, htext, hclosed _ hm,
        stripChars_newline]

/-- A tag that stays makes the code longer. -/
theorem stripChars_tagged {tag code : List Char} (hne : tag ≠ [])
    (htag : ∀ c ∈ tag, isSpace c = false) (hcode : stripChars code ≠ []) :
    stripChars (tag ++ '\n' :: code) ≠ stripChars code := by
  obtain ⟨before, after, hsplit, -, hafter⟩ := exists_strip code
  have hstripped : Stripped (tag ++ '\n' :: (before ++ stripChars code)) := by
    constructor
    · intro c hc
      rw [List.head?_append_of_ne_nil _ hne] at hc
      exact htag c (List.mem_of_mem_head? hc)
    · intro c hc
      apply (stripped_stripChars code).2 c
      rwa [List.append_cons, ← List.append_assoc, List.getLast?_append_of_ne_nil _ hcode] at hc
  have htext : tag ++ '\n' :: code =
      [] ++ (tag ++ '\n' :: (before ++ stripChars code)) ++ after := by
    conv_lhs => rw [hsplit]
    simp
  rw [htext, stripChars_append (fun c hc => absurd hc List.not_mem_nil) hstripped hafter]
  intro heq
  have hlength := congrArg List.length heq
  simp only [List.length_append, List.length_cons] at hlength
  omega

theorem cleanFix_fencedCode_iff (htag : ∀ c ∈ tag.toList, c ≠ '`' ∧ isSpace c = false)
    (hcode : '`' ∉ code.toList) (hvisible : strip code ≠ "") :
    cleanFix (fencedCode tag code) = strip code ↔ KnownTag tag := by
  have hknown : (['c', 'p', 'p'] = tag.toList ∨ [] = tag.toList) ↔ KnownTag tag := by
    rw [KnownTag, String.ext_iff, String.ext_iff, or_comm, eq_comm, eq_comm (a := ['c', 'p', 'p'])]
    rfl
  have hchars : stripChars code.toList ≠ [] := by
    simpa [strip, String.ext_iff] using hvisible
  rw [String.ext_iff, cleanFix_fencedCode htag hcode, strip, String.toList_ofList, ← hknown]
  constructor
  · intro heq
    by_contra hother
    rw [if_neg hother] at heq
    have hne : tag.toList ≠ [] := fun hnil => hother (.inr hnil.symm)
    exact stripChars_tagged hne (fun c hc => (htag c hc).2) hchars heq
  · intro htags
    rw [if_pos htags]

/-- Bare and in a fence, the code gives one suggestion, which is the code: whole, or without the
end of its last line. -/
def KeepsCode (c : ReviewComment) (tag code : String) : Prop :=
  ∃ content, formatInlineComment { c with suggestedFix := some code } = withSuggestion c content ∧
    formatInlineComment { c with suggestedFix := some (fencedCode tag code) } =
      withSuggestion c content ∧
    (content = code ∨ content ++ "\n" = code)

/-- Code is kept when its fence has no tag or that of C++, and it begins and ends visibly but for
one newline. -/
theorem suggestion_keeps_code_iff (c : ReviewComment)
    (htag : ∀ c ∈ tag.toList, c ≠ '`' ∧ isSpace c = false) (hcode : '`' ∉ code.toList)
    (hvisible : strip code ≠ "") :
    KeepsCode c tag code ↔ KnownTag tag ∧ (strip code = code ∨ strip code ++ "\n" = code) := by
  have hfenced : strip (fencedCode tag code) ≠ "" := by
    rw [strip_fencedCode, fencedCode]
    simp
  have hbare : cleanFix (strip code) = strip code := by
    rw [cleanFix_plain (not_mem_strip hcode), strip_strip]
  unfold KeepsCode
  rw [formatInlineComment_suggested c hvisible, formatInlineComment_suggested c hfenced, hbare,
    strip_fencedCode]
  simp only [withSuggestion_inj]
  rw [← cleanFix_fencedCode_iff htag hcode hvisible]
  constructor
  · rintro ⟨content, rfl, hsame, hwhole⟩
    exact ⟨hsame, hwhole⟩
  · rintro ⟨hsame, hwhole⟩
    exact ⟨_, rfl, hsame, hwhole⟩

end Code

namespace Sample

def remark : ReviewComment where
  path := "a.py"
  line := 1
  body := "off by one"
  path_ne := by decide
  line_pos := le_rfl

end Sample

theorem suggestion_keeps_code_iff_cpp : KeepsCode Sample.remark "cpp" "x = 1;\n" :=
  (suggestion_keeps_code_iff Sample.remark (by simp [isSpace]) (by decide)
    (by decide)).2 ⟨.inr rfl, .inr (by decide)⟩

/-- The tag of another language becomes a line of the suggestion. -/
theorem tag_becomes_code : ¬ ∀ (c : ReviewComment) (tag code : String),
    (∀ l ∈ tag.toList, l.isAlpha = true) → '`' ∉ code.toList → strip code ≠ "" →
      KeepsCode c tag code := by
  intro hall
  have hletters : ∀ l ∈ "python".toList, l.isAlpha = true := List.all_eq_true.1 (by decide)
  obtain ⟨content, hbare, hfenced, -⟩ :=
    hall Sample.remark "python" "x = 1" hletters (by decide) (by decide)
  rw [formatInlineComment_suggested _ (by decide), withSuggestion_inj] at hbare hfenced
  have hcode : cleanFix (strip "x = 1") = "x = 1" := by decide
  have htagged : cleanFix (strip (fencedCode "python" "x = 1")) = "python\nx = 1" := by
    decide
  rw [hcode] at hbare
  rw [htagged, ← hbare] at hfenced
  exact absurd hfenced (by decide)

end Revix
