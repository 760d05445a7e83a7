import Revix.PostedReviews
import Revix.ReviewSwarm
import Revix.SuggestionBlocks

namespace Revix
open Infixes

/-! ## No fence is left in a fix -/

section Fences

variable {s t : List Char}

/-- A run of backticks leaves what is left of it modulo three. -/
theorem replaceChars_run (ht : ∀ c ∈ t.head?, c ≠ '`') : ∀ n : ℕ,
    replaceChars fence [] 0 (List.replicate n '`' ++ t) =
      List.replicate (n % 3) '`' ++ replaceChars fence [] 0 t
  | 0 => rfl
  | 1 => by
    have hnone : ¬fence <+: '`' :: t := by
      rintro ⟨rest, hrest⟩
      cases hrest
      exact ht '`' rfl rfl
    exact replaceChars_cons hnone []
  | 2 => by
    have hnone : ¬fence <+: '`' :: '`' :: t := by
      rintro ⟨rest, hrest⟩
      cases hrest
      exact ht '`' rfl rfl
    have hone : replaceChars fence [] 0 ('`' :: t) = '`' :: replaceChars fence [] 0 t :=
      replaceChars_run ht 1
    show replaceChars fence [] 0 ('`' :: '`' :: t) = '`' :: '`' :: replaceChars fence [] 0 t
    rw [replaceChars_cons hnone, hone]
  | n + 3 => by
    have hthree : replaceChars fence [] 0 (List.replicate (n + 3) '`' ++ t) =
        replaceChars fence [] 0 (List.replicate n '`' ++ t) :=
      replaceChars_prefix (by decide) [] _
    rw [hthree, replaceChars_run ht n, Nat.add_mod_right]

theorem exists_run (s : List Char) :
    ∃ k t, s = List.replicate k '`' ++ t ∧ ∀ c ∈ t.head?, c ≠ '`' := by
  induction s with
  | nil => exact ⟨0, [], rfl, by simp⟩
  | cons c s ih =>
    by_cases hc : c = '`'
    · obtain ⟨k, t, rfl, ht⟩ := ih
      exact ⟨k + 1, t, by rw [hc, List.replicate_succ, List.cons_append], ht⟩
    · exact ⟨0, c :: s, rfl, by simpa using hc⟩

/-- No fence comes about where others are taken away. -/
theorem fence_not_inside_replaceChars (s : List Char) : ¬fence <:+: replaceChars fence [] 0 s := by
  induction hn : s.length using Nat.strong_induction_on generalizing s with
  | _ n ih =>
    obtain ⟨k, t, rfl, ht⟩ := exists_run s
    have hshort : ¬fence <:+: List.replicate (k % 3) '`' := by
      intro hin
      have hlength := hin.length_le
      rw [List.length_replicate] at hlength
      have hmod := Nat.mod_lt k (show 0 < 3 by omega)
      simp only [fence, List.length_cons, List.length_nil] at hlength
      omega
    rw [replaceChars_run ht]
    cases t with
    | nil => rwa [replaceChars, List.append_nil]
    | cons c t =>
      have hc : c ≠ '`' := ht c rfl
      have hnone : ¬fence <+: c :: t := fun hp => hc (List.cons_prefix_cons.1 hp).1.symm
      rw [replaceChars_cons hnone, fence_infix_append_cons_iff hc]
      rintro (hin | hin)
      · exact hshort hin
      · refine ih t.length ?_ t rfl hin
        rw [← hn]
        simp
        omega

theorem fence_not_inside_cleanFix (fix : String) : ¬fence <:+: (cleanFix fix).toList := by
  rw [toList_cleanFix]
  generalize replaceChars (fence ++ ([] ++ ['\n'])) [] 0 _ = opened
  obtain ⟨before, after, hsplit, -, -⟩ := exists_strip (replaceChars (fence ++ []) [] 0 opened)
  intro hin
  apply fence_not_inside_replaceChars opened
  have hinside : stripChars (replaceChars (fence ++ []) [] 0 opened) <:+:
      replaceChars (fence ++ []) [] 0 opened := ⟨before, after, hsplit.symm⟩
  exact hin.trans hinside

end Fences

/-! ## Reading a comment -/

def opening : List Char := fence ++ ['s', 'u', 'g', 'g', 'e', 's', 't', 'i', 'o', 'n']

/-- What follows the opening fence of a suggestion, to the end of the closing one. -/
def blockRest (content : List Char) : List Char := '\n' :: content ++ '\n' :: fence

/-- The text has a suggestion with this content, on lines of its own, and no other fence. -/
def OneSuggestion (text content : List Char) : Prop :=
  ∃ before after, text = before ++ opening ++ blockRest content ++ after ∧
    (∀ c ∈ before.getLast?, c = '\n') ∧ (∀ c ∈ after.head?, c = '\n') ∧
    ¬fence <:+: before ∧ ¬fence <:+: content ∧ ¬fence <:+: after

section Reading

variable {before content after marker : List Char} {keep : ℕ}

theorem opening_not_infix_of_plain {s : List Char} (h : '`' ∉ s) : ¬opening <:+: s := fun hin =>
  h (hin.subset (.head _))

/-- Before the opening fence is whole there is no suggestion. -/
theorem no_suggestion_of_cut (hbefore : '`' ∉ before) (hmarker : '`' ∉ marker)
    (hkeep : keep < (before ++ opening).length) (rest : List Char) :
    ¬opening <:+: (before ++ opening ++ rest).take keep ++ '\n' :: marker := by
  have hbreak : '\n' ∉ opening := by simp [opening, fence]
  rw [List.take_append_of_le_length hkeep.le, infix_append_cons_iff hbreak, List.take_append]
  rintro (hin | hin)
  · have hkept : opening <:+: opening.take (keep - before.length) :=
      infix_of_head_not_mem (fun hmem => hbefore (List.mem_of_mem_take hmem)) hin
    have hlength := hkept.length_le
    have hpos : 0 < opening.length := by simp [opening, fence]
    rw [List.length_append] at hkeep
    rw [List.length_take] at hlength
    omega
  · exact opening_not_infix_of_plain hmarker hin

/-- Where the block is cut there is no other fence. -/
theorem fence_not_inside_cut (hcontent : ¬fence <:+: content) (hmarker : '`' ∉ marker)
    (hkeep : keep < (blockRest content).length) :
    ¬fence <:+: (blockRest content).take keep ++ '\n' :: marker := by
  rw [fence_infix_append_cons_iff (by simp)]
  rintro (hin | hin)
  · have hopen : (blockRest content).take keep <+: '\n' :: content ++ '\n' :: ['`', '`'] := by
      have hsplit : blockRest content = '\n' :: content ++ '\n' :: ['`', '`'] ++ ['`'] := by
        simp [blockRest, fence]
      have hle : keep ≤ ('\n' :: content ++ '\n' :: ['`', '`']).length := by
        rw [hsplit, List.length_append, List.length_singleton] at hkeep
        omega
      rw [hsplit, List.take_append_of_le_length hle]
      exact List.take_prefix _ _
    have hlong := hin.trans hopen.isInfix
    rw [List.cons_append, fence_infix_cons_iff (by simp), fence_infix_append_cons_iff (by simp)]
      at hlong
    rcases hlong with hcut | hend
    · exact hcontent hcut
    · exact absurd hend.length_le (by simp [fence])
  · exact fence_not_inside hmarker hin

/-- A block that is cut is not closed. -/
theorem not_oneSuggestion_of_cut {rest : List Char} (hbefore : '`' ∉ before)
    (hrest : ¬fence <:+: rest) (content : List Char) :
    ¬OneSuggestion (before ++ opening ++ rest) content := by
  rintro ⟨before', after, htext, -⟩
  have hclosing : fence <:+: blockRest content ++ after :=
    ⟨'\n' :: content ++ ['\n'], after, by simp [blockRest]⟩
  have hsame : ∀ first, opening ++ rest = first ++ opening ++ (blockRest content ++ after) → False := by
    intro first heq
    have hsuffix : blockRest content ++ after <:+ opening ++ rest := ⟨first ++ opening, heq.symm⟩
    have hlength : (blockRest content ++ after).length ≤ rest.length := by
      have := congrArg List.length heq
      simp only [List.length_append] at this ⊢
      omega
    have hin := List.suffix_of_suffix_length_le hsuffix (List.suffix_append _ _) hlength
    exact hrest (hclosing.trans hin.isInfix)
  simp only [List.append_assoc] at htext
  rcases List.append_eq_append_iff.1 htext with ⟨first, -, heq⟩ | ⟨first, hsplit, heq⟩
  · exact hsame first (by rw [heq, List.append_assoc])
  · cases first with
    | nil => exact hsame [] heq.symm
    | cons c first =>
      have hc : '`' = c := (List.cons.inj heq).1
      rw [hsplit] at hbefore
      exact hbefore (List.mem_append_right _ (hc ▸ .head _))

theorem oneSuggestion_whole (hbefore : '`' ∉ before) (hline : ∀ c ∈ before.getLast?, c = '\n')
    (hcontent : ¬fence <:+: content) (hafter : '`' ∉ after) (hnext : ∀ c ∈ after.head?, c = '\n') :
    OneSuggestion (before ++ opening ++ blockRest content ++ after) content :=
  ⟨before, after, rfl, hline, hnext, fence_not_inside hbefore, hcontent, fence_not_inside hafter⟩

end Reading

/-! ## The comment that is sent -/

section Comments

variable {c : ReviewComment}

theorem not_mem_dropLabel {d : Char} (p : String) {s : String} (h : d ∉ s.toList) :
    d ∉ (dropLabel p s).toList := by
  unfold dropLabel
  split
  · refine not_mem_strip ?_
    rw [String.toList_ofList]
    exact fun hd => h (List.mem_of_mem_drop hd)
  · exact h

theorem not_mem_foldl_dropLabel {d : Char} (labels : List String) {s : String}
    (h : d ∉ s.toList) : d ∉ (labels.foldl (fun s p => dropLabel p s) s).toList := by
  induction labels generalizing s with
  | nil => exact h
  | cons p labels ih => exact ih (not_mem_dropLabel p h)

theorem not_mem_commentHead (hbody : '`' ∉ c.body.toList) : '`' ∉ (commentHead c).toList := by
  have hbadge : '`' ∉ c.severity.badge.toList := by
    cases c.severity <;> simp [Severity.badge]
  have htext := not_mem_foldl_dropLabel
    ["CRITICAL:", "WARNING:", "INFO:", "[CRITICAL]", "[WARNING]", "[INFO]"] (not_mem_strip hbody)
  unfold commentHead
  simp only [String.toList_append, List.mem_append, not_or]
  exact ⟨⟨hbadge, by simp⟩, htext⟩

theorem not_mem_commentTail (hagent : '`' ∉ (c.agentId.getD "None").toList) :
    '`' ∉ (commentTail c).toList := by
  unfold commentTail
  simp only [String.toList_append, List.mem_append, not_or]
  exact ⟨⟨by simp, hagent⟩, by simp⟩

theorem toList_withSuggestion (c : ReviewComment) (content : String) :
    (withSuggestion c content).toList = ((commentHead c).toList ++ ['\n', '\n']) ++ opening ++
      blockRest content.toList ++ '\n' :: (commentTail c).toList := by
  unfold withSuggestion suggestionBlock
  simp [opening, blockRest, fence]

/-- What `_truncate` appends, but for its first line break. -/
def markerRest : List Char := truncationMarker.toList.tail

theorem toList_truncate (s : String) (limit : ℕ) : (truncate s limit).toList =
    if s.length ≤ limit then s.toList
    else s.toList.take (limit - truncationMarker.length) ++ '\n' :: markerRest := by
  unfold truncate
  split
  · rfl
  · rw [String.toList_append, String.toList_ofList]
    rfl

theorem length_truncate_le (s : String) {limit : ℕ} (h : truncationMarker.length ≤ limit) :
    (truncate s limit).length ≤ limit := by
  unfold truncate
  split
  · assumption
  · rw [String.length_append, String.length_ofList, List.length_take]
    omega

def sentBody (c : ReviewComment) : Option String :=
  (formatReviewComment (PostedComment.toDict ⟨c.path, c.line, c.side, formatInlineComment c⟩)).bind
    fun d => match Dict.get d "body" with
      | some (.str body) => some body
      | _ => none

theorem strip_ne_empty {s : String} {d : Char} (h : d ∈ s.toList) (hd : isSpace d = false) :
    strip s ≠ "" := by
  intro hnil
  obtain ⟨before, after, hsplit, hbefore, hafter⟩ := exists_strip s.toList
  have hchars : stripChars s.toList = [] := by
    simpa [strip, String.ext_iff] using hnil
  rw [hsplit, hchars, List.append_nil] at h
  rcases List.mem_append.1 h with h | h
  · exact absurd (hbefore d h) (by simp [hd])
  · exact absurd (hafter d h) (by simp [hd])

theorem underscore_mem_formatInlineComment (c : ReviewComment) :
    '_' ∈ (formatInlineComment c).toList := by
  have hbadge : '_' ∈ c.severity.badge.toList := by
    cases c.severity <;> simp [Severity.badge]
  have hhead : '_' ∈ (commentHead c).toList := by
    unfold commentHead
    simp only [String.toList_append, List.mem_append]
    exact .inl (.inl hbadge)
  cases hfix : c.fix with
  | none =>
    rw [formatInlineComment_of_none hfix]
    simp only [String.toList_append, List.mem_append]
    exact .inl (.inl hhead)
  | some fix =>
    rw [formatInlineComment_of_fix hfix, toList_withSuggestion]
    simp only [List.mem_append]
    exact .inl (.inl (.inl (.inl hhead)))

theorem sentBody_eq (c : ReviewComment) : sentBody c =
    if strip c.path = "" then none else some (truncate (formatInlineComment c) maxCommentBodySize) := by
  have hbody : strip (formatInlineComment c) ≠ "" :=
    strip_ne_empty (underscore_mem_formatInlineComment c) (by decide)
  have hline : validLine (.int c.line) = true := by simp [validLine, c.line_pos]
  have hformat : formatReviewComment
      (PostedComment.toDict ⟨c.path, c.line, c.side, formatInlineComment c⟩) =
      if strip c.path = "" then none
      else some [("path", .str c.path), ("line", .int c.line), ("side", .str c.side.text),
        ("body", .str (truncate (formatInlineComment c) maxCommentBodySize))] := by
    cases hside : c.side <;>
      simp [formatReviewComment, PostedComment.toDict, Dict.get, List.lookup_cons, hbody, hline,
        Side.text]
  rw [sentBody, hformat]
  split
  · rfl
  · simp [Dict.get, List.lookup_cons]

/-! ## Whole suggestions -/

def keptLength : ℕ := maxCommentBodySize - truncationMarker.length

/-- Where the opening fence of the suggestion ends. -/
def blockStart (c : ReviewComment) : ℕ := (commentHead c).length + 15

def blockEnd (c : ReviewComment) (fix : String) : ℕ := blockStart c + (cleanFix fix).length + 5

/-- The comment fits, or the cut is before the end of the opening fence or behind the block. -/
def Uncut (c : ReviewComment) : Prop :=
  strip c.path = "" ∨ ∀ fix, c.fix = some fix →
    blockEnd c fix + (commentTail c).length + 1 ≤ maxCommentBodySize ∨
      keptLength < blockStart c ∨ blockEnd c fix ≤ keptLength

/-- The body is not too long, and has either no suggestion or the whole fix as its only one. -/
def PostedWhole (c : ReviewComment) (body : String) : Prop :=
  body.length ≤ maxCommentBodySize ∧ (¬opening <:+: body.toList ∨
    ∃ fix, c.fix = some fix ∧ OneSuggestion body.toList (cleanFix fix).toList)

theorem length_withSuggestion (c : ReviewComment) (fix : String) :
    (withSuggestion c (cleanFix fix)).length =
      blockEnd c fix + (commentTail c).length + 1 := by
  rw [← String.length_toList, toList_withSuggestion]
  simp only [List.length_append, String.length_toList, blockEnd, blockStart, blockRest, opening,
    fence, List.length_cons, List.length_nil]
  omega

theorem not_mem_markerRest : '`' ∉ markerRest := by simp [markerRest, truncationMarker]

theorem length_truncationMarker : truncationMarker.length = 58 := by
  rw [← String.length_toList]
  simp [truncationMarker]

theorem length_truncationMarker_le : truncationMarker.length ≤ maxCommentBodySize := by
  simp [length_truncationMarker, maxCommentBodySize]

/-- Behind the block the cut leaves the suggestion whole. -/
theorem oneSuggestion_of_cut_behind {before content after : List Char} {keep : ℕ}
    (hbefore : '`' ∉ before) (hline : ∀ c ∈ before.getLast?, c = '\n')
    (hcontent : ¬fence <:+: content) (hafter : '`' ∉ after) (hnext : ∀ c ∈ after.head?, c = '\n')
    (hend : (before ++ opening ++ blockRest content).length ≤ keep) :
    OneSuggestion ((before ++ opening ++ blockRest content ++ after).take keep ++
      '\n' :: markerRest) content := by
  rw [List.take_append, List.take_of_length_le hend, List.append_assoc]
  apply oneSuggestion_whole hbefore hline hcontent
  · rw [List.mem_append, List.mem_cons, not_or, not_or]
    exact ⟨fun hmem => hafter (List.mem_of_mem_take hmem), by simp, not_mem_markerRest⟩
  · intro c hc
    have htake := List.take_prefix (keep - (before ++ opening ++ blockRest content).length) after
    cases hcut : after.take (keep - (before ++ opening ++ blockRest content).length) with
    | nil =>
      rw [hcut] at hc
      cases hc
      rfl
    | cons d ds =>
      obtain ⟨rest, hrest⟩ := htake
      rw [hcut] at hc hrest
      apply hnext c
      rw [← hrest]
      exact hc

/-- In the block the cut leaves the suggestion open. -/
theorem not_whole_of_cut_inside {before content after : List Char} {keep : ℕ}
    (hbefore : '`' ∉ before) (hcontent : ¬fence <:+: content)
    (hstart : (before ++ opening).length ≤ keep)
    (hend : keep < (before ++ opening ++ blockRest content).length) :
    ¬(¬opening <:+: (before ++ opening ++ blockRest content ++ after).take keep ++
        '\n' :: markerRest ∨
      OneSuggestion ((before ++ opening ++ blockRest content ++ after).take keep ++
        '\n' :: markerRest) content) := by
  have hcut : (before ++ opening ++ blockRest content ++ after).take keep ++ '\n' :: markerRest =
      before ++ opening ++ ((blockRest content).take (keep - (before ++ opening).length) ++
        '\n' :: markerRest) := by
    rw [List.take_append_of_le_length hend.le, List.take_append, List.take_of_length_le hstart,
      List.append_assoc]
  have hkeep : keep - (before ++ opening).length < (blockRest content).length := by
    rw [List.length_append] at hend
    omega
  have hrest := fence_not_inside_cut hcontent not_mem_markerRest hkeep
  rw [hcut]
  rintro (hnone | hone)
  · exact hnone ⟨before, _, rfl⟩
  · exact not_oneSuggestion_of_cut hbefore hrest content hone

/-- Where the opening fence is cut, the comment has no suggestion; where the block is cut, it has
an open one. -/
theorem whole_of_cut_iff {before content after : List Char} {keep : ℕ} (hbefore : '`' ∉ before)
    (hline : ∀ c ∈ before.getLast?, c = '\n') (hcontent : ¬fence <:+: content)
    (hafter : '`' ∉ after) (hnext : ∀ c ∈ after.head?, c = '\n') :
    (¬opening <:+: (before ++ opening ++ blockRest content ++ after).take keep ++
        '\n' :: markerRest ∨
      OneSuggestion ((before ++ opening ++ blockRest content ++ after).take keep ++
        '\n' :: markerRest) content) ↔
    keep < (before ++ opening).length ∨ (before ++ opening ++ blockRest content).length ≤ keep := by
  by_cases hstart : keep < (before ++ opening).length
  · rw [List.append_assoc _ (blockRest content)]
    have hnone := no_suggestion_of_cut hbefore not_mem_markerRest hstart (blockRest content ++ after)
    exact iff_of_true (.inl hnone) (.inl hstart)
  · rw [or_iff_right hstart]
    by_cases hend : (before ++ opening ++ blockRest content).length ≤ keep
    · exact iff_of_true
        (.inr (oneSuggestion_of_cut_behind hbefore hline hcontent hafter hnext hend)) hend
    · exact iff_of_false
        (not_whole_of_cut_inside hbefore hcontent (not_lt.1 hstart) (not_le.1 hend)) hend

theorem postedWhole_of_none (hbody : '`' ∉ c.body.toList)
    (hagent : '`' ∉ (c.agentId.getD "None").toList) (hfix : c.fix = none) :
    PostedWhole c (truncate (formatInlineComment c) maxCommentBodySize) := by
  refine ⟨length_truncate_le _ length_truncationMarker_le, .inl (opening_not_infix_of_plain ?_)⟩
  have hplain : '`' ∉ (formatInlineComment c).toList := by
    rw [formatInlineComment_of_none hfix]
    simp only [String.toList_append, List.mem_append, not_or]
    exact ⟨⟨not_mem_commentHead hbody, by simp⟩, not_mem_commentTail hagent⟩
  rw [toList_truncate]
  split
  · exact hplain
  · rw [List.mem_append, List.mem_cons, not_or, not_or]
    exact ⟨fun hmem => hplain (List.mem_of_mem_take hmem), by decide, not_mem_markerRest⟩

theorem postedWhole_of_fix_iff (hbody : '`' ∉ c.body.toList)
    (hagent : '`' ∉ (c.agentId.getD "None").toList) {fix : String} (hfix : c.fix = some fix) :
    PostedWhole c (truncate (formatInlineComment c) maxCommentBodySize) ↔
      blockEnd c fix + (commentTail c).length + 1 ≤ maxCommentBodySize ∨
        keptLength < blockStart c ∨ blockEnd c fix ≤ keptLength := by
  have hbefore : '`' ∉ (commentHead c).toList ++ ['\n', '\n'] := by
    simp [not_mem_commentHead hbody]
  have hline : ∀ d ∈ ((commentHead c).toList ++ ['\n', '\n']).getLast?, d = '\n' := by simp
  have hafter : '`' ∉ '\n' :: (commentTail c).toList := by
    simp [not_mem_commentTail hagent]
  have hnext : ∀ d ∈ ('\n' :: (commentTail c).toList).head?, d = '\n' := by simp
  have hcontent := fence_not_inside_cleanFix fix
  have hstart : ((commentHead c).toList ++ ['\n', '\n'] ++ opening).length = blockStart c := by
    simp [blockStart, opening, fence, String.length_toList]
  have hend : ((commentHead c).toList ++ ['\n', '\n'] ++ opening ++
      blockRest (cleanFix fix).toList).length = blockEnd c fix := by
    rw [List.length_append, hstart]
    simp [blockEnd, blockRest, fence, Nat.add_assoc, String.length_toList]
  rw [formatInlineComment_of_fix hfix, PostedWhole, and_iff_right (length_truncate_le _
    length_truncationMarker_le), toList_truncate, length_withSuggestion, toList_withSuggestion]
  simp only [hfix, Option.some.injEq, exists_eq_left']
  split
  · rename_i hfits
    exact iff_of_true (.inr (oneSuggestion_whole hbefore hline hcontent hafter hnext)) (.inl hfits)
  · rename_i hfits
    rw [or_iff_right hfits, ← hstart, ← hend]
    exact whole_of_cut_iff hbefore hline hcontent hafter hnext

/-- A comment that is sent has its whole suggestion, or none, exactly when it is not cut between
the opening fence and the end of the block. -/
theorem posted_suggestion_whole_iff (hbody : '`' ∉ c.body.toList)
    (hagent : '`' ∉ (c.agentId.getD "None").toList) :
    (∀ body, sentBody c = some body → PostedWhole c body) ↔ Uncut c := by
  rw [sentBody_eq, Uncut]
  by_cases hpath : strip c.path = ""
  · rw [if_pos hpath]
    exact iff_of_true (nofun) (.inl hpath)
  · rw [if_neg hpath, or_iff_right hpath]
    simp only [Option.some.injEq, forall_eq']
    cases hfix : c.fix with
    | none => exact iff_of_true (postedWhole_of_none hbody hagent hfix) (nofun)
    | some fix =>
      rw [postedWhole_of_fix_iff hbody hagent hfix]
      simp only [Option.some.injEq, forall_eq']

end Comments

/-- The agents' names have no backticks, so that no comment they stamp has one in its last line. -/
theorem stamped_plain {agentId : String} (h : agentId ∈ validAgentIds) (r : ReviewResult) :
    ∀ c ∈ (stampAgent agentId r).comments, '`' ∉ (c.agentId.getD "None").toList := by
  have hplain : ∀ id ∈ validAgentIds, '`' ∉ id.toList := by simp [validAgentIds]
  intro c hc
  simp only [stampAgent, List.mem_map] at hc
  obtain ⟨c, -, rfl⟩ := hc
  exact hplain agentId h

namespace Sample

def fixedRemark (fix : String) : ReviewComment :=
  { remark with suggestedFix := some fix, agentId := some "ReviewAgent" }

def lineFix (n : ℕ) : String := String.ofList (List.replicate n 'x')

end Sample

theorem fixedRemark_plain (fix : String) : '`' ∉ (Sample.fixedRemark fix).body.toList ∧
    '`' ∉ ((Sample.fixedRemark fix).agentId.getD "None").toList := by
  have hbody : '`' ∉ Sample.remark.body.toList := by simp [Sample.remark]
  let found : ReviewResult :=
    { synthesisFailed [] with comments := [{ Sample.remark with suggestedFix := some fix }] }
  have hvalid : "ReviewAgent" ∈ validAgentIds := by decide
  exact ⟨hbody, stamped_plain hvalid found _ (.head _)⟩

theorem sentBody_fixedRemark (fix : String) : sentBody (Sample.fixedRemark fix) =
    some (truncate (formatInlineComment (Sample.fixedRemark fix)) maxCommentBodySize) := by
  have hpath : strip Sample.remark.path ≠ "" := by decide
  rw [sentBody_eq]
  exact if_neg hpath

theorem posted_suggestion_whole_iff_short : sentBody (Sample.fixedRemark "x = 2") ≠ none ∧
    ∀ body, sentBody (Sample.fixedRemark "x = 2") = some body →
      PostedWhole (Sample.fixedRemark "x = 2") body := by
  obtain ⟨hbody, hagent⟩ := fixedRemark_plain "x = 2"
  constructor
  · rw [sentBody_fixedRemark]
    exact Option.some_ne_none _
  · refine (posted_suggestion_whole_iff hbody hagent).2 (.inr ?_)
    intro fix hfix
    have hsome : (Sample.fixedRemark "x = 2").fix = some "x = 2" := by rfl
    rw [hsome] at hfix
    cases hfix
    exact .inl (by decide)

theorem strip_lineFix (n : ℕ) : strip (Sample.lineFix n) = Sample.lineFix n := by
  rw [String.ext_iff, strip, String.toList_ofList, Sample.lineFix, String.toList_ofList]
  apply stripChars_of_stripped
  constructor <;> intro d hd
  · rw [List.eq_of_mem_replicate (List.mem_of_mem_head? hd)]
    decide
  · rw [List.eq_of_mem_replicate (List.mem_of_mem_getLast? hd)]
    decide

theorem length_cleanFix_lineFix (n : ℕ) : (cleanFix (Sample.lineFix n)).length = n := by
  have hplain : '`' ∉ (Sample.lineFix n).toList := by
    rw [Sample.lineFix, String.toList_ofList]
    intro hmem
    exact absurd (List.eq_of_mem_replicate hmem) (by decide)
  rw [cleanFix_plain hplain, strip_lineFix, Sample.lineFix, String.length_ofList,
    List.length_replicate]

/-- A line that is longer than a comment can be is not sent whole. -/
theorem not_postedWhole_lineFix {n : ℕ} (hn : maxCommentBodySize ≤ n) :
    ¬PostedWhole (Sample.fixedRemark (Sample.lineFix n))
      (truncate (formatInlineComment (Sample.fixedRemark (Sample.lineFix n))) maxCommentBodySize) := by
  have hne : Sample.lineFix n ≠ "" := by
    intro hnil
    have hlength : (Sample.lineFix n).length = n := by
      rw [Sample.lineFix, String.length_ofList, List.length_replicate]
    rw [hnil] at hlength
    simp only [maxCommentBodySize, String.length_empty] at hn hlength
    omega
  have hfix : (Sample.fixedRemark (Sample.lineFix n)).fix = some (Sample.lineFix n) := by
    simp [ReviewComment.fix, Sample.fixedRemark, strip_lineFix, hne]
  obtain ⟨hbody, hagent⟩ := fixedRemark_plain (Sample.lineFix n)
  have hhead : commentHead (Sample.fixedRemark (Sample.lineFix n)) = commentHead Sample.remark := rfl
  have hlength : (commentHead Sample.remark).length = 26 := by rfl
  have hkept : keptLength = 7942 := by
    simp [keptLength, maxCommentBodySize, length_truncationMarker]
  rw [postedWhole_of_fix_iff hbody hagent hfix]
  simp only [blockEnd, blockStart, length_cleanFix_lineFix, hhead, hlength, hkept,
    maxCommentBodySize] at hn ⊢
  omega

/-- The block of a long fix is cut before it is closed. -/
theorem long_suggestion_left_open : ¬ ∀ c : ReviewComment, '`' ∉ c.body.toList →
    '`' ∉ (c.agentId.getD "None").toList → ∀ body, sentBody c = some body → PostedWhole c body := by
  intro hall
  obtain ⟨hbody, hagent⟩ := fixedRemark_plain (Sample.lineFix 9000)
  have hlong : maxCommentBodySize ≤ 9000 := by decide
  exact not_postedWhole_lineFix hlong (hall _ hbody hagent _ (sentBody_fixedRemark _))

end Revix
