import Revix.UnifiedDiffs

/-! What `parse_changed_lines` finds in the patch of a diff. Python also ends lines where no file
line ends, so that a line of the diff can be read as several. -/
namespace Revix

section Numerals

variable {n : ℕ} {c : Char} {cs : List Char}

theorem eat_append (part : String) (cs : List Char) : eat part (part.toList ++ cs) = some cs := by
  simp [eat]

theorem digitValue_of_isDigit (h : c.isDigit = true) : digitValue c = some (c.toNat - 48) := by
  have hrange : 48 ≤ c.toNat ∧ c.toNat < 48 + 10 := by
    simp only [Char.isDigit, Bool.and_eq_true, decide_eq_true_eq] at h
    have hlow := UInt32.le_iff_toNat_le.1 h.1
    have hhigh := UInt32.le_iff_toNat_le.1 h.2
    change 48 ≤ c.toNat at hlow
    change c.toNat ≤ 57 at hhigh
    omega
  simp [digitValue, digitZeros, hrange]

theorem digitsValue_eq (h : ∀ c ∈ cs, c.isDigit = true) (m : ℕ) :
    cs.foldl (fun n c => 10 * n + (digitValue c).getD 0) m = Nat.ofDigitChars 10 cs m := by
  induction cs generalizing m with
  | nil => rfl
  | cons c cs ih =>
    rw [List.foldl_cons, Nat.ofDigitChars_cons, digitValue_of_isDigit (h c (.head _)),
      ih fun d hd => h d (.tail _ hd)]
    rfl

/-- A numeral is read back, before anything that is not a digit. -/
theorem eatNumber_toString (n : ℕ) (hc : digitValue c = none) (cs : List Char) :
    eatNumber ((toString n).toList ++ c :: cs) = some (n, c :: cs) := by
  have hdigits : ∀ d ∈ Nat.toDigits 10 n, d.isDigit = true := fun d hd =>
    Nat.isDigit_of_mem_toDigits (by omega) (by omega) hd
  have htext : (toString n).toList = Nat.toDigits 10 n := Nat.toList_repr
  have hall : ∀ d ∈ Nat.toDigits 10 n, (digitValue d).isSome = true := by
    intro d hd
    rw [digitValue_of_isDigit (hdigits d hd)]
    rfl
  have htake : (Nat.toDigits 10 n ++ c :: cs).takeWhile (fun d => (digitValue d).isSome) =
      Nat.toDigits 10 n := by
    rw [List.takeWhile_append_of_pos hall, List.takeWhile_cons_of_neg (by simp [hc]),
      List.append_nil]
  rw [htext, eatNumber, htake]
  have hvalue : digitsValue (Nat.toDigits 10 n) = n := by
    rw [digitsValue, digitsValue_eq hdigits, Nat.ofDigitChars_ten_toDigits]
  simp [Nat.toDigits_ne_nil, hvalue]

theorem digitValue_space : digitValue ' ' = none := by decide

theorem digitValue_comma : digitValue ',' = none := by decide

theorem eatCount_countText (terse : Bool) (count : ℕ) (cs : List Char) :
    eatCount (countText terse count ++ ' ' :: cs) = ' ' :: cs := by
  unfold countText
  split_ifs with h
  · rfl
  · have hcomma : eat "," (',' :: ((toString count).toList ++ ' ' :: cs)) =
        some ((toString count).toList ++ ' ' :: cs) := eat_append "," _
    rw [List.cons_append, eatCount, hcomma, Option.bind_some,
      eatNumber_toString count digitValue_space]

theorem eatNumber_rangeText (terse : Bool) (start count : ℕ) (cs : List Char) :
    eatNumber (rangeText terse start count ++ ' ' :: cs) =
      some (start, countText terse count ++ ' ' :: cs) := by
  rw [rangeText, List.append_assoc]
  unfold countText
  split_ifs with h
  · exact eatNumber_toString start digitValue_space _
  · exact eatNumber_toString start digitValue_comma _

end Numerals

/-- The pattern finds the start of the new range, whatever follows the ranges. -/
theorem hunkStart_ranges (h : PrintedHunk) (cs : List Char) :
    hunkStart (h.ranges ++ cs) = some h.newStart := by
  have hat : ∀ cs, eat "@@ -" (['@', '@', ' ', '-'] ++ cs) = some cs := eat_append "@@ -"
  have hplus : ∀ cs, eat " +" ([' ', '+'] ++ cs) = some cs := eat_append " +"
  have hend : ∀ cs, eat " @@" ([' ', '@', '@'] ++ cs) = some cs := eat_append " @@"
  have hspace : ∀ cs, [' ', '+'] ++ cs = ' ' :: '+' :: cs := fun cs => rfl
  have hspace' : ∀ cs, [' ', '@', '@'] ++ cs = ' ' :: '@' :: '@' :: cs := fun cs => rfl
  unfold PrintedHunk.ranges hunkStart
  simp only [List.append_assoc]
  rw [hat, Option.bind_eq_bind, Option.bind_some, hspace, eatNumber_rangeText]
  simp only [Option.bind_eq_bind, Option.bind_some, eatCount_countText]
  rw [← hspace, hplus, Option.bind_some, hspace', eatNumber_rangeText]
  simp only [Option.bind_some, eatCount_countText]
  rw [← hspace', hend]
  rfl

section Splitting

variable {line cs : List Char} {c : Char}

theorem splitLinesFrom_cons (h : c = '\r' → cs.head? ≠ some '\n') :
    splitLinesFrom line (c :: cs) =
      if isLineBreak c then line :: splitLinesFrom [] cs else splitLinesFrom (line ++ [c]) cs := by
  by_cases hc : c = '\r'
  · cases cs with
    | nil =>
      subst hc
      rfl
    | cons d ds =>
      have hd : d ≠ '\n' := fun hd => h hc (congrArg some hd)
      rw [splitLinesFrom]
      intro cs' _ hcs
      exact hd (List.cons.inj hcs).1
  · rw [splitLinesFrom]
    intro cs' hc' _
    exact hc hc'

theorem splitLinesFrom_feed (line cs : List Char) :
    splitLinesFrom line ('\n' :: cs) = line :: splitLinesFrom [] cs := by
  rw [splitLinesFrom_cons (fun h => absurd h (by decide)), if_pos (by decide)]

theorem head?_ne_feed (hcs : '\n' ∉ cs) (hend : ¬(c = '\r' ∧ cs = [])) (rest : List Char)
    (hc : c = '\r') : (cs ++ '\n' :: rest).head? ≠ some '\n' := by
  cases cs with
  | nil => exact absurd ⟨hc, rfl⟩ hend
  | cons d ds =>
    intro hd
    exact hcs (Option.some.inj hd ▸ .head _)

/-- A line feed ends what is read of a line. -/
theorem splitLinesFrom_append (hcs : '\n' ∉ cs) (rest : List Char) :
    splitLinesFrom line (cs ++ '\n' :: rest) =
      splitLinesFrom line (cs ++ ['\n']) ++ splitLinesFrom [] rest := by
  induction cs generalizing line with
  | nil =>
    rw [List.nil_append, List.nil_append, splitLinesFrom_feed, splitLinesFrom_feed]
    rfl
  | cons c cs ih =>
    replace hcs : '\n' ∉ cs := fun h => hcs (.tail _ h)
    by_cases hend : c = '\r' ∧ cs = []
    · obtain ⟨rfl, rfl⟩ := hend
      rfl
    · rw [List.cons_append, List.cons_append, splitLinesFrom_cons (head?_ne_feed hcs hend rest),
        splitLinesFrom_cons (head?_ne_feed hcs hend [])]
      split_ifs with hbreak
      · rw [ih hcs, List.cons_append]
      · exact ih hcs

/-- Without a line feed at the end, nothing is missing but an empty piece. -/
theorem splitLinesFrom_end (hcs : '\n' ∉ cs) :
    splitLinesFrom line (cs ++ ['\n']) = splitLinesFrom line cs ∨
      splitLinesFrom line (cs ++ ['\n']) = splitLinesFrom line cs ++ [[]] := by
  induction cs generalizing line with
  | nil =>
    rw [List.nil_append, splitLinesFrom_feed]
    by_cases hline : line = []
    · right
      simp [splitLinesFrom, hline]
    · left
      simp [splitLinesFrom, hline]
  | cons c cs ih =>
    replace hcs : '\n' ∉ cs := fun h => hcs (.tail _ h)
    by_cases hend : c = '\r' ∧ cs = []
    · obtain ⟨rfl, rfl⟩ := hend
      exact .inl rfl
    · have hnext : c = '\r' → cs.head? ≠ some '\n' := fun _ hd => hcs (List.mem_of_mem_head? hd)
      rw [List.cons_append, splitLinesFrom_cons (head?_ne_feed hcs hend []),
        splitLinesFrom_cons hnext]
      split_ifs with hbreak
      · rcases @ih [] hcs with h | h
        · exact .inl (congrArg (line :: ·) h)
        · exact .inr (congrArg (line :: ·) h)
      · exact ih hcs

/-- What a line is read as. -/
def pieces (line : List Char) : List (List Char) := splitLinesFrom [] (line ++ ['\n'])

/-- The pieces of a line besides the one that begins it. -/
def strays (line : List Char) : List (List Char) := (pieces line).tail

theorem no_break_of_all {w : List Char} (h : (w.all fun c => !isLineBreak c) = true)
    (hc : c ∈ w) : isLineBreak c = false := by
  have hnot := List.all_eq_true.1 h c hc
  rwa [Bool.not_eq_true'] at hnot

theorem splitLinesFrom_prefix {w : List Char} (hw : ∀ c ∈ w, isLineBreak c = false) :
    splitLinesFrom line (w ++ cs) = splitLinesFrom (line ++ w) cs := by
  induction w generalizing line with
  | nil => simp
  | cons c w ih =>
    have hc := hw c (.head _)
    have hne : c ≠ '\r' := by
      rintro rfl
      cases hc
    rw [List.cons_append, splitLinesFrom_cons (fun h => absurd h hne), hc,
      if_neg Bool.false_ne_true, ih fun d hd => hw d (.tail _ hd), List.append_assoc]
    rfl

/-- What is read of a line already goes into its first piece and nowhere else. -/
theorem exists_splitLinesFrom (cs : List Char) :
    ∃ t ps, ∀ line, splitLinesFrom line (cs ++ ['\n']) = (line ++ t) :: ps := by
  induction cs with
  | nil =>
    refine ⟨[], [], fun line => ?_⟩
    rw [List.nil_append, splitLinesFrom_feed, List.append_nil]
    rfl
  | cons c cs ih =>
    by_cases hcr : c = '\r' → (cs ++ ['\n']).head? ≠ some '\n'
    · by_cases hbreak : isLineBreak c = true
      · refine ⟨[], splitLinesFrom [] (cs ++ ['\n']), fun line => ?_⟩
        rw [List.cons_append, splitLinesFrom_cons hcr, if_pos hbreak, List.append_nil]
      · obtain ⟨t, ps, h⟩ := ih
        refine ⟨c :: t, ps, fun line => ?_⟩
        rw [List.cons_append, splitLinesFrom_cons hcr, if_neg hbreak, h, List.append_assoc]
        rfl
    · rw [Classical.not_imp, not_not] at hcr
      obtain ⟨rfl, hhead⟩ := hcr
      obtain ⟨cs', hcs'⟩ := List.head?_eq_some_iff.1 hhead
      refine ⟨[], splitLinesFrom [] cs', fun line => ?_⟩
      rw [List.cons_append, hcs', List.append_nil]
      rfl

/-- The first piece of a line has what comes before every line boundary, and the strays are those
of what comes after it. -/
theorem pieces_append {w : List Char} (hw : ∀ c ∈ w, isLineBreak c = false) (t : List Char) :
    ∃ t', pieces (w ++ t) = (w ++ t') :: strays t := by
  obtain ⟨t', ps, h⟩ := exists_splitLinesFrom t
  refine ⟨t', ?_⟩
  rw [pieces, List.append_assoc, splitLinesFrom_prefix hw, List.nil_append, h, strays, pieces, h,
    List.tail_cons]

theorem strays_append {w : List Char} (hw : ∀ c ∈ w, isLineBreak c = false) (t : List Char) :
    strays (w ++ t) = strays t := by
  obtain ⟨t', ht⟩ := pieces_append hw t
  rw [strays, ht, List.tail_cons]

end Splitting

/-- The piece is neither a header nor a row that the scan counts. -/
def Ignored (raw : List Char) : Prop :=
  hunkStart raw = none ∧ raw.head? ≠ some '+' ∧ raw.head? ≠ some '-' ∧ raw.head? ≠ some ' '

/-- No line of the diff is read as more than one. -/
def Diff.Plain (d : Diff) : Prop := ∀ line ∈ d.lines, ∀ piece ∈ strays line, Ignored piece

instance (raw : List Char) : Decidable (Ignored raw) := inferInstanceAs (Decidable (_ ∧ _))

instance (d : Diff) : Decidable d.Plain :=
  inferInstanceAs (Decidable (∀ line ∈ d.lines, ∀ piece ∈ strays line, Ignored piece))

section Scanning

variable {s : LineScan} {raw : List Char} {raws : List (List Char)}

theorem scanLine_header {start : ℕ} (h : hunkStart raw = some start) :
    scanLine s raw = ⟨start, s.changed⟩ := by
  unfold scanLine
  rw [h]

theorem hunkStart_cons {c : Char} (hc : c ≠ '@') (cs : List Char) : hunkStart (c :: cs) = none := by
  have heat : eat "@@ -" (c :: cs) = none := by
    rw [eat, if_neg]
    intro h
    exact hc (List.cons_prefix_cons.1 (List.isPrefixOf_iff_prefix.1 h)).1.symm
  rw [hunkStart, heat]
  rfl

theorem scanLine_added (cs : List Char) :
    scanLine s ('+' :: cs) = ⟨s.lineNo + 1, s.changed ++ [s.lineNo]⟩ := by
  unfold scanLine
  rw [hunkStart_cons (by simp)]
  rfl

theorem scanLine_deleted (cs : List Char) :
    scanLine s ('-' :: cs) = ⟨s.lineNo, s.changed ++ [s.lineNo]⟩ := by
  unfold scanLine
  rw [hunkStart_cons (by simp)]
  rfl

theorem scanLine_context (cs : List Char) : scanLine s (' ' :: cs) = ⟨s.lineNo + 1, s.changed⟩ := by
  unfold scanLine
  rw [hunkStart_cons (by simp)]
  rfl

theorem scanLine_ignored (h : Ignored raw) : scanLine s raw = s := by
  obtain ⟨hheader, hplus, hminus, hspace⟩ := h
  unfold scanLine
  rw [hheader]
  cases raw with
  | nil => rfl
  | cons c cs =>
    have hplus' : c ≠ '+' := fun hc => hplus (congrArg some hc)
    have hminus' : c ≠ '-' := fun hc => hminus (congrArg some hc)
    have hspace' : c ≠ ' ' := fun hc => hspace (congrArg some hc)
    simp [hplus', hminus', hspace']

theorem foldl_scanLine_ignored (h : ∀ raw ∈ raws, Ignored raw) : raws.foldl scanLine s = s := by
  induction raws with
  | nil => rfl
  | cons raw raws ih =>
    rw [List.foldl_cons, scanLine_ignored (h raw (.head _)), ih fun r hr => h r (.tail _ hr)]

/-- The lines of a patch are read one by one, whether or not a line feed ends the last one. -/
theorem scan_intercalate {ls : List (List Char)} (h : ∀ line ∈ ls, '\n' ∉ line) (ended : Bool)
    (s : LineScan) :
    (splitLinesFrom [] (['\n'].intercalate ls ++ if ended then ['\n'] else [])).foldl scanLine s =
      (ls.flatMap pieces).foldl scanLine s := by
  induction ls generalizing s with
  | nil => cases ended <;> rfl
  | cons line ls ih =>
    have hline := h line (.head _)
    have hrest : ∀ l ∈ ls, '\n' ∉ l := fun l hl => h l (.tail _ hl)
    cases ls with
    | nil =>
      have hone : ['\n'].intercalate [line] = line := by simp [List.intercalate]
      rw [hone, List.flatMap_cons, List.flatMap_nil, List.append_nil, pieces]
      have hend : splitLinesFrom [] (line ++ ['\n']) = splitLinesFrom [] line ∨
          splitLinesFrom [] (line ++ ['\n']) = splitLinesFrom [] line ++ [[]] :=
        splitLinesFrom_end hline
      cases ended with
      | true => rfl
      | false =>
        rw [if_neg Bool.false_ne_true, List.append_nil]
        rcases hend with heq | heq
        · rw [heq]
        · rw [heq, List.foldl_append]
          rfl
    | cons l ls =>
      have hcons : ['\n'].intercalate (line :: l :: ls) =
          line ++ '\n' :: ['\n'].intercalate (l :: ls) := by simp [List.intercalate]
      rw [hcons, List.append_assoc, List.cons_append, splitLinesFrom_append hline,
        List.foldl_append, ih hrest]
      exact List.foldl_append.symm

/-- The first piece of a row begins as the row does. -/
theorem DiffRow.pieces_text (r : DiffRow) :
    ∃ t, pieces r.text = (r.marker :: t) :: strays r.text := by
  have hsplit : ∃ cs, r.text = [r.marker] ++ cs := by
    cases r with
    | context line => exact ⟨line.1, rfl⟩
    | deleted line => exact ⟨line.1, rfl⟩
    | added line => exact ⟨line.1, rfl⟩
    | notice => exact ⟨" No newline at end of file".toList, rfl⟩
  have hmarker : ∀ c ∈ [r.marker], isLineBreak c = false := by
    intro c hc
    rw [List.mem_singleton.1 hc]
    cases r <;> rfl
  obtain ⟨cs, hcs⟩ := hsplit
  rw [hcs, strays_append hmarker]
  exact pieces_append hmarker cs

/-- What the scan makes of a row, if nothing of it strays. -/
theorem scan_row {r : DiffRow} (h : ∀ piece ∈ strays r.text, Ignored piece) (old : ℕ)
    (s : LineScan) :
    (pieces r.text).foldl scanLine s =
      ⟨s.lineNo + r.new.length, s.changed ++ editedLines [⟨r, old, s.lineNo⟩]⟩ := by
  obtain ⟨t, ht⟩ := r.pieces_text
  rw [ht, List.foldl_cons, foldl_scanLine_ignored h]
  cases r with
  | context line => simp [DiffRow.marker, scanLine_context, editedLines]
  | deleted line => simp [DiffRow.marker, scanLine_deleted, editedLines]
  | added line => simp [DiffRow.marker, scanLine_added, editedLines]
  | notice =>
    have hignored : Ignored ('\\' :: t) :=
      ⟨hunkStart_cons (by simp) t, by simp, by simp, by simp⟩
    simp [DiffRow.marker, scanLine_ignored hignored, editedLines]

theorem editedLines_append (ps qs : List PlacedRow) :
    editedLines (ps ++ qs) = editedLines ps ++ editedLines qs := by
  simp [editedLines]

theorem editedLines_cons (p : PlacedRow) (ps : List PlacedRow) :
    editedLines (p :: ps) = editedLines [p] ++ editedLines ps := editedLines_append [p] ps

/-- The scan counts the new lines of the rows and records the numbers of the edited ones. -/
theorem scan_rows {rows : List DiffRow}
    (h : ∀ r ∈ rows, ∀ piece ∈ strays r.text, Ignored piece) (old : ℕ) (s : LineScan) :
    ((rows.map DiffRow.text).flatMap pieces).foldl scanLine s =
      ⟨s.lineNo + (rows.flatMap DiffRow.new).length,
        s.changed ++ editedLines (placeRows old s.lineNo rows)⟩ := by
  induction rows generalizing old s with
  | nil => simp [placeRows, editedLines]
  | cons r rs ih =>
    rw [List.map_cons, List.flatMap_cons, List.foldl_append, scan_row (h r (.head _)) old,
      ih (fun r hr => h r (.tail _ hr)) (old + r.old.length), placeRows,
      editedLines_cons ⟨r, old, s.lineNo⟩ (placeRows _ _ rs), List.flatMap_cons,
      List.length_append, Nat.add_assoc, List.append_assoc]

theorem toString_no_break (n : ℕ) : ∀ c ∈ (toString n).toList, isLineBreak c = false := by
  intro c hc
  have htext : (toString n).toList = Nat.toDigits 10 n := Nat.toList_repr
  rw [htext] at hc
  have hdigit := Nat.isDigit_of_mem_toDigits (by omega) (by omega) hc
  have hrange : 48 ≤ c.toNat ∧ c.toNat ≤ 57 := Char.isDigit_iff_toNat.1 hdigit
  simp [isLineBreak]
  omega

theorem rangeText_no_break (terse : Bool) (start count : ℕ) :
    ∀ c ∈ rangeText terse start count, isLineBreak c = false := by
  intro c hc
  rcases List.mem_append.1 hc with hc | hc
  · exact toString_no_break start c hc
  · unfold countText at hc
    split_ifs at hc
    · exact absurd hc List.not_mem_nil
    · rcases List.mem_cons.1 hc with rfl | hc
      · decide
      · exact toString_no_break count c hc

theorem ranges_no_break (h : PrintedHunk) : ∀ c ∈ h.ranges, isLineBreak c = false := by
  intro c hc
  simp only [PrintedHunk.ranges, List.mem_append] at hc
  obtain (((hc | hc) | hc) | hc) | hc := hc
  · exact no_break_of_all (by decide) hc
  · exact rangeText_no_break _ _ _ c hc
  · exact no_break_of_all (by decide) hc
  · exact rangeText_no_break _ _ _ c hc
  · exact no_break_of_all (by decide) hc

theorem scan_header {h : PrintedHunk} (hstray : ∀ piece ∈ strays h.header, Ignored piece)
    (s : LineScan) : (pieces h.header).foldl scanLine s = ⟨h.newStart, s.changed⟩ := by
  obtain ⟨t, ht⟩ := pieces_append (ranges_no_break h) h.heading.1
  rw [PrintedHunk.header, strays_append (ranges_no_break h)] at hstray
  rw [PrintedHunk.header, ht, List.foldl_cons, scanLine_header (hunkStart_ranges h t)]
  exact foldl_scanLine_ignored hstray

theorem scan_hunks {hs : List PrintedHunk}
    (h : ∀ line ∈ hs.flatMap PrintedHunk.lines, ∀ piece ∈ strays line, Ignored piece)
    (s : LineScan) :
    (((hs.flatMap PrintedHunk.lines).flatMap pieces).foldl scanLine s).changed =
      s.changed ++ changedNumbers hs := by
  induction hs generalizing s with
  | nil => simp [changedNumbers, editedLines]
  | cons hunk hs ih =>
    rw [List.flatMap_cons] at h ⊢
    have hrows : ∀ r ∈ hunk.rows, ∀ piece ∈ strays r.text, Ignored piece := fun r hr =>
      h r.text (List.mem_append_left _ (.tail _ (List.mem_map_of_mem hr)))
    have hheader := h hunk.header (List.mem_append_left _ (.head _))
    have hrest := fun line hline => h line (List.mem_append_right _ hline)
    have hnumbers : changedNumbers (hunk :: hs) =
        editedLines (placeRows hunk.oldStart hunk.newStart hunk.rows) ++ changedNumbers hs :=
      editedLines_append _ _
    rw [PrintedHunk.lines, List.cons_append, List.flatMap_cons, List.flatMap_append,
      List.foldl_append, List.foldl_append, scan_header hheader, scan_rows hrows hunk.oldStart,
      ih hrest, hnumbers, List.append_assoc]

theorem DiffRow.feed_not_mem_text (r : DiffRow) : '\n' ∉ r.text := by
  have hmarked : ∀ {marker : Char} (line : Line), marker ≠ '\n' → '\n' ∉ marker :: line.1 := by
    intro marker line hmarker h
    rcases List.mem_cons.1 h with h | h
    · exact hmarker h.symm
    · exact line.2 h
  cases r with
  | context line => exact hmarked line (by decide)
  | deleted line => exact hmarked line (by decide)
  | added line => exact hmarked line (by decide)
  | notice => decide

theorem feed_not_mem_lines {hs : List PrintedHunk} :
    ∀ line ∈ hs.flatMap PrintedHunk.lines, '\n' ∉ line := by
  intro line hline
  obtain ⟨h, -, hline⟩ := List.mem_flatMap.1 hline
  rcases List.mem_cons.1 hline with rfl | hline
  · intro hfeed
    rcases List.mem_append.1 hfeed with hfeed | hfeed
    · exact absurd (ranges_no_break h _ hfeed) (by decide)
    · exact h.heading.2 hfeed
  · obtain ⟨r, -, rfl⟩ := List.mem_map.1 hline
    exact r.feed_not_mem_text

/-- From a patch without stray rows, the numbers of its edited rows are read. -/
theorem parseChangedLines_patchText {hs : List PrintedHunk}
    (h : ∀ line ∈ hs.flatMap PrintedHunk.lines, ∀ piece ∈ strays line, Ignored piece)
    (ended : Bool) : parseChangedLines (patchText hs ended) = changedNumbers hs := by
  have hscan := scan_hunks h ⟨0, []⟩
  rw [parseChangedLines, splitLines, patchText, String.toList_ofList,
    scan_intercalate feed_not_mem_lines]
  exact hscan

/-- From the patch of a plain diff, the numbers of its edited rows are read. -/
theorem parseChangedLines_patch {d : Diff} (h : d.Plain) :
    parseChangedLines d.patch = editedLines d.placed := by
  have hlines : ∀ line ∈ d.printed.flatMap PrintedHunk.lines, ∀ piece ∈ strays line,
      Ignored piece := by
    intro line hline
    apply h
    rw [Diff.lines, hunkLines_eq]
    exact hline
  rw [Diff.patch_eq, parseChangedLines_patchText hlines, Diff.editedLines_placed]

/-- Where the scan is after a line of a patch. -/
def stepLine (lineNo : ℕ) (raw : List Char) : ℕ :=
  match hunkStart raw with
  | some start => start
  | none => if raw.head? = some '+' ∨ raw.head? = some ' ' then lineNo + 1 else lineNo

def Edits (raw : List Char) : Prop := raw.head? = some '+' ∨ raw.head? = some '-'

theorem hunkStart_of_edits (h : Edits raw) : hunkStart raw = none := by
  cases raw with
  | nil => rfl
  | cons c cs =>
    apply hunkStart_cons
    rintro rfl
    rcases h with h | h
    · exact absurd (Option.some.inj h) (by decide)
    · exact absurd (Option.some.inj h) (by decide)

theorem scanLine_edits (h : Edits raw) :
    scanLine s raw = ⟨stepLine s.lineNo raw, s.changed ++ [s.lineNo]⟩ := by
  have hheader := hunkStart_of_edits h
  rcases h with h | h
  · obtain ⟨cs, rfl⟩ := List.head?_eq_some_iff.1 h
    rw [scanLine_added, stepLine, hheader]
    rfl
  · obtain ⟨cs, rfl⟩ := List.head?_eq_some_iff.1 h
    rw [scanLine_deleted, stepLine, hheader]
    rfl

theorem scanLine_not_edits (h : ¬Edits raw) :
    scanLine s raw = ⟨stepLine s.lineNo raw, s.changed⟩ := by
  cases hheader : hunkStart raw with
  | some start => rw [scanLine_header hheader, stepLine, hheader]
  | none =>
    by_cases hspace : raw.head? = some ' '
    · obtain ⟨cs, rfl⟩ := List.head?_eq_some_iff.1 hspace
      rw [scanLine_context, stepLine, hheader]
      rfl
    · have hplus : ¬raw.head? = some '+' := fun hp => h (.inl hp)
      have hignored : Ignored raw := ⟨hheader, hplus, fun hm => h (.inr hm), hspace⟩
      rw [scanLine_ignored hignored, stepLine, hheader]
      simp [hplus, hspace]

theorem scanLine_lineNo (s : LineScan) (raw : List Char) :
    (scanLine s raw).lineNo = stepLine s.lineNo raw := by
  by_cases h : Edits raw
  · rw [scanLine_edits h]
  · rw [scanLine_not_edits h]

theorem mem_scanLine {line : ℕ} :
    line ∈ (scanLine s raw).changed ↔ line ∈ s.changed ∨ Edits raw ∧ line = s.lineNo := by
  by_cases h : Edits raw
  · rw [scanLine_edits h, List.mem_append, List.mem_singleton]
    exact or_congr_right ⟨fun hline => ⟨h, hline⟩, And.right⟩
  · rw [scanLine_not_edits h]
    exact ⟨.inl, fun hline => hline.resolve_right fun hedits => h hedits.1⟩

/-- A line is recorded where a line of the patch that edits is read. -/
theorem mem_foldl_scanLine {line : ℕ} :
    line ∈ (raws.foldl scanLine s).changed ↔ line ∈ s.changed ∨
      ∃ before raw after, raws = before ++ raw :: after ∧ Edits raw ∧
        line = before.foldl stepLine s.lineNo := by
  induction raws generalizing s with
  | nil => simp
  | cons raw raws ih =>
    rw [List.foldl_cons, ih, mem_scanLine, scanLine_lineNo, or_assoc]
    refine or_congr_right ⟨?_, ?_⟩
    · rintro (⟨hedits, rfl⟩ | ⟨before, raw', after, rfl, hedits, rfl⟩)
      · exact ⟨[], raw, raws, rfl, hedits, rfl⟩
      · exact ⟨raw :: before, raw', after, rfl, hedits, rfl⟩
    · rintro ⟨before, raw', after, hsplit, hedits, rfl⟩
      cases before with
      | nil =>
        obtain ⟨rfl, -⟩ := List.cons.inj hsplit
        exact .inl ⟨hedits, rfl⟩
      | cons r before =>
        obtain ⟨rfl, rfl⟩ := List.cons.inj hsplit
        exact .inr ⟨before, raw', after, rfl, hedits, rfl⟩

/-- The number of the next line of the new file after these lines of a patch. -/
def lineAfter (raws : List (List Char)) : ℕ := raws.foldl stepLine 0

theorem mem_parseChangedLines {patch : String} {line : ℕ} :
    line ∈ parseChangedLines patch ↔ ∃ before raw after,
      splitLines patch = before ++ raw :: after ∧ Edits raw ∧ line = lineAfter before := by
  rw [parseChangedLines, mem_foldl_scanLine]
  exact or_iff_right List.not_mem_nil

end Scanning

end Revix
