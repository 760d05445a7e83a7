import Revix.ChunkCoverage

/-! A chunk repeats spans of the source. Every row of a span but the first is repeated from its
beginning, and the first row from where the node starts. -/
namespace Revix

def leading (line : List Char) : List Char := line.takeWhile isSpace

/-- The characters of a row, without its line feed. -/
def lineOf (ps : List Position) (row : ℕ) : List Char :=
  (ps.filter fun p => p.row = row && p.char ≠ '\n').map Position.char

def fileLine (source : String) (row : ℕ) : List Char := lineOf (positions source) row

def Span.line (source : String) (s : Span) (row : ℕ) : List Char :=
  lineOf ((positions source).filter s.holds) row

/-- The characters are on the rows from `first` to `last`; a line feed begins the next row. -/
inductive Rows : ℕ → ℕ → List Position → Prop
  | nil (row : ℕ) : Rows row row []
  | cons {first last : ℕ} {p : Position} {ps : List Position} (hrow : p.row = first)
      (h : Rows (if p.char = '\n' then first + 1 else first) last ps) : Rows first last (p :: ps)

section Lines

variable {source : String} {s : Span} {row first last : ℕ} {ps : List Position} {α : Type}
  {f g : α → Bool} {as : List α}

theorem Rows.le (h : Rows first last ps) : first ≤ last ∧ ∀ p ∈ ps, first ≤ p.row := by
  induction h with
  | nil row => exact ⟨le_refl _, fun p hp => absurd hp List.not_mem_nil⟩
  | cons hrow h ih =>
    have hnext : ∀ {a : ℕ} {c : Char}, a ≤ (if c = '\n' then a + 1 else a) := by
      intro a c
      split <;> omega
    refine ⟨le_trans hnext ih.1, fun p hp => ?_⟩
    rcases List.mem_cons.1 hp with rfl | hp
    · exact le_of_eq hrow.symm
    · exact le_trans hnext (ih.2 p hp)

theorem Rows.splitOn (h : Rows first last ps) :
    (ps.map Position.char).splitOn '\n' =
      (List.range' first (last + 1 - first)).map (lineOf ps) := by
  induction h with
  | nil row => simp [lineOf]
  | @cons first last p ps hrow h ih =>
    obtain ⟨hle, hrows⟩ := h.le
    rw [List.map_cons, List.splitOn_cons_eq_if_modifyHead, ih]
    by_cases hc : p.char = '\n'
    · rw [if_pos hc] at hle hrows
      have hempty : lineOf ps first = [] := by
        rw [lineOf, List.filter_eq_nil_iff.2]
        · rfl
        · intro q hq
          have hlater := hrows q hq
          have hne : ¬q.row = first := by omega
          simp [hne]
      have hsame : ∀ row, lineOf (p :: ps) row = lineOf ps row := by
        intro row
        simp [lineOf, hc]
      have hcount : last + 1 - first = last + 1 - (first + 1) + 1 := by omega
      rw [hcount, List.range'_succ, List.map_cons, hsame, hempty]
      simp [hc, hsame]
    · rw [if_neg hc] at hle hrows
      have hfirst : lineOf (p :: ps) first = p.char :: lineOf ps first := by
        simp [lineOf, hc, hrow]
      have hcount : last + 1 - first = last - first + 1 := by omega
      have hsame : ∀ row ∈ List.range' (first + 1) (last - first),
          lineOf ps row = lineOf (p :: ps) row := by
        intro row hmem
        have hne : ¬p.row = row := by
          have := (List.mem_range'_1.1 hmem).1
          omega
        simp [lineOf, hne]
      rw [if_neg hc, hcount, List.range'_succ, List.map_cons, List.map_cons, hfirst,
        ← List.map_congr_left hsame]
      simp [hc]

/-- No line feed after an offset is before an earlier bound. -/
theorem countP_positionsFrom_eq_zero {offset bound : ℕ} (h : bound ≤ offset) (row : ℕ)
    (cs : List Char) :
    (positionsFrom offset row cs).countP (fun p => p.offset < bound && p.char = '\n') = 0 := by
  apply List.countP_eq_zero.2
  intro q hq
  have hle := le_offset_of_mem hq
  have hnot : ¬q.offset < bound := by omega
  simp [hnot]

theorem filter_positionsFrom_eq_nil {offset : ℕ} (h : s.stop ≤ offset) (row : ℕ)
    (cs : List Char) : (positionsFrom offset row cs).filter s.holds = [] := by
  apply List.filter_eq_nil_iff.2
  intro q hq hholds
  have hle := le_offset_of_mem hq
  have hlt := (holds_iff.1 hholds).2
  omega

/-- A character before the bound counts if it is a line feed, which begins the next row. -/
theorem row_add_countP {offset bound : ℕ} (h : offset < bound) (row n : ℕ) (c : Char) :
    row + (n + if (decide (offset < bound) && decide (c = '\n')) = true then 1 else 0) =
      (if c = '\n' then row + 1 else row) + n := by
  by_cases hc : c = '\n'
  · simp [hc, h]
    omega
  · simp [hc]

/-- The characters of a span are on the rows from that of its start to that of its end. -/
theorem rows_filter (hs : s.start ≤ s.stop) (offset row : ℕ) (cs : List Char) :
    Rows (row + (positionsFrom offset row cs).countP fun p => p.offset < s.start && p.char = '\n')
      (row + (positionsFrom offset row cs).countP fun p => p.offset < s.stop && p.char = '\n')
      ((positionsFrom offset row cs).filter s.holds) := by
  induction cs generalizing offset row with
  | nil => exact .nil row
  | cons c cs ih =>
    have hpos := c.utf8Size_pos
    rw [positionsFrom, List.countP_cons, List.countP_cons]
    by_cases hbefore : offset < s.start
    · have hnot : ¬s.holds ⟨offset, row, c⟩ = true :=
        fun h => Nat.not_le.2 hbefore (holds_iff.1 h).1
      rw [List.filter_cons_of_neg hnot, row_add_countP hbefore,
        row_add_countP (lt_of_lt_of_le hbefore hs)]
      exact ih _ _
    · have hlater : s.start ≤ offset + c.utf8Size := by omega
      have hih := ih (offset + c.utf8Size) (if c = '\n' then row + 1 else row)
      rw [countP_positionsFrom_eq_zero hlater, Nat.add_zero] at hih
      rw [countP_positionsFrom_eq_zero hlater]
      by_cases hin : offset < s.stop
      · have hholds : s.holds ⟨offset, row, c⟩ = true :=
          holds_iff.2 ⟨Nat.le_of_not_lt hbefore, hin⟩
        rw [List.filter_cons_of_pos hholds, row_add_countP hin]
        simp only [hbefore, decide_false, Bool.false_and, Bool.false_eq_true, if_false,
          Nat.add_zero]
        exact .cons rfl hih
      · have hnot : ¬s.holds ⟨offset, row, c⟩ = true := fun h => hin (holds_iff.1 h).2
        have hpast : s.stop ≤ offset + c.utf8Size := by omega
        rw [List.filter_cons_of_neg hnot, filter_positionsFrom_eq_nil hpast,
          countP_positionsFrom_eq_zero hpast]
        simp only [hbefore, hin, decide_false, Bool.false_and, Bool.false_eq_true, if_false,
          Nat.add_zero]
        exact .nil row

/-- The lines of the text of a span are its parts of the rows from its first to its last. -/
theorem splitOn_chars (hs : s.start ≤ s.stop) :
    (s.chars source).splitOn '\n' =
      (List.range' (rowAt source s.start) (rowAt source s.stop + 1 - rowAt source s.start)).map
        (s.line source) := by
  have h := rows_filter hs 0 0 source.toList
  rw [Nat.zero_add, Nat.zero_add] at h
  exact h.splitOn

theorem filter_eq_takeWhile (h : as.Pairwise fun a b => f b = true → f a = true) :
    as.filter f = as.takeWhile f := by
  induction as with
  | nil => rfl
  | cons a as ih =>
    obtain ⟨hhead, htail⟩ := List.pairwise_cons.1 h
    cases ha : f a with
    | true => rw [List.filter_cons_of_pos ha, List.takeWhile_cons_of_pos ha, ih htail]
    | false =>
      rw [List.filter_cons_of_neg (by simp [ha]), List.takeWhile_cons_of_neg (by simp [ha])]
      apply List.filter_eq_nil_iff.2
      intro b hb hfb
      rw [hhead b hb hfb] at ha
      cases ha

/-- A beginning of a list that has an element without `g` begins with the same elements with `g`. -/
theorem takeWhile_takeWhile_of_exists (h : ∃ a ∈ as.takeWhile f, g a = false) :
    (as.takeWhile f).takeWhile g = as.takeWhile g := by
  induction as with
  | nil => rfl
  | cons a as ih =>
    cases hf : f a with
    | false =>
      rw [List.takeWhile_cons_of_neg (by simp [hf])] at h
      obtain ⟨b, hb, -⟩ := h
      exact absurd hb List.not_mem_nil
    | true =>
      rw [List.takeWhile_cons_of_pos hf] at h ⊢
      cases hg : g a with
      | false =>
        rw [List.takeWhile_cons_of_neg (by simp [hg]), List.takeWhile_cons_of_neg (by simp [hg])]
      | true =>
        rw [List.takeWhile_cons_of_pos hg, List.takeWhile_cons_of_pos hg, ih]
        obtain ⟨b, hb, hgb⟩ := h
        rcases List.mem_cons.1 hb with rfl | hb
        · rw [hg] at hgb
          cases hgb
        · exact ⟨b, hb, hgb⟩

theorem mem_line {c : Char} : c ∈ s.line source row ↔
    ∃ p ∈ positions source, s.holds p = true ∧ p.row = row ∧ p.char ≠ '\n' ∧ p.char = c := by
  simp only [Span.line, lineOf, List.mem_map, List.mem_filter, Bool.and_eq_true, decide_eq_true_eq]
  constructor
  · rintro ⟨p, ⟨⟨hp, hs⟩, hrow, hne⟩, rfl⟩
    exact ⟨p, hp, hs, hrow, hne, rfl⟩
  · rintro ⟨p, hp, hs, hrow, hne, rfl⟩
    exact ⟨p, ⟨⟨hp, hs⟩, hrow, hne⟩, rfl⟩

/-- The row of the span has the leading white space that it has in the file, unless nothing of it
can be seen. -/
def Span.KeepsLine (source : String) (s : Span) (row : ℕ) : Prop :=
  (∃ c ∈ s.line source row, isSpace c = false) →
    leading (s.line source row) = leading (fileLine source row)

/-- A row that begins after the start of the span is repeated from its beginning. -/
theorem keepsLine_of_ne (h : row ≠ rowAt source s.start) : s.KeepsLine source row := by
  intro hvisible
  obtain ⟨c, hc, -⟩ := id hvisible
  obtain ⟨p, hp, hs, hrow, -, -⟩ := mem_line.1 hc
  have hlater : rowAt source s.start < row := by
    have hle := (row_of_holds hp hs).1
    omega
  have hline : s.line source row = (((positions source).filter fun p =>
      p.row = row && p.char ≠ '\n').takeWhile fun p => p.offset < s.stop).map Position.char := by
    have hsorted : ((positions source).filter fun p => p.row = row && p.char ≠ '\n').Pairwise
        fun p q => decide (q.offset < s.stop) = true → decide (p.offset < s.stop) = true := by
      refine ((positionsFrom_pairwise 0 0 source.toList).filter _).imp fun hpq hq => ?_
      simp only [decide_eq_true_eq] at hq ⊢
      omega
    rw [← filter_eq_takeWhile hsorted, List.filter_filter, Span.line, lineOf, List.filter_filter]
    congr 1
    apply List.filter_congr
    intro q hq
    by_cases hqrow : q.row = row
    · have hstart : s.start ≤ q.offset := by
        by_contra hlt
        have hmono : rowAt source q.offset ≤ rowAt source s.start :=
          rowAt_mono (Nat.le_of_lt (Nat.lt_of_not_le hlt))
        rw [← row_eq_rowAt hq] at hmono
        omega
      simp only [Span.holds, hstart, decide_true, Bool.true_and]
      exact Bool.and_comm _ _
    · simp [hqrow]
  rw [hline] at hvisible ⊢
  rw [leading, leading, fileLine, lineOf, List.takeWhile_map, List.takeWhile_map,
    takeWhile_takeWhile_of_exists]
  obtain ⟨c, hc, hspace⟩ := hvisible
  obtain ⟨q, hq, rfl⟩ := List.mem_map.1 hc
  exact ⟨q, hq, hspace⟩

def Span.KeepsIndentation (source : String) (s : Span) : Prop := ∀ row, s.KeepsLine source row

/-- What a span begins with is all that can go wrong. -/
theorem keepsIndentation_iff :
    s.KeepsIndentation source ↔ s.KeepsLine source (rowAt source s.start) := by
  constructor
  · exact fun h => h _
  · intro h row
    by_cases hrow : row = rowAt source s.start
    · exact hrow ▸ h
    · exact keepsLine_of_ne hrow

end Lines

section Structure

variable {maxChunkTokens : ℕ} {source : String} {boundary : List String} {tree : Tree}
  {changed : List ℕ}

/-- Every row that a scoped chunk repeats keeps its leading white space. -/
def StructureKept (maxChunkTokens : ℕ) (source : String) (boundary : List String) (tree : Tree)
    (changed : List ℕ) : Prop :=
  ∀ pieces, .group pieces ∈ chunkChangedNodes maxChunkTokens source boundary tree changed →
    ∀ piece ∈ pieces, ∀ s ∈ piece.spans, s.KeepsIndentation source

/-- The span begins where its first row has no more leading white space than the span has. -/
def StartsLine (source : String) (s : Span) : Prop := s.KeepsLine source (rowAt source s.start)

/-- A span that begins with a visible character starts a line exactly if its first row is not
indented. -/
theorem startsLine_iff {s : Span} {p : Position} (hp : p ∈ positions source)
    (hstart : p.offset = s.start) (hin : s.holds p = true) (hvisible : isSpace p.char = false) :
    StartsLine source s ↔ leading (fileLine source p.row) = [] := by
  have hsorted := (positionsFrom_pairwise 0 0 source.toList).filter s.holds
  have hmem : p ∈ (positions source).filter s.holds := List.mem_filter.2 ⟨hp, hin⟩
  obtain ⟨ps, hps⟩ : ∃ ps, (positions source).filter s.holds = p :: ps := by
    change ((positions source).filter s.holds).Pairwise _ at hsorted
    cases hcase : (positions source).filter s.holds with
    | nil =>
      rw [hcase] at hmem
      exact absurd hmem List.not_mem_nil
    | cons q ps =>
      rw [hcase] at hmem hsorted
      rcases List.mem_cons.1 hmem with rfl | hlater
      · exact ⟨ps, rfl⟩
      · have hlt := (List.pairwise_cons.1 hsorted).1 p hlater
        have hq : q ∈ (positions source).filter s.holds := hcase ▸ .head _
        have hle := (holds_iff.1 (List.mem_filter.1 hq).2).1
        omega
  have hne : p.char ≠ '\n' := by
    intro hc
    rw [hc] at hvisible
    cases hvisible
  have hline : s.line source p.row = p.char :: lineOf ps p.row := by
    rw [Span.line, hps]
    simp [lineOf, hne]
  have hrow : rowAt source s.start = p.row := hstart ▸ (row_eq_rowAt hp).symm
  have hleading : leading (s.line source p.row) = [] := by
    rw [hline, leading, List.takeWhile_cons_of_neg (by simp [hvisible])]
  rw [StartsLine, hrow, Span.KeepsLine, hleading]
  constructor
  · intro h
    exact (h ⟨p.char, hline ▸ .head _, hvisible⟩).symm
  · exact fun h _ => h.symm

/-- Of the touched top-level nodes, those that are packed whole start a line, and so do the header
and the touched members of the classes that are descended into. -/
def UnitsStartLines (maxChunkTokens : ℕ) (source : String) (boundary : List String) (tree : Tree)
    (changed : List ℕ) : Prop :=
  ∀ n ∈ tree.root.children, touched source changed n = true →
    (∀ body, Descended maxChunkTokens source boundary changed n body →
      StartsLine source (headerSpan n body) ∧ ∀ sub ∈ body.children, sub.type ∈ boundary →
        touched source changed sub = true → StartsLine source sub.span) ∧
    ((¬∃ body, Descended maxChunkTokens source boundary changed n body) →
      n.tokens source ≤ maxChunkTokens → StartsLine source n.span)

theorem structureKept_iff (hok : tree.hasError = false) :
    StructureKept maxChunkTokens source boundary tree changed ↔
      ∀ n ∈ tree.root.children, ∀ piece ∈ scopedPieces maxChunkTokens source boundary changed n,
        ∀ s ∈ piece.spans, StartsLine source s := by
  constructor
  · intro h n hn piece hpiece s hs
    obtain ⟨pieces, hchunk, hmem⟩ := (mem_group_iff hok).2 ⟨n, hn, hpiece⟩
    exact keepsIndentation_iff.1 (h pieces hchunk piece hmem s hs)
  · intro h pieces hchunk piece hmem s hs
    obtain ⟨n, hn, hpiece⟩ := (mem_group_iff hok).1 ⟨pieces, hchunk, hmem⟩
    exact keepsIndentation_iff.2 (h n hn piece hpiece s hs)

/-- The scoped chunks keep the file's structure exactly if each unit that they are made of starts a
line. -/
theorem structureKept_iff_unitsStartLines (hok : tree.hasError = false) :
    StructureKept maxChunkTokens source boundary tree changed ↔
      UnitsStartLines maxChunkTokens source boundary tree changed := by
  rw [structureKept_iff hok]
  constructor
  · intro h n hn ht
    constructor
    · intro body hdesc
      constructor
      · obtain ⟨sub, hsub, htype, hts⟩ := hdesc.2.2
        exact h n hn _ (hdesc.member_mem ht hsub htype hts) _ (.head _)
      · intro sub hsub htype hts
        exact h n hn _ (hdesc.member_mem ht hsub htype hts) _ (.tail _ (.head _))
    · intro hnot hsmall
      have hd : descends maxChunkTokens source boundary changed n = false := by
        rw [Bool.eq_false_iff]
        exact fun hd => hnot (descends_iff.1 hd)
      exact h n hn (.whole n) (mem_scopedPieces.2 ⟨ht, .inr ⟨hd, hsmall, rfl⟩⟩) _ (.head _)
  · intro h n hn piece hpiece s hs
    obtain ⟨ht, ⟨hd, hmember⟩ | ⟨hd, hsmall, rfl⟩⟩ := mem_scopedPieces.1 hpiece
    · obtain ⟨body, hdesc⟩ := descends_iff.1 hd
      obtain ⟨body', hbody', sub, hsub, htype, hts, rfl⟩ := mem_emittedMembers.1 hmember
      obtain rfl : body = body' := Option.some.inj (hdesc.2.1.symm.trans hbody')
      obtain ⟨hheader, hsubs⟩ := (h n hn ht).1 body hdesc
      rcases List.mem_cons.1 hs with rfl | hs
      · exact hheader
      · obtain rfl := List.mem_singleton.1 hs
        exact hsubs sub hsub htype hts
    · obtain rfl := List.mem_singleton.1 hs
      refine (h n hn ht).2 (fun hex => ?_) hsmall
      rw [descends_iff.2 hex] at hd
      cases hd

/-- The spans of a piece do not end before they start. -/
theorem start_le_stop {n : Node} {piece : Piece} {s : Span} (hn : n.laidOut = true)
    (hpiece : piece ∈ scopedPieces maxChunkTokens source boundary changed n)
    (hs : s ∈ piece.spans) : s.start ≤ s.stop := by
  rcases (mem_scopedPieces.1 hpiece).2 with ⟨-, hmember⟩ | ⟨-, -, rfl⟩
  · obtain ⟨body, hbody, sub, hsub, -, -, rfl⟩ := mem_emittedMembers.1 hmember
    obtain ⟨hstart, -, hlaid⟩ := Node.child_bounds hn (Node.childByFieldName_mem hbody)
    rcases List.mem_cons.1 hs with rfl | hs
    · exact hstart
    · obtain rfl := List.mem_singleton.1 hs
      exact (Node.laidOut_iff.1 (Node.child_bounds hlaid hsub).2.2).1
  · obtain rfl := List.mem_singleton.1 hs
    exact (Node.laidOut_iff.1 hn).1

/-- The lines of the text of a span that a chunk repeats are its parts of the file's rows. -/
theorem lines_of_chunk (hok : tree.hasError = false) {pieces : List Piece}
    (hchunk : .group pieces ∈ chunkChangedNodes maxChunkTokens source boundary tree changed)
    {piece : Piece} (hmem : piece ∈ pieces) {s : Span} (hs : s ∈ piece.spans) :
    (s.text source).toList.splitOn '\n' =
      (List.range' (rowAt source s.start) (rowAt source s.stop + 1 - rowAt source s.start)).map
        (s.line source) := by
  obtain ⟨n, hn, hpiece⟩ := (mem_group_iff hok).1 ⟨pieces, hchunk, hmem⟩
  have hlaid := (Node.child_bounds tree.laidOut hn).2.2
  rw [Span.text, String.toList_ofList]
  exact splitOn_chars (start_le_stop hlaid hpiece hs)

/-- A member of a class that is descended into is emitted from its first character, so that its
line must not be indented. -/
theorem member_not_indented (hok : tree.hasError = false)
    (hkept : StructureKept maxChunkTokens source boundary tree changed) {n body sub : Node}
    (hn : n ∈ tree.root.children) (ht : touched source changed n = true)
    (hdesc : Descended maxChunkTokens source boundary changed n body) (hsub : sub ∈ body.children)
    (htype : sub.type ∈ boundary) (hts : touched source changed sub = true) {p : Position}
    (hp : p ∈ positions source) (hstart : p.offset = sub.span.start)
    (hin : sub.span.holds p = true) (hvisible : isSpace p.char = false) :
    leading (fileLine source p.row) = [] := by
  have hunits := (structureKept_iff_unitsStartLines hok).1 hkept
  exact (startsLine_iff hp hstart hin hvisible).1 (((hunits n hn ht).1 body hdesc).2 sub hsub htype hts)

end Structure

/-- The scoped chunks keep the file's structure exactly if each unit that they are made of starts a
line, which an indented member of a class that is descended into never does. Their texts are those
of the spans, whose lines are parts of the file's rows. -/
theorem structure_kept_iff_units_start_lines {maxChunkTokens : ℕ} {source : String}
    {boundary : List String} {tree : Tree} (hok : tree.hasError = false) (changed : List ℕ) :
    (StructureKept maxChunkTokens source boundary tree changed ↔
      UnitsStartLines maxChunkTokens source boundary tree changed) ∧
    (∀ n ∈ tree.root.children, touched source changed n = true →
      ∀ body, Descended maxChunkTokens source boundary changed n body → ∀ sub ∈ body.children,
        sub.type ∈ boundary → touched source changed sub = true → ∀ p ∈ positions source,
          p.offset = sub.span.start → sub.span.holds p = true → isSpace p.char = false →
            leading (fileLine source p.row) ≠ [] →
              ¬StructureKept maxChunkTokens source boundary tree changed) ∧
    ∀ pieces, .group pieces ∈ chunkChangedNodes maxChunkTokens source boundary tree changed →
      (∀ path, scopedText path source (.group pieces) = "FILE: " ++ path ++ "\n" ++
        joinTexts "\n\n" (pieces.map fun piece => spansText source piece.spans)) ∧
      ∀ piece ∈ pieces, ∀ s ∈ piece.spans, (s.text source).toList.splitOn '\n' =
        (List.range' (rowAt source s.start) (rowAt source s.stop + 1 - rowAt source s.start)).map
          (s.line source) := by
  refine ⟨structureKept_iff_unitsStartLines hok, ?_, fun pieces hchunk => ⟨?_, ?_⟩⟩
  · intro n hn ht body hdesc sub hsub htype hts p hp hstart hin hvisible hindented hkept
    exact hindented
      (member_not_indented hok hkept hn ht hdesc hsub htype hts hp hstart hin hvisible)
  · exact fun path => scopedText_group path source pieces
  · exact fun piece hmem s hs => lines_of_chunk hok hchunk hmem hs

/-- The method is the one unit of the class's one chunk, and it is indented in the file. -/
theorem structure_kept_iff_units_start_lines_class :
    Sample.classTree.hasError = false ∧
      (StructureKept 10 Sample.classSource (boundaryTypes ".py") Sample.classTree [4] ↔
        UnitsStartLines 10 Sample.classSource (boundaryTypes ".py") Sample.classTree [4]) ∧
      ¬StructureKept 10 Sample.classSource (boundaryTypes ".py") Sample.classTree [4] ∧
      scopedText "a.py" Sample.classSource (.group [Sample.methodPiece]) = "FILE: " ++ "a.py" ++
        "\n" ++ joinTexts "\n\n"
          ([Sample.methodPiece].map fun piece => spansText Sample.classSource piece.spans) ∧
      (Sample.methodNode.span.text Sample.classSource).toList.splitOn '\n' =
        (List.range' (rowAt Sample.classSource 27)
          (rowAt Sample.classSource 52 + 1 - rowAt Sample.classSource 27)).map
            (Sample.methodNode.span.line Sample.classSource) := by
  have h := @structure_kept_iff_units_start_lines 10 Sample.classSource (boundaryTypes ".py")
    Sample.classTree rfl [4]
  have hmethod : Sample.methodNode ∈ Sample.classBody.children := .tail _ (.head _)
  have hchunk : .group [Sample.methodPiece] ∈
      chunkChangedNodes 10 Sample.classSource (boundaryTypes ".py") Sample.classTree [4] := .head _
  refine ⟨rfl, h.1, ?_, (h.2.2 _ hchunk).1 "a.py",
    (h.2.2 _ hchunk).2 Sample.methodPiece (.head _) Sample.methodNode.span (.tail _ (.head _))⟩
  exact h.2.1 Sample.classNode (.head _) (by decide) Sample.classBody
    ⟨by decide, rfl, Sample.methodNode, hmethod, by decide, by decide⟩ Sample.methodNode hmethod
    (by decide) (by decide) ⟨27, 2, 'd'⟩ (by decide) rfl (by decide) (by decide) (by decide)

/-- The method is emitted without its indentation, on the column of its class. -/
theorem method_unindented :
    chunkByAst (fun _ _ => Sample.classTree) 10 "a.py" Sample.classSource Sample.classPatch =
        ["FILE: a.py\nclass A:\ndef b(self):\n        pass"] ∧
      ¬StructureKept 10 Sample.classSource (boundaryTypes ".py") Sample.classTree
        (parseChangedLines Sample.classPatch) := by
  constructor
  · exact Sample.chunkByAst_class
  · intro hkept
    rw [Sample.changed_classPatch, structureKept_iff rfl] at hkept
    have hpiece : Sample.methodPiece ∈
        scopedPieces 10 Sample.classSource (boundaryTypes ".py") [2, 2, 4, 4] Sample.classNode := by
      refine mem_scopedPieces.2 ⟨by decide, .inl ⟨by decide,
        mem_emittedMembers.2 ⟨Sample.classBody, rfl, Sample.methodNode, ?_, ?_⟩⟩⟩
      · exact .tail _ (.head _)
      · exact ⟨by decide, by decide, rfl⟩
    have hline := hkept Sample.classNode (.head _) _ hpiece Sample.methodNode.span
      (.tail _ (.head _)) ⟨'d', by decide, by decide⟩
    exact absurd hline (by decide)

end Revix
