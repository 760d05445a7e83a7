import Revix.PatchReading
import Mathlib.Data.Set.Basic

/-! Printed hunks are read back with the numbers of their rows unless a line of them contains
another line boundary of Python. What it cuts off can edit, and can move later numbers. -/
namespace Revix

/-- A piece of a patch as the scan comes to it: the number of the row it begins in the diff, and the
number it is read at. -/
structure Reading where
  edits : Bool
  own : Option ℕ
  read : ℕ
  deriving DecidableEq, Repr

/-- The pieces of a line. The first one has the number of the row that the line is. -/
def numberedPieces (own : Option ℕ) (line : List Char) : List (Option ℕ × List Char) :=
  match pieces line with
  | [] => []
  | piece :: rest => (own, piece) :: rest.map fun stray => (none, stray)

def PrintedHunk.numberedPieces (h : PrintedHunk) : List (Option ℕ × List Char) :=
  Revix.numberedPieces none h.header ++
    h.placed.flatMap fun p => Revix.numberedPieces (some p.new) p.row.text

instance (raw : List Char) : Decidable (Edits raw) := inferInstanceAs (Decidable (_ ∨ _))

def readingsFrom (lineNo : ℕ) : List (Option ℕ × List Char) → List Reading
  | [] => []
  | (own, raw) :: rest => ⟨Edits raw, own, lineNo⟩ :: readingsFrom (stepLine lineNo raw) rest

def patchReadings (hs : List PrintedHunk) : List Reading :=
  readingsFrom 0 (hs.flatMap PrintedHunk.numberedPieces)

/-- An edit of a stray, or of a row whose number has been moved. -/
def Reading.Misplaced (ρ : Reading) : Prop := ρ.edits = true ∧ ρ.own ≠ some ρ.read

/-- The misplaced edits are at the numbers of edited rows, and the numbers that they should have
are read elsewhere. -/
structure NoMisplacedEdit (hs : List PrintedHunk) : Prop where
  read : ∀ ρ ∈ patchReadings hs, ρ.Misplaced → ρ.read ∈ changedNumbers hs
  own : ∀ ρ ∈ patchReadings hs, ρ.Misplaced → ∀ n, ρ.own = some n →
    ∃ ρ' ∈ patchReadings hs, ρ'.edits = true ∧ ρ'.read = n

section Readings

variable {hs : List PrintedHunk} {n lineNo : ℕ} {own : Option ℕ} {raw line : List Char}
  {ps : List (Option ℕ × List Char)}

theorem map_numberedPieces (own : Option ℕ) (line : List Char) :
    (numberedPieces own line).map Prod.snd = pieces line := by
  unfold numberedPieces
  cases pieces line with
  | nil => rfl
  | cons piece rest => simp

theorem map_hunk_numberedPieces (h : PrintedHunk) :
    h.numberedPieces.map Prod.snd = h.lines.flatMap pieces := by
  have hrows : ∀ (old new : ℕ) (rows : List DiffRow),
      ((placeRows old new rows).flatMap fun p =>
        numberedPieces (some p.new) p.row.text).map Prod.snd =
      (rows.map DiffRow.text).flatMap pieces := by
    intro old new rows
    induction rows generalizing old new with
    | nil => rfl
    | cons r rs ih =>
      rw [placeRows, List.flatMap_cons, List.map_append, ih, map_numberedPieces, List.map_cons,
        List.flatMap_cons]
  rw [PrintedHunk.numberedPieces, List.map_append, map_numberedPieces, PrintedHunk.placed, hrows,
    PrintedHunk.lines, List.flatMap_cons]

theorem changed_foldl_scanLine (s : LineScan) :
    ((ps.map Prod.snd).foldl scanLine s).changed =
      s.changed ++ ((readingsFrom s.lineNo ps).filter Reading.edits).map Reading.read := by
  induction ps generalizing s with
  | nil => simp [readingsFrom]
  | cons p ps ih =>
    obtain ⟨own, raw⟩ := p
    rw [List.map_cons, List.foldl_cons, ih, readingsFrom, scanLine_lineNo]
    by_cases hedits : Edits raw
    · rw [scanLine_edits hedits, List.filter_cons_of_pos (by simpa using hedits), List.map_cons,
        List.append_assoc]
      rfl
    · rw [scanLine_not_edits hedits, List.filter_cons_of_neg (by simpa using hedits)]

/-- What is read from the text of printed hunks. -/
theorem parseChangedLines_eq (hs : List PrintedHunk) (ended : Bool) :
    parseChangedLines (patchText hs ended) =
      ((patchReadings hs).filter Reading.edits).map Reading.read := by
  have hpieces : (hs.flatMap PrintedHunk.lines).flatMap pieces =
      (hs.flatMap PrintedHunk.numberedPieces).map Prod.snd := by
    have hhunk : (fun h : PrintedHunk => h.lines.flatMap pieces) =
        fun h => h.numberedPieces.map Prod.snd := funext fun h => (map_hunk_numberedPieces h).symm
    rw [List.map_flatMap, List.flatMap_assoc, hhunk]
  have hscan := @changed_foldl_scanLine (hs.flatMap PrintedHunk.numberedPieces) ⟨0, []⟩
  rw [parseChangedLines, splitLines, patchText, String.toList_ofList,
    scan_intercalate feed_not_mem_lines, hpieces]
  exact hscan

theorem mem_readingsFrom_iff {edits : Bool} :
    (∃ ρ ∈ readingsFrom lineNo ps, ρ.edits = edits ∧ ρ.own = own) ↔
      ∃ p ∈ ps, decide (Edits p.2) = edits ∧ p.1 = own := by
  induction ps generalizing lineNo with
  | nil => simp [readingsFrom]
  | cons p ps ih =>
    obtain ⟨own', raw⟩ := p
    simp only [readingsFrom, List.mem_cons, exists_eq_or_imp, ih]

theorem edits_marker (r : DiffRow) (t : List Char) :
    Edits (r.marker :: t) ↔ r.isDeleted = true ∨ r.isAdded = true := by
  cases r <;> simp [Edits, DiffRow.marker]

/-- A row's number is that of the piece which begins it. -/
theorem numberedPieces_text (own : Option ℕ) (r : DiffRow) : ∃ t,
    numberedPieces own r.text =
      (own, r.marker :: t) :: (strays r.text).map fun stray => (none, stray) := by
  obtain ⟨t, ht⟩ := r.pieces_text
  exact ⟨t, by rw [numberedPieces, ht]⟩

/-- Only the pieces that begin rows have numbers. -/
theorem mem_numberedPieces_iff {r : DiffRow} :
    (∃ p ∈ numberedPieces own r.text, decide (Edits p.2) = true ∧ p.1 = some n) ↔
      (r.isDeleted = true ∨ r.isAdded = true) ∧ own = some n := by
  obtain ⟨t, ht⟩ := numberedPieces_text own r
  rw [ht]
  constructor
  · rintro ⟨p, hp, hedits, hown⟩
    rcases List.mem_cons.1 hp with rfl | hp
    · exact ⟨(edits_marker r t).1 (of_decide_eq_true hedits), hown⟩
    · obtain ⟨stray, -, rfl⟩ := List.mem_map.1 hp
      cases hown
  · rintro ⟨hrow, rfl⟩
    exact ⟨_, .head _, decide_eq_true ((edits_marker r t).2 hrow), rfl⟩

theorem own_header (h : PrintedHunk) {p : Option ℕ × List Char}
    (hp : p ∈ numberedPieces none h.header) : p.1 = none := by
  unfold numberedPieces at hp
  cases hpieces : pieces h.header with
  | nil => simp [hpieces] at hp
  | cons piece rest =>
    rw [hpieces] at hp
    rcases List.mem_cons.1 hp with rfl | hp
    · rfl
    · obtain ⟨stray, -, rfl⟩ := List.mem_map.1 hp
      rfl

/-- The numbers of the edited rows are the numbers that the readings should have. -/
theorem mem_changedNumbers_iff :
    n ∈ changedNumbers hs ↔ ∃ ρ ∈ patchReadings hs, ρ.edits = true ∧ ρ.own = some n := by
  rw [patchReadings, mem_readingsFrom_iff, changedNumbers, mem_editedLines]
  constructor
  · rintro ⟨p, hp, hrow, rfl⟩
    obtain ⟨h, hh, hp⟩ := List.mem_flatMap.1 hp
    obtain ⟨q, hq, hedits, hown⟩ := mem_numberedPieces_iff.2 ⟨hrow, rfl⟩
    exact ⟨q, List.mem_flatMap.2 ⟨h, hh, List.mem_append_right _ (List.mem_flatMap.2 ⟨p, hp, hq⟩)⟩,
      hedits, hown⟩
  · rintro ⟨q, hq, hedits, hown⟩
    obtain ⟨h, hh, hq⟩ := List.mem_flatMap.1 hq
    rcases List.mem_append.1 hq with hq | hq
    · rw [own_header h hq] at hown
      cases hown
    · obtain ⟨p, hp, hq⟩ := List.mem_flatMap.1 hq
      obtain ⟨hrow, hn⟩ := mem_numberedPieces_iff.1 ⟨q, hq, hedits, hown⟩
      exact ⟨p, List.mem_flatMap.2 ⟨h, hh, hp⟩, hrow, Option.some.inj hn⟩

theorem mem_parseChangedLines_iff {ended : Bool} :
    n ∈ parseChangedLines (patchText hs ended) ↔
      ∃ ρ ∈ patchReadings hs, ρ.edits = true ∧ ρ.read = n := by
  rw [parseChangedLines_eq]
  simp [and_assoc]

end Readings

/-- The numbers that are read are those of the edited rows. -/
def ReadBack (hs : List PrintedHunk) (ended : Bool) : Prop :=
  ∀ n, n ∈ parseChangedLines (patchText hs ended) ↔ n ∈ changedNumbers hs

theorem readBack_iff {hs : List PrintedHunk} {ended : Bool} : ReadBack hs ended ↔ NoMisplacedEdit hs := by
  unfold ReadBack
  simp only [mem_parseChangedLines_iff]
  constructor
  · intro h
    refine ⟨fun ρ hρ hm => (h ρ.read).1 ⟨ρ, hρ, hm.1, rfl⟩, fun ρ hρ hm n hn => ?_⟩
    exact (h n).2 (mem_changedNumbers_iff.2 ⟨ρ, hρ, hm.1, hn⟩)
  · intro h n
    constructor
    · rintro ⟨ρ, hρ, hedits, rfl⟩
      by_cases hown : ρ.own = some ρ.read
      · exact mem_changedNumbers_iff.2 ⟨ρ, hρ, hedits, hown⟩
      · exact h.read ρ hρ ⟨hedits, hown⟩
    · intro hn
      obtain ⟨ρ, hρ, hedits, hown⟩ := mem_changedNumbers_iff.1 hn
      by_cases hread : ρ.read = n
      · exact ⟨ρ, hρ, hedits, hread⟩
      · refine h.own ρ hρ ⟨hedits, fun hown' => hread ?_⟩ n hown
        exact Option.some.inj (hown'.symm.trans hown)

/-- Nothing that is cut off the line is read. -/
def PlainText (line : Line) : Prop := ∀ piece ∈ strays line.1, Ignored piece

def PrintedHunk.Over (T : Set Line) (h : PrintedHunk) : Prop :=
  ∀ line ∈ h.texts, line ∈ T ∨ line.1 = []

section Texts

variable {T : Set Line} {hs : List PrintedHunk} {line : Line}

theorem strays_nil : strays [] = [] := rfl

theorem strays_marked {marker : Char} (hmarker : isLineBreak marker = false) (line : Line) :
    strays (marker :: line.1) = strays line.1 :=
  strays_append (w := [marker]) (fun _ hc => List.mem_singleton.1 hc ▸ hmarker) line.1

/-- What is cut off a row is cut off its line. -/
theorem DiffRow.strays_text {r : DiffRow} (h : r.line? = some line) :
    strays r.text = strays line.1 := by
  cases r with
  | notice => cases h
  | context line =>
    cases h
    exact strays_marked rfl line
  | deleted line =>
    cases h
    exact strays_marked rfl line
  | added line =>
    cases h
    exact strays_marked rfl line

theorem DiffRow.strays_text_of_none {r : DiffRow} (h : r.line? = none) : strays r.text = [] := by
  cases r with
  | notice => decide
  | context line => cases h
  | deleted line => cases h
  | added line => cases h

theorem strays_ignored (hT : ∀ line ∈ T, PlainText line) (h : ∀ hunk ∈ hs, hunk.Over T) :
    ∀ line ∈ hs.flatMap PrintedHunk.lines, ∀ piece ∈ strays line, Ignored piece := by
  have hplain : ∀ {hunk line}, hunk ∈ hs → line ∈ hunk.texts → PlainText line := by
    intro hunk line hhunk hline
    rcases h hunk hhunk line hline with hmem | hnil
    · exact hT line hmem
    · intro piece hpiece
      rw [hnil, strays_nil] at hpiece
      exact absurd hpiece List.not_mem_nil
  intro line hline piece hpiece
  obtain ⟨hunk, hhunk, hline⟩ := List.mem_flatMap.1 hline
  rcases List.mem_cons.1 hline with rfl | hline
  · rw [PrintedHunk.header, strays_append (ranges_no_break hunk)] at hpiece
    exact hplain hhunk (.head _) piece hpiece
  · obtain ⟨r, hr, rfl⟩ := List.mem_map.1 hline
    cases hline : r.line? with
    | none =>
      rw [DiffRow.strays_text_of_none hline] at hpiece
      exact absurd hpiece List.not_mem_nil
    | some line =>
      rw [DiffRow.strays_text hline] at hpiece
      exact hplain hhunk (.tail _ (List.mem_filterMap.2 ⟨r, hr, hline⟩)) piece hpiece

/-- Strays that do not edit set the number, or move it unless all of them are ignored. -/
theorem foldl_stepLine {raws : List (List Char)} (h : ∀ raw ∈ raws, ¬Edits raw) :
    (∃ k, ∀ n, raws.foldl stepLine n = k) ∨
      ∃ d, (∀ n, raws.foldl stepLine n = n + d) ∧ (d = 0 → ∀ raw ∈ raws, Ignored raw) := by
  induction raws with
  | nil => exact .inr ⟨0, fun n => rfl, fun _ raw hraw => absurd hraw List.not_mem_nil⟩
  | cons raw raws ih =>
    obtain ⟨hplus, hminus⟩ := not_or.1 (h raw (.head _))
    simp only [List.foldl_cons]
    rcases ih fun r hr => h r (.tail _ hr) with ⟨k, hk⟩ | ⟨d, hd, hignored⟩
    · exact .inl ⟨k, fun n => hk _⟩
    · cases hheader : hunkStart raw with
      | some start =>
        refine .inl ⟨start + d, fun n => ?_⟩
        rw [hd, stepLine, hheader]
      | none =>
        refine .inr ?_
        by_cases hspace : raw.head? = some ' '
        · refine ⟨d + 1, fun n => ?_, fun hzero => absurd hzero (Nat.succ_ne_zero d)⟩
          rw [hd, stepLine, hheader]
          simp only [hspace, or_true, ↓reduceIte]
          omega
        · refine ⟨d, fun n => ?_, fun hzero r hr => ?_⟩
          · rw [hd, stepLine, hheader]
            simp only [hplus, hspace, or_self, ↓reduceIte]
          · rcases List.mem_cons.1 hr with rfl | hr
            · exact ⟨hheader, hplus, hminus, hspace⟩
            · exact hignored hzero r hr

/-- Some number is not left as it is. -/
theorem exists_moved {raws : List (List Char)} (h : ∀ raw ∈ raws, ¬Edits raw)
    (hread : ∃ raw ∈ raws, ¬Ignored raw) : ∃ n, raws.foldl stepLine (n + 1) ≠ n + 1 := by
  rcases foldl_stepLine h with ⟨k, hk⟩ | ⟨d, hd, hignored⟩
  · exact ⟨k, by rw [hk]; omega⟩
  · obtain ⟨raw, hraw, hnot⟩ := hread
    have hpos : d ≠ 0 := fun hzero => hnot (hignored hzero raw hraw)
    exact ⟨0, by rw [hd]; omega⟩

theorem readingsFrom_append (n : ℕ) (ps qs : List (Option ℕ × List Char)) :
    readingsFrom n (ps ++ qs) =
      readingsFrom n ps ++ readingsFrom ((ps.map Prod.snd).foldl stepLine n) qs := by
  induction ps generalizing n with
  | nil => rfl
  | cons p ps ih =>
    rw [List.cons_append, readingsFrom, ih]
    rfl

def noHeading : Line := ⟨[], List.not_mem_nil⟩

def keptHunk (line : Line) : PrintedHunk := ⟨1, 1, [.context line], noHeading, false⟩

/-- The text as a line that is kept and again as one that is added behind it. -/
def addedHunk (line : Line) (start : ℕ) : PrintedHunk :=
  ⟨start, start, [.context line, .added line], noHeading, false⟩

theorem pieces_header {h : PrintedHunk} (hheading : h.heading.1 = []) :
    pieces h.header = [h.header] := by
  have hheader : h.header = h.ranges := by rw [PrintedHunk.header, hheading, List.append_nil]
  rw [hheader, pieces, splitLinesFrom_prefix (ranges_no_break h), splitLinesFrom_feed]
  rfl

theorem numberedPieces_line {r : DiffRow} (h : r.line? = some line) (own : Option ℕ) : ∃ t,
    numberedPieces own r.text =
      (own, r.marker :: t) :: (strays line.1).map fun stray => (none, stray) := by
  rw [← DiffRow.strays_text h]
  exact numberedPieces_text own r

/-- A stray that edits is read where nothing is edited. -/
theorem not_readBack_kept (hstray : ∃ raw ∈ strays line.1, Edits raw) (ended : Bool) :
    ¬ReadBack [keptHunk line] ended := by
  obtain ⟨raw, hraw, hedits⟩ := hstray
  intro h
  obtain ⟨t, ht⟩ := numberedPieces_line (r := .context line) rfl (some 1)
  have hpiece : (none, raw) ∈ [keptHunk line].flatMap PrintedHunk.numberedPieces := by
    refine List.mem_flatMap.2 ⟨_, .head _, List.mem_append_right _ (List.mem_flatMap.2
      ⟨⟨.context line, 1, 1⟩, .head _, ?_⟩)⟩
    rw [ht]
    exact .tail _ (List.mem_map_of_mem hraw)
  obtain ⟨ρ, hρ, hρe, -⟩ := mem_readingsFrom_iff.2 ⟨_, hpiece, decide_eq_true hedits, rfl⟩
  have hchanged := (h ρ.read).1 (mem_parseChangedLines_iff.2 ⟨ρ, hρ, hρe, rfl⟩)
  exact absurd hchanged List.not_mem_nil

/-- A row behind strays that move its number is read at another one. -/
theorem not_readBack_added (hedits : ∀ raw ∈ strays line.1, ¬Edits raw)
    (hread : ∃ raw ∈ strays line.1, ¬Ignored raw) (ended : Bool) :
    ∃ start, ¬ReadBack [addedHunk line start] ended := by
  obtain ⟨n, hn⟩ := exists_moved hedits hread
  refine ⟨n, fun h => ?_⟩
  obtain ⟨t, hadded⟩ := numberedPieces_line (r := .added line) rfl (some (n + 1))
  obtain ⟨t', hcontext⟩ := numberedPieces_line (r := .context line) rfl (some n)
  have hheader : numberedPieces none (addedHunk line n).header =
      [(none, (addedHunk line n).header)] := by
    rw [numberedPieces, pieces_header rfl]
    rfl
  have hpatch : [addedHunk line n].flatMap PrintedHunk.numberedPieces =
      (numberedPieces none (addedHunk line n).header ++
        numberedPieces (some n) (DiffRow.text (.context line))) ++
          numberedPieces (some (n + 1)) (DiffRow.text (.added line)) := by
    simp [PrintedHunk.numberedPieces, PrintedHunk.placed, addedHunk, placeRows]
  have hstart : hunkStart (addedHunk line n).header = some n := hunkStart_ranges _ _
  have hrow : hunkStart (' ' :: t') = none := hunkStart_cons (by simp) t'
  have hbefore : ((numberedPieces none (addedHunk line n).header ++
      numberedPieces (some n) (DiffRow.text (.context line))).map Prod.snd).foldl stepLine 0 =
        (strays line.1).foldl stepLine (n + 1) := by
    rw [hheader, hcontext]
    simp [stepLine, hstart, hrow, DiffRow.marker, Function.comp_def]
  have hreading : ⟨true, some (n + 1), (strays line.1).foldl stepLine (n + 1)⟩ ∈
      patchReadings [addedHunk line n] := by
    rw [patchReadings, hpatch, readingsFrom_append, hbefore, hadded, readingsFrom]
    refine List.mem_append_right _ (List.mem_cons.2 (.inl ?_))
    simp [Edits, DiffRow.marker]
  have hchanged := (h _).1 (mem_parseChangedLines_iff.2 ⟨_, hreading, rfl, rfl⟩)
  exact hn (List.mem_singleton.1 hchanged)

end Texts

/-- Hunks over these texts are read back, wherever they are, exactly if nothing that is cut off a
text reads as a row or as a header. -/
theorem readBack_over_iff (T : Set Line) :
    (∀ (hs : List PrintedHunk) (ended : Bool), (∀ h ∈ hs, h.Over T) → ReadBack hs ended) ↔
      ∀ line ∈ T, PlainText line := by
  constructor
  · intro h line hline
    have hover : ∀ {hunk : PrintedHunk}, (∀ text ∈ hunk.texts, text = noHeading ∨ text = line) →
        ∀ hunk' ∈ [hunk], hunk'.Over T := by
      intro hunk htexts hunk' hhunk text htext
      rw [List.mem_singleton.1 hhunk] at htext
      rcases htexts text htext with rfl | rfl
      · exact .inr rfl
      · exact .inl hline
    by_contra hplain
    simp only [PlainText, not_forall] at hplain
    obtain ⟨raw, hraw, hread⟩ := hplain
    by_cases hedits : ∃ raw ∈ strays line.1, Edits raw
    · refine not_readBack_kept hedits false (h _ false (hover ?_))
      simp [PrintedHunk.texts, keptHunk, DiffRow.line?]
    · simp only [not_exists, not_and] at hedits
      obtain ⟨start, hstart⟩ := not_readBack_added hedits ⟨raw, hraw, hread⟩ false
      refine hstart (h _ false (hover ?_))
      simp [PrintedHunk.texts, addedHunk, DiffRow.line?]
  · intro hT hs ended hover n
    rw [parseChangedLines_patchText (strays_ignored hT hover)]

/-- The texts whose hunks are always read back are the ones of which nothing is cut off that reads
as a row or as a header. Of any texts, printed hunks are read back exactly if no misplaced edit
shows. -/
theorem changed_lines_read_back_iff (hs : List PrintedHunk) (ended : Bool) (T : Set Line) :
    ((∀ (hs : List PrintedHunk) (ended : Bool), (∀ h ∈ hs, h.Over T) → ReadBack hs ended) ↔
        ∀ line ∈ T, PlainText line) ∧
      (ReadBack hs ended ↔ NoMisplacedEdit hs) :=
  ⟨readBack_over_iff T, readBack_iff⟩

namespace Sample

/-- Two lines of a new file, with a line separator and a blank in the string of the first one. -/
def separatedString : PrintedHunk where
  oldStart := 0
  newStart := 1
  rows := [.added ⟨"s = 'a\u2028 b'".toList, by decide⟩, .added ⟨"t = 1".toList, by decide⟩]
  heading := noHeading
  terse := false

end Sample

/-- The second line is read as the third one. -/
theorem separated_string_moves_line : ¬ReadBack [Sample.separatedString] false := by
  intro h
  have hread : 3 ∈ parseChangedLines (patchText [Sample.separatedString] false) := by
    decide
  have hchanged : 3 ∉ changedNumbers [Sample.separatedString] := by decide
  exact hchanged ((h 3).1 hread)

end Revix
