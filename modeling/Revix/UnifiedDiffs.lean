import Revix.ChangedLines

/-! The difference of two files, as hunks of rows between lines that are the same in both. -/
namespace Revix

/-- A line of a file, without its line feed. -/
abbrev Line := { cs : List Char // '\n' ∉ cs }

/-- `notice` reports a missing line feed at the end of a file. -/
inductive DiffRow
  | context (line : Line)
  | deleted (line : Line)
  | added (line : Line)
  | notice
  deriving DecidableEq

namespace DiffRow

def text : DiffRow → List Char
  | context line => ' ' :: line.1
  | deleted line => '-' :: line.1
  | added line => '+' :: line.1
  | notice => "\\ No newline at end of file".toList

def marker : DiffRow → Char
  | context _ => ' '
  | deleted _ => '-'
  | added _ => '+'
  | notice => '\\'

def line? : DiffRow → Option Line
  | context line => some line
  | deleted line => some line
  | added line => some line
  | notice => none

@[simp] def old : DiffRow → List Line
  | context line => [line]
  | deleted line => [line]
  | added _ => []
  | notice => []

@[simp] def new : DiffRow → List Line
  | context line => [line]
  | deleted _ => []
  | added line => [line]
  | notice => []

@[simp] def isDeleted : DiffRow → Bool
  | deleted _ => true
  | _ => false

@[simp] def isAdded : DiffRow → Bool
  | added _ => true
  | _ => false

end DiffRow

/-- The rows of a hunk come after the lines of `gap`, which are in both files. Its header ends with
`heading`; if it is `terse`, a count of one is left out. -/
structure Hunk where
  gap : List Line
  rows : List DiffRow
  heading : Line
  terse : Bool

structure Diff where
  hunks : List Hunk
  rest : List Line

def Hunk.old (h : Hunk) : List Line := h.rows.flatMap DiffRow.old

def Hunk.new (h : Hunk) : List Line := h.rows.flatMap DiffRow.new

def Diff.old (d : Diff) : List Line := (d.hunks.flatMap fun h => h.gap ++ h.old) ++ d.rest

def Diff.new (d : Diff) : List Line := (d.hunks.flatMap fun h => h.gap ++ h.new) ++ d.rest

/-- The text of a file; `ended` if a line feed ends its last line. -/
def fileText (lines : List Line) (ended : Bool) : String :=
  String.ofList (['\n'].intercalate (lines.map Subtype.val) ++ if ended then ['\n'] else [])

/-- A range starts with its first line. An empty one has the number of the line before it. -/
def rangeStart (before : ℕ) (lines : List Line) : ℕ := if lines.isEmpty then before else before + 1

def countText (terse : Bool) (count : ℕ) : List Char :=
  if terse && count = 1 then [] else ',' :: (toString count).toList

def rangeText (terse : Bool) (start count : ℕ) : List Char :=
  (toString start).toList ++ countText terse count

def Hunk.ranges (h : Hunk) (oldBefore newBefore : ℕ) : List Char :=
  ['@', '@', ' ', '-'] ++ rangeText h.terse (rangeStart oldBefore h.old) h.old.length ++
    [' ', '+'] ++ rangeText h.terse (rangeStart newBefore h.new) h.new.length ++ [' ', '@', '@']

def Hunk.header (h : Hunk) (oldBefore newBefore : ℕ) : List Char :=
  h.ranges oldBefore newBefore ++ h.heading.1

def hunkLines (oldBefore newBefore : ℕ) : List Hunk → List (List Char)
  | [] => []
  | h :: hs =>
    let o := oldBefore + h.gap.length
    let n := newBefore + h.gap.length
    h.header o n :: h.rows.map DiffRow.text ++ hunkLines (o + h.old.length) (n + h.new.length) hs

def Diff.lines (d : Diff) : List (List Char) := hunkLines 0 0 d.hunks

/-- The patch of the diff, without a line feed at its end. -/
def Diff.patch (d : Diff) : String := String.ofList (['\n'].intercalate d.lines)

/-- A row with the number of the next line of each file. In a hunk that has no line of a file it is
the line before the hunk. -/
structure PlacedRow where
  row : DiffRow
  old : ℕ
  new : ℕ
  deriving DecidableEq

def placeRows (old new : ℕ) : List DiffRow → List PlacedRow
  | [] => []
  | r :: rs => ⟨r, old, new⟩ :: placeRows (old + r.old.length) (new + r.new.length) rs

def placeHunks (oldBefore newBefore : ℕ) : List Hunk → List PlacedRow
  | [] => []
  | h :: hs =>
    let o := oldBefore + h.gap.length
    let n := newBefore + h.gap.length
    placeRows (rangeStart o h.old) (rangeStart n h.new) h.rows ++
      placeHunks (o + h.old.length) (n + h.new.length) hs

def Diff.placed (d : Diff) : List PlacedRow := placeHunks 0 0 d.hunks

/-- The numbers in the new file of what is deleted and added. -/
def editedLines (ps : List PlacedRow) : List ℕ :=
  (ps.filter fun p => p.row.isDeleted || p.row.isAdded).map PlacedRow.new

/-- A hunk as a patch prints it: its header says where it starts, whatever is before it. -/
structure PrintedHunk where
  oldStart : ℕ
  newStart : ℕ
  rows : List DiffRow
  heading : Line
  terse : Bool

namespace PrintedHunk

def ranges (h : PrintedHunk) : List Char :=
  ['@', '@', ' ', '-'] ++ rangeText h.terse h.oldStart (h.rows.flatMap DiffRow.old).length ++
    [' ', '+'] ++ rangeText h.terse h.newStart (h.rows.flatMap DiffRow.new).length ++
    [' ', '@', '@']

def header (h : PrintedHunk) : List Char := h.ranges ++ h.heading.1

def lines (h : PrintedHunk) : List (List Char) := h.header :: h.rows.map DiffRow.text

def texts (h : PrintedHunk) : List Line := h.heading :: h.rows.filterMap DiffRow.line?

def placed (h : PrintedHunk) : List PlacedRow := placeRows h.oldStart h.newStart h.rows

end PrintedHunk

/-- The text of printed hunks; `ended` if a line feed ends the last line. -/
def patchText (hs : List PrintedHunk) (ended : Bool) : String :=
  String.ofList (['\n'].intercalate (hs.flatMap PrintedHunk.lines) ++ if ended then ['\n'] else [])

/-- The numbers in the new file of what the hunks delete and add. -/
def changedNumbers (hs : List PrintedHunk) : List ℕ := editedLines (hs.flatMap PrintedHunk.placed)

def Hunk.printed (h : Hunk) (oldBefore newBefore : ℕ) : PrintedHunk where
  oldStart := rangeStart oldBefore h.old
  newStart := rangeStart newBefore h.new
  rows := h.rows
  heading := h.heading
  terse := h.terse

def printHunks (oldBefore newBefore : ℕ) : List Hunk → List PrintedHunk
  | [] => []
  | h :: hs =>
    let o := oldBefore + h.gap.length
    let n := newBefore + h.gap.length
    h.printed o n :: printHunks (o + h.old.length) (n + h.new.length) hs

def Diff.printed (d : Diff) : List PrintedHunk := printHunks 0 0 d.hunks

section Numbers

variable {p : PlacedRow} {old new : ℕ} {rows : List DiffRow} {hs : List Hunk} {line : Line}

theorem mem_editedLines {ps : List PlacedRow} {line : ℕ} :
    line ∈ editedLines ps ↔
      ∃ p ∈ ps, (p.row.isDeleted = true ∨ p.row.isAdded = true) ∧ p.new = line := by
  simp [editedLines, and_assoc]

theorem hunkLines_eq : hunkLines old new hs = (printHunks old new hs).flatMap PrintedHunk.lines := by
  induction hs generalizing old new with
  | nil => rfl
  | cons h hs ih =>
    rw [hunkLines, printHunks, List.flatMap_cons, ih]
    rfl

theorem placeHunks_eq :
    placeHunks old new hs = (printHunks old new hs).flatMap PrintedHunk.placed := by
  induction hs generalizing old new with
  | nil => rfl
  | cons h hs ih =>
    rw [placeHunks, printHunks, List.flatMap_cons, ih]
    rfl

/-- The patch of a diff is the text of its hunks. -/
theorem Diff.patch_eq (d : Diff) : d.patch = patchText d.printed false := by
  rw [Diff.patch, Diff.lines, hunkLines_eq, patchText, Diff.printed, if_neg Bool.false_ne_true,
    List.append_nil]

theorem Diff.editedLines_placed (d : Diff) : editedLines d.placed = changedNumbers d.printed := by
  rw [Diff.placed, placeHunks_eq, changedNumbers, Diff.printed]

end Numbers

end Revix
