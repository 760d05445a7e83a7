import Revix.ChunkCoverage
import Revix.PatchReading

namespace Revix

def Node.OnLine (source : String) (n : Node) (line : ℕ) : Prop :=
  n.startRow source + 1 ≤ line ∧ line ≤ n.endRow source + 1

def DeletesIn (d : Diff) (old : String) (m : Node) : Prop :=
  ∃ p ∈ d.placed, p.row.isDeleted = true ∧ m.OnLine old p.old

def AddsIn (d : Diff) (new : String) (n : Node) : Prop :=
  ∃ p ∈ d.placed, p.row.isAdded = true ∧ n.OnLine new p.new

/-- A deletion is directly before a line of the unit of the new file. -/
def DeletesBefore (d : Diff) (new : String) (n : Node) : Prop :=
  ∃ p ∈ d.placed, p.row.isDeleted = true ∧ n.OnLine new p.new

/-- What the diff edits of the unit brings it into scope. -/
def Scoped (d : Diff) (old new : String) (m n : Node) : Prop :=
  DeletesIn d old m ∨ AddsIn d new n → touched new (parseChangedLines d.patch) n = true

/-- In the patch as Python splits it, a line that edits is read at a line of the unit. -/
def EditReadAt (patch new : String) (n : Node) : Prop :=
  ∃ before raw after, splitLines patch = before ++ raw :: after ∧ Edits raw ∧
    n.OnLine new (lineAfter before)

section Scope

variable {d : Diff} {new patch : String} {n : Node}

theorem touched_iff_editReadAt :
    touched new (parseChangedLines patch) n = true ↔ EditReadAt patch new n := by
  rw [touched_iff]
  constructor
  · rintro ⟨line, hline, hon⟩
    obtain ⟨before, raw, after, hsplit, hedits, rfl⟩ := mem_parseChangedLines.1 hline
    exact ⟨before, raw, after, hsplit, hedits, hon⟩
  · rintro ⟨before, raw, after, hsplit, hedits, hon⟩
    exact ⟨_, mem_parseChangedLines.2 ⟨before, raw, after, hsplit, hedits, rfl⟩, hon⟩

/-- In a plain diff only the rows of the diff are read. -/
theorem touched_iff_of_plain (h : d.Plain) :
    touched new (parseChangedLines d.patch) n = true ↔ AddsIn d new n ∨ DeletesBefore d new n := by
  rw [touched_iff, parseChangedLines_patch h]
  constructor
  · rintro ⟨line, hline, hon⟩
    obtain ⟨p, hp, hrow | hrow, rfl⟩ := mem_editedLines.1 hline
    · exact .inr ⟨p, hp, hrow, hon⟩
    · exact .inl ⟨p, hp, hrow, hon⟩
  · rintro (⟨p, hp, hrow, hon⟩ | ⟨p, hp, hrow, hon⟩)
    · exact ⟨p.new, mem_editedLines.2 ⟨p, hp, .inr hrow, rfl⟩, hon⟩
    · exact ⟨p.new, mem_editedLines.2 ⟨p, hp, .inl hrow, rfl⟩, hon⟩

end Scope

/-- In a plain diff a unit of which lines are deleted is out of scope exactly if no line of it is
added and no deletion is directly before a line that it has left. In any diff an edited unit is in
scope if and only if an edit is read at one of its lines. -/
theorem scoped_iff_edit_read (d : Diff) (oldEnded newEnded : Bool) (m n : Node) :
    (d.Plain → (Scoped d (fileText d.old oldEnded) (fileText d.new newEnded) m n ↔
      ¬DeletesIn d (fileText d.old oldEnded) m ∨ AddsIn d (fileText d.new newEnded) n ∨
        DeletesBefore d (fileText d.new newEnded) n)) ∧
    (Scoped d (fileText d.old oldEnded) (fileText d.new newEnded) m n ↔
      (¬DeletesIn d (fileText d.old oldEnded) m ∧ ¬AddsIn d (fileText d.new newEnded) n) ∨
        EditReadAt d.patch (fileText d.new newEnded) n) := by
  constructor
  · intro hplain
    rw [Scoped, touched_iff_of_plain hplain]
    constructor
    · intro h
      by_cases hdeleted : DeletesIn d (fileText d.old oldEnded) m
      · exact .inr (h (.inl hdeleted))
      · exact .inl hdeleted
    · rintro (hnot | hreached) hedited
      · exact .inl (hedited.resolve_left hnot)
      · exact hreached
  · rw [Scoped, touched_iff_editReadAt, imp_iff_not_or, not_or]

namespace Sample

def line (s : String) : Line := ⟨s.toList.filter (· ≠ '\n'), by simp⟩

/-- The last line of the first function is deleted, and the second function is edited. -/
def lastLineDeleted : Diff where
  hunks := [⟨[], [.context (line "def f():"), .context (line "    a()"), .deleted (line "    b()"),
    .context (line ""), .context (line ""), .context (line "def g():"),
    .deleted (line "    pass"), .added (line "    return")], line "", false⟩]
  rest := []

def oldFunction : Node := .mk "function_definition" none ⟨0, 24⟩ []

def newFunction : Node := .mk "function_definition" none ⟨0, 16⟩ []

def oldFile : Tree where
  root := .mk "module" none ⟨0, 45⟩ [oldFunction, .mk "function_definition" none ⟨27, 44⟩ []]
  hasError := false
  laidOut := by decide

def editedFunction : Node := .mk "function_definition" none ⟨19, 38⟩ []

def newFile : Tree where
  root := .mk "module" none ⟨0, 39⟩ [newFunction, editedFunction]
  hasError := false
  laidOut := by decide

end Sample

theorem scoped_iff_edit_read_lastLineDeleted :
    Sample.lastLineDeleted.Plain ∧
      (Scoped Sample.lastLineDeleted (fileText Sample.lastLineDeleted.old true)
          (fileText Sample.lastLineDeleted.new true) Sample.oldFunction Sample.newFunction ↔
        ¬DeletesIn Sample.lastLineDeleted (fileText Sample.lastLineDeleted.old true)
            Sample.oldFunction ∨
          AddsIn Sample.lastLineDeleted (fileText Sample.lastLineDeleted.new true)
            Sample.newFunction ∨
          DeletesBefore Sample.lastLineDeleted (fileText Sample.lastLineDeleted.new true)
            Sample.newFunction) := by
  have hplain : Sample.lastLineDeleted.Plain := by decide
  exact ⟨hplain, (scoped_iff_edit_read _ true true _ _).1 hplain⟩

/-- The deletion of the last line of a function is read behind it. Only the other function is in the
chunks. -/
theorem function_out_of_scope :
    Sample.oldFunction ∈ Sample.oldFile.root.children ∧
      Sample.newFunction ∈ Sample.newFile.root.children ∧
      DeletesIn Sample.lastLineDeleted (fileText Sample.lastLineDeleted.old true)
        Sample.oldFunction ∧
      touched (fileText Sample.lastLineDeleted.new true)
        (parseChangedLines Sample.lastLineDeleted.patch) Sample.newFunction = false ∧
      touched (fileText Sample.lastLineDeleted.new true)
        (parseChangedLines Sample.lastLineDeleted.patch) Sample.editedFunction = true := by
  refine ⟨.head _, .head _, ⟨⟨.deleted (Sample.line "    b()"), 3, 3⟩, ?_, rfl, ?_⟩, ?_, ?_⟩
  · decide
  · constructor
    · decide
    · decide
  · decide
  · decide

end Revix
