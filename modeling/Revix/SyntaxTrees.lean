import Revix.ReviewRendering

/-! What tree-sitter returns for a file. A node is a span of bytes, between characters, in the
order of the source and inside its parent. -/
namespace Revix

/-- A character of a source file, with the byte it starts at and the row it is on. -/
structure Position where
  offset : ℕ
  row : ℕ
  char : Char
  deriving DecidableEq, Repr

def positionsFrom (offset row : ℕ) : List Char → List Position
  | [] => []
  | c :: cs =>
    ⟨offset, row, c⟩ :: positionsFrom (offset + c.utf8Size) (if c = '\n' then row + 1 else row) cs

def positions (source : String) : List Position := positionsFrom 0 0 source.toList

/-- A span of bytes, from `start` up to but without `stop`. -/
structure Span where
  start : ℕ
  stop : ℕ
  deriving DecidableEq, Repr

def Span.holds (s : Span) (p : Position) : Bool := s.start ≤ p.offset && p.offset < s.stop

/-- `source_bytes[start:stop].decode("utf-8")`, between characters. -/
def Span.chars (source : String) (s : Span) : List Char :=
  ((positions source).filter s.holds).map Position.char

def Span.text (source : String) (s : Span) : String := String.ofList (s.chars source)

/-- The row of a byte: the line feeds before it. -/
def rowAt (source : String) (offset : ℕ) : ℕ :=
  (positions source).countP fun p => p.offset < offset && p.char = '\n'

section Rows

variable {source : String} {p q : Position}

theorem le_offset_of_mem {offset row : ℕ} {cs : List Char}
    (h : p ∈ positionsFrom offset row cs) : offset ≤ p.offset := by
  induction cs generalizing offset row with
  | nil => exact absurd h List.not_mem_nil
  | cons c cs ih =>
    rcases List.mem_cons.1 h with rfl | h
    · exact le_refl _
    · exact le_trans (Nat.le_add_right _ _) (ih h)

theorem positionsFrom_pairwise (offset row : ℕ) (cs : List Char) :
    (positionsFrom offset row cs).Pairwise fun p q => p.offset < q.offset := by
  induction cs generalizing offset row with
  | nil => exact .nil
  | cons c cs ih =>
    refine List.pairwise_cons.2 ⟨fun q hq => ?_, ih _ _⟩
    have hle := le_offset_of_mem hq
    have hpos := c.utf8Size_pos
    change offset < q.offset
    omega

theorem row_eq_countP {offset row : ℕ} {cs : List Char} (h : p ∈ positionsFrom offset row cs) :
    p.row = row + (positionsFrom offset row cs).countP fun q =>
      q.offset < p.offset && q.char = '\n' := by
  induction cs generalizing offset row with
  | nil => exact absurd h List.not_mem_nil
  | cons c cs ih =>
    have hpos := c.utf8Size_pos
    rw [positionsFrom] at h ⊢
    rcases List.mem_cons.1 h with rfl | h
    · have hnone : (positionsFrom (offset + c.utf8Size) (if c = '\n' then row + 1 else row)
          cs).countP (fun q => q.offset < offset && q.char = '\n') = 0 := by
        apply List.countP_eq_zero.2
        intro q hq
        have hle := le_offset_of_mem hq
        have hnot : ¬q.offset < offset := by omega
        simp [hnot]
      rw [List.countP_cons, hnone]
      simp
    · have hle := le_offset_of_mem h
      have hlt : offset < p.offset := by omega
      rw [ih h, List.countP_cons]
      by_cases hc : c = '\n'
      · simp [hc, hlt]
        omega
      · simp [hc]

/-- The row of a character is the row of its first byte. -/
theorem row_eq_rowAt (h : p ∈ positions source) : p.row = rowAt source p.offset := by
  have hrow := row_eq_countP h
  rwa [Nat.zero_add] at hrow

theorem rowAt_mono {a b : ℕ} (h : a ≤ b) : rowAt source a ≤ rowAt source b := by
  apply List.countP_mono_left
  intro p _ hp
  simp only [Bool.and_eq_true, decide_eq_true_eq] at hp ⊢
  exact ⟨by omega, hp.2⟩

theorem holds_iff {s : Span} : s.holds p = true ↔ s.start ≤ p.offset ∧ p.offset < s.stop := by
  simp [Span.holds]

/-- A character of a span is on one of the rows of the span. -/
theorem row_of_holds {s : Span} (hp : p ∈ positions source) (h : s.holds p = true) :
    rowAt source s.start ≤ p.row ∧ p.row ≤ rowAt source s.stop := by
  obtain ⟨hstart, hstop⟩ := holds_iff.1 h
  rw [row_eq_rowAt hp]
  exact ⟨rowAt_mono hstart, rowAt_mono (le_of_lt hstop)⟩

end Rows

/-- `field` is the role of the node in its parent. -/
inductive Node
  | mk (type : String) (field : Option String) (span : Span) (children : List Node)

namespace Node

def type : Node → String
  | .mk type _ _ _ => type

def field : Node → Option String
  | .mk _ field _ _ => field

def span : Node → Span
  | .mk _ _ span _ => span

def children : Node → List Node
  | .mk _ _ _ children => children

def childByFieldName (n : Node) (name : String) : Option Node :=
  n.children.find? fun c => c.field = some name

/-- `node.start_point[0]` -/
def startRow (source : String) (n : Node) : ℕ := rowAt source n.span.start

/-- `node.end_point[0]` -/
def endRow (source : String) (n : Node) : ℕ := rowAt source n.span.stop

def text (source : String) (n : Node) : String := n.span.text source

mutual

/-- The children of a node follow each other inside it. -/
def laidOut : Node → Bool
  | .mk _ _ span children => span.start ≤ span.stop && laidOutFrom span.start span.stop children

def laidOutFrom (start stop : ℕ) : List Node → Bool
  | [] => start ≤ stop
  | c :: cs => start ≤ c.span.start && c.laidOut && laidOutFrom c.span.stop stop cs

end

variable {n c : Node}

theorem laidOut_iff :
    n.laidOut = true ↔ n.span.start ≤ n.span.stop ∧
      laidOutFrom n.span.start n.span.stop n.children = true := by
  cases n
  simp [laidOut, span, children]

theorem laidOutFrom_cons {start stop : ℕ} {cs : List Node} :
    laidOutFrom start stop (c :: cs) = true ↔
      start ≤ c.span.start ∧ c.laidOut = true ∧ laidOutFrom c.span.stop stop cs = true := by
  simp [laidOutFrom, and_assoc]

theorem laidOutFrom_mem {start stop : ℕ} {cs : List Node} (h : laidOutFrom start stop cs = true)
    (hc : c ∈ cs) : start ≤ c.span.start ∧ c.span.stop ≤ stop ∧ c.laidOut = true := by
  have hle : ∀ {start : ℕ} {cs : List Node}, laidOutFrom start stop cs = true → start ≤ stop := by
    intro start cs h
    induction cs generalizing start with
    | nil => simpa [laidOutFrom] using h
    | cons d ds ih =>
      obtain ⟨hs, hd, hrest⟩ := laidOutFrom_cons.1 h
      have hstop := ih hrest
      have hspan := (laidOut_iff.1 hd).1
      omega
  induction cs generalizing start with
  | nil => exact absurd hc List.not_mem_nil
  | cons d ds ih =>
    obtain ⟨hs, hd, hrest⟩ := laidOutFrom_cons.1 h
    rcases List.mem_cons.1 hc with rfl | hc
    · exact ⟨hs, hle hrest, hd⟩
    · obtain ⟨hstart, hstop, hcl⟩ := ih hrest hc
      have hspan := (laidOut_iff.1 hd).1
      exact ⟨by omega, hstop, hcl⟩

theorem child_bounds (h : n.laidOut = true) (hc : c ∈ n.children) :
    n.span.start ≤ c.span.start ∧ c.span.stop ≤ n.span.stop ∧ c.laidOut = true :=
  laidOutFrom_mem (laidOut_iff.1 h).2 hc

theorem laidOutFrom_pairwise {start stop : ℕ} {cs : List Node}
    (h : laidOutFrom start stop cs = true) :
    cs.Pairwise fun a b => a.span.stop ≤ b.span.start := by
  induction cs generalizing start with
  | nil => exact .nil
  | cons d ds ih =>
    obtain ⟨-, -, hrest⟩ := laidOutFrom_cons.1 h
    exact List.pairwise_cons.2 ⟨fun b hb => (laidOutFrom_mem hrest hb).1, ih hrest⟩

theorem children_pairwise (h : n.laidOut = true) :
    n.children.Pairwise fun a b => a.span.stop ≤ b.span.start :=
  laidOutFrom_pairwise (laidOut_iff.1 h).2

theorem childByFieldName_mem {name : String} (h : n.childByFieldName name = some c) :
    c ∈ n.children := List.mem_of_find?_eq_some h

end Node

/-- `parser.parse(..)`: the root node, and `root_node.has_error`. -/
structure Tree where
  root : Node
  hasError : Bool
  laidOut : root.laidOut = true

/-- The part of a path from its last dot on. -/
def extension (path : String) : String :=
  if '.' ∈ path.toList then
    "." ++ String.ofList (path.toList.reverse.takeWhile (· ≠ '.')).reverse
  else ""

def languages : List String := [".py", ".js", ".ts", ".go"]

/-- `BOUNDARY_TYPES.get(ext, set())` -/
def boundaryTypes (ext : String) : List String :=
  if ext = ".py" then ["class_definition", "function_definition", "decorated_definition"]
  else if ext = ".js" then
    ["class_declaration", "function_declaration", "arrow_function", "method_definition",
      "export_statement"]
  else if ext = ".go" then ["function_declaration", "method_declaration", "type_declaration"]
  else []

def classTypes : List String := ["class_definition", "class_declaration"]

/-- tree-sitter, for the extension of a file and its source. -/
abbrev Parser := String → String → Tree

/-- `get_parser(ext)` and its `parse`: no tree for an extension without a language. -/
def Parser.tree? (parse : Parser) (path source : String) : Option Tree :=
  if extension path ∈ languages then some (parse (extension path) source) else none

end Revix
