import Revix.SyntaxTrees

namespace Revix

structure Symbol where
  name : String
  qualifiedName : String
  kind : String
  filePath : String
  startLine : ℕ
  endLine : ℕ
  signature : String
  parent : Option String
  deriving DecidableEq, Repr

structure Reference where
  symbolName : String
  filePath : String
  line : ℕ
  contextLine : String
  refType : String
  deriving DecidableEq, Repr

def Symbol.vars (s : Symbol) : Dict :=
  [("name", .str s.name), ("qualified_name", .str s.qualifiedName), ("kind", .str s.kind),
    ("file_path", .str s.filePath), ("start_line", .int s.startLine), ("end_line", .int s.endLine),
    ("signature", .str s.signature), ("parent", textOrNull s.parent)]

def Reference.vars (r : Reference) : Dict :=
  [("symbol_name", .str r.symbolName), ("file_path", .str r.filePath), ("line", .int r.line),
    ("context_line", .str r.contextLine), ("ref_type", .str r.refType)]

namespace RepoIndexer

section Definitions

variable (source filePath : String) (boundary : List String)

/-- The text of the first child that names the node. -/
def definedName (children : List Node) : String :=
  ((children.find? fun c =>
    c.type ∈ ["identifier", "name", "property_identifier", "field_identifier"]).map
      (Node.text source)).getD ""

/-- `text.split("\n")[0].strip()` -/
def signature (n : Node) : String :=
  strip (String.ofList ((n.text source).toList.takeWhile (· ≠ '\n')))

def symbolOf (parentName : Option String) (name : String) (n : Node) : Symbol where
  name := name
  qualifiedName := match parentName.filter (· ≠ "") with
    | some parent => parent ++ "." ++ name
    | none => name
  kind := n.type
  filePath := filePath
  startLine := n.startRow source
  endLine := n.endRow source
  signature := signature source n
  parent := parentName

mutual

/-- `_extract_definitions`. Only what a class contains is defined inside of something. -/
def extractDefinitions (parentName : Option String) : Node → List Symbol
  | .mk type field span children =>
    let name := if type ∈ boundary then definedName source children else ""
    if name = "" then extractAll parentName children
    else symbolOf source filePath parentName name (.mk type field span children) ::
      extractAll (if type ∈ classTypes then some name else parentName) children

def extractAll (parentName : Option String) : List Node → List Symbol
  | [] => []
  | c :: cs => extractDefinitions parentName c ++ extractAll parentName cs

end

end Definitions

section References

variable (source filePath : String)

/-- `text.split(".")[-1].split("(")[0].strip()` -/
def calledName (text : String) : String :=
  let last := (text.toList.reverse.takeWhile (· ≠ '.')).reverse
  strip (String.ofList (last.takeWhile (· ≠ '(')))

def referenceOf (n : Node) : List Reference :=
  if n.type ∈ ["call", "call_expression"] then
    match n.childByFieldName "function" <|> n.children.head? with
    | none => []
    | some function =>
      let name := calledName (function.text source)
      if name = "" then []
      else [{ symbolName := name
              filePath := filePath
              line := n.startRow source
              contextLine := ""
              refType := "call" }]
  else []

mutual

def extractReferences : Node → List Reference
  | .mk type field span children =>
    referenceOf source filePath (.mk type field span children) ++ extractCalls children

def extractCalls : List Node → List Reference
  | [] => []
  | c :: cs => extractReferences c ++ extractCalls cs

end

end References

def indexFile (parse : Parser) (filePath source : String) : List Symbol × List Reference :=
  match parse.tree? filePath source with
  | none => ([], [])
  | some tree =>
    (extractDefinitions source filePath (boundaryTypes (extension filePath)) none tree.root,
      extractReferences source filePath tree.root)

section Paths

variable {source filePath : String} {boundary : List String}

mutual

theorem extractDefinitions_filePath {parentName : Option String} {n : Node} {s : Symbol}
    (h : s ∈ extractDefinitions source filePath boundary parentName n) :
    s.filePath = filePath := by
  cases n with
  | mk type field span children =>
    rw [extractDefinitions] at h
    generalize (if type ∈ boundary then definedName source children else "") = name at h
    by_cases hname : name = ""
    · rw [if_pos hname] at h
      exact extractAll_filePath h
    · rw [if_neg hname] at h
      rcases List.mem_cons.1 h with rfl | h
      · rfl
      · exact extractAll_filePath h

theorem extractAll_filePath {parentName : Option String} {ns : List Node} {s : Symbol}
    (h : s ∈ extractAll source filePath boundary parentName ns) : s.filePath = filePath := by
  cases ns with
  | nil => exact absurd h List.not_mem_nil
  | cons c cs =>
    rw [extractAll] at h
    rcases List.mem_append.1 h with h | h
    · exact extractDefinitions_filePath h
    · exact extractAll_filePath h

end

theorem referenceOf_filePath {n : Node} {r : Reference} (h : r ∈ referenceOf source filePath n) :
    r.filePath = filePath := by
  unfold referenceOf at h
  split at h
  · split at h
    · exact absurd h List.not_mem_nil
    · dsimp only at h
      split at h
      · exact absurd h List.not_mem_nil
      · obtain rfl := List.mem_singleton.1 h
        rfl
  · exact absurd h List.not_mem_nil

mutual

theorem extractReferences_filePath {n : Node} {r : Reference}
    (h : r ∈ extractReferences source filePath n) : r.filePath = filePath := by
  cases n with
  | mk type field span children =>
    rw [extractReferences] at h
    rcases List.mem_append.1 h with h | h
    · exact referenceOf_filePath h
    · exact extractCalls_filePath h

theorem extractCalls_filePath {ns : List Node} {r : Reference}
    (h : r ∈ extractCalls source filePath ns) : r.filePath = filePath := by
  cases ns with
  | nil => exact absurd h List.not_mem_nil
  | cons c cs =>
    rw [extractCalls] at h
    rcases List.mem_append.1 h with h | h
    · exact extractReferences_filePath h
    · exact extractCalls_filePath h

end

variable {parse : Parser}

end Paths

end RepoIndexer
end Revix
