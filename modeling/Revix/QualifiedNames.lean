import Revix.RepoIndexer

namespace Revix
namespace RepoIndexer

/-- A named class around a definition. A class expression is not among the indexer's classes. -/
structure EnclosingClass where
  name : String
  indexed : Bool
  deriving DecidableEq, Repr

/-- The name of the innermost class that the indexer knows of. -/
def innermost (classes : List EnclosingClass) : Option String :=
  (classes.filter EnclosingClass.indexed).getLast?.map EnclosingClass.name

/-- A named definition and the named classes around it, the outermost first. -/
structure Definition where
  classes : List EnclosingClass
  name : String
  node : Node

namespace Definition

def symbol (source filePath : String) (d : Definition) : Symbol :=
  symbolOf source filePath (innermost d.classes) d.name d.node

end Definition

section Trees

variable (source filePath : String) (boundary : List String)

/-- The types of classes: those of the indexer, and class expressions in JavaScript. -/
def classKinds : List String := classTypes ++ ["class"]

def isNamed (n : Node) : Bool := n.type ∈ boundary && definedName source n.children ≠ ""

def classOf (n : Node) : List EnclosingClass :=
  if n.type ∈ classKinds && definedName source n.children ≠ "" then
    [⟨definedName source n.children, n.type ∈ boundary && n.type ∈ classTypes⟩]
  else []

mutual

/-- The named definitions of a tree, from the top down and from left to right. -/
def definitionsIn (classes : List EnclosingClass) : Node → List Definition
  | .mk type field span children =>
    let n := Node.mk type field span children
    let rest := definitionsAmong (classes ++ classOf source boundary n) children
    if isNamed source boundary n then ⟨classes, definedName source children, n⟩ :: rest else rest

def definitionsAmong (classes : List EnclosingClass) : List Node → List Definition
  | [] => []
  | c :: cs => definitionsIn classes c ++ definitionsAmong classes cs

end

mutual

def nodesIn : Node → List Node
  | .mk type field span children => .mk type field span children :: nodesAmong children

def nodesAmong : List Node → List Node
  | [] => []
  | c :: cs => nodesIn c ++ nodesAmong cs

end

end Trees

section Definitions

variable {source filePath : String} {boundary : List String}

theorem isNamed_iff {n : Node} : isNamed source boundary n = true ↔
    n.type ∈ boundary ∧ definedName source n.children ≠ "" := by
  rw [isNamed, Bool.and_eq_true, decide_eq_true_eq, decide_eq_true_eq]

/-! ## The named definitions -/

mutual

/-- Each named definition is listed once. -/
theorem map_node_definitionsIn (classes : List EnclosingClass) (n : Node) :
    (definitionsIn source boundary classes n).map Definition.node =
      (nodesIn n).filter (isNamed source boundary) := by
  cases n with
  | mk type field span children =>
    rw [definitionsIn, nodesIn, List.filter_cons]
    split
    · rw [List.map_cons, map_node_definitionsAmong _ children]
    · exact map_node_definitionsAmong _ children

theorem map_node_definitionsAmong (classes : List EnclosingClass) (ns : List Node) :
    (definitionsAmong source boundary classes ns).map Definition.node =
      (nodesAmong ns).filter (isNamed source boundary) := by
  cases ns with
  | nil => rfl
  | cons c cs =>
    rw [definitionsAmong, nodesAmong, List.map_append, List.filter_append,
      map_node_definitionsIn _ c, map_node_definitionsAmong _ cs]

end

/-! ## The symbols -/

/-- What a node adds to the classes around its children. -/
theorem innermost_append_classOf (classes : List EnclosingClass) (n : Node) :
    innermost (classes ++ classOf source boundary n) =
      if isNamed source boundary n = true ∧ n.type ∈ classTypes then
        some (definedName source n.children)
      else innermost classes := by
  unfold classOf isNamed
  by_cases hname : definedName source n.children = ""
  · simp [hname]
  · by_cases hclass : n.type ∈ classTypes
    · have hkind : n.type ∈ classKinds := List.mem_append_left _ hclass
      by_cases hboundary : n.type ∈ boundary <;>
        simp [innermost, hname, hclass, hkind, hboundary]
    · by_cases hkind : n.type ∈ classKinds <;>
        simp [innermost, hname, hclass, hkind]

mutual

/-- One symbol is recorded for each named definition, in the order of the source. -/
theorem extractDefinitions_eq (classes : List EnclosingClass) (n : Node) :
    extractDefinitions source filePath boundary (innermost classes) n =
      (definitionsIn source boundary classes n).map (Definition.symbol source filePath) := by
  cases n with
  | mk type field span children =>
    have hinner : innermost (classes ++ classOf source boundary (.mk type field span children)) =
        _ := innermost_append_classOf classes (.mk type field span children)
    rw [extractDefinitions, definitionsIn]
    by_cases hnamed : isNamed source boundary (.mk type field span children) = true
    · obtain ⟨hboundary, hname⟩ := isNamed_iff.1 hnamed
      simp only [Node.type, Node.children] at hboundary hname
      rw [if_pos hboundary, if_neg hname, if_pos hnamed, List.map_cons,
        ← extractAll_eq _ children, hinner]
      simp only [hnamed, true_and, Node.type, Node.children]
      rfl
    · have hnone : (if type ∈ boundary then definedName source children else "") = "" := by
        rw [isNamed_iff, not_and_not_right] at hnamed
        split
        · exact hnamed ‹_›
        · rfl
      rw [hnone, if_pos rfl, if_neg hnamed, ← extractAll_eq _ children, hinner,
        if_neg fun h => hnamed h.1]

theorem extractAll_eq (classes : List EnclosingClass) (ns : List Node) :
    extractAll source filePath boundary (innermost classes) ns =
      (definitionsAmong source boundary classes ns).map (Definition.symbol source filePath) := by
  cases ns with
  | nil => rfl
  | cons c cs =>
    rw [extractAll, definitionsAmong, List.map_append, extractDefinitions_eq _ c,
      extractAll_eq _ cs]

end

/-! ## Short and full names -/

theorem name_ne_of_mem_classOf {n : Node} {c : EnclosingClass}
    (h : c ∈ classOf source boundary n) : c.name ≠ "" := by
  unfold classOf at h
  split at h
  · rename_i hclass
    rw [Bool.and_eq_true, decide_eq_true_eq, decide_eq_true_eq] at hclass
    obtain rfl := List.mem_singleton.1 h
    exact hclass.2
  · exact absurd h List.not_mem_nil

mutual

/-- The classes around a definition have names. -/
theorem named_definitionsIn {classes : List EnclosingClass} (hclasses : ∀ c ∈ classes, c.name ≠ "")
    (n : Node) : ∀ d ∈ definitionsIn source boundary classes n, ∀ c ∈ d.classes, c.name ≠ "" := by
  cases n with
  | mk type field span children =>
    have hinner : ∀ c ∈ classes ++ classOf source boundary (.mk type field span children),
        c.name ≠ "" := List.forall_mem_append.2 ⟨hclasses, fun _ => name_ne_of_mem_classOf⟩
    rw [definitionsIn]
    split
    · exact List.forall_mem_cons.2 ⟨hclasses, named_definitionsAmong hinner children⟩
    · exact named_definitionsAmong hinner children

theorem named_definitionsAmong {classes : List EnclosingClass}
    (hclasses : ∀ c ∈ classes, c.name ≠ "") (ns : List Node) :
    ∀ d ∈ definitionsAmong source boundary classes ns, ∀ c ∈ d.classes, c.name ≠ "" := by
  cases ns with
  | nil => exact fun d hd => absurd hd List.not_mem_nil
  | cons c cs =>
    rw [definitionsAmong]
    exact List.forall_mem_append.2
      ⟨named_definitionsIn hclasses c, named_definitionsAmong hclasses cs⟩

end

namespace Definition

variable {d : Definition} {classes : List EnclosingClass} {c : EnclosingClass}

end Definition

end Definitions

end RepoIndexer

namespace Sample

end Sample

end Revix
