import Revix.RepoGraph
import Mathlib.Data.List.Chain

/-! Every review indexes the changed files whose content it has, and replaces the repository's
whole graph by what it found there. -/
namespace Revix

structure ChangedFile where
  filename : String
  source : String
  deriving DecidableEq, Repr

abbrev ChangeSet := List ChangedFile

namespace ChangeSet

variable (parse : Parser)

def symbols (files : ChangeSet) : List Symbol :=
  files.flatMap fun f => (RepoIndexer.indexFile parse f.filename f.source).1

def references (files : ChangeSet) : List Reference :=
  files.flatMap fun f => (RepoIndexer.indexFile parse f.filename f.source).2

/-- `all_symbols or all_refs` -/
def persists (files : ChangeSet) : Bool :=
  !(files.symbols parse).isEmpty || !(files.references parse).isEmpty

def touches (files : ChangeSet) (path : String) : Bool := files.any fun f => f.filename = path

/-- The indexing found a symbol or a reference in the file. -/
def Records (files : ChangeSet) (path : String) : Prop :=
  (∃ s ∈ files.symbols parse, s.filePath = path) ∨
    ∃ r ∈ files.references parse, r.filePath = path

variable {parse} {files : ChangeSet} {path : String}

theorem persists_of_symbol {s : Symbol} (h : s ∈ files.symbols parse) :
    files.persists parse = true := by
  have hne := List.ne_nil_of_mem h
  simp [persists, hne]

theorem persists_of_reference {r : Reference} (h : r ∈ files.references parse) :
    files.persists parse = true := by
  have hne := List.ne_nil_of_mem h
  simp [persists, hne]

theorem Records.persists (h : files.Records parse path) : files.persists parse = true := by
  rcases h with ⟨s, hs, -⟩ | ⟨r, hr, -⟩
  · exact persists_of_symbol hs
  · exact persists_of_reference hr

end ChangeSet

namespace RepoGraph

variable (parse : Parser) (repo : String)

def indexReview (g : RepoGraph) (files : ChangeSet) : RepoGraph :=
  if files.persists parse then
    g.persistRepoGraph repo (files.symbols parse) (files.references parse)
  else g

def indexReviews (g : RepoGraph) (reviews : List ChangeSet) : RepoGraph :=
  reviews.foldl (indexReview parse repo) g

/-- The review whose indexing of a file is the most recent. -/
def lastIndexing (reviews : List ChangeSet) (path : String) : Option ChangeSet :=
  reviews.reverse.find? fun files => files.touches path

/-- Every call between two files is found, if both ends were recorded when their file was last
indexed. -/
def Complete (g : RepoGraph) (reviews : List ChangeSet) : Prop :=
  ∀ (r : Reference) (s : Symbol) (caller callee : ChangeSet),
    lastIndexing reviews r.filePath = some caller → r ∈ caller.references parse →
    lastIndexing reviews s.filePath = some callee → s ∈ callee.symbols parse →
    r.symbolName = s.name → r.filePath ≠ s.filePath →
    ∀ symbolNames, r.symbolName ∈ symbolNames →
      ⟨⟨repo, r⟩, s.filePath⟩ ∈ g.getExternalCallers repo symbolNames

variable {parse} {repo} {g : RepoGraph} {reviews : List ChangeSet} {files : ChangeSet}

end RepoGraph

namespace Sample

/-- The tree of `def f():` over an indented `pass`. -/
def definition : Tree where
  root := .mk "module" none ⟨0, 18⟩
    [.mk "function_definition" none ⟨0, 17⟩
      [.mk "def" none ⟨0, 3⟩ [], .mk "identifier" (some "name") ⟨4, 5⟩ [],
        .mk "parameters" (some "parameters") ⟨5, 7⟩ [.mk "(" none ⟨5, 6⟩ [], .mk ")" none ⟨6, 7⟩ []],
        .mk ":" none ⟨7, 8⟩ [],
        .mk "block" (some "body") ⟨13, 17⟩
          [.mk "pass_statement" none ⟨13, 17⟩ [.mk "pass" none ⟨13, 17⟩ []]]]]
  hasError := false
  laidOut := by decide

def call : Tree where
  root := .mk "module" none ⟨0, 4⟩
    [.mk "expression_statement" none ⟨0, 3⟩
      [.mk "call" none ⟨0, 3⟩
        [.mk "identifier" (some "function") ⟨0, 1⟩ [],
          .mk "argument_list" (some "arguments") ⟨1, 3⟩
            [.mk "(" none ⟨1, 2⟩ [], .mk ")" none ⟨2, 3⟩ []]]]]
  hasError := false
  laidOut := by decide

def parse : Parser := fun _ source => if source = "f()\n" then call else definition

/-- A pull request that adds a function and a caller in another file, and one that adds a third
file. -/
def reviews : List ChangeSet :=
  [[⟨"a.py", "def f():\n    pass\n"⟩, ⟨"b.py", "f()\n"⟩], [⟨"c.py", "def g():\n    pass\n"⟩]]

def caller : Reference := ⟨"f", "b.py", 0, "", "call"⟩

def callee : Symbol := ⟨"f", "f", "function_definition", "a.py", 0, 1, "def f():", none⟩

end Sample

end Revix
