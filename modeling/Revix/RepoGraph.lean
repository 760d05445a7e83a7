import Revix.RepoIndexer

/-! The tables `repo_symbols` and `repo_references` without their surrogate keys. A table is the
list of its rows; the order in which a join returns rows is not part of its meaning. -/
namespace Revix

structure SymbolRow where
  repoFullName : String
  symbol : Symbol
  deriving DecidableEq, Repr

structure ReferenceRow where
  repoFullName : String
  reference : Reference
  deriving DecidableEq, Repr

structure RepoGraph where
  symbols : List SymbolRow
  references : List ReferenceRow
  deriving DecidableEq, Repr

structure ExternalCaller where
  row : ReferenceRow
  definingFile : String
  deriving DecidableEq, Repr

namespace RepoGraph

def empty : RepoGraph := ⟨[], []⟩

/-- `DELETE .. WHERE repo_full_name = repo`, on both tables. -/
def deleteRepo (g : RepoGraph) (repo : String) : RepoGraph where
  symbols := g.symbols.filter fun row => row.repoFullName ≠ repo
  references := g.references.filter fun row => row.repoFullName ≠ repo

/-- The two `COPY` statements. -/
def copyRepo (g : RepoGraph) (repo : String) (symbols : List Symbol)
    (references : List Reference) : RepoGraph where
  symbols := g.symbols ++ symbols.map (SymbolRow.mk repo)
  references := g.references ++ references.map (ReferenceRow.mk repo)

/-- `persist_repo_graph`, run alone. -/
def persistRepoGraph (g : RepoGraph) (repo : String) (symbols : List Symbol)
    (references : List Reference) : RepoGraph :=
  (g.deleteRepo repo).copyRepo repo symbols references

/-- The `ON` and `WHERE` of `get_external_callers`. -/
def calls (repo : String) (symbolNames : List String) (r : ReferenceRow) (s : SymbolRow) : Bool :=
  r.reference.symbolName = s.symbol.name && r.repoFullName = s.repoFullName &&
    r.repoFullName = repo && r.reference.symbolName ∈ symbolNames &&
    r.reference.filePath ≠ s.symbol.filePath

def getExternalCallers (g : RepoGraph) (repo : String) (symbolNames : List String) :
    List ExternalCaller :=
  g.references.flatMap fun r =>
    (g.symbols.filter (calls repo symbolNames r)).map fun s => ⟨r, s.symbol.filePath⟩

variable {g : RepoGraph} {repo : String} {symbols symbols' : List Symbol}
  {references references' : List Reference}

theorem mem_symbols_persist {row : SymbolRow} :
    row ∈ (g.persistRepoGraph repo symbols references).symbols ↔
      (row ∈ g.symbols ∧ row.repoFullName ≠ repo) ∨
        (row.repoFullName = repo ∧ row.symbol ∈ symbols) := by
  simp only [persistRepoGraph, copyRepo, deleteRepo, List.mem_append, List.mem_filter,
    decide_eq_true_eq, List.mem_map]
  apply or_congr Iff.rfl
  constructor
  · rintro ⟨s, hs, rfl⟩
    exact ⟨rfl, hs⟩
  · rintro ⟨rfl, hs⟩
    exact ⟨row.symbol, hs, rfl⟩

theorem mem_references_persist {row : ReferenceRow} :
    row ∈ (g.persistRepoGraph repo symbols references).references ↔
      (row ∈ g.references ∧ row.repoFullName ≠ repo) ∨
        (row.repoFullName = repo ∧ row.reference ∈ references) := by
  simp only [persistRepoGraph, copyRepo, deleteRepo, List.mem_append, List.mem_filter,
    decide_eq_true_eq, List.mem_map]
  apply or_congr Iff.rfl
  constructor
  · rintro ⟨r, hr, rfl⟩
    exact ⟨rfl, hr⟩
  · rintro ⟨rfl, hr⟩
    exact ⟨row.reference, hr, rfl⟩

theorem mem_getExternalCallers {symbolNames : List String} {c : ExternalCaller} :
    c ∈ g.getExternalCallers repo symbolNames ↔ c.row ∈ g.references ∧
      ∃ s ∈ g.symbols, calls repo symbolNames c.row s = true ∧
        s.symbol.filePath = c.definingFile := by
  simp only [getExternalCallers, List.mem_flatMap, List.mem_map, List.mem_filter]
  constructor
  · rintro ⟨r, hr, s, ⟨hs, hc⟩, rfl⟩
    exact ⟨hr, s, hs, hc, rfl⟩
  · rintro ⟨hr, s, hs, hc, hfile⟩
    exact ⟨c.row, hr, s, ⟨hs, hc⟩, by rw [hfile]⟩

theorem calls_iff {symbolNames : List String} {r : ReferenceRow} {s : SymbolRow} :
    calls repo symbolNames r s = true ↔ r.repoFullName = repo ∧ s.repoFullName = repo ∧
      r.reference.symbolName ∈ symbolNames ∧ r.reference.symbolName = s.symbol.name ∧
      r.reference.filePath ≠ s.symbol.filePath := by
  simp only [calls, Bool.and_eq_true, decide_eq_true_eq]
  constructor
  · rintro ⟨⟨⟨⟨hname, hrepo⟩, hr⟩, hmem⟩, hfile⟩
    exact ⟨hr, hrepo.symm.trans hr, hmem, hname, hfile⟩
  · rintro ⟨hr, hs, hmem, hname, hfile⟩
    exact ⟨⟨⟨⟨hname, hr.trans hs.symm⟩, hr⟩, hmem⟩, hfile⟩

def Alike (repo : String) (g h : RepoGraph) : Prop :=
  (∀ row : SymbolRow, row.repoFullName = repo → (row ∈ g.symbols ↔ row ∈ h.symbols)) ∧
    ∀ row : ReferenceRow, row.repoFullName = repo → (row ∈ g.references ↔ row ∈ h.references)

theorem Alike.refl (g : RepoGraph) : Alike repo g g := ⟨fun _ _ => Iff.rfl, fun _ _ => Iff.rfl⟩

theorem Alike.trans {h k : RepoGraph} (hgh : Alike repo g h) (hhk : Alike repo h k) :
    Alike repo g k :=
  ⟨fun row hrow => (hgh.1 row hrow).trans (hhk.1 row hrow),
    fun row hrow => (hgh.2 row hrow).trans (hhk.2 row hrow)⟩

theorem Alike.callers {h : RepoGraph} (hgh : Alike repo g h) {symbolNames : List String}
    {c : ExternalCaller} :
    c ∈ g.getExternalCallers repo symbolNames ↔ c ∈ h.getExternalCallers repo symbolNames := by
  rw [mem_getExternalCallers, mem_getExternalCallers]
  constructor
  · rintro ⟨hr, s, hs, hc, hfile⟩
    obtain ⟨hrepo, hsrepo, -⟩ := calls_iff.1 hc
    exact ⟨(hgh.2 _ hrepo).1 hr, s, (hgh.1 _ hsrepo).1 hs, hc, hfile⟩
  · rintro ⟨hr, s, hs, hc, hfile⟩
    obtain ⟨hrepo, hsrepo, -⟩ := calls_iff.1 hc
    exact ⟨(hgh.2 _ hrepo).2 hr, s, (hgh.1 _ hsrepo).2 hs, hc, hfile⟩

/-- The replacement is the same wherever the repository has the same rows. -/
theorem Alike.persist {h : RepoGraph} (hgh : Alike repo g h) {other : String} :
    Alike repo (g.persistRepoGraph other symbols references)
      (h.persistRepoGraph other symbols references) := by
  constructor
  · intro row hrow
    rw [mem_symbols_persist, mem_symbols_persist, hgh.1 row hrow]
  · intro row hrow
    rw [mem_references_persist, mem_references_persist, hgh.2 row hrow]

/-- The other repositories do not see the replacement. -/
theorem alike_persist_of_ne {other : String} (h : other ≠ repo) :
    Alike repo (g.persistRepoGraph other symbols references) g := by
  constructor
  · intro row hrow
    rw [mem_symbols_persist]
    simp [hrow, h.symm]
  · intro row hrow
    rw [mem_references_persist]
    simp [hrow, h.symm]

end RepoGraph
end Revix
