import Revix.SyntaxChunks

namespace Revix
open GreedyPacking

section Chunking

variable (maxChunkTokens : ℕ) (source : String) (boundary : List String)

/-- The node is a class above the budget and has members that are emitted in its place. -/
def descends (changed : List ℕ) (n : Node) : Bool :=
  n.isOversizedClass maxChunkTokens source && !(emittedMembers source boundary changed n).isEmpty

def scopedPieces (changed : List ℕ) (n : Node) : List Piece :=
  if touched source changed n then
    if descends maxChunkTokens source boundary changed n then
      emittedMembers source boundary changed n
    else if maxChunkTokens < n.tokens source then [] else [.whole n]
  else []

def scopedSkips (changed : List ℕ) (n : Node) : List Node :=
  if touched source changed n && (maxChunkTokens < n.tokens source) &&
      !descends maxChunkTokens source boundary changed n then [n]
  else []

/-- A class above the budget of which some touched member is emitted in its place. -/
def Descended (changed : List ℕ) (n body : Node) : Prop :=
  n.isOversizedClass maxChunkTokens source = true ∧ n.childByFieldName "body" = some body ∧
    ∃ sub ∈ body.children, sub.type ∈ boundary ∧ touched source changed sub = true

def setAside (n : Node) : Bool := n.type ∈ boundary && maxChunkTokens < n.tokens source

def unscopedSingles (n : Node) : List Single :=
  if setAside maxChunkTokens source boundary n then
    if (allMembers boundary n).isEmpty then [.skip n]
    else (allMembers boundary n).map .member
  else []

variable {maxChunkTokens} {source} {boundary} {changed : List ℕ} {n m : Node}

theorem touched_iff : touched source changed n = true ↔
    ∃ line ∈ changed, n.startRow source + 1 ≤ line ∧ line ≤ n.endRow source + 1 := by
  simp [touched]

theorem mem_emittedMembers {piece : Piece} :
    piece ∈ emittedMembers source boundary changed n ↔
      ∃ body, n.childByFieldName "body" = some body ∧ ∃ sub ∈ body.children,
        sub.type ∈ boundary ∧ touched source changed sub = true ∧ piece = .member n body sub := by
  unfold emittedMembers
  cases n.childByFieldName "body" with
  | none => simp
  | some body =>
    simp only [List.mem_map, List.mem_filter, Bool.and_eq_true, decide_eq_true_eq,
      Option.some.injEq, exists_eq_left']
    constructor
    · rintro ⟨sub, ⟨hsub, htype, ht⟩, rfl⟩
      exact ⟨sub, hsub, htype, ht, rfl⟩
    · rintro ⟨sub, hsub, htype, ht, rfl⟩
      exact ⟨sub, ⟨hsub, htype, ht⟩, rfl⟩

theorem descends_iff : descends maxChunkTokens source boundary changed n = true ↔
    ∃ body, Descended maxChunkTokens source boundary changed n body := by
  simp only [descends, Bool.and_eq_true, Bool.not_eq_true', List.isEmpty_eq_false_iff]
  constructor
  · rintro ⟨hclass, hne⟩
    obtain ⟨piece, hpiece⟩ := List.exists_mem_of_ne_nil _ hne
    obtain ⟨body, hbody, sub, hsub, htype, ht, -⟩ := mem_emittedMembers.1 hpiece
    exact ⟨body, hclass, hbody, sub, hsub, htype, ht⟩
  · rintro ⟨body, hclass, hbody, sub, hsub, htype, ht⟩
    have hmem : Piece.member n body sub ∈ emittedMembers source boundary changed n :=
      mem_emittedMembers.2 ⟨body, hbody, sub, hsub, htype, ht, rfl⟩
    exact ⟨hclass, List.ne_nil_of_mem hmem⟩

theorem mem_scopedPieces {piece : Piece} :
    piece ∈ scopedPieces maxChunkTokens source boundary changed n ↔
      touched source changed n = true ∧
        ((descends maxChunkTokens source boundary changed n = true ∧
          piece ∈ emittedMembers source boundary changed n) ∨
        (descends maxChunkTokens source boundary changed n = false ∧
          n.tokens source ≤ maxChunkTokens ∧ piece = .whole n)) := by
  unfold scopedPieces
  cases touched source changed n with
  | false => simp
  | true =>
    cases descends maxChunkTokens source boundary changed n with
    | true => simp
    | false =>
      by_cases hbig : maxChunkTokens < n.tokens source
      · simp [hbig, Nat.not_le.2 hbig]
      · simp [hbig, Nat.le_of_not_lt hbig]

theorem mem_scopedSkips : m ∈ scopedSkips maxChunkTokens source boundary changed n ↔
    m = n ∧ touched source changed n = true ∧ maxChunkTokens < n.tokens source ∧
      descends maxChunkTokens source boundary changed n = false := by
  unfold scopedSkips
  split_ifs with h
  · simp only [Bool.and_eq_true, decide_eq_true_eq, Bool.not_eq_true'] at h
    rw [List.mem_singleton]
    exact ⟨fun hm => ⟨hm, h.1.1, h.1.2, h.2⟩, fun hm => hm.1⟩
  · simp only [List.not_mem_nil, false_iff]
    rintro ⟨-, ht, hbig, hd⟩
    exact h (by simp [ht, hbig, hd])

theorem packed_chunkChangedNode {s : Packer Piece Node} {added : List Piece} {alone : List Node}
    {strict : Piece → Bool}
    (h : s.Packed maxChunkTokens (Piece.tokens source) strict added alone) (n : Node) :
    (chunkChangedNode maxChunkTokens source boundary changed s n).Packed maxChunkTokens
      (Piece.tokens source) strict (added ++ scopedPieces maxChunkTokens source boundary changed n)
      (alone ++ scopedSkips maxChunkTokens source boundary changed n) := by
  unfold chunkChangedNode scopedPieces scopedSkips descends
  cases touched source changed n with
  | false => simpa using h
  | true =>
    cases hclass : n.isOversizedClass maxChunkTokens source with
    | true =>
      cases hmembers : (emittedMembers source boundary changed n).isEmpty with
      | false => simpa [hmembers] using h.addAll (emittedMembers source boundary changed n)
      | true =>
        have hbig : maxChunkTokens < n.tokens source := by
          simpa using (Bool.and_eq_true_iff.1 hclass).2
        simpa [hmembers, hbig] using h.flush.send n
    | false =>
      by_cases hbig : maxChunkTokens < n.tokens source
      · simpa [hbig] using h.flush.send n
      · simpa [hbig] using h.add (.whole n)

theorem packed_chunkChangedNodes (changed : List ℕ) {s : Packer Piece Node}
    {added : List Piece} {alone : List Node} {strict : Piece → Bool}
    (h : s.Packed maxChunkTokens (Piece.tokens source) strict added alone) (ns : List Node) :
    (ns.foldl (chunkChangedNode maxChunkTokens source boundary changed) s).Packed maxChunkTokens
      (Piece.tokens source) strict
      (added ++ ns.flatMap (scopedPieces maxChunkTokens source boundary changed))
      (alone ++ ns.flatMap (scopedSkips maxChunkTokens source boundary changed)) := by
  induction ns generalizing s added alone with
  | nil => simpa using h
  | cons n ns ih => simpa using ih (packed_chunkChangedNode h n)

/-- The cut of the unscoped packer closes no empty chunk. -/
theorem cut_eq_add {s : Packer Node Single} {added : List Node} {alone : List Single}
    {strict : Node → Bool}
    (h : s.Packed maxChunkTokens (Node.tokens source) strict added alone)
    (hfit : n.tokens source ≤ maxChunkTokens) :
    (if maxChunkTokens < s.load + n.tokens source then
      ⟨s.sent ++ [.group s.pending], [n], n.tokens source⟩
    else s.push (Node.tokens source) n) = s.add maxChunkTokens (Node.tokens source) n := by
  unfold Packer.add
  by_cases hcut : maxChunkTokens < s.load + n.tokens source
  · have hne : s.pending.isEmpty = false := by
      rw [List.isEmpty_eq_false_iff]
      intro hnil
      have hload := h.load
      rw [hnil, List.map_nil, List.sum_nil] at hload
      omega
    rw [if_pos hcut, hne, if_pos (by simpa using hcut), Packer.flush, hne]
    simp [Packer.push]
  · rw [if_neg hcut, if_neg (by simp [hcut])]

theorem packed_chunkNode {s : Packer Node Single} {added : List Node} {alone : List Single}
    (h : s.Packed maxChunkTokens (Node.tokens source) (fun n => n.type ∈ boundary) added alone)
    (n : Node) :
    (chunkNode maxChunkTokens source boundary s n).Packed maxChunkTokens (Node.tokens source)
      (fun n => n.type ∈ boundary)
      (added ++ if setAside maxChunkTokens source boundary n then [] else [n])
      (alone ++ unscopedSingles maxChunkTokens source boundary n) := by
  unfold chunkNode unscopedSingles setAside
  by_cases hb : n.type ∈ boundary
  · by_cases hbig : maxChunkTokens < n.tokens source
    · cases hmembers : (allMembers boundary n).isEmpty with
      | true => simpa [hb, hbig, hmembers] using h.send (.skip n)
      | false =>
        simpa [hb, hbig, hmembers] using h.sendAll ((allMembers boundary n).map Single.member)
    · have hadd := h.add n
      rw [← cut_eq_add h (Nat.le_of_not_lt hbig)] at hadd
      simpa [hb, hbig] using hadd
  · have hpush : s.pending ≠ [] → decide (n.type ∈ boundary) = true →
        s.load + n.tokens source ≤ maxChunkTokens := by
      intro _ hmem
      exact absurd (of_decide_eq_true hmem) hb
    simpa [hb] using h.push hpush

theorem packed_chunkNodes {s : Packer Node Single} {added : List Node} {alone : List Single}
    (h : s.Packed maxChunkTokens (Node.tokens source) (fun n => n.type ∈ boundary) added alone)
    (ns : List Node) :
    (ns.foldl (chunkNode maxChunkTokens source boundary) s).Packed maxChunkTokens
      (Node.tokens source) (fun n => n.type ∈ boundary)
      (added ++ ns.filter fun n => !setAside maxChunkTokens source boundary n)
      (alone ++ ns.flatMap (unscopedSingles maxChunkTokens source boundary)) := by
  induction ns generalizing s added alone with
  | nil => simpa using h
  | cons n ns ih =>
    have hrest := ih (packed_chunkNode h n)
    cases hset : setAside maxChunkTokens source boundary n <;>
      simpa [hset] using hrest

variable (maxChunkTokens) (source) (boundary)

/-- What the scoped path returns for a tree without errors. -/
theorem exists_packed_scoped (changed : List ℕ) {tree : Tree} (hok : tree.hasError = false) :
    ∃ s : Packer Piece Node,
      chunkChangedNodes maxChunkTokens source boundary tree changed = s.sent ∧
      s.groups.flatten =
        tree.root.children.flatMap (scopedPieces maxChunkTokens source boundary changed) ∧
      s.singles = tree.root.children.flatMap (scopedSkips maxChunkTokens source boundary changed) ∧
      ∀ g ∈ s.groups, g ≠ [] ∧
        Packer.Fits maxChunkTokens (Piece.tokens source) (fun _ => true) g := by
  have hempty : (Packer.empty : Packer Piece Node).Packed maxChunkTokens (Piece.tokens source)
      (fun _ => true) [] [] := Packer.packed_empty
  refine ⟨_, ?_, (packed_chunkChangedNodes changed hempty tree.root.children).finish⟩
  rw [chunkChangedNodes, hok]
  rfl

/-- What the unscoped path returns. -/
theorem exists_packed_unscoped (tree : Tree) :
    ∃ s : Packer Node Single, chunkNodes maxChunkTokens source boundary tree = s.sent ∧
      s.groups.flatten =
        (tree.root.children.filter fun n => !setAside maxChunkTokens source boundary n) ∧
      s.singles = tree.root.children.flatMap (unscopedSingles maxChunkTokens source boundary) ∧
      ∀ g ∈ s.groups, g ≠ [] ∧
        Packer.Fits maxChunkTokens (Node.tokens source) (fun n => n.type ∈ boundary) g := by
  have hempty : (Packer.empty : Packer Node Single).Packed maxChunkTokens (Node.tokens source)
      (fun n => n.type ∈ boundary) [] [] := Packer.packed_empty
  exact ⟨_, rfl, (packed_chunkNodes hempty tree.root.children).finish⟩

variable {maxChunkTokens} {source} {boundary}

theorem flatMap_ite {α β : Type*} (p : α → Bool) (f : α → β) (as : List α) :
    (as.flatMap fun a => if p a then [f a] else []) = (as.filter p).map f := by
  induction as with
  | nil => rfl
  | cons a as ih => cases hp : p a <;> simp [hp, ih]

section Fitting

variable {tree : Tree} (hfit : ∀ n ∈ tree.root.children, n.tokens source ≤ maxChunkTokens)

include hfit

theorem unscoped_partition (boundary : List String) :
    ∃ groups : List (List Node),
      chunkNodes maxChunkTokens source boundary tree = groups.map .group ∧
      groups.flatten = tree.root.children ∧ ∀ g ∈ groups, g ≠ [] := by
  obtain ⟨s, hs, hflat, hsingles, hgroups⟩ :=
    exists_packed_unscoped maxChunkTokens source boundary tree
  have hkeep : ∀ n ∈ tree.root.children, setAside maxChunkTokens source boundary n = false := by
    intro n hn
    simp [setAside, Nat.not_lt.2 (hfit n hn)]
  have hnone : tree.root.children.flatMap (unscopedSingles maxChunkTokens source boundary) = [] := by
    apply List.flatMap_eq_nil_iff.2
    intro n hn
    simp [unscopedSingles, hkeep n hn]
  refine ⟨s.groups, ?_, ?_, fun g hg => (hgroups g hg).1⟩
  · rw [hs]
    exact Packer.sent_eq_groups (hsingles.trans hnone)
  · rw [hflat]
    exact List.filter_eq_self.2 fun n hn => by simp [hkeep n hn]

theorem scoped_partition (boundary : List String) (hok : tree.hasError = false) (changed : List ℕ) :
    ∃ groups : List (List Node),
      chunkChangedNodes maxChunkTokens source boundary tree changed =
        groups.map (fun g => .group (g.map .whole)) ∧
      groups.flatten = (tree.root.children.filter fun n => touched source changed n) ∧
      ∀ g ∈ groups, g ≠ [] := by
  obtain ⟨s, hs, hflat, hsingles, hgroups⟩ :=
    exists_packed_scoped maxChunkTokens source boundary changed hok
  have hpieces : tree.root.children.flatMap (scopedPieces maxChunkTokens source boundary changed) =
      (tree.root.children.filter fun n => touched source changed n).map Piece.whole := by
    rw [← flatMap_ite]
    apply List.flatMap_congr
    intro n hn
    have hsmall := Nat.not_lt.2 (hfit n hn)
    simp [scopedPieces, descends, Node.isOversizedClass, hsmall]
  have hnone : tree.root.children.flatMap (scopedSkips maxChunkTokens source boundary changed) =
      [] := by
    apply List.flatMap_eq_nil_iff.2
    intro n hn
    simp [scopedSkips, Nat.not_lt.2 (hfit n hn)]
  obtain ⟨groups, hmap, hnodes⟩ := Packer.exists_groups_of_flatten_map (hflat.trans hpieces)
  refine ⟨groups, ?_, hnodes, ?_⟩
  · rw [hs, Packer.sent_eq_groups (hsingles.trans hnone), hmap, List.map_map]
    rfl
  · intro g hg hnil
    exact (hgroups (g.map .whole) (by rw [hmap]; exact List.mem_map.2 ⟨g, hg, rfl⟩)).1
      (by rw [hnil, List.map_nil])

end Fitting

end Chunking

/-- The text of an unscoped chunk that is not empty: the header and its nodes' texts on lines of
their own. -/
theorem unscopedText_group (path source : String) {g : List Node} (h : g ≠ []) :
    unscopedText path source (.group g) =
      "FILE: " ++ path ++ "\n" ++ joinTexts "\n" (g.map (Node.text source)) := by
  cases g with
  | nil => exact absurd rfl h
  | cons n ns => rfl

theorem header_ne (path body : String) : "FILE: " ++ path ++ "\n" ++ body ≠ "FILE: " ++ path := by
  intro heq
  have hlength := congrArg String.length heq
  simp only [String.length_append] at hlength
  have hsep : ("\n" : String).length = 1 := rfl
  omega

/-- If every top-level node fits the budget, the texts of either path's chunks are a header and the
texts of some nodes each: of every node on the unscoped path, of the touched ones on the scoped
path, once and in order. No chunk is only a header. -/
theorem chunks_partition_nodes {maxChunkTokens : ℕ} {source path : String} {boundary : List String}
    {tree : Tree} (hfit : ∀ n ∈ tree.root.children, n.tokens source ≤ maxChunkTokens) :
    (∃ groups : List (List Node),
      (chunkNodes maxChunkTokens source boundary tree).map (unscopedText path source) =
        groups.map (fun g => "FILE: " ++ path ++ "\n" ++ joinTexts "\n" (g.map (Node.text source))) ∧
      groups.flatten = tree.root.children ∧ ∀ g ∈ groups, g ≠ []) ∧
    (∀ chunk ∈ chunkNodes maxChunkTokens source boundary tree,
      unscopedText path source chunk ≠ "FILE: " ++ path) ∧
    ∀ changed, tree.hasError = false →
      (∃ groups : List (List Node),
        (chunkChangedNodes maxChunkTokens source boundary tree changed).map (scopedText path source) =
          groups.map (fun g =>
            "FILE: " ++ path ++ "\n" ++ joinTexts "\n\n" (g.map (Node.text source))) ∧
        groups.flatten = (tree.root.children.filter fun n => touched source changed n) ∧
        ∀ g ∈ groups, g ≠ []) ∧
      ∀ chunk ∈ chunkChangedNodes maxChunkTokens source boundary tree changed,
        scopedText path source chunk ≠ "FILE: " ++ path := by
  refine ⟨?_, ?_, fun changed hok => ⟨?_, ?_⟩⟩
  · obtain ⟨groups, hchunks, hflat, hne⟩ := unscoped_partition hfit boundary
    refine ⟨groups, ?_, hflat, hne⟩
    rw [hchunks, List.map_map]
    exact List.map_congr_left fun g hg => unscopedText_group path source (hne g hg)
  · obtain ⟨groups, hchunks, -, hne⟩ := unscoped_partition hfit boundary
    intro chunk hchunk
    rw [hchunks] at hchunk
    obtain ⟨g, hg, rfl⟩ := List.mem_map.1 hchunk
    rw [unscopedText_group path source (hne g hg)]
    exact header_ne path _
  · obtain ⟨groups, hchunks, hflat, hne⟩ := scoped_partition hfit boundary hok changed
    refine ⟨groups, ?_, hflat, hne⟩
    rw [hchunks, List.map_map]
    refine List.map_congr_left fun g _ => ?_
    have htexts : (g.map Piece.whole).map (Piece.text source) = g.map (Node.text source) := by
      rw [List.map_map]
      rfl
    rw [Function.comp_apply, scopedText, htexts]
  · obtain ⟨groups, hchunks, -, -⟩ := scoped_partition hfit boundary hok changed
    intro chunk hchunk
    rw [hchunks] at hchunk
    obtain ⟨g, -, rfl⟩ := List.mem_map.1 hchunk
    exact header_ne path _

namespace Sample

def twoFunctions : String := "def f():\n    pass\n\ndef g():\n    pass\n"

/-- A function that starts at a byte, with its name after `def`. -/
def functionAt (start : ℕ) : Node :=
  .mk "function_definition" none ⟨start, start + 17⟩
    [.mk "identifier" (some "name") ⟨start + 4, start + 5⟩ [],
      .mk "block" (some "body") ⟨start + 13, start + 17⟩ []]

def twoFunctionsTree : Tree where
  root := .mk "module" none ⟨0, 37⟩ [functionAt 0, functionAt 19]
  hasError := false
  laidOut := by decide

end Sample

/-- The change on line 4 touches the second function only. -/
theorem chunks_partition_nodes_twoFunctions :
    (∀ n ∈ Sample.twoFunctionsTree.root.children, n.tokens Sample.twoFunctions ≤ 4) ∧
    (∃ groups : List (List Node),
      (chunkNodes 4 Sample.twoFunctions ["function_definition"] Sample.twoFunctionsTree).map
          (unscopedText "a.py" Sample.twoFunctions) =
        groups.map (fun g => "FILE: " ++ "a.py" ++ "\n" ++
          joinTexts "\n" (g.map (Node.text Sample.twoFunctions))) ∧
      groups.flatten = Sample.twoFunctionsTree.root.children ∧ ∀ g ∈ groups, g ≠ []) ∧
    Sample.twoFunctionsTree.hasError = false ∧
    (Sample.twoFunctionsTree.root.children.filter fun n => touched Sample.twoFunctions [4] n) =
      [Sample.functionAt 19] ∧
    ∃ groups : List (List Node),
      (chunkChangedNodes 4 Sample.twoFunctions ["function_definition"] Sample.twoFunctionsTree
          [4]).map (scopedText "a.py" Sample.twoFunctions) =
        groups.map (fun g => "FILE: " ++ "a.py" ++ "\n" ++
          joinTexts "\n\n" (g.map (Node.text Sample.twoFunctions))) ∧
      groups.flatten =
        (Sample.twoFunctionsTree.root.children.filter fun n => touched Sample.twoFunctions [4] n) ∧
      ∀ g ∈ groups, g ≠ [] := by
  have hfit : ∀ n ∈ Sample.twoFunctionsTree.root.children, n.tokens Sample.twoFunctions ≤ 4 := by
    decide
  have h := @chunks_partition_nodes 4 Sample.twoFunctions "a.py" ["function_definition"]
    Sample.twoFunctionsTree hfit
  exact ⟨hfit, h.1, rfl, rfl, (h.2.2 [4] rfl).1⟩

end Revix
