import Revix.ChunkPartition

namespace Revix
open GreedyPacking

/-- The spans of the source that a piece carries. Its header goes without the white space at its
end. -/
def Piece.spans : Piece → List Span
  | .whole n => [n.span]
  | .member cls body sub => [headerSpan cls body, sub.span]

/-- The text of some spans, each on lines of its own. All but the last go without the white space
at their ends. -/
def spansText (source : String) : List Span → String
  | [] => ""
  | [s] => s.text source
  | s :: rest => rstrip (s.text source) ++ "\n" ++ spansText source rest

theorem Piece.text_eq_spansText (source : String) (piece : Piece) :
    piece.text source = spansText source piece.spans := by
  cases piece with
  | whole n => rfl
  | member cls body sub => rfl

/-- A chunk of pieces is sent as a header and the texts of their spans. -/
theorem scopedText_group (path source : String) (pieces : List Piece) :
    scopedText path source (.group pieces) = "FILE: " ++ path ++ "\n" ++
      joinTexts "\n\n" (pieces.map fun piece => spansText source piece.spans) := by
  rw [scopedText, funext (Piece.text_eq_spansText source)]

def Piece.carries (piece : Piece) (p : Position) : Bool := piece.spans.any fun s => s.holds p

def Carried (chunks : List (Parcel Piece Node)) (p : Position) : Prop :=
  ∃ pieces, .group pieces ∈ chunks ∧ ∃ piece ∈ pieces, piece.carries p = true

/-- The part of the line inside the node is in text that the chunks carry. White space does not
count. -/
def LineShown (chunks : List (Parcel Piece Node)) (source : String) (n : Node) (line : ℕ) : Prop :=
  ∀ p ∈ positions source, p.row + 1 = line → n.span.holds p = true → isSpace p.char = false →
    Carried chunks p

section Coverage

variable {maxChunkTokens : ℕ} {source : String} {boundary : List String} {tree : Tree}
  {changed : List ℕ} {n m : Node} {p : Position}

/-- A node that holds a character of a changed line is touched. -/
theorem touched_of_holds (hp : p ∈ positions source) (hline : p.row + 1 ∈ changed)
    (h : n.span.holds p = true) : touched source changed n = true := by
  obtain ⟨hstart, hend⟩ := row_of_holds hp h
  exact touched_iff.2 ⟨_, hline, Nat.succ_le_succ hstart, Nat.succ_le_succ hend⟩

/-- A class that is descended into contributes its touched members of the boundary kinds. -/
theorem Descended.member_mem {body sub : Node}
    (h : Descended maxChunkTokens source boundary changed n body)
    (ht : touched source changed n = true) (hsub : sub ∈ body.children) (htype : sub.type ∈ boundary)
    (hts : touched source changed sub = true) :
    Piece.member n body sub ∈ scopedPieces maxChunkTokens source boundary changed n := by
  have hmember := mem_emittedMembers.2 ⟨body, h.2.1, sub, hsub, htype, hts, rfl⟩
  exact mem_scopedPieces.2 ⟨ht, .inl ⟨descends_iff.2 ⟨body, h⟩, hmember⟩⟩

variable (hok : tree.hasError = false)

include hok

/-- The pieces of the chunks are those of the top-level nodes. -/
theorem mem_group_iff {piece : Piece} :
    (∃ pieces, .group pieces ∈ chunkChangedNodes maxChunkTokens source boundary tree changed ∧
      piece ∈ pieces) ↔
      ∃ n ∈ tree.root.children, piece ∈ scopedPieces maxChunkTokens source boundary changed n := by
  obtain ⟨s, hs, hflat, -, -⟩ := exists_packed_scoped maxChunkTokens source boundary changed hok
  rw [hs, ← List.mem_flatMap, ← hflat, List.mem_flatten]
  exact exists_congr fun pieces => and_congr Packer.mem_groups.symm Iff.rfl

/-- The chunks carry what the pieces of the top-level nodes carry. -/
theorem carried_iff :
    Carried (chunkChangedNodes maxChunkTokens source boundary tree changed) p ↔
      ∃ n ∈ tree.root.children, ∃ piece ∈ scopedPieces maxChunkTokens source boundary changed n,
        piece.carries p = true := by
  constructor
  · rintro ⟨pieces, hchunk, piece, hmem, hp⟩
    obtain ⟨n, hn, hpiece⟩ := (mem_group_iff hok).1 ⟨pieces, hchunk, hmem⟩
    exact ⟨n, hn, piece, hpiece, hp⟩
  · rintro ⟨n, hn, piece, hpiece, hp⟩
    obtain ⟨pieces, hchunk, hmem⟩ := (mem_group_iff hok).2 ⟨n, hn, hpiece⟩
    exact ⟨pieces, hchunk, piece, hmem, hp⟩

/-- The notices are those of the nodes that are neither packed nor descended into. -/
theorem reported_iff :
    .single m ∈ chunkChangedNodes maxChunkTokens source boundary tree changed ↔
      m ∈ tree.root.children ∧ touched source changed m = true ∧
        maxChunkTokens < m.tokens source ∧
        descends maxChunkTokens source boundary changed m = false := by
  obtain ⟨s, hs, -, hsingles, -⟩ := exists_packed_scoped maxChunkTokens source boundary changed hok
  rw [hs, ← Packer.mem_singles, hsingles, List.mem_flatMap]
  constructor
  · rintro ⟨n, hn, hm⟩
    obtain ⟨rfl, h⟩ := mem_scopedSkips.1 hm
    exact ⟨hn, h⟩
  · rintro ⟨hm, h⟩
    exact ⟨m, hm, mem_scopedSkips.2 ⟨rfl, h⟩⟩

omit hok

/-- A piece carries nothing from outside its top-level node. -/
theorem holds_of_carries {piece : Piece} (hn : n.laidOut = true)
    (hpiece : piece ∈ scopedPieces maxChunkTokens source boundary changed n)
    (hp : piece.carries p = true) : n.span.holds p = true := by
  rcases (mem_scopedPieces.1 hpiece).2 with ⟨-, hmember⟩ | ⟨-, -, rfl⟩
  · obtain ⟨body, hbody, sub, hsub, -, -, rfl⟩ := mem_emittedMembers.1 hmember
    obtain ⟨hstart, hstop, hlaid⟩ := Node.child_bounds hn (Node.childByFieldName_mem hbody)
    obtain ⟨hstart', hstop', -⟩ := Node.child_bounds hlaid hsub
    have hle := (Node.laidOut_iff.1 hlaid).1
    simp only [Piece.carries, Piece.spans, List.any_cons, List.any_nil, Bool.or_false,
      Bool.or_eq_true, holds_iff, headerSpan] at hp
    rw [holds_iff]
    omega
  · simpa [Piece.carries, Piece.spans] using hp

/-- Two top-level nodes have no character in common. -/
theorem eq_of_holds (hn : n ∈ tree.root.children) (hm : m ∈ tree.root.children)
    (hp : n.span.holds p = true) (hp' : m.span.holds p = true) : n = m := by
  have hpair := Node.children_pairwise tree.laidOut
  have hlt : ∀ {a b : Node}, a.span.stop ≤ b.span.start → a.span.holds p = true →
      b.span.holds p = true → False := by
    intro a b hab ha hb
    have ha' := holds_iff.1 ha
    have hb' := holds_iff.1 hb
    omega
  have hforward : tree.root.children.Pairwise fun a b => a.span.holds p = true →
      b.span.holds p = true → a = b := hpair.imp fun hab ha hb => (hlt hab ha hb).elim
  have hbackward : tree.root.children.Pairwise (flip fun a b => a.span.holds p = true →
      b.span.holds p = true → a = b) := hpair.imp fun hab ha hb => (hlt hab hb ha).elim
  exact List.Pairwise.forall_of_forall_of_flip (fun _ _ _ _ => rfl) hforward hbackward hn hm hp hp'

/-- A changed line is dropped if it is in a top-level node that no notice reports, and shown in no
chunk. -/
def NothingDropped (maxChunkTokens : ℕ) (source : String) (boundary : List String) (tree : Tree)
    (changed : List ℕ) : Prop :=
  ∀ line ∈ changed, ∀ n ∈ tree.root.children,
    n.startRow source + 1 ≤ line → line ≤ n.endRow source + 1 →
      .single n ∈ chunkChangedNodes maxChunkTokens source boundary tree changed ∨
      LineShown (chunkChangedNodes maxChunkTokens source boundary tree changed) source n line

/-- In the classes that are descended into, the changed lines are those of the header and of
members of the boundary kinds. -/
def MembersCover (maxChunkTokens : ℕ) (source : String) (boundary : List String) (tree : Tree)
    (changed : List ℕ) : Prop :=
  ∀ n ∈ tree.root.children, ∀ body, Descended maxChunkTokens source boundary changed n body →
    ∀ p ∈ positions source, p.row + 1 ∈ changed → n.span.holds p = true → isSpace p.char = false →
      p.offset < body.span.start ∨
        ∃ sub ∈ body.children, sub.type ∈ boundary ∧ sub.span.holds p = true

include hok

theorem nothingDropped_of_membersCover
    (hcover : MembersCover maxChunkTokens source boundary tree changed) :
    NothingDropped maxChunkTokens source boundary tree changed := by
  intro line hline n hn hstart hend
  have ht : touched source changed n = true := touched_iff.2 ⟨line, hline, hstart, hend⟩
  cases hd : descends maxChunkTokens source boundary changed n with
  | true =>
    right
    intro p hp hrow hin hvisible
    obtain ⟨body, hdesc⟩ := descends_iff.1 hd
    have hchanged : p.row + 1 ∈ changed := hrow ▸ hline
    refine (carried_iff hok).2 ⟨n, hn, ?_⟩
    rcases hcover n hn body hdesc p hp hchanged hin hvisible with hheader | ⟨sub, hsub, htype, hs⟩
    · -- the header is repeated with every member
      obtain ⟨sub, hsub, htype, hts⟩ := hdesc.2.2
      refine ⟨_, hdesc.member_mem ht hsub htype hts, ?_⟩
      have hh : (headerSpan n body).holds p = true := holds_iff.2 ⟨(holds_iff.1 hin).1, hheader⟩
      simp [Piece.carries, Piece.spans, hh]
    · refine ⟨_, hdesc.member_mem ht hsub htype (touched_of_holds hp hchanged hs), ?_⟩
      simp [Piece.carries, Piece.spans, hs]
  | false =>
    by_cases hbig : maxChunkTokens < n.tokens source
    · exact .inl ((reported_iff hok).2 ⟨hn, ht, hbig, hd⟩)
    · right
      intro p _ _ hin _
      refine (carried_iff hok).2 ⟨n, hn, .whole n,
        mem_scopedPieces.2 ⟨ht, .inr ⟨hd, Nat.le_of_not_lt hbig, rfl⟩⟩, ?_⟩
      simpa [Piece.carries, Piece.spans] using hin

theorem membersCover_of_nothingDropped
    (hdropped : NothingDropped maxChunkTokens source boundary tree changed) :
    MembersCover maxChunkTokens source boundary tree changed := by
  intro n hn body hdesc p hp hchanged hin hvisible
  have hd : descends maxChunkTokens source boundary changed n = true := descends_iff.2 ⟨body, hdesc⟩
  obtain ⟨hstart, hend⟩ := row_of_holds hp hin
  rcases hdropped _ hchanged n hn (Nat.succ_le_succ hstart) (Nat.succ_le_succ hend) with
    hskip | hshown
  · rw [((reported_iff hok).1 hskip).2.2.2] at hd
    cases hd
  · obtain ⟨m, hm, piece, hpiece, hcarries⟩ := (carried_iff hok).1 (hshown p hp rfl hin hvisible)
    have hlaid := (Node.child_bounds tree.laidOut hm).2.2
    obtain rfl := eq_of_holds hn hm hin (holds_of_carries hlaid hpiece hcarries)
    rcases (mem_scopedPieces.1 hpiece).2 with ⟨-, hmember⟩ | ⟨hnot, -⟩
    · obtain ⟨body', hbody', sub, hsub, htype, -, rfl⟩ := mem_emittedMembers.1 hmember
      obtain rfl : body = body' := Option.some.inj (hdesc.2.1.symm.trans hbody')
      simp only [Piece.carries, Piece.spans, List.any_cons, List.any_nil, Bool.or_false,
        Bool.or_eq_true] at hcarries
      rcases hcarries with hheader | hs
      · exact .inl (holds_iff.1 hheader).2
      · exact .inr ⟨sub, hsub, htype, hs⟩
    · rw [hd] at hnot
      cases hnot

end Coverage

/-- No change is dropped silently exactly if, in every class that is descended into, each changed
line is one of the header or of a member of a boundary kind. What a chunk carries is what its text
repeats. -/
theorem nothing_dropped_iff_members_cover {maxChunkTokens : ℕ} {source : String}
    {boundary : List String} {tree : Tree} (hok : tree.hasError = false) (changed : List ℕ) :
    (NothingDropped maxChunkTokens source boundary tree changed ↔
      MembersCover maxChunkTokens source boundary tree changed) ∧
    ∀ path pieces, .group pieces ∈ chunkChangedNodes maxChunkTokens source boundary tree changed →
      scopedText path source (.group pieces) = "FILE: " ++ path ++ "\n" ++
        joinTexts "\n\n" (pieces.map fun piece => spansText source piece.spans) :=
  ⟨⟨membersCover_of_nothingDropped hok, nothingDropped_of_membersCover hok⟩,
    fun path pieces _ => scopedText_group path source pieces⟩

namespace Sample

def classSource : String := "class A:\n    limit = 1\n    def b(self):\n        pass\n"

def methodNode : Node :=
  .mk "function_definition" none ⟨27, 52⟩
    [.mk "identifier" (some "name") ⟨31, 32⟩ [], .mk "block" (some "body") ⟨48, 52⟩ []]

def classBody : Node :=
  .mk "block" (some "body") ⟨13, 52⟩ [.mk "expression_statement" none ⟨13, 22⟩ [], methodNode]

def classNode : Node :=
  .mk "class_definition" none ⟨0, 52⟩ [.mk "identifier" (some "name") ⟨6, 7⟩ [], classBody]

def methodPiece : Piece := .member classNode classBody methodNode

def classTree : Tree where
  root := .mk "module" none ⟨0, 53⟩ [classNode]
  hasError := false
  laidOut := by decide

/-- The patch changes the attribute on line 2 and the body of the method on line 4. -/
def classPatch : String :=
  "@@ -1,4 +1,4 @@\n class A:\n-    limit = 0\n+    limit = 1\n     def b(self):\n-        return\n+        pass"

theorem changed_classPatch : parseChangedLines classPatch = [2, 2, 4, 4] := by decide

/-- The class is emitted as its one touched method. -/
theorem chunkByAst_class : chunkByAst (fun _ _ => classTree) 10 "a.py" classSource classPatch =
    ["FILE: a.py\nclass A:\ndef b(self):\n        pass"] := by
  have htree : Parser.tree? (fun _ _ => classTree) "a.py" classSource = some classTree :=
    if_pos (by decide)
  rw [chunkByAst, htree]
  dsimp only
  rw [changed_classPatch]
  decide

end Sample

theorem nothing_dropped_iff_members_cover_class :
    Sample.classTree.hasError = false ∧
      (NothingDropped 10 Sample.classSource (boundaryTypes ".py") Sample.classTree [4] ↔
        MembersCover 10 Sample.classSource (boundaryTypes ".py") Sample.classTree [4]) ∧
      scopedText "a.py" Sample.classSource (.group [Sample.methodPiece]) = "FILE: " ++ "a.py" ++
        "\n" ++ joinTexts "\n\n"
          ([Sample.methodPiece].map fun piece => spansText Sample.classSource piece.spans) := by
  have h := @nothing_dropped_iff_members_cover 10 Sample.classSource (boundaryTypes ".py")
    Sample.classTree rfl [4]
  exact ⟨rfl, h.1, h.2 "a.py" [Sample.methodPiece] (.head _)⟩

/-- The class is emitted as its one touched method, and the changed attribute is in no chunk. -/
theorem attribute_dropped :
    chunkByAst (fun _ _ => Sample.classTree) 10 "a.py" Sample.classSource Sample.classPatch =
        ["FILE: a.py\nclass A:\ndef b(self):\n        pass"] ∧
      ¬NothingDropped 10 Sample.classSource (boundaryTypes ".py") Sample.classTree
        (parseChangedLines Sample.classPatch) := by
  constructor
  · exact Sample.chunkByAst_class
  · intro hdropped
    rw [Sample.changed_classPatch] at hdropped
    have hcover := membersCover_of_nothingDropped rfl hdropped
    have hdesc : Descended 10 Sample.classSource (boundaryTypes ".py") [2, 2, 4, 4] Sample.classNode
        Sample.classBody := by
      refine ⟨by decide, rfl, Sample.methodNode, ?_, by decide, by decide⟩
      exact .tail _ (.head _)
    have hfirst := hcover Sample.classNode (.head _) Sample.classBody hdesc ⟨13, 1, 'l'⟩
      (by decide) (by decide) (by decide) (by decide)
    rcases hfirst with hlt | ⟨sub, hsub, htype, hs⟩
    · exact absurd hlt (by decide)
    · rcases List.mem_cons.1 hsub with rfl | hsub
      · exact absurd htype (by decide)
      · obtain rfl := List.mem_singleton.1 hsub
        exact absurd hs (by decide)

end Revix
