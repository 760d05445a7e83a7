import Revix.ChunkCoverage

/-! How far the text of a chunk can exceed the budget: the packers add up rounded estimates of the
pieces, and look at the budget only where they may close a chunk. -/
namespace Revix
open GreedyPacking

def withoutHeader (path text : String) : String :=
  String.ofList (text.toList.drop ("FILE: " ++ path ++ "\n").toList.length)

theorem withoutHeader_append (path body : String) :
    withoutHeader path ("FILE: " ++ path ++ "\n" ++ body) = body := by
  have hsplit : ("FILE: " ++ path ++ "\n" ++ body).toList =
      ("FILE: " ++ path ++ "\n").toList ++ body.toList := String.toList_append
  rw [withoutHeader, hsplit, List.drop_left, String.ofList_toList]

theorem length_joinTexts (sep text : String) (texts : List String) :
    (joinTexts sep (text :: texts)).length =
      ((text :: texts).map String.length).sum + sep.length * texts.length := by
  induction texts generalizing text with
  | nil => simp [joinTexts]
  | cons t ts ih =>
    have hjoin : joinTexts sep (text :: t :: ts) = text ++ sep ++ joinTexts sep (t :: ts) := rfl
    rw [hjoin, String.length_append, String.length_append, ih]
    simp only [List.map_cons, List.sum_cons, List.length_cons, Nat.mul_succ]
    omega

/-- Rounding down loses less than one token for each piece. -/
theorem sum_length_le (texts : List String) :
    (texts.map String.length).sum ≤ 4 * (texts.map estimateTokens).sum + 3 * texts.length := by
  induction texts with
  | nil => simp
  | cons t ts ih =>
    simp only [List.map_cons, List.sum_cons, List.length_cons, estimateTokens] at ih ⊢
    omega

/-- A joined text is estimated at most at the sum of its parts' estimates and what rounding and
the separators add. -/
theorem estimate_joinTexts (sep : String) (texts : List String) :
    estimateTokens (joinTexts sep texts) ≤ (texts.map estimateTokens).sum +
      (3 * texts.length + sep.length * (texts.length - 1)) / 4 := by
  cases texts with
  | nil => simp [joinTexts, estimateTokens]
  | cons t ts =>
    have hlen := length_joinTexts sep t ts
    have hround := sum_length_le (t :: ts)
    simp only [estimateTokens, List.length_cons, Nat.add_sub_cancel] at *
    omega

section Chunking

variable {maxChunkTokens : ℕ} {source : String} {boundary : List String} {changed : List ℕ}
  {tree : Tree}

theorem mem_unscopedSingles {n : Node} {alone : Single}
    (h : alone ∈ unscopedSingles maxChunkTokens source boundary n) :
    setAside maxChunkTokens source boundary n = true ∧
      (alone = .skip n ∨ ∃ sub ∈ allMembers boundary n, alone = .member sub) := by
  unfold unscopedSingles at h
  split_ifs at h with hset hnone
  · exact ⟨hset, .inl (List.mem_singleton.1 h)⟩
  · obtain ⟨sub, hsub, rfl⟩ := List.mem_map.1 h
    exact ⟨hset, .inr ⟨sub, hsub, rfl⟩⟩
  · exact absurd h List.not_mem_nil

/-- A scoped chunk is the notice for a node above the budget, a single member of a class above it,
or within the budget. -/
theorem scoped_budget {chunk : Parcel Piece Node}
    (h : chunk ∈ chunkChangedNodes maxChunkTokens source boundary tree changed) :
    (∃ n, chunk = .single n ∧ n ∈ tree.root.children ∧ maxChunkTokens < n.tokens source) ∨
      (∃ cls body sub, chunk = .group [.member cls body sub] ∧ cls ∈ tree.root.children ∧
        Descended maxChunkTokens source boundary changed cls body ∧ sub ∈ body.children ∧
        sub.type ∈ boundary ∧ touched source changed sub = true) ∨
      ∃ pieces, chunk = .group pieces ∧ pieces ≠ [] ∧
        (pieces.map (Piece.tokens source)).sum ≤ maxChunkTokens := by
  cases hok : tree.hasError with
  | true =>
    rw [chunkChangedNodes, hok] at h
    exact absurd h List.not_mem_nil
  | false =>
    obtain ⟨s, hs, hflat, hsingles, hgroups⟩ :=
      exists_packed_scoped maxChunkTokens source boundary changed hok
    rw [hs] at h
    cases chunk with
    | single n =>
      have hmem := Packer.mem_singles.2 h
      rw [hsingles] at hmem
      obtain ⟨m, hm, hn⟩ := List.mem_flatMap.1 hmem
      obtain ⟨rfl, -, hbig, -⟩ := mem_scopedSkips.1 hn
      exact .inl ⟨n, rfl, hm, hbig⟩
    | group pieces =>
      have hmem := Packer.mem_groups.2 h
      obtain ⟨hne, hfits⟩ := hgroups pieces hmem
      rcases hfits.sum_le (fun _ _ => rfl) with hlen | hsum
      · obtain ⟨p, rfl⟩ : ∃ p, pieces = [p] := by
          cases pieces with
          | nil => exact absurd rfl hne
          | cons p ps =>
            have hnil := List.eq_nil_of_length_eq_zero (l := ps) (by simpa using hlen)
            exact ⟨p, by rw [hnil]⟩
        have hin : p ∈ s.groups.flatten :=
          List.mem_flatten.2 ⟨_, hmem, List.mem_singleton_self _⟩
        rw [hflat] at hin
        obtain ⟨n, hroot, hn⟩ := List.mem_flatMap.1 hin
        rcases (mem_scopedPieces.1 hn).2 with ⟨hd, hmember⟩ | ⟨-, hsmall, rfl⟩
        · obtain ⟨body, hbody, sub, hsub, htype, hts, rfl⟩ := mem_emittedMembers.1 hmember
          have hclass := (Bool.and_eq_true_iff.1 hd).1
          exact .inr (.inl ⟨n, body, sub, rfl, hroot,
            ⟨hclass, hbody, sub, hsub, htype, hts⟩, hsub, htype, hts⟩)
        · refine .inr (.inr ⟨_, rfl, hne, ?_⟩)
          simpa [Piece.tokens, Piece.text, Node.tokens] using hsmall
      · exact .inr (.inr ⟨pieces, rfl, hne, hsum⟩)

/-- An unscoped chunk is the notice for a node above the budget, a single member of a class above
it, or within the budget up to each of its boundary nodes. -/
theorem unscoped_budget {chunk : Parcel Node Single}
    (h : chunk ∈ chunkNodes maxChunkTokens source boundary tree) :
    (∃ n, chunk = .single (.skip n) ∧ n ∈ tree.root.children ∧
        setAside maxChunkTokens source boundary n = true) ∨
      (∃ cls sub, chunk = .single (.member sub) ∧ cls ∈ tree.root.children ∧
        setAside maxChunkTokens source boundary cls = true ∧ sub ∈ allMembers boundary cls) ∨
      ∃ nodes, chunk = .group nodes ∧ nodes ≠ [] ∧
        ∀ before n after, nodes = before ++ n :: after → n.type ∈ boundary →
          ((before ++ [n]).map (Node.tokens source)).sum ≤ maxChunkTokens := by
  obtain ⟨s, hs, hflat, hsingles, hgroups⟩ :=
    exists_packed_unscoped maxChunkTokens source boundary tree
  rw [hs] at h
  cases chunk with
  | group nodes =>
    have hmem := Packer.mem_groups.2 h
    obtain ⟨hne, hfits⟩ := hgroups nodes hmem
    refine .inr (.inr ⟨nodes, rfl, hne, ?_⟩)
    intro before n after heq hb
    cases before with
    | nil =>
      have hin : n ∈ s.groups.flatten := List.mem_flatten.2 ⟨nodes, hmem, by simp [heq]⟩
      rw [hflat] at hin
      have hsmall := (List.mem_filter.1 hin).2
      simpa [setAside, hb] using hsmall
    | cons b bs => exact hfits _ n after heq (by simp) (by simpa using hb)
  | single alone =>
    have hmem := Packer.mem_singles.2 h
    rw [hsingles] at hmem
    obtain ⟨n, hroot, hn⟩ := List.mem_flatMap.1 hmem
    obtain ⟨hset, rfl | ⟨sub, hsub, rfl⟩⟩ := mem_unscopedSingles hn
    · exact .inl ⟨n, rfl, hroot, hset⟩
    · exact .inr (.inl ⟨n, sub, rfl, hroot, hset, hsub⟩)

end Chunking

section Within

variable (maxChunkTokens : ℕ) (path source : String) (boundary : List String) (tree : Tree)

/-- The budget of a scoped chunk: over the estimates of its pieces, and with what rounding and the
separators add to the text. The notice for a node above the budget is exempt, and so is a single
member of a class above it. -/
def ScopedWithin (changed : List ℕ) : Parcel Piece Node → Prop
  | .single n => n ∈ tree.root.children ∧ maxChunkTokens < n.tokens source
  | .group pieces =>
      (∃ cls ∈ tree.root.children, ∃ body,
        Descended maxChunkTokens source boundary changed cls body ∧ ∃ sub ∈ body.children,
          sub.type ∈ boundary ∧ touched source changed sub = true ∧
            pieces = [.member cls body sub]) ∨
      ((pieces.map (Piece.tokens source)).sum ≤ maxChunkTokens ∧
        estimateTokens (withoutHeader path (scopedText path source (.group pieces))) ≤
          maxChunkTokens + (5 * pieces.length - 2) / 4)

/-- The budget of an unscoped chunk: over the estimates of the nodes up to each boundary node. The
notice for a boundary node above the budget is exempt, and so is each member of a class above it. -/
def UnscopedWithin : Parcel Node Single → Prop
  | .single (.skip n) => n ∈ tree.root.children ∧ setAside maxChunkTokens source boundary n = true
  | .single (.member sub) =>
      ∃ cls ∈ tree.root.children, setAside maxChunkTokens source boundary cls = true ∧
        sub ∈ allMembers boundary cls
  | .group nodes =>
      (∀ before n after, nodes = before ++ n :: after → n.type ∈ boundary →
        ((before ++ [n]).map (Node.tokens source)).sum ≤ maxChunkTokens) ∧
      estimateTokens (withoutHeader path (unscopedText path source (.group nodes))) ≤
        (nodes.map (Node.tokens source)).sum + (nodes.length - 1)

variable {maxChunkTokens} {source} {boundary} {tree}

theorem scopedWithin {changed : List ℕ} {chunk : Parcel Piece Node}
    (h : chunk ∈ chunkChangedNodes maxChunkTokens source boundary tree changed) :
    ScopedWithin maxChunkTokens path source boundary tree changed chunk := by
  rcases scoped_budget h with
    ⟨n, rfl, hn⟩ | ⟨cls, body, sub, rfl, hcls, hdesc, hsub, htype, hts⟩ |
      ⟨pieces, rfl, hne, hsum⟩
  · exact hn
  · exact .inl ⟨cls, hcls, body, hdesc, sub, hsub, htype, hts, rfl⟩
  · refine .inr ⟨hsum, ?_⟩
    have hjoin := estimate_joinTexts "\n\n" (pieces.map (Piece.text source))
    rw [List.map_map, List.length_map] at hjoin
    rw [scopedText, withoutHeader_append]
    have hpos := List.length_pos_iff.2 hne
    have hsep : ("\n\n" : String).length = 2 := rfl
    have hest : (pieces.map (estimateTokens ∘ Piece.text source)).sum ≤ maxChunkTokens := hsum
    rw [hsep] at hjoin
    omega

theorem unscopedWithin {chunk : Parcel Node Single}
    (h : chunk ∈ chunkNodes maxChunkTokens source boundary tree) :
    UnscopedWithin maxChunkTokens path source boundary tree chunk := by
  rcases unscoped_budget h with
    ⟨n, rfl, hn⟩ | ⟨cls, sub, rfl, hcls, hset, hsub⟩ | ⟨nodes, rfl, hne, hsum⟩
  · exact hn
  · exact ⟨cls, hcls, hset, hsub⟩
  · refine ⟨hsum, ?_⟩
    have hjoin := estimate_joinTexts "\n" (nodes.map (Node.text source))
    rw [List.map_map, List.length_map] at hjoin
    rw [unscopedText_group path source hne, withoutHeader_append]
    have hpos := List.length_pos_iff.2 hne
    have hsep : ("\n" : String).length = 1 := rfl
    have hest : (nodes.map (estimateTokens ∘ Node.text source)).sum =
        (nodes.map (Node.tokens source)).sum := rfl
    rw [hsep] at hjoin
    omega

end Within

/-- Every chunk is the whole file where there is no parser, or keeps the budget as far as its path
looks at it. -/
theorem chunks_within_budget {parse : Parser} {maxChunkTokens : ℕ} {path source patch text : String}
    (h : text ∈ chunkByAst parse maxChunkTokens path source patch) :
    (parse.tree? path source = none ∧ text = "FILE: " ++ path ++ "\n" ++ source) ∨
      ∃ tree, parse.tree? path source = some tree ∧
        ((∃ chunk ∈ chunkChangedNodes maxChunkTokens source (boundaryTypes (extension path)) tree
            (parseChangedLines patch),
          text = scopedText path source chunk ∧
            ScopedWithin maxChunkTokens path source (boundaryTypes (extension path)) tree
              (parseChangedLines patch) chunk) ∨
        ∃ chunk ∈ chunkNodes maxChunkTokens source (boundaryTypes (extension path)) tree,
          text = unscopedText path source chunk ∧
            UnscopedWithin maxChunkTokens path source (boundaryTypes (extension path)) tree
              chunk) := by
  unfold chunkByAst at h
  cases htree : parse.tree? path source with
  | none =>
    rw [htree] at h
    exact .inl ⟨rfl, List.mem_singleton.1 h⟩
  | some tree =>
    rw [htree] at h
    refine .inr ⟨tree, rfl, ?_⟩
    dsimp only at h
    generalize hscoped : (if (parseChangedLines patch).isEmpty then [] else chunkChangedNodes
      maxChunkTokens source (boundaryTypes (extension path)) tree (parseChangedLines patch)) =
        chunks at h
    by_cases hempty : chunks.isEmpty = true
    · rw [if_pos hempty] at h
      obtain ⟨chunk, hchunk, rfl⟩ := List.mem_map.1 h
      exact .inr ⟨chunk, hchunk, rfl, unscopedWithin path hchunk⟩
    · rw [if_neg hempty] at h
      obtain ⟨chunk, hchunk, rfl⟩ := List.mem_map.1 h
      rw [← hscoped] at hchunk
      split_ifs at hchunk
      · exact absurd hchunk List.not_mem_nil
      · exact .inl ⟨chunk, hchunk, rfl, scopedWithin path hchunk⟩

namespace Sample

def pythonParser : Parser := fun _ _ => twoFunctionsTree

def addedLine : String := "@@ -3,2 +3,3 @@\n \n def g():\n+    pass"

end Sample

theorem chunks_within_budget_addedLine :
    ∃ text ∈ chunkByAst Sample.pythonParser 28000 "a.py" Sample.twoFunctions Sample.addedLine,
      (Sample.pythonParser.tree? "a.py" Sample.twoFunctions = none ∧
        text = "FILE: " ++ "a.py" ++ "\n" ++ Sample.twoFunctions) ∨
      ∃ tree, Sample.pythonParser.tree? "a.py" Sample.twoFunctions = some tree ∧
        ((∃ chunk ∈ chunkChangedNodes 28000 Sample.twoFunctions (boundaryTypes (extension "a.py"))
            tree (parseChangedLines Sample.addedLine),
          text = scopedText "a.py" Sample.twoFunctions chunk ∧
            ScopedWithin 28000 "a.py" Sample.twoFunctions (boundaryTypes (extension "a.py")) tree
              (parseChangedLines Sample.addedLine) chunk) ∨
        ∃ chunk ∈ chunkNodes 28000 Sample.twoFunctions (boundaryTypes (extension "a.py")) tree,
          text = unscopedText "a.py" Sample.twoFunctions chunk ∧
            UnscopedWithin 28000 "a.py" Sample.twoFunctions (boundaryTypes (extension "a.py")) tree
              chunk) := by
  have hmem : "FILE: a.py\ndef g():\n    pass" ∈
      chunkByAst Sample.pythonParser 28000 "a.py" Sample.twoFunctions Sample.addedLine := by
    decide
  exact ⟨_, hmem, chunks_within_budget hmem⟩

namespace Sample

def repeated (n : ℕ) : String := String.ofList (List.replicate n 'a')

theorem length_repeated (n : ℕ) : (repeated n).length = n := by
  rw [repeated, String.length_ofList, List.length_replicate]

/-- A text file of 28001 tokens. -/
def longText : String := repeated 112004

/-- Two statements of three characters, each estimated at no token. -/
def twoCalls : String := "f()\ng()\n"

def callsParser : Parser := fun _ _ =>
  { root := .mk "module" none ⟨0, 8⟩
      [.mk "expression_statement" none ⟨0, 3⟩ [], .mk "expression_statement" none ⟨4, 7⟩ []]
    hasError := false
    laidOut := by decide }

def callsPatch : String := "@@ -0,0 +1,2 @@\n+f()\n+g()"

end Sample

/-- A file without a parser is sent whole, the separators of a chunk count for nothing, and a method
of a class above the budget is emitted whatever its size. -/
theorem budget_exceeded :
    (∃ text ∈ chunkByAst Sample.pythonParser 28000 "notes.txt" Sample.longText "",
      28000 < estimateTokens (withoutHeader "notes.txt" text)) ∧
    (∃ text ∈ chunkByAst Sample.callsParser 1 "a.py" Sample.twoCalls Sample.callsPatch,
      1 < estimateTokens (withoutHeader "a.py" text)) ∧
    ∃ text ∈ chunkByAst (fun _ _ => Sample.classTree) 4 "a.py" Sample.classSource "",
      4 < estimateTokens (withoutHeader "a.py" text) := by
  refine ⟨?_, ?_, ?_⟩
  · have hext : extension "notes.txt" ∉ languages := by decide
    have htree : Sample.pythonParser.tree? "notes.txt" Sample.longText = none := if_neg hext
    refine ⟨"FILE: " ++ "notes.txt" ++ "\n" ++ Sample.longText, ?_, ?_⟩
    · rw [chunkByAst, htree]
      exact List.mem_singleton_self _
    · have hlen : Sample.longText.length = 112004 := Sample.length_repeated 112004
      rw [withoutHeader_append, estimateTokens, hlen]
      decide
  · refine ⟨"FILE: a.py\nf()\n\ng()", ?_, ?_⟩
    · decide
    · decide
  · refine ⟨"FILE: a.py\ndef b(self):\n        pass", ?_, ?_⟩
    · decide
    · decide

end Revix
