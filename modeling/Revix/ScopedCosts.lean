import Revix.ChunkBudget

namespace Revix
open GreedyPacking

theorem countP_or_of_disjoint {α : Type*} {p q : α → Bool} {as : List α}
    (h : ∀ a ∈ as, p a = true → q a = false) :
    as.countP (fun a => p a || q a) = as.countP p + as.countP q := by
  induction as with
  | nil => rfl
  | cons a as ih =>
    have htail := ih fun b hb => h b (.tail _ hb)
    cases hp : p a with
    | false => cases hq : q a <;> simp [hp, hq, htail, Nat.add_assoc]
    | true =>
      have hq := h a (.head _) hp
      simp [hp, hq, htail]
      omega

section Lengths

variable {source : String} {ns : List Node}

theorem length_positions (source : String) : (positions source).length = source.length := by
  have hfrom : ∀ (offset row : ℕ) (cs : List Char),
      (positionsFrom offset row cs).length = cs.length := by
    intro offset row cs
    induction cs generalizing offset row with
    | nil => rfl
    | cons c cs ih => rw [positionsFrom, List.length_cons, List.length_cons, ih]
  rw [positions, hfrom, String.length_toList]

theorem Node.length_text (source : String) (n : Node) :
    (n.text source).length = (positions source).countP n.span.holds := by
  rw [Node.text, Span.text, Span.chars, String.length_ofList, List.length_map,
    List.countP_eq_length_filter]

/-- The characters of the file that are in none of the nodes. -/
def outside (source : String) (ns : List Node) : ℕ :=
  (positions source).countP fun p => !ns.any fun n => n.span.holds p

theorem sum_length_text (h : ns.Pairwise fun a b => a.span.stop ≤ b.span.start) :
    (ns.map fun n => (n.text source).length).sum =
      (positions source).countP fun p => ns.any fun n => n.span.holds p := by
  induction ns with
  | nil => simp
  | cons n ns ih =>
    obtain ⟨hn, hns⟩ := List.pairwise_cons.1 h
    simp only [List.map_cons, List.sum_cons, List.any_cons]
    rw [ih hns, n.length_text, countP_or_of_disjoint]
    intro p _ hp
    rw [List.any_eq_false]
    intro m hm hheld
    have hstop := (holds_iff.1 hp).2
    have hstart := (holds_iff.1 hheld).1
    have hle := hn m hm
    omega

/-- Nodes one after the other and what is outside of them make up the file. -/
theorem sum_length_add_outside (h : ns.Pairwise fun a b => a.span.stop ≤ b.span.start) :
    (ns.map fun n => (n.text source).length).sum + outside source ns = source.length := by
  have hsplit := List.length_eq_countP_add_countP (l := positions source)
    fun p => ns.any fun n => n.span.holds p
  have hnot : outside source ns = (positions source).countP fun p =>
      decide ¬(ns.any fun n => n.span.holds p) = true :=
    List.countP_congr fun p _ => by simp
  rw [sum_length_text h, hnot, ← length_positions source, hsplit]

end Lengths

section Scoping

variable {maxChunkTokens : ℕ} {source : String} {boundary : List String} {tree : Tree}
  {changed : List ℕ}

def touchedNodes (source : String) (tree : Tree) (changed : List ℕ) : List Node :=
  tree.root.children.filter fun n => touched source changed n

theorem touchedNodes_pairwise :
    (touchedNodes source tree changed).Pairwise fun a b => a.span.stop ≤ b.span.start :=
  (Node.children_pairwise tree.laidOut).filter _

theorem sum_tokens_le (ns : List Node) :
    (ns.map (Node.tokens source)).sum ≤ (ns.map fun n => (n.text source).length).sum / 4 := by
  induction ns with
  | nil => simp
  | cons n ns ih =>
    simp only [List.map_cons, List.sum_cons, Node.tokens, estimateTokens] at ih ⊢
    omega

theorem sum_length_touchedNodes (source : String) (tree : Tree) (changed : List ℕ) :
    ((touchedNodes source tree changed).map fun n => (n.text source).length).sum +
      outside source (touchedNodes source tree changed) = source.length :=
  sum_length_add_outside touchedNodes_pairwise

/-- The touched nodes of a file within the budget fit it together. -/
theorem sum_tokens_touched_le (hfile : estimateTokens source ≤ maxChunkTokens) :
    ((touchedNodes source tree changed).map (Node.tokens source)).sum ≤ maxChunkTokens := by
  have hsum : ((touchedNodes source tree changed).map (Node.tokens source)).sum ≤ _ :=
    sum_tokens_le _
  have hfits := sum_length_touchedNodes source tree changed
  unfold estimateTokens at hfile
  omega

theorem tokens_le_of_file (hfile : estimateTokens source ≤ maxChunkTokens) (n : Node) :
    n.tokens source ≤ maxChunkTokens := by
  have hlength : (n.text source).length ≤ source.length := by
    rw [n.length_text, ← length_positions source]
    exact List.countP_le_length
  unfold Node.tokens estimateTokens at *
  omega

theorem foldl_chunkChangedNode (hfile : estimateTokens source ≤ maxChunkTokens) (ns : List Node)
    (s : Packer Piece Node) :
    ns.foldl (chunkChangedNode maxChunkTokens source boundary changed) s =
      ((ns.filter fun n => touched source changed n).map Piece.whole).foldl
        (Packer.add maxChunkTokens (Piece.tokens source)) s := by
  induction ns generalizing s with
  | nil => rfl
  | cons n ns ih =>
    have hsmall := Nat.not_lt.2 (tokens_le_of_file hfile n)
    rw [List.foldl_cons, ih]
    cases ht : touched source changed n with
    | false => simp [chunkChangedNode, ht]
    | true => simp [chunkChangedNode, ht, Node.isOversizedClass, hsmall]

/-- A file within the budget gives one chunk, or none if nothing is touched. -/
theorem chunkChangedNodes_of_file (hfile : estimateTokens source ≤ maxChunkTokens)
    (hok : tree.hasError = false) :
    chunkChangedNodes maxChunkTokens source boundary tree changed =
      if touchedNodes source tree changed = [] then []
      else [.group ((touchedNodes source tree changed).map .whole)] := by
  have hsum : (Packer.empty : Packer Piece Node).load +
      (((touchedNodes source tree changed).map Piece.whole).map (Piece.tokens source)).sum ≤
        maxChunkTokens := by
    have hweights : ((touchedNodes source tree changed).map Piece.whole).map (Piece.tokens source) =
        (touchedNodes source tree changed).map (Node.tokens source) := List.map_map
    rw [hweights, Packer.empty, Nat.zero_add]
    exact sum_tokens_touched_le hfile
  have hpacked := Packer.addAll_of_le hsum
  have htouched : (tree.root.children.filter fun n => touched source changed n) =
      touchedNodes source tree changed := rfl
  rw [chunkChangedNodes, hok, if_neg Bool.false_ne_true, foldl_chunkChangedNode hfile, htouched,
    hpacked]
  by_cases hnone : touchedNodes source tree changed = []
  · rw [hnone, if_pos rfl]
    rfl
  · rw [if_neg hnone, Packer.flush, if_neg (by simpa [Packer.empty] using hnone)]
    rfl

theorem length_scopedText (path : String) {ns : List Node} (hne : ns ≠ []) :
    (scopedText path source (.group (ns.map .whole))).length =
      ("FILE: " ++ path ++ "\n").length + (ns.map fun n => (n.text source).length).sum +
        2 * (ns.length - 1) := by
  cases ns with
  | nil => exact absurd rfl hne
  | cons n ns =>
    have hjoin := length_joinTexts "\n\n" (n.text source) (ns.map (Node.text source))
    have hsep : ("\n\n" : String).length = 2 := rfl
    have htexts : ((n :: ns).map Piece.whole).map (Piece.text source) =
        n.text source :: ns.map (Node.text source) := by
      simp [Piece.text, Function.comp_def]
    rw [scopedText, htexts, String.length_append, hjoin, hsep]
    simp only [List.map_cons, List.sum_cons, List.map_map, List.length_map, List.length_cons,
      Nat.add_sub_cancel, Function.comp_def]
    omega

end Scoping

/-- A file within the budget is scoped to at most one chunk. It is no longer than the chunk of the
whole file exactly if the file has two characters outside the touched nodes for each of them but
the first. -/
theorem scoping_costs_no_more_iff {maxChunkTokens : ℕ} {source path : String}
    {boundary : List String} {tree : Tree} {changed : List ℕ}
    (hfile : estimateTokens source ≤ maxChunkTokens) (hok : tree.hasError = false) :
    (chunkChangedNodes maxChunkTokens source boundary tree changed).length ≤ 1 ∧
      ((∀ chunk ∈ chunkChangedNodes maxChunkTokens source boundary tree changed,
        (scopedText path source chunk).length ≤ ("FILE: " ++ path ++ "\n" ++ source).length) ↔
      2 * ((touchedNodes source tree changed).length - 1) ≤
        outside source (touchedNodes source tree changed)) := by
  rw [chunkChangedNodes_of_file hfile hok]
  by_cases hnone : touchedNodes source tree changed = []
  · rw [if_pos hnone, hnone]
    simp
  · rw [if_neg hnone]
    refine ⟨le_refl 1, ?_⟩
    have hfits := sum_length_touchedNodes source tree changed
    simp only [List.mem_singleton, forall_eq]
    simp only [length_scopedText path hnone, String.length_append]
    omega

theorem scoping_costs_no_more_iff_twoFunctions :
    estimateTokens Sample.twoFunctions ≤ 28000 ∧ Sample.twoFunctionsTree.hasError = false ∧
      (chunkChangedNodes 28000 Sample.twoFunctions ["function_definition"] Sample.twoFunctionsTree
        [2, 5]).length ≤ 1 ∧
      ((∀ chunk ∈ chunkChangedNodes 28000 Sample.twoFunctions ["function_definition"]
          Sample.twoFunctionsTree [2, 5],
        (scopedText "a.py" Sample.twoFunctions chunk).length ≤
          ("FILE: " ++ "a.py" ++ "\n" ++ Sample.twoFunctions).length) ↔
      2 * ((touchedNodes Sample.twoFunctions Sample.twoFunctionsTree [2, 5]).length - 1) ≤
        outside Sample.twoFunctions
          (touchedNodes Sample.twoFunctions Sample.twoFunctionsTree [2, 5])) := by
  have hfile : estimateTokens Sample.twoFunctions ≤ 28000 := by decide
  exact ⟨hfile, rfl, scoping_costs_no_more_iff hfile rfl⟩

namespace Sample

def threeImports : String := "import a\nimport b\nimport c\n"

def importsTree : Tree where
  root := .mk "module" none ⟨0, 27⟩
    [.mk "import_statement" none ⟨0, 8⟩ [], .mk "import_statement" none ⟨9, 17⟩ [],
      .mk "import_statement" none ⟨18, 26⟩ []]
  hasError := false
  laidOut := by decide

def importsPatch : String := "@@ -0,0 +1,3 @@\n+import a\n+import b\n+import c"

end Sample

/-- The scoped chunk of a new file of three lines is longer than the file. -/
theorem imports_cost_more : ∃ chunk ∈ chunkChangedNodes 28000 Sample.threeImports
      (boundaryTypes ".py") Sample.importsTree (parseChangedLines Sample.importsPatch),
    ("FILE: " ++ "a.py" ++ "\n" ++ Sample.threeImports).length <
      (scopedText "a.py" Sample.threeImports chunk).length := by
  have hlines : parseChangedLines Sample.importsPatch = [1, 2, 3] := by decide
  have hall : touchedNodes Sample.threeImports Sample.importsTree [1, 2, 3] =
      Sample.importsTree.root.children := by
    have htouched : ∀ n ∈ Sample.importsTree.root.children,
        touched Sample.threeImports [1, 2, 3] n = true := by decide
    exact List.filter_eq_self.2 htouched
  rw [hlines, chunkChangedNodes_of_file (by decide) rfl, hall]
  exact ⟨_, .head _, by decide⟩

end Revix
