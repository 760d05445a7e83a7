import Revix.GreedySelection
import Revix.ReviewRendering

namespace Revix

theorem Severity.rank_inj {a b : Severity} : a.rank = b.rank ↔ a = b := by
  cases a <;> cases b <;> decide

namespace ReviewComment

theorem ranks_iff {a b : ReviewComment} : a.ranks b = true ↔
    b.severity.rank < a.severity.rank ∨ (a.severity.rank = b.severity.rank ∧
      ((a.fix.isSome = true ∧ b.fix.isSome = false) ∨
        (a.fix.isSome = b.fix.isSome ∧ a.body.length ≤ b.body.length))) := by
  simp [ranks, Severity.rank_inj]

theorem ranks_refl (c : ReviewComment) : c.ranks c = true :=
  ranks_iff.2 (.inr ⟨rfl, .inr ⟨rfl, le_rfl⟩⟩)

instance : IsTrans ReviewComment fun a b => a.ranks b = true where
  trans a b c hab hbc := by
    simp only [ranks_iff] at hab hbc ⊢
    grind

instance : Std.Total fun a b : ReviewComment => a.ranks b = true where
  total a b := by
    simp only [ranks_iff]
    grind

/-- By severity, and then with a fix. -/
def AtLeast (s c : ReviewComment) : Prop :=
  c.severity.rank < s.severity.rank ∨
    (s.severity = c.severity ∧ (c.fix.isSome = true → s.fix.isSome = true))

theorem atLeast_of_ranks {s c : ReviewComment} (h : s.ranks c = true) : s.AtLeast c := by
  rw [ranks_iff, Severity.rank_inj] at h
  rcases h with hlt | ⟨heq, ⟨hs, -⟩ | ⟨hsame, -⟩⟩
  · exact .inl hlt
  · exact .inr ⟨heq, fun _ => hs⟩
  · exact .inr ⟨heq, fun hc => hsame.trans hc⟩

theorem close_self (c : ReviewComment) : c.close c = true := by
  simp [close]

def eligible (cfg : Settings) (c : ReviewComment) : Bool :=
  severityRank cfg.reviewMinInlineSeverity ≤ c.severity.rank

end ReviewComment

theorem selectSpaced_eq (limit : ℤ) (selected cs : List ReviewComment) :
    selectSpaced limit selected cs =
      GreedySelection.select ReviewComment.close limit selected cs := by
  induction cs generalizing selected with
  | nil => rfl
  | cons c cs ih =>
    simp only [selectSpaced, ih]
    rfl

def rankedComments (cfg : Settings) (comments : List ReviewComment) : List ReviewComment :=
  (comments.filter fun c => c.eligible cfg).insertionSort fun a b => a.ranks b

theorem selectInlineComments_eq (cfg : Settings) (comments : List ReviewComment) :
    selectInlineComments cfg comments =
      GreedySelection.select ReviewComment.close cfg.reviewMaxInlineComments []
        (rankedComments cfg comments) :=
  selectSpaced_eq _ _ _

variable {cfg : Settings} {comments : List ReviewComment} {c : ReviewComment}

theorem mem_rankedComments :
    c ∈ rankedComments cfg comments ↔ c ∈ comments ∧ c.eligible cfg = true := by
  rw [rankedComments, List.mem_insertionSort, List.mem_filter]

theorem rankedComments_pairwise :
    (rankedComments cfg comments).Pairwise fun a b => a.ranks b = true :=
  List.pairwise_insertionSort _ _

theorem selectInlineComments_sublist :
    (selectInlineComments cfg comments).Sublist (rankedComments cfg comments) := by
  rw [selectInlineComments_eq]
  exact GreedySelection.select_sublist _

/-- The comments selected are in order, and all of them are eligible. -/
theorem rankedComments_selected :
    rankedComments cfg (selectInlineComments cfg comments) = selectInlineComments cfg comments := by
  have hall : (selectInlineComments cfg comments).filter (fun c => c.eligible cfg) =
      selectInlineComments cfg comments := by
    rw [List.filter_eq_self]
    exact fun c hc => (mem_rankedComments.1 (selectInlineComments_sublist.subset hc)).2
  rw [rankedComments, hall]
  exact (rankedComments_pairwise.sublist selectInlineComments_sublist).insertionSort_eq

theorem selectInlineComments_apart :
    (selectInlineComments cfg comments).Pairwise fun s c => s.close c = false := by
  rw [selectInlineComments_eq]
  exact GreedySelection.select_pairwise .nil

theorem length_selectInlineComments :
    ((selectInlineComments cfg comments).length : ℤ) ≤ max cfg.reviewMaxInlineComments 1 := by
  rw [selectInlineComments_eq]
  exact GreedySelection.length_select (.inl rfl)

/-- The selection, as a set of conditions on it: the comments are eligible and apart, there are
not too many, and for each that is left out there is one that ranks at least as high, or the
limit is reached by comments that do. -/
structure RankedSpacing (cfg : Settings) (comments selected : List ReviewComment) : Prop where
  eligible : ∀ c ∈ selected, c ∈ comments ∧ c.eligible cfg = true
  apart : selected.Pairwise fun s c => s.path = c.path → 5 < (s.line - c.line).natAbs
  length_le : (selected.length : ℤ) ≤ max cfg.reviewMaxInlineComments 1
  maximal : ∀ c ∈ comments, c.eligible cfg = true →
    (∃ s ∈ selected, (s.path = c.path ∧ (s.line - c.line).natAbs ≤ 5) ∧ s.AtLeast c) ∨
      ((selected.length : ℤ) = max cfg.reviewMaxInlineComments 1 ∧ ∀ s ∈ selected, s.AtLeast c)

/-- The selection is a maximal ranked spacing, and selecting from it again changes nothing. -/
theorem inline_comments_spaced (cfg : Settings) (comments : List ReviewComment) :
    RankedSpacing cfg comments (selectInlineComments cfg comments) ∧
      selectInlineComments cfg (selectInlineComments cfg comments) =
        selectInlineComments cfg comments := by
  refine ⟨⟨fun c hc => ?_, ?_, length_selectInlineComments, fun c hc helig => ?_⟩, ?_⟩
  · exact mem_rankedComments.1 (selectInlineComments_sublist.subset hc)
  · refine selectInlineComments_apart.imp fun {s c} hclose hpath => ?_
    simpa [ReviewComment.close, hpath] using hclose
  · have hranked : c ∈ rankedComments cfg comments := mem_rankedComments.2 ⟨hc, helig⟩
    have hlength : ((selectInlineComments cfg comments).length : ℤ) ≤
        max cfg.reviewMaxInlineComments 1 := length_selectInlineComments
    rw [selectInlineComments_eq] at hlength ⊢
    rcases GreedySelection.select_dominates ReviewComment.ranks_refl ReviewComment.close_self
      rankedComments_pairwise (List.forall_mem_nil _) hranked with ⟨s, hs, hclose, hrank⟩ |
        ⟨hlimit, hrank⟩
    · refine .inl ⟨s, hs, ?_, ReviewComment.atLeast_of_ranks hrank⟩
      simpa [ReviewComment.close] using hclose
    · exact .inr ⟨le_antisymm hlength hlimit, fun s hs => ReviewComment.atLeast_of_ranks (hrank s hs)⟩
  · conv_lhs => rw [selectInlineComments_eq, rankedComments_selected]
    exact GreedySelection.select_of_pairwise selectInlineComments_apart
      length_selectInlineComments

end Revix
