import Revix.InlineSelection

/-! The sort before the selection has the length of the body negated, and is a reversed one: the
shorter comment comes first, and the longer one next to it is left out. -/
namespace Revix
open GreedySelection

namespace ReviewComment

/-- `(severity, has a suggested fix, length of the body)` -/
def weight (c : ReviewComment) : ℕ × ℕ × ℕ :=
  (c.severity.rank, c.fix.isSome.toNat, c.body.length)

/-- The weight of `s` is lexicographically at least that of `c`. -/
def Outweighs (s c : ReviewComment) : Prop :=
  Prod.Lex (· < ·) (Prod.Lex (· < ·) (· ≤ ·)) c.weight s.weight

/-- Of one severity, and both with a fix or both without. -/
def Ties (s c : ReviewComment) : Prop := s.severity = c.severity ∧ s.fix.isSome = c.fix.isSome

variable {s c : ReviewComment}

theorem outweighs_iff :
    s.Outweighs c ↔ c.severity.rank < s.severity.rank ∨ (c.severity.rank = s.severity.rank ∧
      (c.fix.isSome.toNat < s.fix.isSome.toNat ∨
        (c.fix.isSome.toNat = s.fix.isSome.toNat ∧ c.body.length ≤ s.body.length))) := by
  rw [Outweighs, weight, weight, Prod.lex_def, Prod.lex_def]

theorem outweighs_refl (c : ReviewComment) : c.Outweighs c :=
  outweighs_iff.2 (.inr ⟨rfl, .inr ⟨rfl, le_rfl⟩⟩)

theorem outweighs_iff_of_ties (h : s.Ties c) :
    s.Outweighs c ↔ c.body.length ≤ s.body.length := by
  simp [outweighs_iff, h.1, h.2]

theorem ranks_of_ties (h : s.Ties c) (hlength : s.body.length ≤ c.body.length) :
    s.ranks c = true :=
  ranks_iff.2 (.inr ⟨by rw [h.1], .inr ⟨h.2, hlength⟩⟩)

theorem Ties.symm (h : s.Ties c) : c.Ties s := ⟨h.1.symm, h.2.symm⟩

/-- A comment that is before another in the sort weighs as much, unless they tie. -/
theorem outweighs_or_ties (h : s.ranks c = true) : s.Outweighs c ∨ s.Ties c := by
  rcases ranks_iff.1 h with hrank | ⟨hrank, ⟨hs, hc⟩ | ⟨hfix, -⟩⟩
  · exact .inl (outweighs_iff.2 (.inl hrank))
  · refine .inl (outweighs_iff.2 (.inr ⟨hrank.symm, .inl ?_⟩))
    rw [hs, hc]
    decide
  · exact .inr ⟨Severity.rank_inj.1 hrank, hfix⟩

theorem close_symm (h : s.close c = true) : c.close s = true := by
  simp only [close, Bool.and_eq_true, decide_eq_true_eq] at h ⊢
  exact ⟨h.1.symm, by omega⟩

end ReviewComment

variable {cfg : Settings} {comments : List ReviewComment}

def Uncapped (cfg : Settings) (comments : List ReviewComment) : Prop :=
  ((selectInlineComments cfg comments).length : ℤ) < cfg.reviewMaxInlineComments

/-- Each eligible comment that is left out has one that is selected, in the same file and within
five lines, and that weighs at least as much. -/
def SubstantiveKept (cfg : Settings) (comments : List ReviewComment) : Prop :=
  ∀ c ∈ comments, c.eligible cfg = true → c ∉ selectInlineComments cfg comments →
    ∃ s ∈ selectInlineComments cfg comments,
      (s.path = c.path ∧ (s.line - c.line).natAbs ≤ 5) ∧ s.Outweighs c

/-- A longer comment that ties with one before it that stands, next to it, is also close to one that
stands and weighs as much. -/
def NoneUndercut (cfg : Settings) (comments : List ReviewComment) : Prop :=
  ∀ m n s c, m < n → (rankedComments cfg comments)[m]? = some s →
    (rankedComments cfg comments)[n]? = some c →
    Stands ReviewComment.close (rankedComments cfg comments) m → s.close c = true → s.Ties c →
    s.body.length < c.body.length →
    ∃ k r, (rankedComments cfg comments)[k]? = some r ∧
      Stands ReviewComment.close (rankedComments cfg comments) k ∧
      r.close c = true ∧ r.Outweighs c

/-- What is selected, where the cap is not reached. -/
theorem mem_selectInlineComments_iff (h : Uncapped cfg comments) {c : ReviewComment} :
    c ∈ selectInlineComments cfg comments ↔ ∃ n, (rankedComments cfg comments)[n]? = some c ∧
      Stands ReviewComment.close (rankedComments cfg comments) n := by
  rw [Uncapped, selectInlineComments_eq] at h
  rw [selectInlineComments_eq]
  exact mem_select_iff h

theorem close_iff {s c : ReviewComment} :
    s.close c = true ↔ s.path = c.path ∧ (s.line - c.line).natAbs ≤ 5 := by
  simp [ReviewComment.close]

theorem ranks_of_lt {m n : ℕ} {s c : ReviewComment} (hlt : m < n)
    (hm : (rankedComments cfg comments)[m]? = some s)
    (hn : (rankedComments cfg comments)[n]? = some c) : s.ranks c = true := by
  obtain ⟨hmlt, rfl⟩ := List.getElem?_eq_some_iff.1 hm
  obtain ⟨hnlt, rfl⟩ := List.getElem?_eq_some_iff.1 hn
  exact List.pairwise_iff_getElem.1 rankedComments_pairwise m n hmlt hnlt hlt

/-- A comment that is not selected is after one that is, next to it. -/
theorem exists_before_of_notMem (h : Uncapped cfg comments) {c : ReviewComment} {n : ℕ}
    (hn : (rankedComments cfg comments)[n]? = some c)
    (hsel : c ∉ selectInlineComments cfg comments) :
    ∃ m s, m < n ∧ (rankedComments cfg comments)[m]? = some s ∧
      Stands ReviewComment.close (rankedComments cfg comments) m ∧ s.close c = true := by
  by_contra hnone
  refine hsel ((mem_selectInlineComments_iff h).2 ⟨n, hn, (stands_iff hn).2 ?_⟩)
  intro m hm s hs hstands
  refine Bool.eq_false_iff.2 fun hclose => ?_
  exact hnone ⟨m, s, hm, hs, hstands, hclose⟩

theorem substantiveKept_iff_noneUndercut (h : Uncapped cfg comments) :
    SubstantiveKept cfg comments ↔ NoneUndercut cfg comments := by
  constructor
  · intro hkept m n s c hlt hm hn hstands hclose htie hlength
    by_cases hsel : c ∈ selectInlineComments cfg comments
    · -- an equal comment stands elsewhere
      obtain ⟨k, hk, hstands⟩ := (mem_selectInlineComments_iff h).1 hsel
      exact ⟨k, c, hk, hstands, c.close_self, c.outweighs_refl⟩
    · obtain ⟨hmem, helig⟩ := mem_rankedComments.1 (List.mem_of_getElem? hn)
      obtain ⟨r, hr, hclose, hweight⟩ := hkept c hmem helig hsel
      obtain ⟨k, hk, hstands⟩ := (mem_selectInlineComments_iff h).1 hr
      exact ⟨k, r, hk, hstands, close_iff.2 hclose, hweight⟩
  · intro hnone c hmem helig hsel
    obtain ⟨n, hn⟩ := List.mem_iff_getElem?.1 (mem_rankedComments.2 ⟨hmem, helig⟩)
    obtain ⟨m, s, hlt, hm, hstands, hclose⟩ := exists_before_of_notMem h hn hsel
    have hs := (mem_selectInlineComments_iff h).2 ⟨m, hm, hstands⟩
    rcases ReviewComment.outweighs_or_ties (ranks_of_lt hlt hm hn) with hweight | htie
    · exact ⟨s, hs, close_iff.1 hclose, hweight⟩
    · rcases le_or_gt c.body.length s.body.length with hle | hshort
      · exact ⟨s, hs, close_iff.1 hclose, (ReviewComment.outweighs_iff_of_ties htie).2 hle⟩
      · obtain ⟨k, r, hk, hstands, hclose, hweight⟩ :=
          hnone m n s c hlt hm hn hstands hclose htie hshort
        exact ⟨r, (mem_selectInlineComments_iff h).2 ⟨k, hk, hstands⟩, close_iff.1 hclose, hweight⟩

/-- Where close comments that tie are of one length, none is undercut. -/
theorem substantiveKept_of_ties (h : Uncapped cfg comments)
    (hties : ∀ a ∈ comments, ∀ b ∈ comments, a.eligible cfg = true → b.eligible cfg = true →
      a.close b = true → a.Ties b → a.body.length = b.body.length) :
    SubstantiveKept cfg comments := by
  refine (substantiveKept_iff_noneUndercut h).2 ?_
  intro m n s c hlt hm hn hstands hclose htie hlength
  obtain ⟨hs, hselig⟩ := mem_rankedComments.1 (List.mem_of_getElem? hm)
  obtain ⟨hc, hcelig⟩ := mem_rankedComments.1 (List.mem_of_getElem? hn)
  exact absurd (hties s hs c hc hselig hcelig hclose htie) hlength.ne

/-- Of two close comments that tie, the shorter is selected. -/
theorem selectInlineComments_pair {a b : ReviewComment} (hcap : 1 < cfg.reviewMaxInlineComments)
    (ha : a.eligible cfg = true) (hb : b.eligible cfg = true) (hclose : a.close b = true)
    (htie : a.Ties b) (hlength : a.body.length ≤ b.body.length) :
    selectInlineComments cfg [a, b] = [a] := by
  have hranked : rankedComments cfg [a, b] = [a, b] := by
    simp [rankedComments, ha, hb, ReviewComment.ranks_of_ties htie hlength]
  have hlimit : ¬ cfg.reviewMaxInlineComments ≤ (([a] : List ReviewComment).length : ℤ) := by
    simpa using hcap
  rw [selectInlineComments_eq, hranked, select, take_of_forall (List.forall_mem_nil _),
    List.nil_append, if_neg hlimit, select, take_of_conflict (List.mem_singleton_self a) hclose,
    if_neg hlimit, select]

/-- Of two close comments that tie and differ in length, the longer is left out for nothing that
weighs as much. -/
theorem not_substantiveKept_pair (cfg : Settings) {a b : ReviewComment}
    (hcap : 1 < cfg.reviewMaxInlineComments) (ha : a.eligible cfg = true)
    (hb : b.eligible cfg = true) (hclose : a.close b = true) (htie : a.Ties b)
    (hlength : a.body.length < b.body.length) :
    Uncapped cfg [a, b] ∧ ¬ SubstantiveKept cfg [a, b] := by
  have hsel := selectInlineComments_pair hcap ha hb hclose htie hlength.le
  refine ⟨by simpa [Uncapped, hsel] using hcap, fun hkept => ?_⟩
  have hout : b ∉ selectInlineComments cfg [a, b] := by
    rw [hsel, List.mem_singleton]
    rintro rfl
    exact lt_irrefl _ hlength
  obtain ⟨s, hs, -, hweight⟩ := hkept b (.tail _ (.head _)) hb hout
  rw [hsel, List.mem_singleton] at hs
  subst hs
  exact absurd ((ReviewComment.outweighs_iff_of_ties htie).1 hweight) (not_le.2 hlength)

def Settings.withCap (cfg : Settings) (limit : ℤ) : Settings :=
  { cfg with reviewMaxInlineComments := limit }

/-- In every list drawn from a set of comments, each comment that is left out is outweighed by one
selected next to it exactly if, in the set, the close and eligible comments that tie are of one
length. In one list this is so exactly if no comment is undercut by a shorter one that it ties
with. -/
theorem substantive_kept_iff (cfg : Settings) :
    (∀ X : Set ReviewComment,
      (∀ limit comments, (∀ c ∈ comments, c ∈ X) → Uncapped (cfg.withCap limit) comments →
        SubstantiveKept (cfg.withCap limit) comments) ↔
      ∀ a ∈ X, ∀ b ∈ X, a.eligible cfg = true → b.eligible cfg = true → a.close b = true →
        a.Ties b → a.body.length = b.body.length) ∧
    ∀ comments, Uncapped cfg comments →
      (SubstantiveKept cfg comments ↔ NoneUndercut cfg comments) := by
  have htwo : 1 < (cfg.withCap 2).reviewMaxInlineComments := show (1 : ℤ) < 2 by decide
  refine ⟨fun X => ⟨?_, ?_⟩, fun comments => substantiveKept_iff_noneUndercut⟩
  · intro hkept a ha b hb helig helig' hclose htie
    rcases lt_trichotomy a.body.length b.body.length with hlt | heq | hlt
    · obtain ⟨hcap, hnot⟩ := not_substantiveKept_pair (cfg.withCap 2) htwo helig helig'
        hclose htie hlt
      exact absurd (hkept 2 [a, b] (by simp [ha, hb]) hcap) hnot
    · exact heq
    · obtain ⟨hcap, hnot⟩ := not_substantiveKept_pair (cfg.withCap 2) htwo helig' helig
        (ReviewComment.close_symm hclose) htie.symm hlt
      exact absurd (hkept 2 [b, a] (by simp [ha, hb]) hcap) hnot
  · intro hties limit comments hsub hcap
    refine substantiveKept_of_ties hcap fun a ha b hb helig helig' => ?_
    exact hties a (hsub a ha) b (hsub b hb) helig helig'

namespace Sample

/-- Two warnings on neighbouring lines, without a fix. -/
def shortRemark : ReviewComment where
  path := "pool.py"
  line := 1
  body := "Bug."
  severity := .warning
  path_ne := by decide
  line_pos := by decide

def longRemark : ReviewComment where
  path := "pool.py"
  line := 2
  body := "Bug: the handle is never closed."
  severity := .warning
  path_ne := by decide
  line_pos := by decide

end Sample

/-- The shorter of two warnings is kept and the one that explains is left out. -/
theorem shorter_remark_kept :
    ¬ ∀ cfg comments, Uncapped cfg comments → SubstantiveKept cfg comments := by
  intro hkept
  obtain ⟨hcap, hnot⟩ := not_substantiveKept_pair {} (show (1 : ℤ) < 3 by decide)
    (show Sample.shortRemark.eligible {} = true by decide)
    (show Sample.longRemark.eligible {} = true by decide) (by decide) ⟨rfl, rfl⟩ (by decide)
  exact hnot (hkept _ _ hcap)

end Revix
