import Revix.Infixes
import Revix.ReviewPosting

namespace Revix
open EffectPrograms EffectSessions Infixes LabelledRuns

section Signature

variable {commitId body : String}

/-- The text with which the signature ends. -/
theorem toList_reviewSignature (commitId : String) : (reviewSignature commitId).toList =
    ("<!-- revix: ".toList ++ commitId.toList ++ " --".toList) ++ ['>'] := by
  unfold reviewSignature
  simp [String.toList_append]

theorem signedWith_iff {signature body : String} :
    signedWith signature body = true ↔ signature.toList <:+: body.toList := occursIn_iff

theorem signedWith_signBody (signature body : String) :
    signedWith signature (signBody signature body) = true := by
  unfold signBody
  split
  · assumption
  · rw [signedWith_iff, String.toList_append]
    exact List.infix_append_right

theorem length_signBody (signature body : String) : (signBody signature body).length =
    if signedWith signature body then body.length else body.length + 2 + signature.length := by
  unfold signBody
  split
  · rfl
  · simp [String.length_append, show "\n\n".length = 2 from rfl]

/-- The signature is in what is left of the summary: the signed text fits, or it is signed
before the cut. -/
def KeepsSignature (commitId body : String) : Prop :=
  (if signedWith (reviewSignature commitId) body then body.length
    else body.length + 2 + (reviewSignature commitId).length) ≤ maxPayloadSize ∨
    signedWith (reviewSignature commitId) (String.ofList
      ((body ++ "\n\n" ++ reviewSignature commitId).toList.take
        (maxPayloadSize - truncationMarker.length))) = true

instance : Decidable (KeepsSignature commitId body) := inferInstanceAs (Decidable (_ ∨ _))

theorem take_signBody {signature body : String} {k : ℕ}
    (h : k ≤ (signBody signature body).length) :
    (signBody signature body).toList.take k = (body ++ "\n\n" ++ signature).toList.take k := by
  unfold signBody at h ⊢
  split
  · rename_i hs
    rw [if_pos hs, ← String.length_toList] at h
    rw [String.append_assoc, String.toList_append, List.take_append_of_le_length h]
  · rfl

/-- The summary that is sent is signed just when it keeps its signature. -/
theorem signedWith_truncate_iff :
    signedWith (reviewSignature commitId)
      (truncate (signBody (reviewSignature commitId) body) maxPayloadSize) = true ↔
      KeepsSignature commitId body := by
  simp only [KeepsSignature, ← length_signBody]
  by_cases hfit : (signBody (reviewSignature commitId) body).length ≤ maxPayloadSize
  · simp only [truncate, hfit, ↓reduceIte, true_or, iff_true]
    exact signedWith_signBody _ _
  · have hmark : '>' ∉ truncationMarker.toList := by decide
    have hle : maxPayloadSize - truncationMarker.length ≤
        (signBody (reviewSignature commitId) body).length := by omega
    simp only [truncate, hfit, ↓reduceIte, false_or]
    rw [signedWith_iff, signedWith_iff, String.toList_append, String.toList_ofList,
      String.toList_ofList, toList_reviewSignature, infix_append_of_last hmark,
      ← toList_reviewSignature, take_signBody hle]

end Signature

section Attempts

variable (repo : String) (pullNumber : ℤ) (commitId : String) (comments : List Dict)

/-- A review of the pull request with the signature of the commit. -/
def Recognized (g : GitHub) : Prop :=
  ∃ r ∈ g.stored, r.repo = repo ∧ r.pullNumber = pullNumber ∧
    r.bears (reviewSignature commitId) = true

def summaryReview (body : String) : StoredReview :=
  ⟨repo, pullNumber, ⟨commitId,
    if truncate (signBody (reviewSignature commitId) body) maxPayloadSize = "" then none
    else some (truncate (signBody (reviewSignature commitId) body) maxPayloadSize), []⟩⟩

def commentReview (comment : Dict) : StoredReview := ⟨repo, pullNumber, ⟨commitId, none, [comment]⟩⟩

variable {repo pullNumber commitId comments}

theorem signedWith_empty : signedWith (reviewSignature commitId) "" = false := by
  rw [Bool.eq_false_iff]
  intro h
  rw [signedWith_iff, toList_reviewSignature] at h
  have hnil := List.eq_nil_of_infix_nil h
  simp at hnil

theorem bears_summaryReview {body : String} :
    (summaryReview repo pullNumber commitId body).bears (reviewSignature commitId) = true ↔
      KeepsSignature commitId body := by
  rw [← signedWith_truncate_iff]
  simp only [summaryReview, StoredReview.bears]
  split
  · rename_i hempty
    simp [hempty, signedWith_empty]
  · rename_i hne
    simp [hne]

/-- The comments one after the other, as far as the session goes. -/
theorem run_comments {token : String} {ds : List Dict} {g g' : GitHub} {cs : List Delivery}
    {p' : Prog ReviewCall (fun q => Except Raised q.Answer) (Except Raised Unit × Unit)}
    (h : Run (Session github) (g, Script.forEach (fun comment =>
      tryExcept (sendReviewPayload repo pullNumber token commitId "" [comment])
        fun _ => Script.pure ()) ds ()) cs (g', p')) :
    g'.sent = g.sent ++ (ds.map (commentReview repo pullNumber commitId)).take cs.length ∧
      (∀ r ∈ g'.stored, r ∈ g.stored ∨ r.payload.body = none) ∧ g.stored ⊆ g'.stored ∧
      (p' = .done (.ok (), ()) → ds.length ≤ cs.length) := by
  induction ds generalizing g cs with
  | nil =>
    obtain ⟨rfl, hy⟩ := run_done.1 h
    cases hy
    exact ⟨by simp, fun r hr => .inl hr, List.Subset.refl _, fun _ => by simp⟩
  | cons d ds ih =>
    rcases run_ask.1 h with ⟨rfl, hy⟩ | ⟨c, cs', rfl, hrest⟩
    · cases hy
      exact ⟨by simp, fun r hr => .inl hr, List.Subset.refl _, fun hdone => nomatch hdone⟩
    · let review := commentReview repo pullNumber commitId d
      let g₁ : GitHub := ⟨if c.stores then g.stored ++ [review] else g.stored, g.sent ++ [review]⟩
      have hstored : ∀ r ∈ g₁.stored, r ∈ g.stored ∨ r.payload.body = none := by
        intro r hr
        simp only [g₁] at hr
        split at hr
        · rcases List.mem_append.1 hr with hr | hr
          · exact .inl hr
          · exact .inr (by rw [List.mem_singleton.1 hr]; rfl)
        · exact .inl hr
      have hkept : g.stored ⊆ g₁.stored := by
        simp only [g₁]
        split
        · exact List.subset_append_left _ _
        · exact List.Subset.refl _
      -- the loop goes on unless the task is cancelled
      have hnext : Run (Session github) (g₁, Script.forEach (fun comment =>
          tryExcept (sendReviewPayload repo pullNumber token commitId "" [comment])
            fun _ => Script.pure ()) ds ()) cs' (g', p') ∨
          (cs' = [] ∧ g' = g₁ ∧ p' = .done (.error .cancelled, ())) := by
        rcases c with _ | (e | _) | (e | _)
        · exact .inl hrest
        · exact .inl hrest
        · obtain ⟨hcs, hy⟩ := run_done.1 hrest
          cases hy
          exact .inr ⟨hcs, rfl, rfl⟩
        · exact .inl hrest
        · obtain ⟨hcs, hy⟩ := run_done.1 hrest
          cases hy
          exact .inr ⟨hcs, rfl, rfl⟩
      rcases hnext with hnext | ⟨rfl, rfl, rfl⟩
      · obtain ⟨hsent, hnew, hold, hdone⟩ := ih hnext
        refine ⟨?_, fun r hr => ?_, List.Subset.trans hkept hold, fun hp => ?_⟩
        · rw [hsent]
          simp [g₁, review]
        · rcases hnew r hr with hr | hr
          · exact hstored r hr
          · exact .inr hr
        · simpa using hdone hp
      · refine ⟨?_, hstored, hkept, fun hp => nomatch hp⟩
        simp [g₁, review]

/-- What a call sends that recognizes no earlier one: the summary, then the comments. -/
def reviewsToSend (repo : String) (pullNumber : ℤ) (commitId : String) (comments : List Dict)
    (body : String) : List StoredReview :=
  summaryReview repo pullNumber commitId body ::
    (comments.filterMap formatReviewComment).map (commentReview repo pullNumber commitId)

theorem recognized_iff {g : GitHub} : Recognized repo pullNumber commitId g ↔
    (g.stored.filter fun r => r.repo = repo && r.pullNumber = pullNumber).any
      (StoredReview.bears (reviewSignature commitId)) = true := by
  simp [Recognized, and_assoc]

variable {token body : String} {g g' : GitHub} {cs : List Delivery}
  {p' : Prog ReviewCall (fun q => Except Raised q.Answer) (Except Raised Unit × Unit)}

/-- The look-up changes nothing, and decides what comes next. -/
theorem run_postReview
    (h : Run (Session github) (g, postReview repo pullNumber commitId comments token body ()) cs
      (g', p')) : (cs = [] ∧ g' = g ∧ result p' = none) ∨ ∃ c cs', cs = c :: cs' ∧
      ((Recognized repo pullNumber commitId g ∧ cs' = [] ∧ g' = g) ∨
        (¬ Recognized repo pullNumber commitId g ∧
          Run (Session github) (g, sendReviews repo pullNumber commitId comments token
            (truncate (signBody (reviewSignature commitId) body) maxPayloadSize) ()) cs'
            (g', p'))) := by
  rcases run_ask.1 h with ⟨hcs, hy⟩ | ⟨c, cs', hcs, hrest⟩
  · cases hy
    exact .inl ⟨hcs, rfl, rfl⟩
  · have hnext : Run (Session github) (g, (if (g.stored.filter fun r =>
        r.repo = repo && r.pullNumber = pullNumber).any
          (StoredReview.bears (reviewSignature commitId)) = true then
        (Script.pure () : ReviewScript Unit)
      else sendReviews repo pullNumber commitId comments token
        (truncate (signBody (reviewSignature commitId) body) maxPayloadSize)) ()) cs'
        (g', p') := hrest
    refine .inr ⟨c, cs', hcs, ?_⟩
    split at hnext
    · rename_i hseen
      obtain ⟨hnil, hy⟩ := run_done.1 hnext
      cases hy
      exact .inl ⟨recognized_iff.2 hseen, hnil, rfl⟩
    · rename_i hseen
      exact .inr ⟨fun hg => hseen (recognized_iff.1 hg), hnext⟩

theorem attempt_recognized (hg : Recognized repo pullNumber commitId g)
    (h : Run (Session github) (g, postReview repo pullNumber commitId comments token body ()) cs
      (g', p')) : g' = g := by
  rcases run_postReview h with ⟨-, hsame, -⟩ | ⟨-, -, -, ⟨-, -, hsame⟩ | ⟨hne, -⟩⟩
  · exact hsame
  · exact hsame
  · exact absurd hg hne

def afterSummary (repo : String) (pullNumber : ℤ) (commitId body : String) (g : GitHub)
    (d : Delivery) : GitHub :=
  let summary := summaryReview repo pullNumber commitId body
  ⟨if d.stores then g.stored ++ [summary] else g.stored, g.sent ++ [summary]⟩

theorem recognized_afterSummary {d : Delivery} (hg : ¬ Recognized repo pullNumber commitId g) :
    Recognized repo pullNumber commitId (afterSummary repo pullNumber commitId body g d) ↔
      KeepsSignature commitId body ∧ d.stores = true := by
  have hsummary := @bears_summaryReview repo pullNumber commitId body
  rw [← hsummary]
  constructor
  · rintro ⟨r, hr, hrepo, hnumber, hbears⟩
    simp only [afterSummary] at hr
    split at hr
    · rename_i hd
      rcases List.mem_append.1 hr with hr | hr
      · exact absurd ⟨r, hr, hrepo, hnumber, hbears⟩ hg
      · rw [List.mem_singleton.1 hr] at hbears
        exact ⟨hbears, hd⟩
    · exact absurd ⟨r, hr, hrepo, hnumber, hbears⟩ hg
  · rintro ⟨hbears, hd⟩
    exact ⟨_, by simp [afterSummary, hd], rfl, rfl, hbears⟩

/-- Comments have no body, so they are not recognized. -/
theorem recognized_of_comments (hnew : ∀ r ∈ g'.stored, r ∈ g.stored ∨ r.payload.body = none)
    (hold : g.stored ⊆ g'.stored) :
    Recognized repo pullNumber commitId g' ↔ Recognized repo pullNumber commitId g := by
  constructor
  · rintro ⟨r, hr, hrepo, hnumber, hbears⟩
    rcases hnew r hr with hr | hnone
    · exact ⟨r, hr, hrepo, hnumber, hbears⟩
    · rw [StoredReview.bears, hnone] at hbears
      cases hbears
  · rintro ⟨r, hr, hrest⟩
    exact ⟨r, hold hr, hrest⟩

/-- The summary, and after it the comments if GitHub accepts it. -/
theorem run_sendReviews
    (h : Run (Session github) (g, sendReviews repo pullNumber commitId comments token
      (truncate (signBody (reviewSignature commitId) body) maxPayloadSize) ()) cs (g', p')) :
    g'.sent = g.sent ++ (reviewsToSend repo pullNumber commitId comments body).take cs.length ∧
      (cs = [] ∧ g' = g ∧ result p' = none ∨ ∃ d cs', cs = d :: cs' ∧
        (Recognized repo pullNumber commitId g' ↔ Recognized repo pullNumber commitId
          (afterSummary repo pullNumber commitId body g d)) ∧
        (p' = .done (.ok (), ()) →
          d = .accepted ∧ (comments.filterMap formatReviewComment).length ≤ cs'.length)) := by
  rcases run_ask.1 h with ⟨rfl, hy⟩ | ⟨d, cs', rfl, hrest⟩
  · cases hy
    exact ⟨by simp, .inl ⟨rfl, rfl, rfl⟩⟩
  · -- an exception leaves the call before the comments
    have hraise : ∀ e, Run (Session github) (afterSummary repo pullNumber commitId body g d,
        (.done (.error e, ()) : Prog ReviewCall (fun q => Except Raised q.Answer) _)) cs'
        (g', p') → g' = afterSummary repo pullNumber commitId body g d ∧ cs' = [] ∧
          p' = .done (.error e, ()) := by
      intro e hrun
      obtain ⟨hnil, hy⟩ := run_done.1 hrun
      cases hy
      exact ⟨rfl, hnil, rfl⟩
    cases d with
    | accepted =>
      obtain ⟨hsent, hnew, hold, hdone⟩ := run_comments hrest
      refine ⟨?_, .inr ⟨_, cs', rfl, recognized_of_comments hnew hold, fun hp => ⟨rfl, hdone hp⟩⟩⟩
      rw [hsent]
      simp [reviewsToSend, summaryReview, github]
    | lost e =>
      obtain ⟨rfl, rfl, rfl⟩ := hraise e hrest
      exact ⟨by simp [reviewsToSend, afterSummary], .inr ⟨_, [], rfl, Iff.rfl, fun hp => nomatch hp⟩⟩
    | refused e =>
      obtain ⟨rfl, rfl, rfl⟩ := hraise e hrest
      exact ⟨by simp [reviewsToSend, afterSummary], .inr ⟨_, [], rfl, Iff.rfl, fun hp => nomatch hp⟩⟩

/-- A call that recognizes no earlier one: what it sends, when a later call will recognize it,
and how far it goes if it returns. The first of its requests is the look-up. -/
theorem attempt_sends (hg : ¬ Recognized repo pullNumber commitId g)
    (h : Run (Session github) (g, postReview repo pullNumber commitId comments token body ()) cs
      (g', p')) :
    g'.sent = g.sent ++
        (reviewsToSend repo pullNumber commitId comments body).take (cs.length - 1) ∧
      (Recognized repo pullNumber commitId g' ↔
        KeepsSignature commitId body ∧ ∃ d, cs[1]? = some d ∧ d.stores = true) ∧
      (p' = .done (.ok (), ()) → cs[1]? = some .accepted ∧
        (comments.filterMap formatReviewComment).length + 2 ≤ cs.length) := by
  rcases run_postReview h with ⟨rfl, rfl, hp⟩ | ⟨c, cs', rfl, ⟨hr, -⟩ | ⟨-, hrest⟩⟩
  · refine ⟨by simp, ⟨fun hr => absurd hr hg, fun ⟨_, d, hd, _⟩ => nomatch hd⟩, fun hdone => ?_⟩
    rw [hdone] at hp
    cases hp
  · exact absurd hr hg
  · obtain ⟨hsent, ⟨rfl, rfl, hp⟩ | ⟨d, cs'', rfl, hrec, hdone⟩⟩ := run_sendReviews hrest
    · refine ⟨by simp, ⟨fun hr => absurd hr hg, fun ⟨_, d, hd, _⟩ => nomatch hd⟩, fun hdone => ?_⟩
      rw [hdone] at hp
      cases hp
    · refine ⟨hsent, hrec.trans ((recognized_afterSummary hg).trans ?_), fun hp => ?_⟩
      · simp
      · obtain ⟨rfl, hlen⟩ := hdone hp
        exact ⟨rfl, by simpa using hlen⟩

theorem exists_run_summary (hg : ¬ Recognized repo pullNumber commitId g)
    (comments : List Dict) (token body : String) :
    ∃ p', Run (Session github) (g, postReview repo pullNumber commitId comments token body ())
      [.accepted, .accepted] (afterSummary repo pullNumber commitId body g .accepted, p') ∧
      (comments = [] → p' = .done (.ok (), ())) := by
  have hseen : ¬ (g.stored.filter fun r => r.repo = repo && r.pullNumber = pullNumber).any
      (StoredReview.bears (reviewSignature commitId)) = true := fun h => hg (recognized_iff.2 h)
  have hnext : ∃ p', Run (Session github) (g, (if (g.stored.filter fun r =>
        r.repo = repo && r.pullNumber = pullNumber).any
          (StoredReview.bears (reviewSignature commitId)) = true then
        (Script.pure () : ReviewScript Unit)
      else sendReviews repo pullNumber commitId comments token
        (truncate (signBody (reviewSignature commitId) body) maxPayloadSize)) ()) [.accepted]
        (afterSummary repo pullNumber commitId body g .accepted, p') ∧
      (comments = [] → p' = .done (.ok (), ())) := by
    rw [if_neg hseen]
    refine ⟨_, .single rfl, fun hnil => ?_⟩
    subst hnil
    rfl
  obtain ⟨p', hrun, hdone⟩ := hnext
  exact ⟨p', .cons rfl hrun, hdone⟩

theorem exists_run_recognized (hg : Recognized repo pullNumber commitId g)
    (comments : List Dict) (token body : String) :
    Run (Session github) (g, postReview repo pullNumber commitId comments token body ())
      [.accepted] (g, .done (.ok (), ())) := by
  have hnext : Run (Session github) (g, (if (g.stored.filter fun r =>
        r.repo = repo && r.pullNumber = pullNumber).any
          (StoredReview.bears (reviewSignature commitId)) = true then
        (Script.pure () : ReviewScript Unit)
      else sendReviews repo pullNumber commitId comments token
        (truncate (signBody (reviewSignature commitId) body) maxPayloadSize)) ()) []
        (g, .done (.ok (), ())) := by
    rw [if_pos (recognized_iff.1 hg)]
    exact .nil _
  exact .cons rfl hnext

end Attempts

end Revix
