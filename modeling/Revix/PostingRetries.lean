import Revix.PostingAttempts
import Revix.QueueRuns

/-! A retry of `post_review` recognizes an earlier one by the signature in its summary, which is
cut to size after it is signed and sent before the comments. -/
namespace Revix
open EffectSessions LabelledRuns

section Idempotence

variable {repo : String} {pullNumber : ℤ} {commitId token body : String} {comments : List Dict}
  {stored : List StoredReview} {g : GitHub} {cs : List Delivery}

def SendsNothing (repo : String) (pullNumber : ℤ) (commitId : String) (g : GitHub) : Prop :=
  ∀ comments token body cs g' p', Run (Session github)
    (g, postReview repo pullNumber commitId comments token body ()) cs (g', p') → g'.sent = g.sent

/-- Every summary that was sent has the signature of the commit in it. -/
def SummariesSigned (commitId : String) (g : GitHub) : Prop :=
  ∀ r ∈ g.sent, ∀ b, r.payload.body = some b → signedWith (reviewSignature commitId) b = true

theorem sendsNothing_iff : SendsNothing repo pullNumber commitId g ↔
    Recognized repo pullNumber commitId g := by
  constructor
  · intro h
    by_contra hg
    obtain ⟨p', hrun, -⟩ := exists_run_summary hg [] "" ""
    have hsent := h _ _ _ _ _ _ hrun
    simp [afterSummary] at hsent
  · intro hg comments token body cs g' p' hrun
    rw [attempt_recognized hg hrun]

/-- A completed call is recognized just when its summary kept the signature, unless an earlier
one was recognized already. -/
theorem recognized_of_complete
    (h : Run (Session github) (⟨stored, []⟩, postReview repo pullNumber commitId comments token
      body ()) cs (g, .done (.ok (), ()))) :
    Recognized repo pullNumber commitId g ↔
      Recognized repo pullNumber commitId ⟨stored, []⟩ ∨ KeepsSignature commitId body := by
  by_cases hg : Recognized repo pullNumber commitId ⟨stored, []⟩
  · rw [attempt_recognized hg h]
    exact ⟨.inl, fun _ => hg⟩
  · obtain ⟨-, hrec, hdone⟩ := attempt_sends hg h
    obtain ⟨hsecond, -⟩ := hdone rfl
    rw [hrec]
    exact ⟨fun hk => .inr hk.1, fun hk => ⟨hk.resolve_left hg, _, hsecond, rfl⟩⟩

theorem signBody_ne_empty : signBody (reviewSignature commitId) body ≠ "" := by
  intro hempty
  have hsigned := signedWith_signBody (reviewSignature commitId) body
  rw [hempty, signedWith_empty] at hsigned
  cases hsigned

theorem truncate_ne_empty {value : String} (h : value ≠ "") (limit : ℕ) :
    truncate value limit ≠ "" := by
  unfold truncate
  split
  · exact h
  · intro hempty
    have hlen := congrArg String.length hempty
    simp [String.length_append, truncationMarker] at hlen

theorem summariesSigned_of_complete
    (h : Run (Session github) (⟨stored, []⟩, postReview repo pullNumber commitId comments token
      body ()) cs (g, .done (.ok (), ()))) :
    SummariesSigned commitId g ↔
      Recognized repo pullNumber commitId ⟨stored, []⟩ ∨ KeepsSignature commitId body := by
  have hbody : (summaryReview repo pullNumber commitId body).payload.body =
      some (truncate (signBody (reviewSignature commitId) body) maxPayloadSize) := by
    simp only [summaryReview, if_neg (truncate_ne_empty signBody_ne_empty _)]
  by_cases hg : Recognized repo pullNumber commitId ⟨stored, []⟩
  · rw [attempt_recognized hg h]
    exact ⟨fun _ => .inl hg, fun _ r hr => absurd hr List.not_mem_nil⟩
  · obtain ⟨hsent, -, hdone⟩ := attempt_sends hg h
    obtain ⟨-, hlen⟩ := hdone rfl
    simp only [List.nil_append] at hsent
    constructor
    · intro hsigned
      have hmem : summaryReview repo pullNumber commitId body ∈ g.sent := by
        rw [hsent, show cs.length - 1 = (cs.length - 2) + 1 by omega]
        exact .head _
      exact .inr (signedWith_truncate_iff.1 (hsigned _ hmem _ hbody))
    · intro hk r hr b hb
      rw [hsent] at hr
      rcases List.mem_cons.1 (List.mem_of_mem_take hr) with rfl | hr
      · rw [hbody] at hb
        cases hb
        exact signedWith_truncate_iff.2 (hk.resolve_left hg)
      · obtain ⟨d, -, rfl⟩ := List.mem_map.1 hr
        cases hb

/-- After a completed call, a second one for the commit sends nothing and all summaries are
signed, exactly when the summary keeps its signature or an earlier one was recognized. -/
theorem idempotent_iff
    (h : Run (Session github) (⟨stored, []⟩, postReview repo pullNumber commitId comments token
      body ()) cs (g, .done (.ok (), ()))) :
    (SendsNothing repo pullNumber commitId g ∧ SummariesSigned commitId g) ↔
      (Recognized repo pullNumber commitId ⟨stored, []⟩ ∨ KeepsSignature commitId body) := by
  rw [sendsNothing_iff, recognized_of_complete h, summariesSigned_of_complete h, and_self]

theorem not_recognized_nil {sent : List StoredReview} :
    ¬ Recognized repo pullNumber commitId ⟨[], sent⟩ := fun ⟨_, hr, _⟩ => nomatch hr

theorem signedWith_of_not_mem (h : '<' ∉ body.toList) :
    signedWith (reviewSignature commitId) body = false := by
  rw [Bool.eq_false_iff]
  intro hsigned
  have hsub := (signedWith_iff.1 hsigned).subset
  exact h (hsub (by simp [reviewSignature, String.toList_append]))

def letters (n : ℕ) : String := String.ofList (List.replicate n 'a')

theorem not_keepsSignature_letters (commitId : String) :
    ¬ KeepsSignature commitId (letters maxPayloadSize) := by
  have hletters : '<' ∉ (letters maxPayloadSize).toList := by
    simp [letters, List.mem_replicate]
  rintro (hfit | hearly)
  · rw [signedWith_of_not_mem hletters] at hfit
    simp only [letters, Bool.false_eq_true, ↓reduceIte, String.length_ofList,
      List.length_replicate] at hfit
    omega
  · have hcut : maxPayloadSize - truncationMarker.length ≤
        (letters maxPayloadSize).toList.length := by simp [letters]
    rw [String.append_assoc, String.toList_append, List.take_append_of_le_length hcut] at hearly
    refine absurd hearly (ne_true_of_eq_false (signedWith_of_not_mem ?_))
    rw [String.toList_ofList]
    exact fun hmem => hletters (List.mem_of_mem_take hmem)

end Idempotence

theorem idempotent_iff_short : ∃ g, Run (Session github)
    (⟨[], []⟩, postReview "octo/widgets" 7 Sample.sha [] "token" "Looks good." ())
      [.accepted, .accepted] (g, .done (.ok (), ())) ∧
    SendsNothing "octo/widgets" 7 Sample.sha g ∧ SummariesSigned Sample.sha g := by
  have hempty : ¬ Recognized "octo/widgets" 7 Sample.sha ⟨[], []⟩ := not_recognized_nil
  obtain ⟨p', hrun, hdone⟩ := exists_run_summary hempty [] "token" "Looks good."
  obtain rfl := hdone rfl
  have hiff := idempotent_iff hrun
  exact ⟨_, hrun, hiff.2 (.inr (by decide))⟩

/-- A summary of 60000 letters loses its signature, and the next call sends it once more. -/
theorem not_idempotent : ¬ ∀ (repo : String) (pullNumber : ℤ) (commitId : String)
    (comments : List Dict) (token body : String) (cs : List Delivery) (g : GitHub),
    Run (Session github) (⟨[], []⟩, postReview repo pullNumber commitId comments token body ()) cs
      (g, .done (.ok (), ())) →
    SendsNothing repo pullNumber commitId g ∧ SummariesSigned commitId g := by
  intro hall
  have hempty : ¬ Recognized "octo/widgets" 7 Sample.sha ⟨[], []⟩ := not_recognized_nil
  obtain ⟨p', hrun, hdone⟩ := exists_run_summary hempty [] "token" (letters maxPayloadSize)
  obtain rfl := hdone rfl
  have hrec := sendsNothing_iff.1 (hall _ _ _ _ _ _ _ _ hrun).1
  rcases (recognized_of_complete hrun).1 hrec with hempty | hkeeps
  · exact not_recognized_nil hempty
  · exact not_keepsSignature_letters _ hkeeps

section Retries

variable (repo : String) (pullNumber : ℤ) (commitId : String) (comments : List Dict)

/-- A call that may be interrupted: what becomes of the requests that it makes. -/
structure Attempt where
  token : String
  body : String
  outcomes : List Delivery

/-- The call makes its requests, and may stop after them. -/
def Attempts (g : GitHub) (a : Attempt) (g' : GitHub) : Prop :=
  ∃ p', Run (Session github) (g, postReview repo pullNumber commitId comments a.token a.body ())
    a.outcomes (g', p')

/-- Every well-formed comment was sent. -/
def Delivered (g : GitHub) : Prop :=
  ∀ comment ∈ comments, ∀ d, formatReviewComment comment = some d →
    commentReview repo pullNumber commitId d ∈ g.sent

/-- When GitHub stores the call's summary with its signature, the call goes on until every
well-formed comment is sent that no earlier call has sent. -/
def Unbroken (g : GitHub) (a : Attempt) (_ : GitHub) : Prop :=
  ¬ Recognized repo pullNumber commitId g → KeepsSignature commitId a.body →
    (∃ d, a.outcomes[1]? = some d ∧ d.stores = true) →
    ∀ d ∈ comments.filterMap formatReviewComment,
      commentReview repo pullNumber commitId d ∈ g.sent ∨
        d ∈ (comments.filterMap formatReviewComment).take (a.outcomes.length - 2)

/-- A comment is missing, and every later call returns early. -/
def Broken (g : GitHub) : Prop :=
  Recognized repo pullNumber commitId g ∧ ¬ Delivered repo pullNumber commitId comments g

variable {repo pullNumber commitId comments} {g g' : GitHub} {a : Attempt}

theorem delivered_iff : Delivered repo pullNumber commitId comments g ↔
    ∀ d ∈ comments.filterMap formatReviewComment,
      commentReview repo pullNumber commitId d ∈ g.sent := by
  constructor
  · intro h d hd
    obtain ⟨comment, hmem, hformat⟩ := List.mem_filterMap.1 hd
    exact h comment hmem d hformat
  · exact fun h comment hmem d hformat => h d (List.mem_filterMap.2 ⟨comment, hmem, hformat⟩)

theorem commentReview_mem_take {body : String} {n : ℕ} {d : Dict} :
    commentReview repo pullNumber commitId d ∈
      (reviewsToSend repo pullNumber commitId comments body).take (n - 1) ↔
    d ∈ (comments.filterMap formatReviewComment).take (n - 2) := by
  have hsummary : commentReview repo pullNumber commitId d ≠
      summaryReview repo pullNumber commitId body := by
    intro h
    have hcomments := congrArg (fun r => r.payload.comments.length) h
    simp [commentReview, summaryReview] at hcomments
  have hinj : Function.Injective (commentReview repo pullNumber commitId) := by
    intro d d' h
    simpa [commentReview] using h
  rcases Nat.lt_or_ge n 2 with hn | hn
  · rw [show n - 1 = 0 by omega, show n - 2 = 0 by omega]
    simp
  · rw [show n - 1 = (n - 2) + 1 by omega, reviewsToSend, List.take_succ_cons, List.mem_cons,
      ← List.map_take, List.mem_map_of_injective hinj]
    simp [hsummary]

theorem broken_step (h : Attempts repo pullNumber commitId comments g a g')
    (hg : ¬ Broken repo pullNumber commitId comments g) :
    Unbroken repo pullNumber commitId comments g a g' ↔
      ¬ Broken repo pullNumber commitId comments g' := by
  obtain ⟨p', hrun⟩ := h
  by_cases hrec : Recognized repo pullNumber commitId g
  · rw [attempt_recognized hrec hrun]
    exact ⟨fun _ => hg, fun _ hne => absurd hrec hne⟩
  · obtain ⟨hsent, hnew, -⟩ := attempt_sends hrec hrun
    have hmem : ∀ d, commentReview repo pullNumber commitId d ∈ g'.sent ↔
        commentReview repo pullNumber commitId d ∈ g.sent ∨
          d ∈ (comments.filterMap formatReviewComment).take (a.outcomes.length - 2) := by
      intro d
      rw [hsent, List.mem_append, commentReview_mem_take]
    simp only [Broken, hnew, delivered_iff, hmem, Unbroken, hrec, not_false_eq_true, forall_const,
      not_and, not_not, and_imp]

theorem Broken.step (h : Broken repo pullNumber commitId comments g)
    (hs : Attempts repo pullNumber commitId comments g a g') :
    Broken repo pullNumber commitId comments g' := by
  obtain ⟨p', hrun⟩ := hs
  rw [attempt_recognized h.1 hrun]
  exact h

/-- Over a run of attempts the delivery breaks unless every one of them is unbroken. -/
theorem broken_run {as : List Attempt}
    (h : Run (Attempts repo pullNumber commitId comments) g as g')
    (hg : ¬ Broken repo pullNumber commitId comments g) :
    ¬ Broken repo pullNumber commitId comments g' ↔
      Run (Guarded (Attempts repo pullNumber commitId comments)
        (Unbroken repo pullNumber commitId comments)) g as g' := by
  constructor
  · intro hend
    induction h with
    | nil => exact .nil _
    | @cons g₀ g₁ g₂ a as first rest ih =>
      have hmid : ¬ Broken repo pullNumber commitId comments g₁ := fun hb =>
        hend (rest.invariant (I := Broken repo pullNumber commitId comments)
          (fun _ _ _ hb hs => hb.step hs) hb)
      exact .cons ⟨first, (broken_step first hg).2 hmid⟩ (ih hmid hend)
  · intro hrun
    exact hrun.invariant (I := fun g => ¬ Broken repo pullNumber commitId comments g)
      (fun _ _ _ hb hs => (broken_step hs.1 hb).1 hs.2) hg

/-- A call that returns delivers what is not broken. -/
theorem delivered_of_complete {token body : String} {cs : List Delivery}
    (h : Run (Session github) (g, postReview repo pullNumber commitId comments token body ()) cs
      (g', .done (.ok (), ()))) :
    Delivered repo pullNumber commitId comments g' ↔
      ¬ Broken repo pullNumber commitId comments g := by
  by_cases hrec : Recognized repo pullNumber commitId g
  · rw [attempt_recognized hrec h]
    simp [Broken, hrec]
  · obtain ⟨hsent, -, hdone⟩ := attempt_sends hrec h
    obtain ⟨-, hlen⟩ := hdone rfl
    refine ⟨fun _ hb => hrec hb.1, fun _ => delivered_iff.2 fun d hd => ?_⟩
    rw [hsent]
    refine List.mem_append_right _ (commentReview_mem_take.2 ?_)
    rwa [List.take_of_length_le (by omega)]

/-- Over any attempts and a last call that returns: the comments are delivered exactly when
the pull request had no review with the signature, unless nothing is to be delivered, and
every attempt was unbroken. -/
theorem delivered_iff_unbroken {stored : List StoredReview} {as : List Attempt}
    {token body : String} {cs : List Delivery}
    (h : Run (Attempts repo pullNumber commitId comments) ⟨stored, []⟩ as g)
    (hlast : Run (Session github) (g, postReview repo pullNumber commitId comments token body ())
      cs (g', .done (.ok (), ()))) :
    Delivered repo pullNumber commitId comments g' ↔
      (Recognized repo pullNumber commitId ⟨stored, []⟩ →
        comments.filterMap formatReviewComment = []) ∧
      Run (Guarded (Attempts repo pullNumber commitId comments)
        (Unbroken repo pullNumber commitId comments)) ⟨stored, []⟩ as g := by
  have hstart : Broken repo pullNumber commitId comments ⟨stored, []⟩ ↔
      ¬ (Recognized repo pullNumber commitId ⟨stored, []⟩ →
        comments.filterMap formatReviewComment = []) := by
    rw [Broken, delivered_iff, Classical.not_imp, List.eq_nil_iff_forall_not_mem]
    simp
  rw [delivered_of_complete hlast]
  by_cases hb : Broken repo pullNumber commitId comments ⟨stored, []⟩
  · have hend : Broken repo pullNumber commitId comments g :=
      h.invariant (I := Broken repo pullNumber commitId comments)
        (fun _ _ _ hb hs => hb.step hs) hb
    exact ⟨fun hne => absurd hend hne, fun hc => absurd hc.1 (hstart.1 hb)⟩
  · rw [broken_run h hb]
    exact ⟨fun hrun => ⟨not_not.1 fun hne => hb (hstart.2 hne), hrun⟩, fun hc => hc.2⟩

end Retries

namespace Sample

def finding : Dict :=
  [("path", .str "lru.py"), ("line", .int 12), ("side", .str "RIGHT"), ("body", .str "Off by one.")]

end Sample

theorem delivered_iff_unbroken_first : ∃ g, Run (Session github)
    (⟨[], []⟩, postReview "octo/widgets" 7 Sample.sha [Sample.finding] "token" "Needs work." ())
      (List.replicate 3 .accepted) (g, .done (.ok (), ())) ∧
    Delivered "octo/widgets" 7 Sample.sha [Sample.finding] g := by
  obtain ⟨g, ⟨_ | _, _⟩, hrun, hdone⟩ := exists_result github (s := ⟨[], []⟩)
    (p := postReview "octo/widgets" 7 Sample.sha [Sample.finding] "token" "Needs work." ())
    (fun _ r => r.1.isOk)
    (show (replay (advance github) _ (List.replicate 3 .accepted)).any _ = true by decide)
  · cases hdone
  · have hnone : Run (Attempts "octo/widgets" 7 Sample.sha [Sample.finding]) ⟨[], []⟩ [] ⟨[], []⟩ :=
      .nil _
    have hiff := delivered_iff_unbroken hnone hrun
    exact ⟨g, hrun, hiff.2 ⟨fun hrec => absurd hrec not_recognized_nil, .nil _⟩⟩

/-- The worker stops after GitHub has accepted its summary: the retry returns early, and the
comment is never sent. -/
theorem not_delivered_after_summary : ¬ ∀ (repo : String) (pullNumber : ℤ) (commitId : String)
    (comments : List Dict) (as : List Attempt) (g : GitHub) (token body : String)
    (cs : List Delivery) (g' : GitHub),
    Run (Attempts repo pullNumber commitId comments) ⟨[], []⟩ as g →
    Run (Session github) (g, postReview repo pullNumber commitId comments token body ()) cs
      (g', .done (.ok (), ())) → Delivered repo pullNumber commitId comments g' := by
  intro hall
  have hempty : ¬ Recognized "octo/widgets" 7 Sample.sha ⟨[], []⟩ := not_recognized_nil
  obtain ⟨p', hfirst, -⟩ := exists_run_summary hempty [Sample.finding] "token" "Needs work."
  have hrec : Recognized "octo/widgets" 7 Sample.sha
      (afterSummary "octo/widgets" 7 Sample.sha "Needs work." ⟨[], []⟩ .accepted) :=
    (recognized_afterSummary hempty).2 ⟨by decide, rfl⟩
  have hdelivered := hall "octo/widgets" 7 Sample.sha [Sample.finding]
    [⟨"token", "Needs work.", [.accepted, .accepted]⟩] _ "token" "Needs work." _ _
    (.single ⟨p', hfirst⟩) (exists_run_recognized hrec _ _ _)
  have hsent := delivered_iff.1 hdelivered _ (List.mem_filterMap.2 ⟨_, .head _, rfl⟩)
  -- only the summary was sent, and it has no comments
  have hcomments := congrArg (fun r => r.payload.comments.length) (List.mem_singleton.1 hsent)
  cases hcomments

end Revix
