import Revix.PostedReviews
import Revix.QueueSubjects

/-! `post_review` returns early when a review of the pull request has its signature, whoever wrote
it. -/
namespace Revix
open EffectPrograms EffectSessions LabelledRuns

/-! ## What a `post_review` reports -/

/-- Within the pull request; the state says that the signature was found or a summary sent. -/
def summaryMonitor (repo : String) (pullNumber : ℤ) (commitId : String) :
    Monitor ReviewCall (fun q => Except Raised q.Answer) Bool where
  allows
    | _, .getReviews repo' pullNumber' _ => repo' = repo ∧ pullNumber' = pullNumber
    | _, .sendReview repo' pullNumber' _ _ => repo' = repo ∧ pullNumber' = pullNumber
  next
    | m, .getReviews _ _ _, .ok reviews =>
      m || reviews.any (StoredReview.bears (reviewSignature commitId))
    | m, .sendReview _ _ _ payload, .ok _ =>
      m || payload.commitId = commitId && payload.comments.isEmpty
    | m, _, .error _ => m

def Reported (m : Bool) (_ : Unit) : Except Raised Unit → Prop
  | .ok _ => m = true
  | .error _ => True

section Posting

variable {repo commitId token body : String} {pullNumber : ℤ} {m : Bool}

theorem summaryMonitor_send (payload : ReviewPayload) :
    (summaryMonitor repo pullNumber commitId).allows m
      (.sendReview repo pullNumber token payload) := ⟨rfl, rfl⟩

theorem quiet_comments (ds : List Dict) : (Script.forEach (fun comment =>
      tryExcept (sendReviewPayload repo pullNumber token commitId "" [comment])
        fun _ => Script.pure ()) ds).Quiet (summaryMonitor repo pullNumber commitId) true := by
  induction ds with
  | nil => exact Script.quiet_pure ()
  | cons d ds ih =>
    refine Script.Quiet.bind (quiet_tryExcept ?_ fun _ => Script.quiet_pure ()) fun _ => ih
    apply Script.quiet_request (summaryMonitor_send _)
    rintro (e | _) <;> rfl

theorem sendReviews_obeys (comments : List Dict) :
    (sendReviews repo pullNumber commitId comments token body).Obeys
      (summaryMonitor repo pullNumber commitId) Reported m () := by
  unfold sendReviews
  refine Script.obeys_bind.2 (Script.obeys_request.2 ⟨summaryMonitor_send _, fun r => ?_⟩)
  cases r with
  | error e => trivial
  | ok u =>
    have hsent : (summaryMonitor repo pullNumber commitId).next m
        (.sendReview repo pullNumber token
          ⟨commitId, if body = "" then none else some body, []⟩) (.ok u) = true := by
      simp [summaryMonitor]
    show Script.Obeys _ Reported _ _ _
    rw [hsent]
    refine (quiet_comments _).obeys fun _ r => ?_
    cases r <;> trivial

theorem postReview_obeys (comments : List Dict) :
    (postReview repo pullNumber commitId comments token body).Obeys
      (summaryMonitor repo pullNumber commitId) Reported m () := by
  unfold postReview
  dsimp only
  refine Script.obeys_bind.2 (Script.obeys_tryCatch.2 (Script.obeys_bind.2
    (Script.obeys_request.2 ⟨⟨rfl, rfl⟩, fun r => ?_⟩)))
  rcases r with (e | _) | reviews
  · exact sendReviews_obeys comments
  · trivial
  · show Script.Obeys _ Reported _ _ _
    split
    · rename_i hfound
      show (m || _) = true
      rw [hfound, Bool.or_true]
    · exact sendReviews_obeys comments

end Posting

/-! ## What a task finalizes -/

/-- A task posts for its own pull request and commit, and finalizes its own job with `SUCCESS`
only when its `post_review` has returned. -/
def successMonitor (job : Job) : Monitor Request (fun q => Except Raised q.Answer) Bool where
  allows
    | _, .postReview repo pullNumber commitId _ _ _ =>
      repo = job.repoFullName ∧ pullNumber = job.prNumber ∧ commitId = job.commitSha
    | m, .finalizeJob id _ .success _ => id = job.id ∧ m = true
    | _, _ => True
  next
    | _, .postReview _ _ _ _ _ _, .ok _ => true
    | m, _, _ => m

def Request.reportless : Request → Bool
  | .postReview _ _ _ _ _ _ => false
  | .finalizeJob _ _ .success _ => false
  | _ => true

section Process

variable {py : Python} {cfg : Settings} {job : Job} {m : Bool}

theorem reportless_unnoticed {q : Request} (h : q.reportless = true) :
    (successMonitor job).allows m q ∧ ∀ r, (successMonitor job).next m q r = m := by
  cases q with
  | postReview => cases h
  | finalizeJob id token verdict aiFeedback =>
    cases verdict with
    | success => cases h
    | failure => exact ⟨trivial, fun _ => rfl⟩
  | _ => exact ⟨trivial, fun _ => rfl⟩

theorem reportless_of_calls {α : Type} {x : JobScript α}
    (hx : x.Calls fun q => q.reportless = true) : x.Quiet (successMonitor job) m :=
  hx.quiet fun _ => reportless_unnoticed

theorem reportless_ask {q : Request} (h : q.reportless = true) :
    (ask q).Quiet (successMonitor job) m :=
  reportless_of_calls (calls_ask h)

theorem reportless_createCheckRun (token : String) :
    (createCheckRun job token).Quiet (successMonitor job) m := by
  refine quiet_tryExcept ((reportless_ask rfl).bind fun _ => ?_) fun _ => Script.quiet_pure _
  exact (Script.quiet_modify _).bind fun _ => reportless_ask rfl

theorem successMonitor_post (comments : List PostedComment) (token body : String) :
    (successMonitor job).allows m
      (.postReview job.repoFullName job.prNumber job.commitSha comments token body) :=
  ⟨rfl, rfl, rfl⟩

theorem successful_review (installationId : ℤ) (l : Locals) :
    (review cfg job installationId).Obeys (successMonitor job) (fun _ _ _ => True) false l := by
  have hindex : ∀ prFiles, (indexFiles job prFiles).Quiet (successMonitor job) false :=
    fun prFiles => reportless_of_calls
      (calls_indexFiles (fun _ _ => rfl) (fun _ _ _ => rfl) prFiles)
  have hcomplete : ∀ result token, (completeCheckRun job result token).Quiet
      (successMonitor job) true :=
    fun result token => reportless_of_calls (calls_completeCheckRun (fun _ _ => rfl) result token)
  unfold review
  refine (reportless_ask rfl).andThen (fun token l => ?_) fun _ _ => trivial
  refine (Script.quiet_modify _).andThen (fun _ l => ?_) fun _ _ => trivial
  refine (reportless_createCheckRun token).andThen (fun _ l => ?_) fun _ _ => trivial
  refine (reportless_ask rfl).andThen (fun diff l => ?_) fun _ _ => trivial
  refine (reportless_ask rfl).andThen (fun prFiles l => ?_) fun _ _ => trivial
  refine (reportless_ask rfl).andThen (fun prDetails l => ?_) fun _ _ => trivial
  refine (hindex prFiles).andThen (fun _ l => ?_) fun _ _ => trivial
  refine (reportless_ask rfl).andThen (fun result l => ?_) fun _ _ => trivial
  -- the review is posted, and only then the job succeeds
  refine Script.obeys_bind.2 (Script.obeys_request.2 ⟨successMonitor_post _ _ _, fun r => ?_⟩)
  cases r with
  | error e => trivial
  | ok u =>
    have hfinal : ∀ l, (ask (.finalizeJob job.id job.fenceToken .success
        (some result.modelDump))).Obeys (successMonitor job) (fun _ _ _ => True) true l :=
      fun l => Script.obeys_request.2 ⟨⟨rfl, rfl⟩, fun _ => trivial⟩
    exact (hcomplete result token).andThen (fun _ l => hfinal l) fun _ _ => trivial

theorem reportless_handleError (e : PyError) :
    (handleError py job e).Quiet (successMonitor job) m := by
  unfold handleError
  refine Script.Quiet.bind ?_ fun delay => ?_
  · exact reportless_of_calls (calls_retryDelayFor (by rfl) e _)
  · split
    · exact reportless_ask rfl
    · refine Script.Quiet.bind ?_ fun _ => ?_
      · exact reportless_of_calls (calls_failCheckRun (fun _ _ => rfl) e)
      · exact reportless_of_calls (calls_suppress (calls_ask rfl))

theorem successful_processJob (l : Locals) :
    (processJob py cfg job).Obeys (successMonitor job) (fun _ _ _ => True) false l := by
  unfold processJob
  split
  · have hfail : ∀ text, (suppress (ask (.finalizeJob job.id job.fenceToken .failure
        (some [("error", .str ("Invalid job payload: " ++ text))])))).Quiet
        (successMonitor job) false :=
      fun text => reportless_of_calls (calls_suppress (calls_ask rfl))
    exact (hfail _).obeys fun _ _ => trivial
  · rename_i installationId _
    refine (reportless_ask rfl).andThen (fun _ l => ?_) fun _ _ => trivial
    refine Script.Obeys.finallyDo (Script.obeys_tryCatch.2 ?_) fun _ => reportless_ask rfl
    apply (successful_review installationId l).mono
    intro m l r _
    rcases r with (e | _) | _
    · exact (reportless_handleError e).obeys fun _ _ => trivial
    · trivial
    · trivial

end Process

/-! ## Summaries of jobs that succeed -/

def Job.reviewed (j : Job) (g : GitHub) : Bool :=
  g.summarized j.repoFullName j.prNumber j.commitSha

theorem Job.reviewed_congr {j j' : Job} {g : GitHub} (h : j.subject = j'.subject) :
    j.reviewed g = j'.reviewed g := by
  simp only [Job.subject, Prod.mk.injEq] at h
  rw [Job.reviewed, Job.reviewed, h.1, h.2.1, h.2.2]

namespace ReviewBoard

variable {py : Python} {cfg : Settings} {b b' : ReviewBoard}

/-- Before Revix has sent a summary for the commit, no look-up shows a review with its
signature. -/
def unforged (b : ReviewBoard) : ReviewEvent → Bool
  | .posting n turn =>
    match b.fleet.request n, b.session n with
    | some (.postReview repo pullNumber commitId _ _ _), some (.ask (.getReviews _ _ _) _) =>
      b.github.summarized repo pullNumber commitId ||
        match turn.reviews b.github repo pullNumber with
        | .ok reviews => reviews.all fun r => !r.bears (reviewSignature commitId)
        | .error _ => true
    | _, _ => true
  | _ => true

/-- A call that will return means, when it does, that Revix has sent a summary. -/
def Reports (g : GitHub) (repo : String) (pullNumber : ℤ) (commitId : String)
    (p : PostingSession) : Prop :=
  ∃ m, p.Obeys (summaryMonitor repo pullNumber commitId) (fun m r => Reported m r.2 r.1) m ∧
    (m = true → g.summarized repo pullNumber commitId = true)

section Reports

variable {g g' : GitHub} {repo commitId : String} {pullNumber : ℤ}

theorem Reports.mono {p : PostingSession} (hsent : g.sent ⊆ g'.sent)
    (h : Reports g repo pullNumber commitId p) : Reports g' repo pullNumber commitId p := by
  obtain ⟨m, hobeys, hm⟩ := h
  exact ⟨m, hobeys, fun htrue => summarized_of_subset hsent (hm htrue)⟩

theorem reports_postReview (comments : List Dict) (token body : String) :
    Reports g repo pullNumber commitId
      (postReview repo pullNumber commitId comments token body ()) :=
  ⟨false, postReview_obeys comments, nofun⟩

/-- GitHub takes its turn, and shows no forged signature. -/
theorem Reports.turn {q : ReviewCall} {resume : Except Raised q.Answer → PostingSession}
    {turn : GitHubTurn} (h : Reports g repo pullNumber commitId (.ask q resume))
    (hlook : ∀ token reviews, q = .getReviews repo pullNumber token →
      turn.reviews g repo pullNumber = .ok reviews →
      reviews.any (StoredReview.bears (reviewSignature commitId)) = true →
      g.summarized repo pullNumber commitId = true) :
    Reports (pagedGithub g q turn).2 repo pullNumber commitId
      (resume (pagedGithub g q turn).1) := by
  obtain ⟨m, ⟨hallow, hnext⟩, hm⟩ := h
  refine ⟨_, hnext _, fun hfound => ?_⟩
  by_cases htrue : m = true
  · exact summarized_of_subset (sent_pagedGithub g q turn) (hm htrue)
  rw [Bool.not_eq_true] at htrue
  subst htrue
  cases q with
  | getReviews repo' pullNumber' token =>
    obtain ⟨rfl, rfl⟩ := hallow
    cases hreviews : turn.reviews g repo' pullNumber' with
    | error e => simp [pagedGithub, hreviews, summaryMonitor] at hfound
    | ok reviews =>
      refine hlook token reviews rfl hreviews ?_
      simpa [pagedGithub, hreviews, summaryMonitor] using hfound
  | sendReview repo' pullNumber' token payload =>
    obtain ⟨rfl, rfl⟩ := hallow
    have hsummary : payload.commitId = commitId ∧ payload.comments.isEmpty = true := by
      revert hfound
      cases (pagedGithub g (.sendReview repo' pullNumber' token payload) turn).1 with
      | error e => exact nofun
      | ok u => simp [summaryMonitor]
    exact summarized_of_send token turn hsummary.1 hsummary.2

end Reports

def Underway (f : Fleet) (g : GitHub) (n : ℕ) (p : PostingSession) : Prop :=
  ∃ repo pullNumber commitId comments token body,
    f.request n = some (.postReview repo pullNumber commitId comments token body) ∧
    Reports g repo pullNumber commitId p

theorem Underway.mono {f f' : Fleet} {g g' : GitHub} {n : ℕ} {p : PostingSession}
    (hrequest : ∀ q, f.request n = some q → f'.request n = some q) (hsent : g.sent ⊆ g'.sent)
    (h : Underway f g n p) : Underway f' g' n p := by
  obtain ⟨repo, pullNumber, commitId, comments, token, body, hn, hreports⟩ := h
  exact ⟨repo, pullNumber, commitId, comments, token, body, hrequest _ hn, hreports.mono hsent⟩

def Accounts (b : ReviewBoard) (task : Task) : Prop :=
  ∃ row ∈ b.fleet.queue.claims, row.id = task.id ∧ ∃ m,
    task.rest.Obeys (successMonitor row) (fun _ _ => True) m ∧
    (m = true → row.reviewed b.github = true)

/-- Tasks and calls account for what they report, and what has succeeded was reviewed. -/
structure Consistent (cfg : Settings) (b : ReviewBoard) : Prop where
  coupled : b.fleet.Coupled cfg
  claims : b.fleet.queue.ClaimsMatch
  tasks : ∀ task ∈ b.fleet.tasks, b.Accounts task
  sessions : ∀ n p, b.sessions n = some p → Underway b.fleet b.github n p
  succeeded : ∀ id j, b.fleet.queue.db.job id = some j → j.status = .success →
    j.reviewed b.github = true

theorem consistent_start (stored : List StoredReview) : (start stored).Consistent cfg where
  coupled := Fleet.coupled_empty
  claims _ hmem := absurd hmem List.not_mem_nil
  tasks _ hmem := absurd hmem List.not_mem_nil
  sessions _ _ hp := nomatch hp
  succeeded id _ hj := by
    have hnone : (start stored).fleet.queue.db.job id = none := rfl
    cases hnone.symm.trans hj

/-- A call that has not begun accounts for nothing yet. -/
theorem underway_session (h : b.Consistent cfg) {n : ℕ} {p : PostingSession}
    (hp : b.session n = some p) : Underway b.fleet b.github n p := by
  rcases Option.or_eq_some_iff.1 hp with hp | ⟨-, hp⟩
  · exact h.sessions n p hp
  · obtain ⟨q, hq, hp⟩ := Option.bind_eq_some_iff.1 hp
    cases q with
    | postReview repo pullNumber commitId comments token body =>
      rw [← Option.some.inj hp]
      exact ⟨repo, pullNumber, commitId, comments, token, body, hq,
        reports_postReview (comments.map PostedComment.toDict) token body⟩
    | _ => cases hp

theorem Accounts.mono {task : Task} (hclaims : b.fleet.queue.claims ⊆ b'.fleet.queue.claims)
    (hsent : b.github.sent ⊆ b'.github.sent) (h : b.Accounts task) : b'.Accounts task := by
  obtain ⟨row, hrow, hid, m, hobeys, hm⟩ := h
  exact ⟨row, hclaims hrow, hid, m, hobeys, fun htrue => summarized_of_subset hsent (hm htrue)⟩

section Fleet

variable {e : FleetEvent}

/-- The rows that were handed out are kept, and stay about their jobs. -/
theorem claims_fleet (h : b.Consistent cfg) (hf : Fleet.Step py cfg b.fleet e b'.fleet) :
    b.fleet.queue.claims ⊆ b'.fleet.queue.claims ∧ b'.fleet.queue.ClaimsMatch := by
  rcases Fleet.transaction_step h.coupled.bound hf with hsame | ⟨e', hq, -⟩
  · rw [hsame]
    exact ⟨List.Subset.refl _, h.claims⟩
  · exact ⟨Queue.claims_subset hq, Queue.claimsMatch_step h.claims hq⟩

/-- A task that is told that its review is posted has had one sent by Revix. -/
theorem accounts_fleet (h : b.Consistent cfg) (hs : Step py cfg b (.fleet e) b') {task : Task}
    (hmem : task ∈ b'.fleet.tasks) : b'.Accounts task := by
  obtain ⟨htold, hf, hgithub, -⟩ := step_fleet hs
  have hclaims := (claims_fleet h hf).1
  obtain ⟨n, hn⟩ := List.getElem?_of_mem hmem
  rcases Fleet.step_tasks hf hn with hsame | ⟨worker, scan, now, c, hc, hqueue, -, rfl⟩ |
    ⟨id, token, q, resume, reply, committed, now, rfl, htask, rfl⟩ | ⟨task₀, htask, rfl⟩
  · exact (h.tasks task (List.mem_of_getElem? hsame)).mono hclaims (sent_step hs)
  · refine ⟨c.claimed worker now, ?_, rfl, false, successful_processJob {}, nofun⟩
    rw [hqueue]
    simp [Queue.exec, claimJob_fst hc]
  · obtain ⟨row, hrow, hid, m, ⟨hallow, hnext⟩, hm⟩ := h.tasks _ (List.mem_of_getElem? htask)
    refine ⟨row, hclaims hrow, hid, _, hnext (reply q), fun hposted => ?_⟩
    rw [hgithub]
    cases q with
    | postReview repo pullNumber commitId comments token' body =>
      have hrequest : b.fleet.request n =
          some (.postReview repo pullNumber commitId comments token' body) := by
        simp [Fleet.request, htask]
      obtain ⟨l, hsession⟩ := told_postReview htold hrequest
      obtain ⟨repo', pullNumber', commitId', _, _, _, hsame, m', hended, hm'⟩ :=
        underway_session h hsession
      rw [hrequest] at hsame
      cases hsame
      cases hreply : reply (.postReview repo pullNumber commitId comments token' body) with
      | error e =>
        rw [hreply] at hposted
        exact hm hposted
      | ok u =>
        rw [hreply] at hended
        obtain ⟨rfl, rfl, rfl⟩ := hallow
        exact hm' hended
    | _ => exact hm hposted
  · obtain ⟨row, hrow, hid, -⟩ := h.tasks _ (List.mem_of_getElem? htask)
    exact ⟨row, hclaims hrow, hid, false, trivial, nofun⟩

/-- Only a task that has posted its review makes its job succeed. -/
theorem succeeded_fleet (h : b.Consistent cfg) (hf : Fleet.Step py cfg b.fleet e b'.fleet)
    {id : Uuid} {j : Job} (hj : b'.fleet.queue.db.job id = some j) (hst : j.status = .success) :
    j.reviewed b.github = true := by
  rcases Fleet.transaction_step h.coupled.bound hf with hsame | ⟨e', hq, hwhere⟩
  · rw [hsame] at hj
    exact h.succeeded id j hj hst
  rcases Life.success_step (Queue.life_step hq id) hj hst with ⟨j₀, hj₀, hst₀, hsubject⟩ |
    ⟨token, aiFeedback, now, j₀, hlocal, hj₀, hsubject⟩
  · rw [← Job.reviewed_congr hsubject]
    exact h.succeeded id j₀ hj₀ hst₀
  · obtain rfl := Queue.localize_finalized hlocal
    rcases hwhere with ⟨-, he⟩ | ⟨_, _, _, _, -, heq⟩ | ⟨n, _, _, _, _, q, resume, -, htask, he⟩
    · cases he
    · cases heq
    · obtain ⟨row, hrow, -, m, ⟨hallow, -⟩, hm⟩ := h.tasks _ (List.mem_of_getElem? htask)
      have hposted : id = row.id ∧ m = true := by
        cases q with
        | finalizeJob id' token' verdict aiFeedback' =>
          cases he
          exact hallow
        | _ => cases he
      obtain ⟨j₁, hj₁, hrowSubject⟩ := h.claims row hrow
      have hsame : j₁ = j₀ := by
        rw [← hposted.1] at hj₁
        exact Option.some.inj (hj₁.symm.trans hj₀)
      rw [← Job.reviewed_congr hsubject, ← hsame, Job.reviewed_congr hrowSubject]
      exact hm hposted.2

/-- A call goes on while its task waits. -/
theorem sessions_fleet (h : b.Consistent cfg) (hs : Step py cfg b (.fleet e) b') {n : ℕ}
    {p : PostingSession} (hp : b'.sessions n = some p) : Underway b'.fleet b'.github n p := by
  obtain ⟨-, hf, -, hsessions⟩ := step_fleet hs
  have hclosed : ∀ m, Function.update b.sessions m none n = some p → b.sessions n = some p ∧
      n ≠ m := by
    intro m hupdate
    by_cases hnm : n = m
    · subst hnm
      rw [Function.update_self] at hupdate
      cases hupdate
    · rw [Function.update_of_ne hnm] at hupdate
      exact ⟨hupdate, hnm⟩
  have hopen : b.sessions n = some p ∧
      (∀ reply committed now, e ≠ .answered n reply committed now) ∧ e ≠ .killed n := by
    rw [hsessions] at hp
    cases e with
    | environment e => exact ⟨hp, nofun, nofun⟩
    | claimed worker scan now delivered => exact ⟨hp, nofun, nofun⟩
    | answered m reply committed now =>
      obtain ⟨hp, hne⟩ := hclosed m hp
      exact ⟨hp, fun _ _ _ heq => hne (FleetEvent.answered.inj heq).1.symm, nofun⟩
    | killed m =>
      obtain ⟨hp, hne⟩ := hclosed m hp
      exact ⟨hp, nofun, fun heq => hne (FleetEvent.killed.inj heq).symm⟩
  obtain ⟨hp, hanswered, hkilled⟩ := hopen
  exact (h.sessions n p hp).mono (fun _ => Fleet.request_step hf hanswered hkilled) (sent_step hs)

end Fleet

/-- A step that is not the fleet's leaves it, and only adds to what was sent. -/
theorem Consistent.around (h : b.Consistent cfg) (hfleet : b'.fleet = b.fleet)
    (hsent : b.github.sent ⊆ b'.github.sent)
    (hsessions : ∀ n p, b'.sessions n = some p → Underway b.fleet b'.github n p) :
    b'.Consistent cfg := by
  refine ⟨hfleet ▸ h.coupled, hfleet ▸ h.claims, fun task hmem => ?_, hfleet ▸ hsessions,
    fun id j hj hst => ?_⟩
  · rw [hfleet] at hmem
    refine (h.tasks task hmem).mono ?_ hsent
    rw [hfleet]
    exact List.Subset.refl _
  · rw [hfleet] at hj
    exact summarized_of_subset hsent (h.succeeded id j hj hst)

theorem consistent_step {e : ReviewEvent} (h : b.Consistent cfg) (hs : Step py cfg b e b')
    (hforged : b.unforged e = true) : b'.Consistent cfg := by
  have hsent := sent_step hs
  cases e with
  | fleet e =>
    obtain ⟨-, hf, hgithub, -⟩ := step_fleet hs
    refine ⟨Fleet.coupled_step h.coupled hf, (claims_fleet h hf).2,
      fun task hmem => accounts_fleet h hs hmem, fun n p hp => sessions_fleet h hs hp,
      fun id j hj hst => ?_⟩
    rw [hgithub]
    exact succeeded_fleet h hf hj hst
  | posting n turn =>
    obtain ⟨q, resume, hsession, hfleet, hgithub, hsessions⟩ := step_posting hs
    refine h.around hfleet hsent fun k p hp => ?_
    rw [hsessions] at hp
    by_cases hk : k = n
    · subst hk
      rw [Function.update_self] at hp
      obtain ⟨repo, pullNumber, commitId, comments, token, body, hrequest, hreports⟩ :=
        underway_session h hsession
      refine ⟨repo, pullNumber, commitId, comments, token, body, hrequest, ?_⟩
      rw [hgithub, ← Option.some.inj hp]
      refine hreports.turn fun token' reviews hq hreviews hbears => ?_
      subst hq
      simp only [unforged, hrequest, hsession, hreviews, Bool.or_eq_true] at hforged
      refine hforged.resolve_right fun hnone => ?_
      obtain ⟨r, hr, hfound⟩ := List.any_eq_true.1 hbears
      have hfree := List.all_eq_true.1 hnone r hr
      rw [hfound] at hfree
      cases hfree
    · rw [Function.update_of_ne hk] at hp
      exact (h.sessions k p hp).mono (fun _ => id) hsent
  | edited stored =>
    cases hs
    exact h.around rfl hsent fun n p hp => (h.sessions n p hp).mono (fun _ => id) hsent

end ReviewBoard

/-- In every run from any reviews, in which no look-up shows the signature of a commit before Revix
has sent a summary for it, a job that has succeeded has a summary for its commit that Revix
sent. -/
theorem success_reviewed {py : Python} {cfg : Settings} {stored : List StoredReview}
    {es : List ReviewEvent} {b : ReviewBoard}
    (h : Run (Guarded (ReviewBoard.Step py cfg) fun b e _ => b.unforged e = true) (.start stored) es
      b) {id : Uuid} {j : Job} (hj : b.fleet.queue.db.job id = some j) (hst : j.status = .success) :
    ∃ r ∈ b.github.sent, r.summarizes j.repoFullName j.prNumber j.commitSha = true := by
  have hend : b.Consistent cfg := h.invariant (I := ReviewBoard.Consistent cfg)
    (fun _ _ _ hb hs => ReviewBoard.consistent_step hb hs.1 hs.2)
    (ReviewBoard.consistent_start stored)
  exact List.any_eq_true.1 (hend.succeeded id j hj hst)

namespace Sample

def userReview (body : String) : StoredReview :=
  ⟨"octo/widgets", 7, ⟨sha, some body, []⟩⟩

/-- GitHub answers with the first thirty reviews, and accepts what it is sent. -/
def firstPage : GitHubTurn := ⟨.ok 30, .accepted⟩

/-- From the webhook to the commit of `SUCCESS`, with as many turns of GitHub in between. -/
def postedBy (turns : ℕ) : List ReviewEvent :=
  .fleet (.environment enqueue) :: .fleet (.claimed "w1" .idle 0 true) ::
    (List.replicate 8 (.fleet (.answered 0 reply true second)) ++
      List.replicate turns (.posting 0 firstPage) ++
      List.replicate 3 (.fleet (.answered 0 reply true second)))

end Sample

theorem success_reviewed_amongOthers : ∃ b j r, Run (Guarded (ReviewBoard.Step Sample.python {})
      fun b e _ => b.unforged e = true) (.start [Sample.userReview "Looks good to me."])
        (Sample.postedBy 2) b ∧
    b.fleet.queue.db.job Sample.jobId = some j ∧ r ∈ b.github.sent ∧
      r.summarizes j.repoFullName j.prNumber j.commitSha = true := by
  have hreplay : (replay (fun b e => if ReviewBoard.unforged b e then
      ReviewBoard.next Sample.python {} b e else none)
      (.start [Sample.userReview "Looks good to me."]) (Sample.postedBy 2)).any
        (fun b => (b.fleet.queue.db.job Sample.jobId).map Job.status = some .success) = true := by
    decide
  obtain ⟨b, hr, hp⟩ := exists_guarded_run_of_replay _ _ hreplay
  obtain ⟨j, hj, hst⟩ := Option.map_eq_some_iff.1 (of_decide_eq_true hp)
  obtain ⟨r, hmem, hsum⟩ := success_reviewed hr hj hst
  exact ⟨b, j, r, hr, hj, hmem, hsum⟩

/-- A user's review with the signature in it: the job succeeds, and Revix sends nothing. -/
theorem success_unreviewed : ∃ b j, Run (ReviewBoard.Step Sample.python {})
      (.start [Sample.userReview "<!-- revix: 6dcb09b5b57875f334f61aebed695e2e4193db5e -->"])
        (Sample.postedBy 1) b ∧
    b.fleet.queue.db.job Sample.jobId = some j ∧ j.status = .success ∧ b.github.sent = [] := by
  obtain ⟨b, hr, hp⟩ := ReviewBoard.exists_run Sample.python {}
    (.start [Sample.userReview "<!-- revix: 6dcb09b5b57875f334f61aebed695e2e4193db5e -->"])
    (Sample.postedBy 1) (fun b => (b.fleet.queue.db.job Sample.jobId).map Job.status =
      some .success ∧ b.github.sent.isEmpty = true) (by decide)
  simp only [decide_eq_true_eq] at hp
  obtain ⟨hjob, hsent⟩ := hp
  obtain ⟨j, hj, hst⟩ := Option.map_eq_some_iff.1 hjob
  exact ⟨b, j, hr, hj, hst, List.isEmpty_iff.1 hsent⟩

end Revix
