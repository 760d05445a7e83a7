import Revix.CheckRunBoard

/-! Three kinds of writers complete a check run, and none looks at what GitHub shows. The last of
them to reach GitHub decides. -/
namespace Revix
open LabelledRuns

namespace Board

variable {py : Python} {cfg : Settings} {b b' : Board}

def Overrides (b : Board) (c : ℤ) (e : BoardEvent) : Prop :=
  ∃ rows u, b.CompletedByParty e rows u ∧ u.checkRunId = c ∧ u.conclusion = .success

/-- The task that created the check run completes it, or a reconciliation that took a job with
it. -/
def Disputes (b : Board) (c : ℤ) (e : BoardEvent) : Prop :=
  (∃ n u, b.CompletedByTask e n u ∧ u.checkRunId = c ∧ b.checkRuns.creator c = some n) ∨
  ∃ rows u, b.CompletedByParty e rows u ∧ u.checkRunId = c ∧
    ∃ row ∈ rows, row.githubCheckRunId = some c

/-- The task that created the check run has ended, no reconciliation under way took a job with
it, and the jobs with it are finished or dead. -/
structure Undisputed (b : Board) (c : ℤ) : Prop where
  ended : ∀ (n : ℕ) task, b.checkRuns.creator c = some n → b.fleet.tasks[n]? = some task →
    ∃ r, task.rest = .done r
  unreported : ∀ party ∈ b.parties, (∃ r, party.rest = .done r) ∨
    ∀ row ∈ party.rows, row.githubCheckRunId ≠ some c
  closed : ∀ id j, b.fleet.queue.db.job id = some j → j.githubCheckRunId = some c →
    j.status.terminal = true

variable {c : ℤ} {e : BoardEvent}

theorem shown_of_override (hs : Step py cfg b e b') (ho : b.Overrides c e) :
    b'.checkRuns.shown c = some (.completed .success) := by
  obtain ⟨rows, u, ⟨n, reply, scan, now, token, resume, rfl, hparty⟩, hid, hsuccess⟩ := ho
  obtain ⟨rows', q, resume', r, hparty', hserve, -, -⟩ := step_answered hs
  cases hparty.symm.trans hparty'
  obtain ⟨y, hy, heq⟩ := Option.map_eq_some_iff.1 hserve
  simp only [CheckRuns.update, ↓reduceIte] at hy
  split_ifs at hy
  cases hy
  have hruns : b'.checkRuns = b.checkRuns.complete u := (congrArg (fun r => r.2.2) heq).symm
  rw [hruns, ← hsuccess]
  exact if_pos hid.symm

/-- What shows a success stops showing it only by a step that disputes it. -/
theorem disputes_of_changed (h : Consistent cfg b) (hs : Step py cfg b e b')
    (hshown : b.checkRuns.shown c = some (.completed .success))
    (hne : b'.checkRuns.shown c ≠ b.checkRuns.shown c) : b.Disputes c e := by
  rcases checkRuns_step hs with hsame | ⟨n, _, _, _, _, _, _, _, c', -, -, hfresh, hcreate, -⟩ |
    ⟨u, hcomplete, hwriter⟩
  · exact absurd (by rw [hsame]) hne
  · have hc : c ≠ c' := by
      rintro rfl
      rw [hfresh] at hshown
      cases hshown
    rw [hcreate] at hne
    exact absurd (if_neg hc) hne
  · rw [hcomplete] at hne
    have hc : c = u.checkRunId := by
      by_contra hc
      exact hne (if_neg hc)
    rcases hwriter with ⟨n, hwrites⟩ | ⟨rows, hwrites⟩
    · obtain ⟨reply, now, id, token, token', resume, -, htask⟩ := id hwrites
      obtain ⟨m, hobeys, hm⟩ := h.own n _ htask
      exact .inl ⟨n, u, hwrites, hc.symm, hm c (hc ▸ hobeys.1)⟩
    · obtain ⟨n, reply, scan, now, token, resume, -, hparty⟩ := id hwrites
      rcases (h.reports _ (List.mem_of_getElem? hparty)).1 with hsuccess | ⟨row, hrow, hid⟩
      · have hnow : (b.checkRuns.complete u).shown c = some (.completed u.conclusion) := if_pos hc
        rw [hnow, hsuccess, hshown] at hne
        exact absurd rfl hne
      · exact .inr ⟨rows, u, hwrites, hc.symm, row, hrow, hc ▸ hid⟩

theorem Undisputed.not_disputes (h : b.Undisputed c) : ¬ b.Disputes c e := by
  rintro (⟨n, u, ⟨_, _, _, _, _, resume, -, htask⟩, -, hcreator⟩ |
    ⟨rows, u, ⟨n, _, _, _, _, resume, -, hparty⟩, -, row, hrow, hid⟩)
  · obtain ⟨r, hdone⟩ := h.ended n _ hcreator htask
    cases hdone
  · rcases h.unreported _ (List.mem_of_getElem? hparty) with ⟨r, hdone⟩ | hrows
    · cases hdone
    · exact hrows row hrow hid

theorem undisputed_step (hcons : Consistent cfg b) (h : b.Undisputed c)
    (hshown : (b.checkRuns.shown c).isSome = true) (hs : Step py cfg b e b') :
    b'.Undisputed c := by
  have hcreator : b'.checkRuns.creator c = b.checkRuns.creator c := (creator_step hshown hs).1
  refine ⟨?ended, ?unreported, ?closed⟩
  case ended =>
    intro n task hc htask
    rw [hcreator] at hc
    rcases tasks_step hs with ⟨e', -, hf⟩ | htasks
    · rcases Fleet.step_tasks hf htask with hsame | ⟨_, _, _, _, -, -, hlast, -⟩ |
        ⟨_, _, _, _, _, _, _, -, hasked, -⟩ | ⟨task₀, -, rfl⟩
      · exact h.ended n task hc hsame
      · exact absurd (hcons.created c n hc).2 (by omega)
      · obtain ⟨r, hdone⟩ := h.ended n _ hc hasked
        cases hdone
      · exact ⟨_, rfl⟩
    · exact h.ended n task hc (htasks ▸ htask)
  case unreported =>
    intro party hmem
    rcases step_parties hs hmem with hold | ⟨hrows, -⟩ |
      ⟨rows, q, resume, r, hasked, -, hrows⟩ | hdone
    · exact h.unreported party hold
    · rw [hrows]
      exact .inr fun _ hrow => absurd hrow List.not_mem_nil
    · refine .inr fun row hrow hid => ?_
      rcases hrows with hsame | ⟨locked, now, hreconciled⟩
      · rcases h.unreported _ hasked with ⟨r, hdone⟩ | hother
        · cases hdone
        · exact hother row (hsame ▸ hrow) hid
      · -- a job that was being worked on is taken
        rw [hreconciled] at hrow
        obtain ⟨j, hj, htaken, rfl⟩ := mem_reconciled_rows.1 hrow
        have hterm := h.closed j.id j (Database.job_of_mem hj) hid
        exact (Status.terminal_ne hterm).2 (processing_of_reclaimable htaken)
    · exact .inl hdone
  case closed =>
    intro id j hj hc
    rcases queue_step hcons.coupled.bound hs with hqueue | ⟨e', hq, hstores⟩
    · rw [hqueue] at hj
      exact h.closed id j hj hc
    · have hstored : b.fleet.queue.localize id e' ≠ .checkRunSet c := by
        intro hlocal
        obtain ⟨n, id', token, resume, htask⟩ := hstores id c (Queue.localize_checkRunSet hlocal)
        obtain ⟨m, hobeys, hm⟩ := hcons.own n _ htask
        obtain ⟨r, hdone⟩ := h.ended n _ (hm c hobeys.1) htask
        cases hdone
      have hjob : (b'.fleet.queue.life id).job = some j := hj
      obtain ⟨j₀, hj₀, hc₀, hkept⟩ :=
        Life.checkRun_step (Queue.life_step hq id) hjob hc hstored
      exact hkept (h.closed id j₀ hj₀ hc₀)

/-- The update that an override or a reconciliation asks for. -/
def asked (b : Board) (n : ℕ) : Option CheckRunUpdate :=
  match b.parties[n]? with
  | some ⟨_, .ask (.updateCheckRun u _) _⟩ => some u
  | _ => none

theorem overrides_of_asked {n : ℕ} {u : CheckRunUpdate}
    {reply : (q : CheckRunCall) → Except Raised q.Answer} {scan : Scan} {now : Timestamp}
    (h : b.asked n = some u) (hu : u.conclusion = .success) :
    b.Overrides u.checkRunId (.answered n reply true scan now) := by
  unfold asked at h
  split at h
  · rename_i rows u' token resume hparty
    cases h
    exact ⟨rows, u, ⟨n, reply, scan, now, token, resume, rfl, hparty⟩, rfl, hu⟩
  · cases h

/-- Every task has ended, no reconciliation was given a row, and every job is finished or dead. -/
def idle (b : Board) : Bool :=
  b.fleet.tasks.all (fun task => (EffectSessions.result task.rest).isSome) &&
    (b.parties.all (fun party => party.rows.isEmpty) &&
      b.fleet.queue.db.jobs.rows.all fun j => j.status.terminal)

theorem undisputed_of_idle (h : b.idle = true) : b.Undisputed c := by
  simp only [idle, Bool.and_eq_true, List.all_eq_true] at h
  obtain ⟨htasks, hparties, hjobs⟩ := h
  refine ⟨fun n task _ htask => ?_, fun party hmem => .inr fun row hrow => ?_, fun id j hj _ => ?_⟩
  · have hdone := htasks task (List.mem_of_getElem? htask)
    cases hrest : task.rest with
    | done r => exact ⟨r, rfl⟩
    | ask q resume =>
      rw [hrest] at hdone
      cases hdone
  · rw [List.isEmpty_iff.1 (hparties party hmem)] at hrow
    cases hrow
  · exact hjobs j (Database.job_eq_some_iff.1 hj).1

theorem exists_run (py : Python) (cfg : Settings) (b : Board) (es : List BoardEvent)
    (p : Board → Bool) (h : (replay (next py cfg) b es).any p = true) :
    ∃ b', Run (Step py cfg) b es b' ∧ p b' = true := exists_run_of_replay (next py cfg) h

end Board

/-- An override shows a success. From then on only the task that created the check run can change
that, or a reconciliation that took a job with it; and if that task has ended, no such
reconciliation is under way and the jobs with the check run are finished or dead, nobody does. -/
theorem override_kept (py : Python) (cfg : Settings) {es : List BoardEvent} {b₀ b : Board}
    {e : BoardEvent} {c : ℤ} (h : Run (Board.Step py cfg) .empty es b₀)
    (hs : Board.Step py cfg b₀ e b) (ho : b₀.Overrides c e) :
    b.checkRuns.shown c = some (.completed .success) ∧
    (∀ fs b₁ e' b₂, Run (Board.Step py cfg) b fs b₁ → Board.Step py cfg b₁ e' b₂ →
      b₁.checkRuns.shown c = some (.completed .success) →
      b₂.checkRuns.shown c ≠ some (.completed .success) → b₁.Disputes c e') ∧
    (b.Undisputed c → ∀ fs b', Run (Board.Step py cfg) b fs b' →
      b'.checkRuns.shown c = some (.completed .success)) := by
  have hconsistent : ∀ fs b', Run (Board.Step py cfg) b fs b' → b'.Consistent cfg := by
    intro fs b' hr
    exact (h.append (.cons hs hr)).invariant (I := Board.Consistent cfg)
      (fun _ _ _ hI hs => Board.consistent_step hI hs) Board.consistent_empty
  have hshown := Board.shown_of_override hs ho
  refine ⟨hshown, fun fs b₁ e' b₂ hr hs' hbefore hafter => ?_, fun hundisputed fs b' hr => ?_⟩
  · apply Board.disputes_of_changed (hconsistent fs b₁ hr) hs' hbefore
    rw [hbefore]
    exact hafter
  · let I : Board → Prop := fun b => b.Consistent cfg ∧ b.Undisputed c ∧
      b.checkRuns.shown c = some (.completed .success)
    have hstep : ∀ b e b', I b → Board.Step py cfg b e b' → I b' := by
      rintro b e b' ⟨hcons, hund, hsucc⟩ hs
      refine ⟨Board.consistent_step hcons hs,
        Board.undisputed_step hcons hund (by rw [hsucc]; rfl) hs, ?_⟩
      by_contra hne
      rw [← hsucc] at hne
      exact hund.not_disputes (Board.disputes_of_changed hcons hs hsucc hne)
    exact (hr.invariant hstep ⟨hconsistent [] b (.nil b), hundisputed, hshown⟩).2.2

namespace Sample

def approve : IssueComment where
  action := "created"
  body := "/revix-approve"
  repo := "octo/widgets"
  onPullRequest := true
  authorAssociation := some "OWNER"
  number := 7
  installationId := .int 42

def checkRunReply : (q : CheckRunCall) → Except Raised q.Answer
  | .newGitHubService => .ok ()
  | .getToken _ => .ok "token"
  | .fetchPullRequest _ _ _ => .ok [("head", .obj [("sha", .str sha)])]
  | .getCheckRunId _ _ _ => .ok none
  | .reconcileStaleJobs => .ok []
  | .updateCheckRun _ _ => .ok ()
  | .close => .ok ()

def failedReply : Reply
  | .fetchDiff _ _ _ => .error (.exception ⟨"Server error '502 Bad Gateway'", none⟩)
  | q => reply q

def served : BoardEvent := .answered 0 checkRunReply true .idle second

/-- Some answers to the worker, and then a comment, up to the update of its check run. -/
def commentedAfter (n : ℕ) : List BoardEvent :=
  .fleet (.environment enqueue) :: .fleet (.claimed "w1" .idle 0 true) ::
    List.replicate n (.fleet (.answered 0 reply true second)) ++
      .commented approve :: List.replicate 4 served

def overridden (b : Board) : Bool :=
  (b.asked 0).any fun u => u.checkRunId = 11 && u.conclusion = .success

theorem overrides_of_overridden {b : Board} (h : overridden b = true) :
    b.Overrides 11 served := by
  obtain ⟨u, hu, hfields⟩ := (Option.any_eq_true _ _).1 h
  simp only [Bool.and_eq_true, decide_eq_true_eq] at hfields
  have ho : b.Overrides u.checkRunId served := Board.overrides_of_asked hu hfields.2
  rw [hfields.1] at ho
  exact ho

end Sample

/-- Overridden after the review, the check run still shows a success when a reconciliation is
done. -/
theorem override_kept_reviewed : ∃ b fs b', b.Undisputed 11 ∧ 0 < fs.length ∧
    Run (Board.Step Sample.python {}) b fs b' ∧
    b'.checkRuns.shown 11 = some (.completed .success) := by
  let fs : List BoardEvent :=
    [.reconciling, .answered 1 Sample.checkRunReply true .idle (7200 * second)]
  obtain ⟨b₀, hr₀, hp⟩ := Board.exists_run Sample.python {} .empty (Sample.commentedAfter 12)
    (fun b₀ => Sample.overridden b₀ && (b₀.next Sample.python {} Sample.served).any fun b =>
      b.idle && (replay (Board.next Sample.python {}) b fs).any fun _ => true) (by decide)
  simp only [Bool.and_eq_true] at hp
  obtain ⟨b, hs, hb⟩ := (Option.any_eq_true _ _).1 hp.2
  simp only [Bool.and_eq_true] at hb
  obtain ⟨b', hr, -⟩ := Board.exists_run Sample.python {} b fs _ hb.2
  have hundisputed : b.Undisputed 11 := Board.undisputed_of_idle hb.1
  have hkept := override_kept Sample.python {} hr₀ hs (Sample.overrides_of_overridden hp.1)
  exact ⟨b, fs, b', hundisputed, by decide, hr, hkept.2.2 hundisputed fs b' hr⟩

/-- Overridden during the review, the check run shows a failure when the review has failed. -/
theorem override_lost : ∃ es b₀ e b fs b', Run (Board.Step Sample.python {}) .empty es b₀ ∧
    Board.Step Sample.python {} b₀ e b ∧ b₀.Overrides 11 e ∧
    b.checkRuns.shown 11 = some (.completed .success) ∧
    Run (Board.Step Sample.python {}) b fs b' ∧
    b'.checkRuns.shown 11 = some (.completed .failure) := by
  let fs : List BoardEvent := List.replicate 2 (.fleet (.answered 0 Sample.failedReply true second))
  obtain ⟨b₀, hr₀, hp⟩ := Board.exists_run Sample.python {} .empty (Sample.commentedAfter 4)
    (fun b₀ => Sample.overridden b₀ && (b₀.next Sample.python {} Sample.served).any fun b =>
      b.checkRuns.shown 11 = some (.completed .success) &&
        (replay (Board.next Sample.python {}) b fs).any fun b' =>
          b'.checkRuns.shown 11 = some (.completed .failure)) (by decide)
  simp only [Bool.and_eq_true] at hp
  obtain ⟨b, hs, hb⟩ := (Option.any_eq_true _ _).1 hp.2
  simp only [Bool.and_eq_true, decide_eq_true_eq] at hb
  obtain ⟨b', hr, hfailure⟩ := Board.exists_run Sample.python {} b fs _ hb.2
  exact ⟨_, b₀, _, b, fs, b', hr₀, hs, Sample.overrides_of_overridden hp.1, hb.1, hr,
    of_decide_eq_true hfailure⟩

end Revix
