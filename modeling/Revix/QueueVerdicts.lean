import Revix.QueueFencing
import Revix.QueueRecords

namespace Revix
open KeyedTables LabelledRuns

/-- The statuses nothing is meant to leave. -/
def Status.terminal (s : Status) : Bool := s.finished || s = .dead

theorem Status.terminal_ne {s : Status} (h : s.terminal = true) :
    s ≠ .pending ∧ s ≠ .processing := by
  cases s <;> simp [terminal, finished] at h ⊢

def LifeEvent.finalizes : LifeEvent → Bool
  | .finalized _ _ _ _ => true
  | _ => false

namespace Life

variable {cfg : Settings} {l l' l'' : Life} {e : LifeEvent}

/-- If the job was finished or dead, its status, its result and its record's feedback are kept. -/
def Settled (l l' : Life) : Prop :=
  ∀ j, l.job = some j → j.status.terminal = true → ∃ j', l'.job = some j' ∧
    j'.status = j.status ∧ j'.result = j.result ∧
    l'.record.map ReviewRecord.feedback = l.record.map ReviewRecord.feedback

theorem Settled.refl (l : Life) : l.Settled l := fun j hj _ => ⟨j, hj, rfl, rfl, rfl⟩

theorem Settled.trans (h : l.Settled l') (h' : l'.Settled l'') : l.Settled l'' := by
  intro j hj ht
  obtain ⟨j', hj', hst, hres, hrec⟩ := h j hj ht
  obtain ⟨j'', hj'', hst', hres', hrec'⟩ := h' j' hj' (hst ▸ ht)
  exact ⟨j'', hj'', hst'.trans hst, hres'.trans hres, hrec'.trans hrec⟩

/-- A finalization with the current token finds the job unfinished, or repeats its verdict. -/
def Undecided (l : Life) : LifeEvent → Prop
  | .finalized token verdict aiFeedback _ =>
    ∀ j, l.job = some j → j.fenceToken = token → j.status.finished = true →
      j.status = verdict.status ∧ j.result = feedbackJson aiFeedback
  | _ => True

/-- A reconciliation passes over the jobs that are neither pending nor being worked on. -/
theorem reconciled_idle {j : Job} {locked : Bool} {now : Timestamp} {beat : Option Heartbeat}
    (hp : j.status ≠ .pending) (hw : j.status ≠ .processing) :
    (j.reconciled cfg now (taken cfg locked now beat j)).expired now = j := by
  have ht : taken cfg locked now beat j = false := by simp [taken, Job.stale, hw]
  simp [ht, Job.reconciled, Job.expired, Job.overdue, hp]

/-- A reconciliation finishes no job. -/
theorem reconciled_finished {j : Job} {b : Bool} {now : Timestamp}
    (h : ((j.reconciled cfg now b).expired now).status.finished = true) :
    (j.reconciled cfg now b).expired now = j := by
  unfold Job.expired at h ⊢
  split_ifs at h ⊢
  · cases h
  · cases b with
    | false => rfl
    | true =>
      simp only [Job.reconciled, ↓reduceIte, Job.reclaimed] at h
      split at h <;> cases h

/-- Without a finalization a finished or dead job keeps its row, but for the check run. -/
theorem terminal_kept {j : Job} (hj : l.job = some j) (ht : j.status.terminal = true)
    (he : e.finalizes = false) (hs : Step cfg l e l') : ∃ j', l'.job = some j' ∧
      j'.status = j.status ∧ j'.result = j.result ∧ l'.record = l.record := by
  obtain ⟨hp, rfl⟩ := hs
  obtain ⟨hpend, hproc⟩ := Status.terminal_ne ht
  cases e with
  | skip => exact ⟨j, hj, rfl, rfl, rfl⟩
  | enqueued row => exact absurd (hp.1.symm.trans hj) (by simp)
  | claimed worker now =>
    obtain ⟨k, hk, hc⟩ := hp
    obtain rfl := Option.some.inj (hj.symm.trans hk)
    simp [Job.claimable, hpend] at hc
  | renewed worker now => exact ⟨j, hj, rfl, rfl, rfl⟩
  | checkRunSet checkRunId =>
    exact ⟨j.checkRunSet checkRunId, by simp [exec, hj], rfl, rfl, rfl⟩
  | finalized => cases he
  | released token delaySeconds now =>
    exact ⟨j, by simp [exec, hj, Job.holds, hproc], rfl, rfl, rfl⟩
  | reconciled locked now =>
    exact ⟨j, by simp [exec, hj, reconciled_idle hpend hproc], rfl, rfl, rfl⟩
  | heartbeatsLost => exact ⟨j, hj, rfl, rfl, rfl⟩

/-- A job that is finished after another event was finished before it, at the same token. -/
theorem finished_before {j' : Job} (hj' : l'.job = some j') (hf : j'.status.finished = true)
    (he : e.finalizes = false) (hs : Step cfg l e l') : ∃ j, l.job = some j ∧
      j.status.finished = true ∧ j.fenceToken = j'.fenceToken := by
  obtain ⟨hp, rfl⟩ := hs
  cases e with
  | skip => exact ⟨j', hj', hf, rfl⟩
  | enqueued row =>
    obtain ⟨-, id, sha, repo, pn, inst, tc, now, rfl⟩ := hp
    obtain rfl := Option.some.inj hj'
    cases hf
  | claimed worker now =>
    rw [job_claimed] at hj'
    obtain ⟨k, -, rfl⟩ := Option.map_eq_some_iff.1 hj'
    cases hf
  | renewed worker now => exact ⟨j', hj', hf, rfl⟩
  | checkRunSet checkRunId =>
    obtain ⟨j, hj, rfl⟩ := Option.map_eq_some_iff.1 hj'
    exact ⟨j, hj, hf, rfl⟩
  | finalized => cases he
  | released token delaySeconds now =>
    obtain ⟨j, hj, rfl⟩ := Option.map_eq_some_iff.1 hj'
    split_ifs at hf ⊢
    · cases hf
    · exact ⟨j, hj, hf, rfl⟩
  | reconciled locked now =>
    obtain ⟨j, hj, rfl⟩ := Option.map_eq_some_iff.1 hj'
    have hsame := reconciled_finished hf
    rw [hsame] at hf ⊢
    exact ⟨j, hj, hf, rfl⟩
  | heartbeatsLost => exact ⟨j', hj', hf, rfl⟩

/-- A job keeps its verdict in a step exactly when the step is not a finalization that finds the
job finished and says otherwise. -/
theorem undecided_iff_settled (hf : l.Fenced) (hr : l.Recorded cfg) (hs : Step cfg l e l') :
    l.Undecided e ↔ l.Settled l' := by
  cases e with
  | finalized token verdict aiFeedback now =>
    obtain ⟨hp, rfl⟩ := hs
    cases hj : l.job with
    | none =>
      refine iff_of_true (fun j hj' => ?_) (fun j hj' => ?_) <;>
        exact absurd (hj.symm.trans hj') (by simp)
    | some j =>
      by_cases hft : j.fenceToken = token
      · have hdead : j.status ≠ .dead := by
          intro hdead
          have he := hf.engaged hj (hft ▸ hp)
          rw [hdead] at he
          cases he
        have hterm : j.status.terminal = j.status.finished := by simp [Status.terminal, hdead]
        constructor
        · intro hu k hk ht
          obtain rfl := Option.some.inj (hj.symm.trans hk)
          obtain ⟨hst, hres⟩ := hu j hj hft (hterm ▸ ht)
          refine ⟨j.finalized verdict.status (feedbackJson aiFeedback) now,
            by simp [exec, hj, hft], hst.symm, hres.symm, ?_⟩
          have hrec := hr j hj
          simp only [expectedRecord, hterm ▸ ht, ↓reduceIte] at hrec
          simp only [exec, hj, hft, ↓reduceIte, hrec, Option.elim_some, Option.map_some, hres]
          rfl
        · intro hset k hk _ hfin
          obtain rfl := Option.some.inj (hj.symm.trans hk)
          obtain ⟨j', hj', hst, hres, -⟩ := hset j hj (hterm ▸ hfin)
          simp only [exec, hj, hft, ↓reduceIte, Option.some.injEq] at hj'
          subst hj'
          exact ⟨hst.symm, hres.symm⟩
      · have hkept : l.exec cfg (.finalized token verdict aiFeedback now) = l := by
          simp [exec, hj, hft]
        refine iff_of_true (fun k hk hkt => ?_) (by rw [hkept]; exact Settled.refl l)
        obtain rfl := Option.some.inj (hj.symm.trans hk)
        exact absurd hkt hft
  | _ =>
    apply iff_of_true trivial
    intro j hj ht
    obtain ⟨j', hj', hst, hres, hrec⟩ := terminal_kept hj ht rfl hs
    exact ⟨j', hj', hst, hres, by rw [hrec]⟩

end Life

namespace Queue

variable {cfg : Settings} {s t u : Queue} {e : Transaction} {es : List Transaction}

def Settled (s t : Queue) : Prop := ∀ id, (s.life id).Settled (t.life id)

theorem Settled.refl (s : Queue) : s.Settled s := fun id => Life.Settled.refl (s.life id)

theorem Settled.trans (h : s.Settled t) (h' : t.Settled u) : s.Settled u := fun id =>
  (h id).trans (h' id)

def Undecided (s : Queue) : Transaction → Prop
  | .finalizeJob id token verdict aiFeedback _ =>
    ∀ j, s.db.job id = some j → j.fenceToken = token → j.status.finished = true →
      j.status = verdict.status ∧ j.result = feedbackJson aiFeedback
  | _ => True

theorem undecided_of_ne (h : ∀ id token verdict aiFeedback now,
    e ≠ .finalizeJob id token verdict aiFeedback now) : s.Undecided e := by
  cases e with
  | finalizeJob => exact absurd rfl (h _ _ _ _ _)
  | _ => trivial

theorem undecided_iff : s.Undecided e ↔ ∀ i, (s.life i).Undecided (s.localize i e) := by
  constructor
  · intro h i
    cases hl : s.localize i e with
    | finalized token verdict aiFeedback now =>
      obtain rfl := localize_finalized hl
      exact h
    | _ => trivial
  · intro h
    cases e with
    | finalizeJob id token verdict aiFeedback now =>
      have hid := h id
      simp only [localize, ↓reduceIte] at hid
      exact hid
    | _ => trivial

theorem undecided_iff_settled (h : Run (Step cfg) .empty es s) (hs : Step cfg s e t) :
    s.Undecided e ↔ s.Settled t := by
  rw [undecided_iff]
  exact forall_congr' fun i => Life.undecided_iff_settled (fenced_of_run h i)
    (recorded_of_run h i) (life_step hs i)

end Queue

end Revix
