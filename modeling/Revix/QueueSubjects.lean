import Revix.QueueOwners
import Revix.QueueVerdicts

namespace Revix

def Job.subject (j : Job) : String × ℤ × String := (j.repoFullName, j.prNumber, j.commitSha)

namespace Life

variable {cfg : Settings} {l l' : Life} {e : LifeEvent} {j : Job}

/-- A job keeps its subject. -/
theorem subject_step (hs : Step cfg l e l') (hj : l.job = some j) :
    ∃ j', l'.job = some j' ∧ j'.subject = j.subject := by
  obtain ⟨hperm, rfl⟩ := hs
  cases e with
  | skip => exact ⟨j, hj, rfl⟩
  | enqueued row =>
    rw [hperm.1] at hj
    cases hj
  | claimed worker now => exact ⟨_, job_claimed.trans (congrArg (Option.map _) hj), rfl⟩
  | renewed worker now => exact ⟨j, hj, rfl⟩
  | checkRunSet checkRunId => exact ⟨_, congrArg (Option.map _) hj, rfl⟩
  | finalized token verdict aiFeedback now =>
    refine ⟨_, job_finalized.trans (congrArg (Option.map _) hj), ?_⟩
    dsimp only
    split <;> rfl
  | released token delaySeconds now =>
    refine ⟨_, congrArg (Option.map _) hj, ?_⟩
    dsimp only
    split <;> rfl
  | reconciled locked now =>
    refine ⟨_, congrArg (Option.map _) hj, ?_⟩
    dsimp only
    unfold Job.expired Job.reconciled
    split <;> split <;> rfl
  | heartbeatsLost => exact ⟨j, hj, rfl⟩

/-- How a job comes to have succeeded: it had before, or the step finalizes it so. -/
theorem success_step (hs : Step cfg l e l') (hj : l'.job = some j) (hst : j.status = .success) :
    (∃ j₀, l.job = some j₀ ∧ j₀.status = .success ∧ j₀.subject = j.subject) ∨
      ∃ token aiFeedback now j₀, e = .finalized token .success aiFeedback now ∧
        l.job = some j₀ ∧ j₀.subject = j.subject := by
  obtain ⟨hperm, rfl⟩ := hs
  cases e with
  | skip => exact .inl ⟨j, hj, hst, rfl⟩
  | enqueued row =>
    obtain ⟨-, id, sha, repo, pn, inst, tc, now, rfl⟩ := hperm
    obtain rfl := Option.some.inj hj
    cases hst
  | claimed worker now =>
    rw [job_claimed] at hj
    obtain ⟨j₀, -, rfl⟩ := Option.map_eq_some_iff.1 hj
    cases hst
  | renewed worker now => exact .inl ⟨j, hj, hst, rfl⟩
  | checkRunSet checkRunId =>
    obtain ⟨j₀, hj₀, rfl⟩ := Option.map_eq_some_iff.1 hj
    exact .inl ⟨j₀, hj₀, hst, rfl⟩
  | finalized token verdict aiFeedback now =>
    rw [job_finalized] at hj
    obtain ⟨j₀, hj₀, rfl⟩ := Option.map_eq_some_iff.1 hj
    split_ifs at hst ⊢ with hf
    · cases verdict with
      | success => exact .inr ⟨token, aiFeedback, now, j₀, rfl, hj₀, rfl⟩
      | failure => cases hst
    · exact .inl ⟨j₀, hj₀, hst, rfl⟩
  | released token delaySeconds now =>
    obtain ⟨j₀, hj₀, rfl⟩ := Option.map_eq_some_iff.1 hj
    split_ifs at hst ⊢ with hh
    · cases hst
    · exact .inl ⟨j₀, hj₀, hst, rfl⟩
  | reconciled locked now =>
    obtain ⟨j₀, hj₀, rfl⟩ := Option.map_eq_some_iff.1 hj
    have hfin : ((j₀.reconciled cfg now (taken cfg locked now l.heartbeat j₀)).expired
        now).status.finished = true := by
      rw [hst]
      rfl
    have hsame := reconciled_finished hfin
    rw [hsame] at hst ⊢
    exact .inl ⟨j₀, hj₀, hst, rfl⟩
  | heartbeatsLost => exact .inl ⟨j, hj, hst, rfl⟩

end Life

namespace Queue

variable {cfg : Settings} {s t : Queue} {e : Transaction}

/-- The rows that were handed out are about what their jobs are about. -/
def ClaimsMatch (s : Queue) : Prop :=
  ∀ row ∈ s.claims, ∃ j, s.db.job row.id = some j ∧ j.subject = row.subject

theorem claimsMatch_step (h : s.ClaimsMatch) (hs : Step cfg s e t) : t.ClaimsMatch := by
  have hkeep : ∀ id j, s.db.job id = some j → ∃ j', t.db.job id = some j' ∧
      j'.subject = j.subject := fun id j hj => Life.subject_step (life_step hs id) hj
  intro row hmem
  have hrow : ∃ j, s.db.job row.id = some j ∧ j.subject = row.subject := by
    rcases claims_step hs with hsame | ⟨worker, scan, now, c, -, hc, hclaims⟩
    · exact h row (hsame ▸ hmem)
    · rw [hclaims] at hmem
      rcases List.mem_cons.1 hmem with rfl | hmem
      · exact ⟨c, (claimCandidate_spec hc).1, rfl⟩
      · exact h row hmem
  obtain ⟨j, hj, hsubject⟩ := hrow
  obtain ⟨j', hj', hsame⟩ := hkeep row.id j hj
  exact ⟨j', hj', hsame.trans hsubject⟩

end Queue

end Revix
