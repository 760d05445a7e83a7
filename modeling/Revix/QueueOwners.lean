import Revix.QueueFencing
import Revix.QueueHeartbeats

namespace Revix
open KeyedTables LabelledRuns

namespace Life

variable {cfg : Settings} {l l' : Life} {e : LifeEvent} {j : Job}

/-- How a job comes to be worked on: it is claimed, or it was worked on before, and is the same
row but for its check run. -/
theorem processing_step (hs : Step cfg l e l') (hj : l'.job = some j)
    (hp : j.status = .processing) :
    (∃ worker now j₀, e = .claimed worker now ∧ l.job = some j₀ ∧ j₀.claimable now = true ∧
      j = j₀.claimed worker now) ∨
    (∃ checkRunId j₀, e = .checkRunSet checkRunId ∧ l.job = some j₀ ∧
      j = j₀.checkRunSet checkRunId) ∨
    (l.job = some j ∧ (∀ worker now, e ≠ .claimed worker now) ∧
      ∀ checkRunId, e ≠ .checkRunSet checkRunId) := by
  obtain ⟨hperm, rfl⟩ := hs
  cases e with
  | skip => exact .inr (.inr ⟨hj, nofun, nofun⟩)
  | enqueued row =>
    obtain ⟨-, id, sha, repo, pn, inst, tc, now, rfl⟩ := hperm
    obtain rfl := Option.some.inj hj
    cases hp
  | claimed worker now =>
    obtain ⟨j₀, hj₀, hc⟩ := hperm
    rw [job_claimed, hj₀] at hj
    exact .inl ⟨worker, now, j₀, rfl, hj₀, hc, (Option.some.inj hj).symm⟩
  | renewed worker now => exact .inr (.inr ⟨hj, nofun, nofun⟩)
  | checkRunSet checkRunId =>
    obtain ⟨j₀, hj₀, rfl⟩ := Option.map_eq_some_iff.1 hj
    exact .inr (.inl ⟨checkRunId, j₀, rfl, hj₀, rfl⟩)
  | finalized token verdict aiFeedback now =>
    rw [job_finalized] at hj
    obtain ⟨j₀, hj₀, rfl⟩ := Option.map_eq_some_iff.1 hj
    split_ifs at hp ⊢ with hf
    · cases verdict <;> cases hp
    · exact .inr (.inr ⟨hj₀, nofun, nofun⟩)
  | released token delaySeconds now =>
    obtain ⟨j₀, hj₀, rfl⟩ := Option.map_eq_some_iff.1 hj
    split_ifs at hp ⊢ with hh
    · cases hp
    · exact .inr (.inr ⟨hj₀, nofun, nofun⟩)
  | reconciled locked now =>
    obtain ⟨j₀, hj₀, rfl⟩ := Option.map_eq_some_iff.1 hj
    have hsame := expired_processing hp
    have hkept := reconciled_processing (hsame ▸ hp)
    rw [hsame, hkept]
    exact .inr (.inr ⟨hj₀, nofun, nofun⟩)
  | heartbeatsLost => exact .inr (.inr ⟨hj, nofun, nofun⟩)

end Life

namespace Queue

variable {cfg : Settings} {s t : Queue} {e : Transaction} {es : List Transaction} {id : Uuid}
  {token : ℕ} {worker : String} {now : Timestamp}

theorem localize_claimed (h : s.localize id e = .claimed worker now) :
    ∃ scan c, e = .claimJob worker scan now ∧ claimCandidate scan now s.db = some c ∧
      c.id = id := by
  have hl := localized s id e
  rw [h] at hl
  cases hl with
  | claimed hc hid => exact ⟨_, _, rfl, hc, hid⟩

theorem localize_checkRunSet {checkRunId : ℤ} (h : s.localize id e = .checkRunSet checkRunId) :
    e = .setCheckRunId id checkRunId := by
  have hl := localized s id e
  rw [h] at hl
  cases hl
  rfl

/-- The row of a claim is kept; no other transaction returns one. -/
theorem claims_step (hs : Step cfg s e t) : t.claims = s.claims ∨
    ∃ worker scan now c, e = .claimJob worker scan now ∧
      claimCandidate scan now s.db = some c ∧ t.claims = c.claimed worker now :: s.claims := by
  obtain ⟨-, rfl⟩ := step_iff.1 hs
  cases e with
  | claimJob worker scan now =>
    cases hc : claimCandidate scan now s.db with
    | none => exact .inl (by simp [exec, claimJob_none hc])
    | some c => exact .inr ⟨worker, scan, now, c, rfl, hc, by simp [exec, claimJob_fst hc]⟩
  | enqueueIfNew =>
    simp only [exec]
    split <;> exact .inl rfl
  | finalizeJob =>
    simp only [exec]
    split <;> exact .inl rfl
  | _ => exact .inl rfl

theorem claims_subset (hs : Step cfg s e t) : s.claims ⊆ t.claims := by
  rcases claims_step hs with h | ⟨_, _, _, _, -, -, h⟩ <;> rw [h]
  · exact List.Subset.refl _
  · exact List.subset_cons_self _ _

/-- `claim_job` answered the worker with this job and token. -/
def ClaimedBy (s : Queue) (id : Uuid) (token : ℕ) (worker : String) : Prop :=
  ∃ row ∈ s.claims, row.id = id ∧ row.fenceToken = token ∧ row.workerId = some worker

theorem ClaimedBy.step (h : s.ClaimedBy id token worker) (hs : Step cfg s e t) :
    t.ClaimedBy id token worker := by
  obtain ⟨row, hmem, hrow⟩ := h
  exact ⟨row, claims_subset hs hmem, hrow⟩

/-- A job being worked on belongs to the worker that was answered with its fence. -/
def Attributed (s : Queue) : Prop :=
  ∀ id j, s.db.job id = some j → j.status = .processing →
    ∃ worker, j.workerId = some worker ∧ s.ClaimedBy id j.fenceToken worker

theorem attributed_step (h : s.Attributed) (hs : Step cfg s e t) : t.Attributed := by
  intro id j hj hp
  have hjob : (t.life id).job = some j := hj
  rcases Life.processing_step (life_step hs id) hjob hp with
    ⟨worker, now, j₀, hlocal, hj₀, -, rfl⟩ | ⟨checkRunId, j₀, -, hj₀, rfl⟩ | ⟨hj₀, -⟩
  · obtain ⟨scan, c, rfl, hc, hid⟩ := localize_claimed hlocal
    have hc₀ : s.db.job id = some c := hid ▸ (claimCandidate_spec hc).1
    obtain rfl := Option.some.inj (hc₀.symm.trans hj₀)
    have hclaims : t.claims = c.claimed worker now :: s.claims := by
      rw [← (step_iff.1 hs).2]
      simp [exec, claimJob_fst hc]
    exact ⟨worker, rfl, c.claimed worker now, hclaims ▸ .head _, hid, rfl, rfl⟩
  · obtain ⟨worker, hw, hclaimed⟩ := h id j₀ hj₀ hp
    exact ⟨worker, hw, hclaimed.step hs⟩
  · obtain ⟨worker, hw, hclaimed⟩ := h id j hj₀ hp
    exact ⟨worker, hw, hclaimed.step hs⟩

theorem attributed_of_run (h : Run (Step cfg) empty es s) : s.Attributed :=
  h.invariant (I := Attributed) (fun _ _ _ hs ht => attributed_step hs ht) fun _ _ hj => nomatch hj

/-- A token of a job was handed to one worker. -/
theorem ClaimedBy.unique (h : Run (Step cfg) empty es s) {worker' : String}
    (hw : s.ClaimedBy id token worker) (hw' : s.ClaimedBy id token worker') :
    worker = worker' := by
  obtain ⟨row, hmem, hid, ht, hworker⟩ := hw
  obtain ⟨row', hmem', hid', ht', hworker'⟩ := hw'
  have hnodup : ((s.claims.filter fun row => row.id = id).map Job.fenceToken).Nodup :=
    tokens_nodup h id
  have hsame : row = row' := List.inj_on_of_nodup_map hnodup
    (List.mem_filter.2 ⟨hmem, decide_eq_true hid⟩) (List.mem_filter.2 ⟨hmem', decide_eq_true hid'⟩)
    (ht.trans ht'.symm)
  rw [hsame, hworker'] at hworker
  exact (Option.some.inj hworker).symm

/-- The worker in the row of a job being worked on is the one that was answered with its
fence. -/
theorem heldBy_iff_claimedBy (h : Run (Step cfg) empty es s) :
    (s.db.job id).any (Job.heldBy worker) = true ↔
      ∃ token, s.Holds id token ∧ s.ClaimedBy id token worker := by
  constructor
  · intro hany
    obtain ⟨j, hj, hheld⟩ := (Option.any_eq_true _ _).1 hany
    obtain ⟨hw, hp⟩ := Job.heldBy_iff.1 hheld
    obtain ⟨worker', hw', hclaimed⟩ := attributed_of_run h id j hj hp
    have hsame : worker' = worker := Option.some.inj (hw'.symm.trans hw)
    exact ⟨j.fenceToken, ⟨j, hj, Job.holds_iff.2 ⟨rfl, hp⟩⟩, hsame ▸ hclaimed⟩
  · rintro ⟨token, ⟨j, hj, hholds⟩, hclaimed⟩
    obtain ⟨rfl, hp⟩ := Job.holds_iff.1 hholds
    obtain ⟨worker', hw', hclaimed'⟩ := attributed_of_run h id j hj hp
    have hsame := hclaimed'.unique h hclaimed
    rw [hj]
    exact Job.heldBy_iff.2 ⟨hsame ▸ hw', hp⟩

end Queue

end Revix
