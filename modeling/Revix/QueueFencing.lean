import Revix.FencingTokens
import Revix.QueueRuns

/-! The life of a job refines a lock with fencing tokens: claiming acquires, releasing and
reclaiming revoke, finalizing commits. -/
namespace Revix
open KeyedTables LabelledRuns
open FencingTokens (Lock Move)

/-- The phase of the lock that a job status stands for. -/
def Status.phase : Status → FencingTokens.Phase Verdict
  | .pending => .free
  | .processing => .held
  | .success => .committed .success
  | .failure => .committed .failure
  | .dead => .retired

/-- The statuses in which the last claim's token is still the fence. -/
def Status.engaged (s : Status) : Bool := s.phase.engaged

theorem Verdict.phase_status (v : Verdict) : v.status.phase = .committed v := by
  cases v <;> rfl

namespace Life

variable {cfg : Settings} {l l' : Life} {e : LifeEvent}

/-- The lock a job amounts to. Before it is enqueued it is free. -/
def lock (l : Life) : Lock Verdict :=
  match l.job with
  | none => ⟨.free, 0, l.tokens⟩
  | some j => ⟨j.status.phase, j.fenceToken, l.tokens⟩

theorem lock_some {j : Job} (h : l.job = some j) :
    l.lock = ⟨j.status.phase, j.fenceToken, l.tokens⟩ := by
  simp [lock, h]

theorem expired_fenceToken (j : Job) (now : Timestamp) :
    (j.expired now).fenceToken = j.fenceToken := by
  unfold Job.expired
  split <;> rfl

/-- Reclaiming leaves a job free or retired, never held. -/
theorem reclaimed_expired_phase (cfg : Settings) (j : Job) (now : Timestamp) : ∃ retire : Bool,
    ((j.reclaimed cfg now).expired now).status.phase = if retire then .retired else .free := by
  by_cases hx : j.exhausted = true
  · exact ⟨true, by simp [Job.expired, Job.overdue, Job.reclaimed, hx, Status.phase]⟩
  · by_cases ho : (j.reclaimed cfg now).overdue now = true
    · exact ⟨true, by simp [Job.expired, ho, Job.timedOut, Status.phase]⟩
    · refine ⟨false, ?_⟩
      rw [Job.expired, if_neg ho]
      simp [Job.reclaimed, hx, Status.phase]

/-- A release of the current claim revokes the lock. -/
theorem lock_released {j : Job} {token : ℕ} {delaySeconds : ℤ} {now : Timestamp}
    (hj : l.job = some j) (hh : j.holds token = true) :
    FencingTokens.Step l.lock (.revoke false)
      (l.exec cfg (.released token delaySeconds now)).lock := by
  have hp := (Job.holds_iff.1 hh).2
  have hstep := FencingTokens.Step.revoke (V := Verdict) j.fenceToken l.tokens false
  simpa [lock, exec, hj, hh, hp, Job.released, Status.phase] using hstep

/-- A reconciliation that reclaims the job revokes the lock. -/
theorem lock_reclaimed {j : Job} {locked : Bool} {now : Timestamp} (hj : l.job = some j)
    (ht : taken cfg locked now l.heartbeat j = true) :
    ∃ retire, FencingTokens.Step l.lock (.revoke retire)
      (l.exec cfg (.reconciled locked now)).lock := by
  have hp := processing_of_taken ht
  obtain ⟨retire, hphase⟩ := reclaimed_expired_phase cfg j now
  refine ⟨retire, ?_⟩
  have hstep := FencingTokens.Step.revoke (V := Verdict) j.fenceToken l.tokens retire
  have hfence : ((j.reclaimed cfg now).expired now).fenceToken = j.fenceToken + 1 :=
    expired_fenceToken _ now
  have hheld : j.status.phase = .held := by
    rw [hp]
    rfl
  simpa [lock, exec, hj, ht, hheld, Job.reconciled, hphase, hfence] using hstep

/-- A job being worked on that is not reclaimed stays as it is: the last `UPDATE` of a
reconciliation passes it over. -/
theorem job_untaken {j : Job} {locked : Bool} {now : Timestamp} (hj : l.job = some j)
    (hp : j.status = .processing) (ht : taken cfg locked now l.heartbeat j = false) :
    (l.exec cfg (.reconciled locked now)).job = some j := by
  simp [exec, hj, ht, Job.reconciled, Job.expired, Job.overdue, hp]

theorem lock_reconciled (locked : Bool) (now : Timestamp) :
    Reachable FencingTokens.Step l.lock (l.exec cfg (.reconciled locked now)).lock := by
  cases hj : l.job with
  | none => simpa [lock, exec, hj] using Reachable.refl _
  | some j =>
    by_cases ht : taken cfg locked now l.heartbeat j = true
    · obtain ⟨retire, hs⟩ := lock_reclaimed hj ht
      exact (Reachable.refl _).next hs
    · by_cases ho : j.overdue now = true
      · -- a pending job past its hour: the free lock is retired
        have hp := (Job.overdue_iff.1 ho).1
        have hstep := FencingTokens.Step.retire (V := Verdict) j.fenceToken l.tokens
        apply (Reachable.refl _).next (e := .retire)
        simpa [lock, exec, hj, ht, ho, hp, Job.reconciled, Job.expired, Job.timedOut,
          Status.phase] using hstep
      · simpa [lock, exec, hj, ht, ho, Job.reconciled, Job.expired] using Reachable.refl _

/-- The life of a job simulates the lock. -/
theorem lock_step (h : Step cfg l e l') : Reachable FencingTokens.Step l.lock l'.lock := by
  obtain ⟨hp, rfl⟩ := h
  cases e with
  | skip => exact .refl _
  | enqueued row =>
    obtain ⟨hnone, id, sha, repo, pn, inst, tc, now, rfl⟩ := hp
    simpa [lock, exec, hnone, Job.enqueued, Status.phase] using Reachable.refl _
  | claimed worker now =>
    obtain ⟨j, hj, hc⟩ := hp
    have hpend := (Job.claimable_iff.1 hc).1
    have hstep := FencingTokens.Step.acquire (V := Verdict) j.fenceToken l.tokens
    apply (Reachable.refl _).next (e := .acquire)
    simpa [lock, exec, hj, hpend, Job.claimed, Status.phase] using hstep
  | renewed worker now => exact .refl _
  | checkRunSet checkRunId =>
    cases hj : l.job with
    | none => simpa [lock, exec, hj] using Reachable.refl _
    | some j => simpa [lock, exec, hj, Job.checkRunSet] using Reachable.refl _
  | finalized token verdict aiFeedback now =>
    cases hj : l.job with
    | none => simpa [lock, exec, hj] using Reachable.refl _
    | some j =>
      by_cases ht : j.fenceToken = token
      · subst ht
        have hstep := FencingTokens.Step.commit j.status.phase j.fenceToken l.tokens verdict hp
        apply (Reachable.refl _).next (e := .commit j.fenceToken verdict)
        simpa [lock, exec, hj, Job.finalized, verdict.phase_status] using hstep
      · simpa [lock, exec, hj, ht] using Reachable.refl _
  | released token delaySeconds now =>
    cases hj : l.job with
    | none => simpa [lock, exec, hj] using Reachable.refl _
    | some j =>
      by_cases hh : j.holds token = true
      · exact (Reachable.refl _).next (lock_released hj hh)
      · simpa [lock, exec, hj, hh] using Reachable.refl _
  | reconciled locked now => exact lock_reconciled locked now
  | heartbeatsLost => exact .refl _

theorem lock_reachable (h : Reachable (Step cfg) l l') :
    Reachable FencingTokens.Step l.lock l'.lock := by
  obtain ⟨es, hr⟩ := h
  exact hr.simulates (I := fun _ => True) (fun _ _ _ _ _ => trivial)
    (fun _ _ _ _ hs => lock_step hs) trivial

/-- Attempts are counted by the tokens, within the budget. -/
def Counted (l : Life) : Prop :=
  ∀ j, l.job = some j → j.attemptCount = l.tokens.length ∧ j.attemptCount ≤ j.maxAttempts

theorem reconciled_counts (j : Job) (b : Bool) (now : Timestamp) :
    ((j.reconciled cfg now b).expired now).attemptCount = j.attemptCount ∧
      ((j.reconciled cfg now b).expired now).maxAttempts = j.maxAttempts := by
  unfold Job.expired Job.reconciled
  split <;> split <;> exact ⟨rfl, rfl⟩

/-- Updating a row without touching its two counters. -/
theorem Counted.map {f : Job → Job} (h : l.Counted) (ht : l'.tokens = l.tokens)
    (hj : l'.job = l.job.map f)
    (hf : ∀ j, (f j).attemptCount = j.attemptCount ∧ (f j).maxAttempts = j.maxAttempts) :
    l'.Counted := by
  intro j' hj'
  rw [hj] at hj'
  obtain ⟨j, hl, rfl⟩ := Option.map_eq_some_iff.1 hj'
  rw [(hf j).1, (hf j).2, ht]
  exact h j hl

theorem counted_step (hc : l.Counted) (ht : l.job = none → l.tokens = [])
    (h : Step cfg l e l') : l'.Counted := by
  obtain ⟨hp, rfl⟩ := h
  cases e with
  | skip => exact hc
  | enqueued row =>
    obtain ⟨hnone, id, sha, repo, pn, inst, tc, now, rfl⟩ := hp
    intro j hj
    obtain rfl := Option.some.inj hj
    simp [exec, ht hnone, Job.enqueued]
  | claimed worker now =>
    obtain ⟨j, hj, hcl⟩ := hp
    intro j' hj'
    rw [job_claimed, hj] at hj'
    obtain rfl := Option.some.inj hj'
    obtain ⟨hlen, -⟩ := hc j hj
    refine ⟨?_, (Job.claimable_iff.1 hcl).2.2⟩
    simp only [exec, hj, Job.claimed, List.length_cons, hlen]
  | renewed worker now => exact hc
  | checkRunSet checkRunId =>
    exact hc.map (f := Job.checkRunSet checkRunId) rfl rfl fun _ => ⟨rfl, rfl⟩
  | finalized token verdict aiFeedback now =>
    apply hc.map tokens_finalized job_finalized
    intro j
    split <;> exact ⟨rfl, rfl⟩
  | released token delaySeconds now =>
    refine hc.map rfl rfl fun j => ?_
    split <;> exact ⟨rfl, rfl⟩
  | reconciled locked now => exact hc.map rfl rfl fun j => reconciled_counts j _ now
  | heartbeatsLost => exact hc

theorem tokens_of_none (h : FencingTokens.Coherent l.lock) (hj : l.job = none) : l.tokens = [] := by
  simpa [FencingTokens.Coherent, lock, hj, FencingTokens.Phase.engaged] using h

/-- What the lock and the counters say of a job in a reachable state. -/
structure Fenced (l : Life) : Prop where
  coherent : FencingTokens.Coherent l.lock
  counted : l.Counted

theorem fenced_unborn : Fenced unborn := ⟨FencingTokens.coherent_initial, fun _ h => nomatch h⟩

theorem fenced_step (hf : l.Fenced) (h : Step cfg l e l') : l'.Fenced :=
  ⟨hf.coherent.reachable (lock_step h),
    counted_step hf.counted (fun hj => tokens_of_none hf.coherent hj) h⟩

section Facts

variable {j : Job}

theorem Fenced.tokens_eq (hf : l.Fenced) (hj : l.job = some j) :
    l.tokens = (List.range (j.fenceToken + if j.status.engaged then 1 else 0)).reverse := by
  have hc := hf.coherent
  rw [lock_some hj] at hc
  exact hc

theorem Fenced.attemptCount_eq (hf : l.Fenced) (hj : l.job = some j) :
    j.attemptCount = j.fenceToken + if j.status.engaged then 1 else 0 := by
  rw [(hf.counted j hj).1, hf.tokens_eq hj, List.length_reverse, List.length_range]

/-- A returned token that equals the fence belongs to a job that is being worked on or done. -/
theorem Fenced.engaged (hf : l.Fenced) (hj : l.job = some j) (hn : j.fenceToken ∈ l.tokens) :
    j.status.engaged = true := by
  have hc := hf.coherent
  rw [lock_some hj] at hc
  exact hc.engaged hn

end Facts

end Life

namespace Queue

variable {cfg : Settings} {s t : Queue} {es : List Transaction}

theorem fenced_of_run (h : Run (Step cfg) empty es s) (i : Uuid) : (s.life i).Fenced :=
  (life_run h i).invariant (I := Life.Fenced) (fun _ _ _ hl hs => Life.fenced_step hl hs)
    Life.fenced_unborn

/-- No token of a job is handed out twice. -/
theorem tokens_nodup (h : Run (Step cfg) empty es s) (id : Uuid) : (s.tokens id).Nodup := by
  have hf := fenced_of_run h id
  cases hjob : (s.life id).job with
  | none =>
    have htok : s.tokens id = [] := Life.tokens_of_none hf.coherent hjob
    rw [htok]
    exact List.nodup_nil
  | some j =>
    have htok : s.tokens id = _ := hf.tokens_eq hjob
    rw [htok]
    exact List.nodup_reverse.2 List.nodup_range

/-- The claim with this token still owns the job. -/
def Holds (s : Queue) (id : Uuid) (token : ℕ) : Prop :=
  ∃ j, s.db.job id = some j ∧ j.holds token = true

def Revoking : Transaction → Prop
  | .releaseJob _ _ _ _ => True
  | .reconcileStaleJobs _ _ => True
  | _ => False

/-- A step that ends a claim's ownership revokes the lock. -/
theorem lock_of_taken {e : Transaction} {id : Uuid} {token : ℕ} (he : Revoking e)
    (hs : Step cfg s e t) (hh : s.Holds id token) (hn : ¬ t.Holds id token) :
    ∃ retire, FencingTokens.Step (s.life id).lock (.revoke retire) (t.life id).lock := by
  obtain ⟨j, hj, hold⟩ := hh
  have hlife := (life_step hs id).2
  have hjl : (s.life id).job = some j := hj
  have hkeep : (t.life id).job ≠ some j := fun ht => hn ⟨j, ht, hold⟩
  cases e with
  | releaseJob id' token' delaySeconds now =>
    simp only [localize] at hlife
    split_ifs at hlife with hi
    · rw [← hlife] at hkeep ⊢
      by_cases hh : j.holds token' = true
      · exact ⟨false, Life.lock_released hjl hh⟩
      · exact absurd (by simp [Life.exec, hjl, hh]) hkeep
    · rw [← hlife] at hkeep
      exact absurd hjl hkeep
  | reconcileStaleJobs locked now =>
    simp only [localize] at hlife
    rw [← hlife] at hkeep ⊢
    cases ht : Life.taken cfg (locked.contains id) now (s.life id).heartbeat j with
    | true => exact Life.lock_reclaimed hjl ht
    | false =>
      exact absurd (Life.job_untaken hjl (Job.holds_iff.1 hold).2 ht) hkeep
  | enqueueIfNew => exact he.elim
  | claimJob => exact he.elim
  | updateHeartbeat => exact he.elim
  | setCheckRunId => exact he.elim
  | finalizeJob => exact he.elim
  | heartbeatsLost => exact he.elim

/-- After a claim has lost its job, the fence has passed its token for good. -/
theorem lt_fence_of_taken {e : Transaction} {s' u : Queue} {id : Uuid} {token : ℕ}
    (he : Revoking e) (hs : Step cfg s e s') (hh : s.Holds id token) (hn : ¬ s'.Holds id token)
    (hr : Run (Step cfg) s' es u) {j : Job} (hj : u.db.job id = some j) :
    token < j.fenceToken := by
  obtain ⟨retire, hl⟩ := lock_of_taken he hs hh hn
  have hlt := FencingTokens.revoked_lt hl (Life.lock_reachable (life_run hr id))
  obtain ⟨j₀, hj₀, hold⟩ := hh
  rw [Life.lock_some (l := s.life id) hj₀, Life.lock_some (l := u.life id) hj,
    (Job.holds_iff.1 hold).1] at hlt
  exact hlt

theorem exec_finalize_stale {id : Uuid} {token : ℕ} (verdict : Verdict)
    (aiFeedback : Option Dict) (now : Timestamp)
    (h : ∀ j, s.db.job id = some j → j.fenceToken ≠ token) :
    s.exec cfg (.finalizeJob id token verdict aiFeedback now) = s := by
  simp [exec, finalizeJob_stale h]

/-- A finalization that is admitted commits the lock at its token. -/
theorem lock_finalized {id : Uuid} {token : ℕ} {verdict : Verdict} {aiFeedback : Option Dict}
    {now : Timestamp} {db : Database}
    (hok : finalizeJob cfg id token verdict.status aiFeedback now s.db = .ok db) :
    ((s.exec cfg (.finalizeJob id token verdict aiFeedback now)).life id).lock =
      ⟨.committed verdict, token, s.tokens id⟩ := by
  obtain ⟨j, hj, ht⟩ := finalizeJob_ok_iff.1 ⟨db, hok⟩
  have hjl : (s.life id).job = some j := hj
  rw [life_exec]
  simp only [localize, ↓reduceIte, Life.lock, Life.exec, hjl, ht]
  simp only [Job.finalized, verdict.phase_status, ht]
  rfl

end Queue

/-- Once a release or a reconciliation has taken a job away from the claim with a token, every
later finalization with that token raises and changes nothing; and at most one token of a job
is ever finalized successfully. Neither needs the run to start from the empty queue. -/
theorem fencing_safety (cfg : Settings) (s : Queue) :
    (∀ e s' es u id token, Queue.Revoking e → Queue.Step cfg s e s' →
      s.Holds id token → ¬ s'.Holds id token → Run (Queue.Step cfg) s' es u →
      ∀ (verdict : Verdict) aiFeedback now,
        finalizeJob cfg id token verdict.status aiFeedback now u.db =
            .error (.runtimeError (staleMessage id token)) ∧
          (u.exec cfg (.finalizeJob id token verdict aiFeedback now)).db = u.db) ∧
    (∀ id token (verdict : Verdict) aiFeedback now s' es u token' (verdict' : Verdict) aiFeedback'
      now' db db',
      Queue.Step cfg s (.finalizeJob id token verdict aiFeedback now) s' →
      finalizeJob cfg id token verdict.status aiFeedback now s.db = .ok db →
      Run (Queue.Step cfg) s' es u →
      finalizeJob cfg id token' verdict'.status aiFeedback' now' u.db = .ok db' →
      token = token') := by
  constructor
  · intro e s' es u id token he hs hh hn hr verdict aiFeedback now
    have hstale : ∀ j, u.db.job id = some j → j.fenceToken ≠ token := fun j hj =>
      (Queue.lt_fence_of_taken he hs hh hn hr hj).ne'
    exact ⟨finalizeJob_stale hstale, by rw [Queue.exec_finalize_stale _ _ _ hstale]⟩
  · intro id token verdict _ now s' es u token' _ _ _ db db' hs hok hr hok'
    have hlock := Queue.lock_finalized hok
    rw [(Queue.step_iff.1 hs).2] at hlock
    have hfence := FencingTokens.committed_fence (by rw [hlock])
      (Life.lock_reachable (Queue.life_run hr id))
    obtain ⟨j, hj, ht⟩ := finalizeJob_ok_iff.1 ⟨db', hok'⟩
    rw [hlock, Life.lock_some (l := u.life id) hj] at hfence
    exact hfence.symm.trans ht

/-- A job released by its first worker and claimed by a second: the first can no longer commit,
the second can, twice. -/
theorem fencing_safety_released : ∃ u v : Queue, ∃ token,
    finalizeJob {} Sample.jobId 0 .success none (200 * second) u.db =
      .error (.runtimeError (staleMessage Sample.jobId 0)) ∧
    (∃ db, finalizeJob {} Sample.jobId 1 .success none (300 * second) u.db = .ok db) ∧
    (∃ db, finalizeJob {} Sample.jobId token .failure none (400 * second) v.db = .ok db) ∧
    1 = token := by
  let release : Transaction := .releaseJob Sample.jobId 0 60 second
  let finalize : Transaction := .finalizeJob Sample.jobId 1 .success none (300 * second)
  obtain ⟨s, -, hp⟩ := Queue.exists_run {} .empty [Sample.enqueue, Sample.claim "w1" 0]
    (fun s => 0 ∈ s.tokens Sample.jobId ∧
      (s.db.job Sample.jobId).any (Job.holds 0) = true ∧
      ((s.exec {} release).db.job Sample.jobId).any (Job.holds 0) = false ∧
      (replay (Queue.next {}) (s.exec {} release) [Sample.claim "w2" (100 * second)]).any
        (fun u => 1 ∈ u.tokens Sample.jobId ∧
          (u.db.job Sample.jobId).map Job.fenceToken = some 1 ∧
          ((u.exec {} finalize).db.job Sample.jobId).map Job.fenceToken = some 1) = true)
    (by decide)
  simp only [decide_eq_true_eq] at hp
  obtain ⟨htoken, hheld, hlost, hclaim⟩ := hp
  obtain ⟨u, hr, hp⟩ := Queue.exists_run _ _ _ _ hclaim
  simp only [decide_eq_true_eq] at hp
  obtain ⟨htoken', hfence, hfence'⟩ := hp
  obtain ⟨j, hj, hj1⟩ := Option.map_eq_some_iff.1 hfence
  obtain ⟨j', hj', hj1'⟩ := Option.map_eq_some_iff.1 hfence'
  obtain ⟨db, hok, -⟩ :=
    finalizeJob_current {} Verdict.success.status none (300 * second) hj hj1
  obtain ⟨db', hok', -⟩ :=
    finalizeJob_current {} Verdict.failure.status none (400 * second) hj' hj1'
  have hholds : s.Holds Sample.jobId 0 := by
    obtain ⟨k, hk, hk0⟩ := (Option.any_eq_true _ _).1 hheld
    exact ⟨k, hk, hk0⟩
  have hnot : ¬ (s.exec {} release).Holds Sample.jobId 0 := by
    rintro ⟨k, hk, hk0⟩
    simp [hk, hk0] at hlost
  have hstale := (fencing_safety {} s).1 release _ _ u Sample.jobId 0 trivial
    (Queue.step_exec htoken) hholds hnot hr .success none (200 * second)
  have honly : 1 = 1 := (fencing_safety {} u).2 Sample.jobId 1 .success none _ _ [] _ 1 .failure
    none _ db db' (Queue.step_exec htoken') hok (.nil _) hok'
  exact ⟨u, u.exec {} finalize, 1, hstale.1, ⟨db, hok⟩, ⟨db', hok'⟩, honly⟩

/-- In every reachable state the attempts stay within the budget, the attempt counter and the
fence differ by one exactly while a claim is engaged, and the tokens handed out are the numbers
below the attempt counter, each once. -/
theorem attempt_fence_coupling (cfg : Settings) {es : List Transaction} {s : Queue}
    (h : Run (Queue.Step cfg) .empty es s) :
    (∀ j ∈ s.db.jobs.rows, j.attemptCount ≤ j.maxAttempts ∧
      (j.status = .pending ∨ j.status = .dead → j.attemptCount = j.fenceToken) ∧
      (j.status = .processing ∨ j.status = .success ∨ j.status = .failure →
        j.attemptCount = j.fenceToken + 1) ∧
      (s.tokens j.id).Perm (List.range j.attemptCount) ∧
      (s.tokens j.id).length ≤ j.maxAttempts) ∧
    ∀ id, (s.tokens id).Nodup := by
  constructor
  · intro j hj
    have hf := Queue.fenced_of_run h j.id
    have hjob : (s.life j.id).job = some j := Database.job_of_mem hj
    obtain ⟨hlen, hmax⟩ := hf.counted j hjob
    have hcount := hf.attemptCount_eq hjob
    have htok : s.tokens j.id = _ := hf.tokens_eq hjob
    rw [← hcount] at htok
    refine ⟨hmax, ?_, ?_, ?_, hlen ▸ hmax⟩
    · rintro (hs | hs) <;> simpa [hs, Status.engaged, Status.phase, FencingTokens.Phase.engaged]
        using hcount
    · rintro (hs | hs | hs) <;>
        simpa [hs, Status.engaged, Status.phase, FencingTokens.Phase.engaged] using hcount
    · exact htok ▸ List.reverse_perm _
  · exact Queue.tokens_nodup h

theorem attempt_fence_coupling_claimed : ∃ s : Queue, ∃ j ∈ s.db.jobs.rows,
    j.attemptCount = j.fenceToken + 1 ∧ (s.tokens j.id).Perm (List.range j.attemptCount) := by
  obtain ⟨s, hr, hp⟩ := Queue.exists_run {} .empty [Sample.enqueue, Sample.claim "w1" 0]
    (fun s => (s.db.job Sample.jobId).map Job.status = some .processing) (by decide)
  obtain ⟨j, hj, hst⟩ := Option.map_eq_some_iff.1 (of_decide_eq_true hp)
  have hmem := (Database.job_eq_some_iff.1 hj).1
  obtain ⟨-, -, hcount, hperm, -⟩ := (attempt_fence_coupling {} hr).1 j hmem
  exact ⟨s, j, hmem, hcount (.inl hst), hperm⟩

end Revix
