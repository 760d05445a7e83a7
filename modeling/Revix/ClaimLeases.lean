import Revix.Leases
import Revix.QueueOwners

/-! A claim is a lease that `update_heartbeat` renews and `reconcile_stale_jobs` checks. -/
namespace Revix
open KeyedTables LabelledRuns Leases

/-- The claim of a token is not finalized, and the job's heartbeat row stays there. -/
def LifeEvent.Undisturbed (token : ℕ) : LifeEvent → Prop
  | .finalized token' _ _ _ => token' ≠ token
  | .released _ _ _ => False
  | .heartbeatsLost => False
  | _ => True

def LifeEvent.lease (cfg : Settings) (worker : String) : LifeEvent → Event Timestamp
  | .renewed worker' now => if worker' = worker then .renewed now else .other
  | .reconciled locked now =>
    if locked then .other else .checked (now - cfg.workerHeartbeatStaleSeconds * second)
  | _ => .other

/-- Nobody finalizes the claim, nobody releases the job, and the heartbeats are not lost. -/
def Transaction.Undisturbed (id : Uuid) (token : ℕ) : Transaction → Prop
  | .finalizeJob id' token' _ _ _ => id = id' → token' ≠ token
  | .releaseJob id' _ _ _ => id ≠ id'
  | .heartbeatsLost => False
  | _ => True

/-- What a transaction is to the lease of a worker on a job. A reconciliation passes over a row
that another transaction has locked. -/
def Transaction.lease (cfg : Settings) (id : Uuid) (worker : String) :
    Transaction → Event Timestamp
  | .updateHeartbeat id' worker' now =>
    if id = id' ∧ worker' = worker then .renewed now else .other
  | .reconcileStaleJobs locked now =>
    if locked.contains id then .other
    else .checked (now - cfg.workerHeartbeatStaleSeconds * second)
  | _ => .other

namespace Life

variable {cfg : Settings} {l l' : Life} {e : LifeEvent} {token : ℕ} {worker : String}
  {o : Option Timestamp} {last now : Timestamp} {j : Job} {b : Heartbeat}

/-- The claim holds the job, and its heartbeat was last renewed then. -/
structure Leased (token : ℕ) (worker : String) (last : Timestamp) (j : Job) (b : Heartbeat)
    (l : Life) : Prop where
  job : l.job = some j
  heartbeat : l.heartbeat = some b
  processing : j.status = .processing
  fence : j.fenceToken = token
  heldBy : j.workerId = some worker
  owner : b.workerId = worker
  renewal : b.heartbeatAt = last

/-- A claim whose lease is lost is behind the fence. -/
def Follows (token : ℕ) (worker : String) (l : Life) : Option Timestamp → Prop
  | some last => ∃ j b, l.Leased token worker last j b
  | none => token < l.lock.fence

theorem Leased.renewed (h : l.Leased token worker last j b) (worker' : String) (now : Timestamp) :
    (l.exec cfg (.renewed worker' now)).Follows token worker
      (Leases.next (some last) ((LifeEvent.renewed worker' now).lease cfg worker)) := by
  by_cases hw : worker' = worker
  · have hheld : l.job.any (Job.heldBy worker) = true := by
      rw [h.job]
      exact Job.heldBy_iff.2 ⟨h.heldBy, h.processing⟩
    have hbeat : (l.exec cfg (.renewed worker now)).heartbeat = some (b.renewed now) := by
      simp [exec, hheld, h.heartbeat, h.owner]
    rw [LifeEvent.lease, if_pos hw, hw]
    exact ⟨j, b.renewed now, h.job, hbeat, h.processing, h.fence, h.heldBy, h.owner, rfl⟩
  · have hother : b.workerId ≠ worker' := fun hb => hw (hb.symm.trans h.owner)
    have hbeat : (l.exec cfg (.renewed worker' now)).heartbeat = some b := by
      simp [exec, h.heartbeat, hother]
    rw [LifeEvent.lease, if_neg hw]
    exact ⟨j, b, h.job, hbeat, h.processing, h.fence, h.heldBy, h.owner, h.renewal⟩

/-- A reconciliation that takes the job raises the fence over the claim. -/
theorem Leased.reclaimed (h : l.Leased token worker last j b) {locked : Bool}
    (ht : taken cfg locked now l.heartbeat j = true) :
    token < (l.exec cfg (.reconciled locked now)).lock.fence := by
  obtain ⟨retire, hrevoked⟩ := lock_reclaimed h.job ht
  have hlt := FencingTokens.revoked_lt hrevoked (.refl _)
  rwa [lock_some h.job, h.fence] at hlt

theorem Leased.untaken (h : l.Leased token worker last j b) {locked : Bool}
    (ht : taken cfg locked now l.heartbeat j = false) :
    (l.exec cfg (.reconciled locked now)).Leased token worker last j b := by
  have hbeat : (l.exec cfg (.reconciled locked now)).heartbeat = some b := by
    refine Option.filter_eq_some_iff.2 ⟨h.heartbeat, ?_⟩
    simp [h.job, ht, Job.reconciled, h.processing]
  exact ⟨job_untaken h.job h.processing ht, hbeat, h.processing, h.fence, h.heldBy, h.owner,
    h.renewal⟩

theorem Leased.taken_iff (h : l.Leased token worker last j b) {locked : Bool} :
    taken cfg locked now l.heartbeat j = true ↔
      last < now - cfg.workerHeartbeatStaleSeconds * second ∧ locked = false := by
  simp [taken, Job.stale, h.heartbeat, h.processing, h.renewal]

theorem Leased.reconciled (h : l.Leased token worker last j b) (locked : Bool)
    (now : Timestamp) :
    (l.exec cfg (.reconciled locked now)).Follows token worker
      (Leases.next (some last) ((LifeEvent.reconciled locked now).lease cfg worker)) := by
  cases ht : taken cfg locked now l.heartbeat j with
  | true =>
    obtain ⟨hlate, rfl⟩ := h.taken_iff.1 ht
    have hlost : Leases.next (some last)
        ((LifeEvent.reconciled false now).lease cfg worker) = none := if_pos hlate
    rw [hlost]
    exact h.reclaimed ht
  | false =>
    have hkept : Leases.next (some last)
        ((LifeEvent.reconciled locked now).lease cfg worker) = some last := by
      cases locked with
      | true => rfl
      | false => exact if_neg fun hlate => by simp [h.taken_iff.2 ⟨hlate, rfl⟩] at ht
    rw [hkept]
    exact ⟨j, b, h.untaken ht⟩

theorem follows_step (h : l.Follows token worker o) (hs : Step cfg l e l')
    (hquiet : e.Undisturbed token) :
    l'.Follows token worker (Leases.next o (e.lease cfg worker)) := by
  cases o with
  | none => exact Nat.lt_of_lt_of_le h (FencingTokens.reachable_fence_le (lock_step hs))
  | some last =>
    obtain ⟨j, b, hleased⟩ := h
    obtain ⟨hp, rfl⟩ := hs
    cases e with
    | skip => exact ⟨j, b, hleased⟩
    | enqueued row => exact absurd (hp.1.symm.trans hleased.job) (by simp)
    | claimed worker' now =>
      obtain ⟨k, hk, hc⟩ := hp
      obtain rfl := Option.some.inj (hleased.job.symm.trans hk)
      simp [Job.claimable, hleased.processing] at hc
    | renewed worker' now => exact hleased.renewed worker' now
    | checkRunSet checkRunId =>
      have hjob : (l.exec cfg (.checkRunSet checkRunId)).job = some (j.checkRunSet checkRunId) := by
        simp [exec, hleased.job]
      exact ⟨j.checkRunSet checkRunId, b, hjob, hleased.heartbeat, hleased.processing,
        hleased.fence, hleased.heldBy, hleased.owner, hleased.renewal⟩
    | finalized token' verdict aiFeedback now =>
      have hother : j.fenceToken ≠ token' := fun h => hquiet (h.symm.trans hleased.fence)
      have hsame : l.exec cfg (.finalized token' verdict aiFeedback now) = l := by
        simp [exec, hleased.job, hother]
      rw [hsame]
      exact ⟨j, b, hleased⟩
    | released => exact hquiet.elim
    | reconciled locked now => exact hleased.reconciled locked now
    | heartbeatsLost => exact hquiet.elim

end Life

namespace Queue

variable {cfg : Settings} {s t : Queue} {e : Transaction} {es : List Transaction} {id : Uuid}
  {token : ℕ} {worker : String} {o : Option Timestamp}

theorem localize_undisturbed (h : e.Undisturbed id token) :
    (s.localize id e).Undisturbed token := by
  cases e with
  | enqueueIfNew =>
    simp only [localize]
    split_ifs <;> trivial
  | claimJob =>
    simp only [localize]
    split_ifs <;> trivial
  | updateHeartbeat =>
    simp only [localize]
    split_ifs <;> trivial
  | setCheckRunId =>
    simp only [localize]
    split_ifs <;> trivial
  | finalizeJob id' =>
    simp only [localize]
    split_ifs with hid
    · exact h hid
    · trivial
  | releaseJob => simp only [localize, if_neg h]; trivial
  | reconcileStaleJobs => trivial
  | heartbeatsLost => exact h.elim

/-- Only renewals and reconciliations concern a lease, and they do so through the job's row. -/
theorem lease_localize : (s.localize id e).lease cfg worker = e.lease cfg id worker := by
  cases e with
  | enqueueIfNew =>
    simp only [localize]
    split_ifs <;> rfl
  | claimJob =>
    simp only [localize]
    split_ifs <;> rfl
  | updateHeartbeat id' worker' now =>
    by_cases hid : id = id' <;> simp [localize, LifeEvent.lease, Transaction.lease, hid]
  | setCheckRunId =>
    simp only [localize]
    split_ifs <;> rfl
  | finalizeJob =>
    simp only [localize]
    split_ifs <;> rfl
  | releaseJob =>
    simp only [localize]
    split_ifs <;> rfl
  | reconcileStaleJobs => rfl
  | heartbeatsLost => rfl

theorem follows_run (h : Run (Guarded (Step cfg) fun _ e _ => e.Undisturbed id token) s es t)
    (hfollows : (s.life id).Follows token worker o) :
    (t.life id).Follows token worker
      ((es.map (Transaction.lease cfg id worker)).foldl Leases.next o) := by
  induction h generalizing o with
  | nil => exact hfollows
  | cons first rest ih =>
    have hnext := Life.follows_step hfollows (life_step first.1 id)
      (localize_undisturbed first.2)
    rw [lease_localize] at hnext
    exact ih hnext

theorem follows_claimed {scan : Scan} {now : Timestamp} {row : Job}
    (h : (claimJob worker scan now s.db).1 = some row) :
    ((s.exec cfg (.claimJob worker scan now)).life row.id).Follows row.fenceToken worker
      (some now) := by
  obtain ⟨c, hc, rfl⟩ := claimJob_fst_eq_some h
  have hjob : (claimJob worker scan now s.db).2.job c.id = some (c.claimed worker now) := by
    rw [job_claimJob hc, if_pos rfl]
  have hbeat : (claimJob worker scan now s.db).2.heartbeat c.id = some ⟨c.id, worker, now⟩ := by
    rw [heartbeat_claimJob hc, if_pos rfl]
  exact ⟨c.claimed worker now, ⟨c.id, worker, now⟩, hjob, hbeat, rfl, rfl, rfl, rfl, rfl⟩

theorem holds_iff_of_follows (h : (s.life id).Follows token worker o) :
    s.Holds id token ↔ o.isSome = true := by
  cases o with
  | none =>
    refine iff_of_false ?_ Bool.false_ne_true
    rintro ⟨j, hj, hholds⟩
    have hlt : token < (s.life id).lock.fence := h
    rw [Life.lock_some (l := s.life id) hj, (Job.holds_iff.1 hholds).1] at hlt
    exact lt_irrefl _ hlt
  | some last =>
    obtain ⟨j, b, hleased⟩ := h
    exact iff_of_true ⟨j, hleased.job, Job.holds_iff.2 ⟨hleased.fence, hleased.processing⟩⟩ rfl

end Queue

/-- From its claim on, while nobody finalizes it or releases the job, a claim is held exactly when
no reconciliation that sees the job's row comes more than `WORKER_HEARTBEAT_STALE_SECONDS` after
the worker's last renewal before it. -/
theorem claim_kept_iff (cfg : Settings) {s t : Queue} {worker : String} {scan : Scan}
    {now : Timestamp} {row : Job} {es : List Transaction}
    (hclaim : (claimJob worker scan now s.db).1 = some row)
    (hrun : Run (Guarded (Queue.Step cfg) fun _ e _ => e.Undisturbed row.id row.fenceToken)
      (s.exec cfg (.claimJob worker scan now)) es t) :
    t.Holds row.id row.fenceToken ↔
      Leases.Timely now (es.map (Transaction.lease cfg row.id worker)) := by
  have hfollows := Queue.follows_run hrun (Queue.follows_claimed hclaim)
  exact (Queue.holds_iff_of_follows hfollows).trans kept_iff_timely

/-- A renewal after a minute keeps the claim over a reconciliation at 140 s, but not over one at
200 s. -/
theorem claim_kept_iff_renewed : ∃ (s t u : Queue) (row : Job),
    (claimJob "w1" .idle 0 s.db).1 = some row ∧
    Run (Queue.Step {}) (s.exec {} (Sample.claim "w1" 0))
      [.updateHeartbeat Sample.jobId "w1" (60 * second),
        .reconcileStaleJobs [] (140 * second)] t ∧
    t.Holds row.id row.fenceToken ∧
    Queue.Step {} t (.reconcileStaleJobs [] (200 * second)) u ∧
    ¬ u.Holds row.id row.fenceToken := by
  let renewed : List Transaction := [.updateHeartbeat Sample.jobId "w1" (60 * second),
    .reconcileStaleJobs [] (140 * second)]
  let late : Transaction := .reconcileStaleJobs [] (200 * second)
  obtain ⟨s, -, hp⟩ := Queue.exists_run {} .empty [Sample.enqueue]
    (fun s => (claimJob "w1" .idle 0 s.db).1.map (fun row => (row.id, row.fenceToken)) =
        some (Sample.jobId, 0) ∧
      (replay (Queue.next {}) (s.exec {} (Sample.claim "w1" 0)) renewed).any
        (fun t => (Queue.next {} t late).isSome) = true) (by decide)
  simp only [decide_eq_true_eq] at hp
  obtain ⟨hrow, hreplay⟩ := hp
  obtain ⟨row, hclaim, heq⟩ := Option.map_eq_some_iff.1 hrow
  obtain ⟨hid, hfence⟩ := Prod.mk.inj heq
  obtain ⟨t, ht, hlate⟩ := Queue.exists_run _ _ _ _ hreplay
  obtain ⟨u, hu⟩ := Option.isSome_iff_exists.1 hlate
  have hkept := claim_kept_iff {} hclaim
    (ht.guard (by simp [renewed, Transaction.Undisturbed]))
  have hlost := claim_kept_iff {} hclaim
    ((ht.append (.single hu)).guard (by simp [renewed, late, Transaction.Undisturbed]))
  rw [hid, hfence] at hkept hlost
  refine ⟨s, t, u, row, hclaim, ht, ?_, hu, ?_⟩
  · rw [hid, hfence]
    exact hkept.2 (kept_iff_timely.1 (by decide))
  · rw [hid, hfence]
    exact fun h => absurd (kept_iff_timely.2 (hlost.1 h)) (by decide)

end Revix
