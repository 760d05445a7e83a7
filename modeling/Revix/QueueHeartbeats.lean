import Revix.QueueFencing

/-! A heartbeat row always belongs to the worker that holds its job. That a job being worked on
has one is what a release with a superseded token and a crash of the database break. -/
namespace Revix
open KeyedTables LabelledRuns

namespace Life

variable {cfg : Settings} {l l' : Life} {e : LifeEvent}

/-- A heartbeat row belongs to the job's current worker. -/
def Owned (l : Life) : Prop :=
  ∀ b, l.heartbeat = some b →
    ∃ j, l.job = some j ∧ j.status = .processing ∧ j.workerId = some b.workerId

/-- A job being worked on has a heartbeat row. -/
def Beating (l : Life) : Prop :=
  ∀ j, l.job = some j → j.status = .processing → l.heartbeat.isSome = true

theorem reconciled_processing {j : Job} {b : Bool} {now : Timestamp}
    (h : (j.reconciled cfg now b).status = .processing) : b = false := by
  cases b with
  | false => rfl
  | true =>
    simp only [Job.reconciled, ↓reduceIte, Job.reclaimed] at h
    split at h <;> cases h

theorem expired_processing {j : Job} {now : Timestamp}
    (h : (j.expired now).status = .processing) : j.expired now = j := by
  unfold Job.expired at h ⊢
  split at h
  · cases h
  · rename_i ho
    exact if_neg ho

theorem owned_step (h : l.Owned) (hs : Step cfg l e l') : l'.Owned := by
  obtain ⟨hp, rfl⟩ := hs
  cases e with
  | skip => exact h
  | enqueued row =>
    intro b hb
    obtain ⟨j, hj, -⟩ := h b hb
    exact absurd (hp.1.symm.trans hj) (by simp)
  | claimed worker now =>
    obtain ⟨j, hj, -⟩ := hp
    intro b hb
    simp only [exec, hj, Option.some.injEq] at hb ⊢
    subst hb
    exact ⟨_, rfl, rfl, rfl⟩
  | renewed worker now =>
    intro b hb
    obtain ⟨b₀, hb₀, hbb⟩ := Option.map_eq_some_iff.1 hb
    have hw : b.workerId = b₀.workerId := by
      rw [← hbb]
      split <;> rfl
    rw [hw]
    exact h b₀ hb₀
  | checkRunSet checkRunId =>
    intro b hb
    obtain ⟨j, hj, hst, hw⟩ := h b hb
    exact ⟨j.checkRunSet checkRunId, by simp [exec, hj], hst, hw⟩
  | finalized token verdict aiFeedback now =>
    cases hj : l.job with
    | none => simpa [exec, hj] using h
    | some j =>
      by_cases hf : j.fenceToken = token
      · intro b hb
        simp [exec, hj, hf] at hb
      · simpa [exec, hj, hf] using h
  | released token delaySeconds now =>
    intro b hb
    cases hb
  | reconciled locked now =>
    intro b hb
    obtain ⟨hb₀, hany⟩ := Option.filter_eq_some_iff.1 hb
    obtain ⟨j, hj, hst, hw⟩ := h b hb₀
    simp only [hj, Option.any_some, decide_eq_true_eq] at hany
    exact ⟨j, job_untaken hj hst (reconciled_processing hany), hst, hw⟩
  | heartbeatsLost =>
    intro b hb
    cases hb

/-- Every event keeps the heartbeat of a job being worked on, except a crash and a release
whose token is not the job's fence. -/
theorem beating_step (h : l.Beating) (hs : Step cfg l e l') (hlost : e ≠ .heartbeatsLost)
    (hrel : ∀ token delaySeconds now, e = .released token delaySeconds now →
      ∀ j, l.job = some j → j.status = .processing → j.fenceToken = token) : l'.Beating := by
  obtain ⟨hp, rfl⟩ := hs
  cases e with
  | skip => exact h
  | enqueued row =>
    obtain ⟨-, id, sha, repo, pn, inst, tc, now, rfl⟩ := hp
    intro j hj hst
    obtain rfl := Option.some.inj hj
    cases hst
  | claimed worker now =>
    obtain ⟨j, hj, -⟩ := hp
    intro k _ _
    simp [exec, hj]
  | renewed worker now =>
    intro j hj hst
    simpa [exec] using h j hj hst
  | checkRunSet checkRunId =>
    intro j' hj' hst
    obtain ⟨j, hj, rfl⟩ := Option.map_eq_some_iff.1 hj'
    exact h j hj hst
  | finalized token verdict aiFeedback now =>
    intro j' hj' hst
    rw [job_finalized] at hj'
    obtain ⟨j, hj, rfl⟩ := Option.map_eq_some_iff.1 hj'
    split_ifs at hst with hf
    · cases verdict <;> cases hst
    · simpa [exec, hj, hf] using h j hj hst
  | released token delaySeconds now =>
    intro j' hj' hst
    obtain ⟨j, hj, rfl⟩ := Option.map_eq_some_iff.1 hj'
    split_ifs at hst with hh
    · cases hst
    · have ht := hrel token delaySeconds now rfl j hj hst
      exact absurd (Job.holds_iff.2 ⟨ht, hst⟩) hh
  | reconciled locked now =>
    intro j' hj' hst
    obtain ⟨j, hj, rfl⟩ := Option.map_eq_some_iff.1 hj'
    rw [expired_processing hst] at hst
    have hkept := reconciled_processing hst
    have hproc : j.status = .processing := by simpa [Job.reconciled, hkept] using hst
    obtain ⟨b, hb⟩ := Option.isSome_iff_exists.1 (h j hj hproc)
    refine Option.isSome_iff_exists.2 ⟨b, Option.filter_eq_some_iff.2 ⟨hb, ?_⟩⟩
    simpa only [hj, Option.any_some, decide_eq_true_eq] using hst
  | heartbeatsLost => exact absurd rfl hlost

end Life

namespace Queue

variable {cfg : Settings} {s t : Queue} {es : List Transaction}

theorem owned_of_run (h : Run (Step cfg) empty es s) (i : Uuid) : (s.life i).Owned :=
  (life_run h i).invariant (I := Life.Owned) (fun _ _ _ hl hs => Life.owned_step hl hs)
    fun _ hb => nomatch hb

end Queue

/-- The heartbeat rows are those of the jobs being worked on, each with the job's worker. -/
def Mirrors (db : Database) : Prop :=
  (∀ id, (∃ b ∈ db.workerHeartbeats.rows, b.jobId = id) ↔
    ∃ j ∈ db.jobs.rows, j.id = id ∧ j.status = .processing) ∧
  ∀ b ∈ db.workerHeartbeats.rows, ∀ j ∈ db.jobs.rows, j.id = b.jobId →
    j.workerId = some b.workerId

namespace Queue

variable {cfg : Settings} {s t : Queue} {es : List Transaction}

theorem mirrors_iff (h : ∀ i, (s.life i).Owned) : Mirrors s.db ↔ ∀ i, (s.life i).Beating := by
  constructor
  · intro hm i j hj hst
    obtain ⟨hmem, rfl⟩ := Database.job_eq_some_iff.1 hj
    obtain ⟨b, hb, hid⟩ := (hm.1 j.id).2 ⟨j, hmem, rfl, hst⟩
    exact Option.isSome_iff_exists.2 ⟨b, Database.heartbeat_eq_some_iff.2 ⟨hb, hid⟩⟩
  · intro hbeat
    refine ⟨fun id => ⟨?_, ?_⟩, fun b hb j hj hid => ?_⟩
    · rintro ⟨b, hb, rfl⟩
      obtain ⟨j, hj, hst, -⟩ := h b.jobId b (Database.heartbeat_eq_some_iff.2 ⟨hb, rfl⟩)
      obtain ⟨hmem, hid⟩ := Database.job_eq_some_iff.1 hj
      exact ⟨j, hmem, hid, hst⟩
    · rintro ⟨j, hj, rfl, hst⟩
      have hsome := hbeat j.id j (Database.job_of_mem hj) hst
      obtain ⟨b, hb⟩ := Option.isSome_iff_exists.1 hsome
      exact ⟨b, Database.heartbeat_eq_some_iff.1 hb⟩
    · obtain ⟨k, hk, -, hw⟩ := h b.jobId b (Database.heartbeat_eq_some_iff.2 ⟨hb, rfl⟩)
      have hjob : s.db.job b.jobId = some j := Database.job_eq_some_iff.2 ⟨hj, hid⟩
      obtain rfl := Option.some.inj (hk.symm.trans hjob)
      exact hw

def DurableStep (cfg : Settings) : Queue → Transaction → Queue → Prop :=
  Guarded (Step cfg) fun _ e _ => e ≠ .heartbeatsLost

/-- A release does not come with a superseded token while another claim is working on the job. -/
def ReleaseCurrent (s : Queue) : Transaction → Prop
  | .releaseJob id token _ _ =>
    ∀ j, s.db.job id = some j → j.status = .processing → j.fenceToken = token
  | _ => True

theorem mirrors_step_iff {e : Transaction} (ho : ∀ i, (s.life i).Owned) (hm : Mirrors s.db)
    (hs : DurableStep cfg s e t) : ReleaseCurrent s e ↔ Mirrors t.db := by
  obtain ⟨hs, hlost⟩ := hs
  have ho' : ∀ i, (t.life i).Owned := fun i => Life.owned_step (ho i) (life_step hs i)
  have hbeat := (mirrors_iff ho).1 hm
  rw [mirrors_iff ho']
  constructor
  · intro hrel i
    refine Life.beating_step (hbeat i) (life_step hs i)
      (fun h => hlost (localize_heartbeatsLost h)) fun token delay now h => ?_
    obtain rfl := localize_released h
    exact hrel
  · intro hbeat'
    cases e with
    | releaseJob id token delaySeconds now =>
      -- a superseded release leaves the job as it is and deletes its heartbeat
      intro j hj hst
      by_contra ht
      have hlife := (life_step hs id).2
      have hjl : (s.life id).job = some j := hj
      have hnot : j.holds token = false := by simp [Job.holds, ht]
      simp only [localize, ↓reduceIte] at hlife
      have hjob : (t.life id).job = some j := by
        rw [← hlife]
        simp [Life.exec, hjl, hnot]
      have hnone : (t.life id).heartbeat = none := by
        rw [← hlife]
        rfl
      have hsome := hbeat' id j hjob hst
      simp [hnone] at hsome
    | enqueueIfNew => trivial
    | claimJob => trivial
    | updateHeartbeat => trivial
    | setCheckRunId => trivial
    | finalizeJob => trivial
    | reconcileStaleJobs => trivial
    | heartbeatsLost => trivial

/-- A stale release touches no table as long as there is no heartbeat of another claim. -/
theorem releaseJob_stale_iff {id : Uuid} {token : ℕ} {delaySeconds : ℤ} {now : Timestamp}
    (ho : ∀ i, (s.life i).Owned) (hm : Mirrors s.db)
    (ht : ∀ j, s.db.job id = some j → j.fenceToken ≠ token) :
    releaseJob id token delaySeconds now s.db = s.db ↔
      ReleaseCurrent s (.releaseJob id token delaySeconds now) := by
  constructor
  · intro heq j hj hst
    obtain ⟨b, hb⟩ := Option.isSome_iff_exists.1 ((mirrors_iff ho).1 hm id j hj hst)
    have hnone : (releaseJob id token delaySeconds now s.db).heartbeat id = _ :=
      heartbeat_releaseJob id
    have hb' : s.db.heartbeat id = some b := hb
    rw [heq, hb'] at hnone
    simp at hnone
  · intro hrel
    have hjobs : ∀ j ∈ s.db.jobs.rows,
        (j.fenced id token && j.status = .processing) = false := by
      intro j hj
      by_cases hid : j.id = id
      · simp [Job.fenced, ht j (Database.job_eq_some_iff.2 ⟨hj, hid⟩)]
      · simp [Job.fenced, hid]
    have hbeats : ∀ b ∈ s.db.workerHeartbeats.rows, decide (b.jobId = id) = false := by
      intro b hb
      apply decide_eq_false
      intro hid
      obtain ⟨j, hj, hst, -⟩ := ho id b (Database.heartbeat_eq_some_iff.2 ⟨hb, hid⟩)
      exact ht j hj (hrel j hj hst)
    simp only [releaseJob, Table.update_eq_self _ _ _ _ hjobs, Table.delete_eq_self _ _ hbeats]

end Queue

/-- A run without a crash keeps the heartbeat rows in step with the live claims exactly when
none of its releases comes with a superseded token while another claim works on the job; and
at the end of such a run a stale release changes nothing exactly when it is not one of these. -/
theorem heartbeats_mirror_iff (cfg : Settings) (es : List Transaction) (s : Queue) :
    (Run (Guarded (Queue.DurableStep cfg) fun s e _ => s.ReleaseCurrent e) .empty es s ↔
      Run (Guarded (Queue.DurableStep cfg) fun _ _ t => Mirrors t.db) .empty es s) ∧
    (Run (Guarded (Queue.DurableStep cfg) fun s e _ => s.ReleaseCurrent e) .empty es s →
      ∀ id token delaySeconds now, (∀ j, s.db.job id = some j → j.fenceToken ≠ token) →
        (releaseJob id token delaySeconds now s.db = s.db ↔
          s.ReleaseCurrent (.releaseJob id token delaySeconds now))) := by
  let I : Queue → Prop := fun s => (∀ i, (s.life i).Owned) ∧ Mirrors s.db
  have howned : ∀ i, (Queue.empty.life i).Owned := fun i b hb => nomatch hb
  have hI₀ : I .empty := ⟨howned, (Queue.mirrors_iff howned).2 fun i j hj => nomatch hj⟩
  have hI : ∀ s e t, I s → Queue.DurableStep cfg s e t → s.ReleaseCurrent e → I t :=
    fun s e t hs h hrel =>
      ⟨fun i => Life.owned_step (hs.1 i) (Queue.life_step h.1 i),
        (Queue.mirrors_step_iff hs.1 hs.2 h).1 hrel⟩
  constructor
  · exact Run.guarded_congr (I := I) (fun s e t hs h => Queue.mirrors_step_iff hs.1 hs.2 h)
      hI hI₀
  · intro hr id token delaySeconds now ht
    have hs := hr.invariant (I := I) (fun s e t hs h => hI s e t hs h.1 h.2) hI₀
    exact Queue.releaseJob_stale_iff hs.1 hs.2 ht

/-- A worker that lost its job releases it with the old token: the heartbeat of the worker that
has the job now is gone. -/
theorem heartbeats_unmirrored : ∃ s t, Run (Queue.DurableStep {}) .empty
      [Sample.enqueue, Sample.claim "w1" 0, .reconcileStaleJobs [] (100 * second),
        Sample.claim "w2" (300 * second)] s ∧
    (∀ j, s.db.job Sample.jobId = some j → j.fenceToken ≠ 0) ∧
    Queue.DurableStep {} s (.releaseJob Sample.jobId 0 60 (301 * second)) t ∧
    t.db ≠ s.db ∧ ¬ Mirrors t.db := by
  let release : Transaction := .releaseJob Sample.jobId 0 60 (301 * second)
  obtain ⟨s, hr, hp⟩ := Queue.exists_run {} .empty
    [Sample.enqueue, Sample.claim "w1" 0, .reconcileStaleJobs [] (100 * second),
      Sample.claim "w2" (300 * second)]
    (fun s => 0 ∈ s.tokens Sample.jobId ∧ (s.db.heartbeat Sample.jobId).isSome ∧
      (s.db.job Sample.jobId).map Job.fenceToken = some 1 ∧
      ((s.exec {} release).db.job Sample.jobId).map Job.status = some .processing ∧
      (s.exec {} release).db.heartbeat Sample.jobId = none) (by decide)
  simp only [decide_eq_true_eq] at hp
  obtain ⟨htoken, hbeat, hfence, hstatus, hnone⟩ := hp
  have hdurable : Run (Queue.DurableStep {}) .empty _ s :=
    hr.guard (by simp [Sample.enqueue, Sample.claim])
  have hstep : Queue.DurableStep {} s release (s.exec {} release) :=
    ⟨Queue.step_exec htoken, by simp [release]⟩
  refine ⟨s, s.exec {} release, hdurable, fun j hj => ?_, hstep, fun heq => ?_, fun hm => ?_⟩
  · simp only [hj, Option.map_some, Option.some.injEq] at hfence
    simp [hfence]
  · simp [heq] at hnone
    simp [hnone] at hbeat
  · obtain ⟨j, hj, hst⟩ := Option.map_eq_some_iff.1 hstatus
    obtain ⟨hmem, hid⟩ := Database.job_eq_some_iff.1 hj
    obtain ⟨b, hb⟩ := (hm.1 Sample.jobId).2 ⟨j, hmem, hid, hst⟩
    simp [Database.heartbeat_eq_some_iff.2 hb] at hnone

/-- A release after a reconciliation took the job, and before anyone else has it. -/
theorem heartbeats_mirror_reclaimed : ∃ s : Queue,
    (s.db.job Sample.jobId).map Job.fenceToken = some 1 ∧
      releaseJob Sample.jobId 0 60 (101 * second) s.db = s.db := by
  obtain ⟨s, hr, hp⟩ := Queue.exists_run {} .empty
    [Sample.enqueue, Sample.claim "w1" 0, .reconcileStaleJobs [] (100 * second)]
    (fun s => (s.db.job Sample.jobId).map (fun j => (j.fenceToken, j.status)) =
      some (1, .pending)) (by decide)
  obtain ⟨j, hj, heq⟩ := Option.map_eq_some_iff.1 (of_decide_eq_true hp)
  obtain ⟨hfence, hst⟩ := Prod.mk.inj heq
  have hdurable : Run (Queue.DurableStep {}) .empty _ s :=
    hr.guard (by simp [Sample.enqueue, Sample.claim])
  have hcurrent : Run (Guarded (Queue.DurableStep {}) fun s e _ => s.ReleaseCurrent e) .empty _ s :=
    hdurable.guard (by simp [Sample.enqueue, Sample.claim, Queue.ReleaseCurrent])
  refine ⟨s, by rw [hj, Option.map_some, hfence], ?_⟩
  refine ((heartbeats_mirror_iff {} _ s).2 hcurrent Sample.jobId 0 60 _ ?_).2 ?_
  · intro k hk
    obtain rfl := Option.some.inj (hj.symm.trans hk)
    simp [hfence]
  · intro k hk hproc
    obtain rfl := Option.some.inj (hj.symm.trans hk)
    simp [hst] at hproc

/-- Nothing is done to the job itself, and reconciliations come within the staleness limit. -/
def LifeEvent.Quiet (cfg : Settings) (since : Timestamp) : LifeEvent → Prop
  | .skip => True
  | .enqueued _ => True
  | .claimed _ _ => True
  | .reconciled _ now =>
    since ≤ now ∧ now ≤ since + cfg.workerHeartbeatStaleSeconds * second
  | _ => False

/-- The transactions that leave a job to its worker: any on other jobs, and reconciliations up
to `WORKER_HEARTBEAT_STALE_SECONDS` after the heartbeat. -/
def Transaction.Quiet (cfg : Settings) (id : Uuid) (since : Timestamp) : Transaction → Prop
  | .enqueueIfNew _ _ _ _ _ _ _ => True
  | .claimJob _ _ _ => True
  | .updateHeartbeat id' _ _ => id ≠ id'
  | .setCheckRunId id' _ => id ≠ id'
  | .finalizeJob id' _ _ _ _ => id ≠ id'
  | .releaseJob id' _ _ _ => id ≠ id'
  | .reconcileStaleJobs _ now =>
    since ≤ now ∧ now ≤ since + cfg.workerHeartbeatStaleSeconds * second
  | .heartbeatsLost => False

/-- A limit of a negative number of seconds has passed from the start. -/
theorem limit_empty_iff {since : Timestamp} {seconds : ℤ} :
    ¬ since ≤ since + seconds * second ↔ seconds < 0 := by
  have hpos : (0 : ℤ) < second := by decide
  rw [le_add_iff_nonneg_right, mul_nonneg_iff_of_pos_right hpos, not_le]

namespace Life

variable {cfg : Settings} {l l' : Life} {e : LifeEvent} {since : Timestamp}

def FreshSince (cfg : Settings) (since : Timestamp) (j : Job) (l : Life) : Prop :=
  l.job = some j ∧ j.status = .processing ∧
    (cfg.workerHeartbeatStaleSeconds < 0 ∨
      ∃ b, l.heartbeat = some b ∧ b.heartbeatAt = since)

theorem freshSince_step {j : Job} (h : l.FreshSince cfg since j) (hq : e.Quiet cfg since)
    (hs : Step cfg l e l') : l'.FreshSince cfg since j := by
  obtain ⟨hp, rfl⟩ := hs
  obtain ⟨hj, hst, hfresh⟩ := h
  cases e with
  | skip => exact ⟨hj, hst, hfresh⟩
  | enqueued row => exact absurd (hp.1.symm.trans hj) (by simp)
  | claimed worker now =>
    obtain ⟨k, hk, hc⟩ := hp
    obtain rfl := Option.some.inj (hj.symm.trans hk)
    simp [Job.claimable, hst] at hc
  | reconciled locked now =>
    obtain ⟨hle, hge⟩ := hq
    rcases hfresh with hneg | ⟨b, hb, hat⟩
    · -- a negative limit leaves no time to reconcile in
      exact absurd (hle.trans hge) (limit_empty_iff.2 hneg)
    · have hkept : taken cfg locked now l.heartbeat j = false := by
        have hlt : ¬ b.heartbeatAt < now - cfg.workerHeartbeatStaleSeconds * second := by
          rw [hat]
          exact not_lt.2 (sub_le_iff_le_add.2 hge)
        simp [taken, Job.stale, hb, hlt]
      refine ⟨job_untaken hj hst hkept, hst, .inr ⟨b, ?_, hat⟩⟩
      refine Option.filter_eq_some_iff.2 ⟨hb, ?_⟩
      simp [hj, hkept, Job.reconciled, hst]
  | renewed => exact hq.elim
  | checkRunSet => exact hq.elim
  | finalized => exact hq.elim
  | released => exact hq.elim
  | heartbeatsLost => exact hq.elim

end Life

namespace Queue

variable {cfg : Settings} {s t : Queue} {id : Uuid} {worker : String} {now : Timestamp}

theorem localize_quiet {e : Transaction} (h : e.Quiet cfg id now) :
    (s.localize id e).Quiet cfg now := by
  cases e with
  | enqueueIfNew => simp only [localize]; split_ifs <;> trivial
  | claimJob => simp only [localize]; split_ifs <;> trivial
  | reconcileStaleJobs => exact h
  | heartbeatsLost => exact h.elim
  | _ => simp only [localize, if_neg h]; trivial

/-- From here to the end of the limit, the job stays with the worker as long as nothing is done
to the job. -/
def Protected (cfg : Settings) (s : Queue) (id : Uuid) (worker : String) (since : Timestamp) :
    Prop :=
  ∀ fs t, Run (Guarded (Step cfg) fun _ e _ => e.Quiet cfg id since) s fs t →
    (t.db.job id).any (Job.heldBy worker) = true

theorem protected_of_fresh {j : Job} (h : (s.life id).FreshSince cfg now j)
    (hw : j.workerId = some worker) : s.Protected cfg id worker now := by
  intro fs t hr
  have hfresh := hr.invariant (I := fun s => (s.life id).FreshSince cfg now j)
    (fun s e t hs ht => Life.freshSince_step hs (localize_quiet ht.2) (life_step ht.1 id)) h
  have hjob : t.db.job id = some j := hfresh.1
  simp [hjob, Job.heldBy, hw, hfresh.2.1]

/-- Without a heartbeat row the next reconciliation takes the job. -/
theorem not_protected {j : Job} (hj : s.db.job id = some j) (hst : j.status = .processing)
    (hnone : s.db.heartbeat id = none) (hlimit : 0 ≤ cfg.workerHeartbeatStaleSeconds) :
    ¬ s.Protected cfg id worker now := by
  intro hp
  have hs : Step cfg s (.reconcileStaleJobs [] now) (s.exec cfg (.reconcileStaleJobs [] now)) :=
    step_exec trivial
  have hq : Transaction.Quiet cfg id now (.reconcileStaleJobs [] now) :=
    ⟨le_rfl, not_not.1 (mt limit_empty_iff.1 (not_lt.2 hlimit))⟩
  have hheld := hp _ _ (.single ⟨hs, hq⟩)
  have htaken : reclaimable cfg [] now s.db j = true := by
    simp [reclaimable, Job.stale, hst, job_id hj, hnone]
  have hworker : ((j.reclaimed cfg now).expired now).workerId = none := by
    unfold Job.expired
    split <;> rfl
  simp [exec, job_reconcileStaleJobs, hj, htaken, Job.reconciled, Job.heldBy, hworker] at hheld

end Queue

/-- When `update_heartbeat` answers `True`, the job is safe from reconciliation for
`WORKER_HEARTBEAT_STALE_SECONDS` exactly when it had a heartbeat row to renew (or when no
reconciliation falls within the limit, because it is negative). -/
theorem heartbeat_protects_iff (cfg : Settings) {es : List Transaction} {s : Queue}
    (h : Run (Queue.Step cfg) .empty es s) {id : Uuid} {worker : String} {now : Timestamp}
    (htrue : (updateHeartbeat id worker now s.db).1 = true) :
    (s.exec cfg (.updateHeartbeat id worker now)).Protected cfg id worker now ↔
      (s.db.heartbeat id).isSome = true ∨ cfg.workerHeartbeatStaleSeconds < 0 := by
  rw [updateHeartbeat_fst] at htrue
  obtain ⟨j, hj, hheld⟩ := (Option.any_eq_true _ _).1 htrue
  obtain ⟨hw, hst⟩ := Job.heldBy_iff.1 hheld
  let s' := s.exec cfg (.updateHeartbeat id worker now)
  have hj' : s'.db.job id = some j := by
    simp only [s', Queue.exec, Database.job, (updateHeartbeat_snd id worker now s.db).1]
    exact hj
  have hbeat : s'.db.heartbeat id = (s.db.heartbeat id).map (Heartbeat.renewed now) := by
    simp only [s', Queue.exec, heartbeat_updateHeartbeat, ↓reduceIte]
    apply Option.map_congr
    intro b hb
    obtain ⟨k, hk, -, hbw⟩ := Queue.owned_of_run h id b hb
    obtain rfl := Option.some.inj (hj.symm.trans hk)
    have hbw' : b.workerId = worker := Option.some.inj (hbw.symm.trans hw)
    simp [hj, hheld, hbw']
  constructor
  · intro hp
    by_contra hcon
    obtain ⟨hnone, hlimit⟩ := not_or.1 hcon
    refine Queue.not_protected hj' hst ?_ (not_lt.1 hlimit) hp
    simpa [hbeat] using hnone
  · intro hor
    refine Queue.protected_of_fresh (j := j) ⟨hj', hst, ?_⟩ hw
    rcases hor with hsome | hneg
    · obtain ⟨b, hb⟩ := Option.isSome_iff_exists.1 hsome
      exact .inr ⟨b.renewed now, hbeat.trans (by rw [hb]; rfl), rfl⟩
    · exact .inl hneg

/-- After the heartbeat table was lost, a renewal that answers `True` does not keep a
reconciliation at the same time from taking the job. -/
theorem heartbeat_unprotected : ∃ s, Run (Queue.Step {}) .empty
      [Sample.enqueue, Sample.claim "w1" 0, .heartbeatsLost] s ∧
    (updateHeartbeat Sample.jobId "w1" second s.db).1 = true ∧
    ¬ (s.exec {} (.updateHeartbeat Sample.jobId "w1" second)).Protected {} Sample.jobId "w1"
      second := by
  let s' : Queue → Queue := fun s => s.exec {} (.updateHeartbeat Sample.jobId "w1" second)
  obtain ⟨s, hr, hp⟩ := Queue.exists_run {} .empty
    [Sample.enqueue, Sample.claim "w1" 0, .heartbeatsLost]
    (fun s => (updateHeartbeat Sample.jobId "w1" second s.db).1 = true ∧
      (((s' s).exec {} (.reconcileStaleJobs [] second)).db.job Sample.jobId).any
        (Job.heldBy "w1") = false) (by decide)
  simp only [decide_eq_true_eq] at hp
  refine ⟨s, hr, hp.1, fun hprot => ?_⟩
  have hheld := hprot [.reconcileStaleJobs [] second] _
    (.single ⟨Queue.step_exec trivial, le_rfl, by decide⟩)
  exact absurd (hheld.symm.trans hp.2) (by simp)

/-- The owner of a job that has its heartbeat row is protected. -/
theorem heartbeat_protects_claimed : ∃ s : Queue, (s.exec {} (.updateHeartbeat Sample.jobId "w1"
    second)).Protected {} Sample.jobId "w1" second := by
  obtain ⟨s, hr, hp⟩ := Queue.exists_run {} .empty [Sample.enqueue, Sample.claim "w1" 0]
    (fun s => (updateHeartbeat Sample.jobId "w1" second s.db).1 = true ∧
      (s.db.heartbeat Sample.jobId).isSome = true) (by decide)
  simp only [decide_eq_true_eq] at hp
  exact ⟨s, (heartbeat_protects_iff {} hr hp.1).2 (.inl hp.2)⟩

end Revix
