import Revix.QueueOwners
import Revix.WorkerClaims

/-! `set_check_run_id` names the job and not the claim, so that an earlier claim may overwrite the
check run of the current one. -/
namespace Revix
open KeyedTables LabelledRuns EffectPrograms

/-- A request that stores no check run, or stores it for the job with this id. -/
def Request.storesFor (id : Uuid) : Request → Bool
  | .setCheckRunId id' _ => id' = id
  | _ => true

def storeMonitor (id : Uuid) : Monitor Request (fun q => Except Raised q.Answer) Unit where
  allows _ q := q.storesFor id = true
  next m _ _ := m

section Process

variable {py : Python} {cfg : Settings} {job : Job}

theorem stores_ask {q : Request} (h : q.storesFor job.id = true) :
    (ask q).Quiet (storeMonitor job.id) () := Script.quiet_request h fun _ => rfl

theorem stores_of_calls {α : Type} {x : JobScript α}
    (hx : x.Calls fun q => q.storesFor job.id = true) : x.Quiet (storeMonitor job.id) () :=
  hx.quiet fun _ h => ⟨h, fun _ => rfl⟩

theorem stores_suppress {x : JobScript Unit} (hx : x.Quiet (storeMonitor job.id) ()) :
    (suppress x).Quiet (storeMonitor job.id) () :=
  quiet_tryExcept hx fun _ => Script.quiet_pure _

theorem stores_createCheckRun (token : String) :
    (createCheckRun job token).Quiet (storeMonitor job.id) () := by
  refine stores_suppress ((stores_ask rfl).bind fun checkRunId => ?_)
  exact (Script.quiet_modify _).bind fun _ => stores_ask (decide_eq_true rfl)

theorem stores_review (installationId : ℤ) :
    (review cfg job installationId).Quiet (storeMonitor job.id) () := by
  have hindex : ∀ prFiles, (indexFiles job prFiles).Quiet (storeMonitor job.id) () :=
    fun prFiles => stores_of_calls (calls_indexFiles (fun _ _ => rfl) (fun _ _ _ => rfl) prFiles)
  have hcomplete : ∀ result token,
      (completeCheckRun job result token).Quiet (storeMonitor job.id) () :=
    fun result token => stores_of_calls (calls_completeCheckRun (fun _ _ => rfl) result token)
  unfold review
  refine (stores_ask rfl).bind fun token => (Script.quiet_modify _).bind fun _ => ?_
  refine (stores_createCheckRun token).bind fun _ => ?_
  refine (stores_ask rfl).bind fun diff => (stores_ask rfl).bind fun prFiles => ?_
  refine (stores_ask rfl).bind fun prDetails => (hindex prFiles).bind fun _ => ?_
  refine (stores_ask rfl).bind fun result => (stores_ask rfl).bind fun _ => ?_
  exact (hcomplete result token).bind fun _ => stores_ask rfl

theorem stores_handleError (e : PyError) :
    (handleError py job e).Quiet (storeMonitor job.id) () := by
  have hdelay : (retryDelayFor py e job.attemptCount).Quiet (storeMonitor job.id) () :=
    stores_of_calls (calls_retryDelayFor (by rfl) e _)
  have hfail : (failCheckRun job e).Quiet (storeMonitor job.id) () :=
    stores_of_calls (calls_failCheckRun (fun _ _ => rfl) e)
  unfold handleError
  refine hdelay.bind fun delay => ?_
  split
  · exact stores_ask rfl
  · exact hfail.bind fun _ => stores_suppress (stores_ask rfl)

/-- A run of `process_job` stores a check run for its own job only. -/
theorem stores_processJob : (processJob py cfg job).Quiet (storeMonitor job.id) () := by
  unfold processJob
  split
  · exact stores_suppress (stores_ask rfl)
  · refine (stores_ask rfl).bind fun _ => ?_
    exact (quiet_tryExcept (stores_review _) stores_handleError).finallyDo (stores_ask rfl)

end Process

/-- A fleet, with the check run that each claim was the last to store. -/
structure CheckRunStore where
  fleet : Fleet
  stored : Uuid → ℕ → Option ℤ

/-- Only runs of `process_job` store check runs. -/
def FleetEvent.storesByTask : FleetEvent → Bool
  | .environment (.setCheckRunId _ _) => false
  | _ => true

namespace CheckRunStore

def empty : CheckRunStore := ⟨.empty, fun _ _ => none⟩

/-- The claim and the check run of the `set_check_run_id` that an event commits. -/
def storing (f : Fleet) : FleetEvent → Option (Uuid × ℕ × ℤ)
  | .answered n _ true _ =>
    match f.tasks[n]? with
    | some ⟨id, token, .ask (.setCheckRunId _ checkRunId) _⟩ => some (id, token, checkRunId)
    | _ => none
  | _ => none

def record (stored : Uuid → ℕ → Option ℤ) : Option (Uuid × ℕ × ℤ) → Uuid → ℕ → Option ℤ
  | none, i, t => stored i t
  | some (id, token, checkRunId), i, t =>
    if i = id ∧ t = token then some checkRunId else stored i t

section Steps

variable (py : Python) (cfg : Settings)

def next (s : CheckRunStore) (e : FleetEvent) : Option CheckRunStore :=
  if e.storesByTask then
    (s.fleet.next py cfg e).map fun f => ⟨f, record s.stored (storing s.fleet e)⟩
  else none

def Step (s : CheckRunStore) (e : FleetEvent) (t : CheckRunStore) : Prop :=
  s.next py cfg e = some t

end Steps

variable {py : Python} {cfg : Settings} {s t : CheckRunStore} {e : FleetEvent}

theorem step_fleet (h : Step py cfg s e t) : e.storesByTask = true ∧
    Fleet.Step py cfg s.fleet e t.fleet ∧ t.stored = record s.stored (storing s.fleet e) := by
  simp only [Step, next] at h
  split_ifs at h with he
  obtain ⟨f, hf, rfl⟩ := Option.map_eq_some_iff.1 h
  exact ⟨he, hf, rfl⟩

theorem storing_eq_some_iff {id : Uuid} {token : ℕ} {checkRunId : ℤ} {f : Fleet} :
    storing f e = some (id, token, checkRunId) ↔ ∃ n reply now id' resume,
      e = .answered n reply true now ∧
        f.tasks[n]? = some ⟨id, token, .ask (.setCheckRunId id' checkRunId) resume⟩ := by
  constructor
  · intro h
    unfold storing at h
    split at h
    · rename_i n reply now
      split at h
      · rename_i id' token' id'' checkRunId' resume htask
        cases h
        exact ⟨n, reply, now, id'', resume, rfl, htask⟩
      · cases h
    · cases h
  · rintro ⟨n, reply, now, id', resume, rfl, htask⟩
    simp [storing, htask]

/-- What every reachable state keeps: the tasks store for their own jobs, and a claim that has
stored a check run has been handed out. -/
structure Consistent (cfg : Settings) (s : CheckRunStore) : Prop where
  coupled : s.fleet.Coupled cfg
  own : ∀ task ∈ s.fleet.tasks, task.rest.Obeys (storeMonitor task.id) (fun _ _ => True) ()
  issued : ∀ id token checkRunId, s.stored id token = some checkRunId →
    token ∈ s.fleet.queue.tokens id

theorem consistent_empty : Consistent cfg empty :=
  ⟨Fleet.coupled_empty, nofun, nofun⟩

/-- A step that stores a check run is that transaction of the queue; any other is another one, or
none. -/
theorem queue_cases (h : s.Consistent cfg) (hs : Step py cfg s e t) :
    (∃ id token checkRunId, storing s.fleet e = some (id, token, checkRunId) ∧
      Queue.Step cfg s.fleet.queue (.setCheckRunId id checkRunId) t.fleet.queue) ∨
    (storing s.fleet e = none ∧ (t.fleet.queue = s.fleet.queue ∨
      ∃ e', (∀ id checkRunId, e' ≠ .setCheckRunId id checkRunId) ∧
        Queue.Step cfg s.fleet.queue e' t.fleet.queue)) := by
  obtain ⟨he, hf, -⟩ := step_fleet hs
  cases e with
  | environment e' =>
    obtain ⟨-, hq, -⟩ := Fleet.step_environment hf
    refine .inr ⟨rfl, .inr ⟨e', ?_, hq⟩⟩
    rintro id checkRunId rfl
    cases he
  | claimed worker scan now delivered =>
    obtain ⟨hq, -⟩ := Fleet.step_claimed hf
    exact .inr ⟨rfl, .inr ⟨_, by simp, hq⟩⟩
  | killed n =>
    obtain ⟨task, -, hqueue, -⟩ := Fleet.step_killed hf
    exact .inr ⟨rfl, .inl hqueue⟩
  | answered n reply committed now =>
    obtain ⟨id, token, q, resume, htask, -, hqueue⟩ := Fleet.step_answered hf
    cases hstoring : storing s.fleet (.answered n reply committed now) with
    | some x =>
      obtain ⟨id', token', checkRunId⟩ := x
      obtain ⟨n', reply', now', id'', resume', heq, htask'⟩ := storing_eq_some_iff.1 hstoring
      cases heq
      cases htask.symm.trans htask'
      have hown := h.own _ (List.mem_of_getElem? htask)
      have hid : id'' = id := of_decide_eq_true hown.1
      have hexec : t.fleet.queue = s.fleet.queue.exec cfg (.setCheckRunId id'' checkRunId) := by
        have hnext : s.fleet.next py cfg (.answered n reply true now) = some t.fleet := hf
        simp only [Fleet.next, htask, Request.transaction, Transaction.commits, ↓reduceIte,
          Option.some.injEq] at hnext
        rw [← hnext]
      exact .inl ⟨id, token, checkRunId, rfl,
        hid ▸ hexec ▸ Queue.step_exec (e := .setCheckRunId id'' checkRunId) trivial⟩
    | none =>
      rcases hqueue with hsame | ⟨e', he', hcommitted, hexec⟩
      · exact .inr ⟨rfl, .inl hsame⟩
      · refine .inr ⟨rfl, .inr ⟨e', ?_, ?_⟩⟩
        · rintro id' checkRunId rfl
          cases q with
          | setCheckRunId id'' checkRunId' =>
            subst hcommitted
            have hsome := storing_eq_some_iff.2 ⟨n, reply, now, id'', resume, rfl, htask⟩
            rw [hstoring] at hsome
            cases hsome
          | _ => cases he'
        · obtain ⟨hissued, m, hallow, -⟩ := h.coupled.bound _ (List.mem_of_getElem? htask)
          exact hexec ▸ Queue.step_exec (Fleet.permitted_request hissued hallow he')

theorem tokens_le (h : s.Consistent cfg) (hs : Step py cfg s e t) (id : Uuid) :
    s.fleet.queue.tokens id ⊆ t.fleet.queue.tokens id := by
  rcases queue_cases h hs with ⟨_, _, _, -, hq⟩ | ⟨-, hsame | ⟨_, -, hq⟩⟩
  · exact Queue.tokens_subset hq id
  · rw [hsame]
    exact List.Subset.refl _
  · exact Queue.tokens_subset hq id

theorem consistent_step (h : s.Consistent cfg) (hs : Step py cfg s e t) : t.Consistent cfg := by
  obtain ⟨-, hf, hstored⟩ := step_fleet hs
  refine ⟨Fleet.coupled_step h.coupled hf, fun task hmem => ?_, fun id token checkRunId hsome => ?_⟩
  · obtain ⟨n, hn⟩ := List.getElem?_of_mem hmem
    rcases Fleet.step_tasks hf hn with hsame | ⟨worker, _, now, c, -, -, -, rfl⟩ |
      ⟨id, token, q, resume, reply, _, _, -, htask, rfl⟩ | ⟨task₀, -, rfl⟩
    · exact h.own task (List.mem_of_getElem? hsame)
    · exact (stores_processJob {}).mono fun _ _ _ _ => trivial
    · exact (h.own _ (List.mem_of_getElem? htask)).2 (reply q)
    · trivial
  · rw [hstored] at hsome
    have hissued : ∀ c, s.stored id token = some c → token ∈ t.fleet.queue.tokens id :=
      fun c hc => tokens_le h hs id (h.issued id token c hc)
    cases hx : storing s.fleet e with
    | none =>
      rw [hx] at hsome
      exact hissued _ hsome
    | some x =>
      obtain ⟨id', token', c⟩ := x
      rw [hx] at hsome
      simp only [record] at hsome
      split_ifs at hsome with hkey
      · obtain ⟨rfl, rfl⟩ := hkey
        obtain ⟨n, reply, now, id'', resume, rfl, htask⟩ := storing_eq_some_iff.1 hx
        have hbound := h.coupled.bound _ (List.mem_of_getElem? htask)
        exact tokens_le h hs id hbound.1
      · exact hissued _ hsome

/-- While a job is being worked on and its claim has stored a check run, the job has that check
run, and `get_check_run_id` finds it. -/
def OwnersRun (s : CheckRunStore) : Prop :=
  ∀ id j, s.fleet.queue.db.job id = some j → j.status = .processing →
    ∀ checkRunId, s.stored id j.fenceToken = some checkRunId →
      j.githubCheckRunId = some checkRunId ∧ ∀ scan, getCheckRunId scan j.repoFullName j.prNumber
        j.commitSha s.fleet.queue.db = some checkRunId

/-- No earlier claim stores another check run for a job whose claim has stored one. -/
def StoredByOwner (s : CheckRunStore) (e : FleetEvent) : Prop :=
  ∀ id token checkRunId, storing s.fleet e = some (id, token, checkRunId) →
    ∀ j, s.fleet.queue.db.job id = some j → j.status = .processing → token ≠ j.fenceToken →
      ∀ checkRunId', s.stored id j.fenceToken = some checkRunId' → checkRunId' = checkRunId

/-- A job that is claimed has a token that nothing is stored for. -/
theorem stored_claimed (h : s.Consistent cfg) {id : Uuid} {j : Job} {now : Timestamp}
    (hj : s.fleet.queue.db.job id = some j) (hc : j.claimable now = true) :
    s.stored id j.fenceToken = none := by
  obtain ⟨es, hr⟩ := h.coupled.reachable
  apply Option.eq_none_iff_forall_ne_some.2
  intro checkRunId hsome
  have hengaged := (Queue.fenced_of_run hr id).engaged (j := j) hj (h.issued _ _ _ hsome)
  rw [(Job.claimable_iff.1 hc).1] at hengaged
  cases hengaged

theorem ownersRun_step (h : s.Consistent cfg) (ho : s.OwnersRun) (hs : Step py cfg s e t)
    (hstore : s.StoredByOwner e) : t.OwnersRun := by
  obtain ⟨-, -, hstored⟩ := step_fleet hs
  intro id j hj hp checkRunId hsome
  have hrun : j.githubCheckRunId = some checkRunId := by
    rw [hstored] at hsome
    have hjob : (t.fleet.queue.life id).job = some j := hj
    rcases queue_cases h hs with ⟨id', token, c, hx, hq⟩ | ⟨hx, hq⟩
    · -- a check run is stored
      rw [hx] at hsome
      have hlife := (Queue.life_step hq id).2
      simp only [Queue.localize] at hlife
      split_ifs at hlife with hid
      · subst hid
        rw [← hlife] at hjob
        obtain ⟨j₀, hj₀, rfl⟩ := Option.map_eq_some_iff.1 hjob
        simp only [record, true_and] at hsome
        split_ifs at hsome with hkey
        · exact hsome
        · have htoken : token ≠ j₀.fenceToken := fun heq => hkey heq.symm
          have hsame := hstore id token c hx j₀ hj₀ hp htoken checkRunId hsome
          rw [hsame]
          rfl
      · rw [← hlife] at hjob
        have hkey : ¬ (id = id' ∧ j.fenceToken = token) := fun hk => hid hk.1
        rw [record, if_neg hkey] at hsome
        exact (ho id j hjob hp checkRunId hsome).1
    · rw [hx] at hsome
      rcases hq with hsame | ⟨e', hne, hq⟩
      · rw [hsame] at hj
        exact (ho id j hj hp checkRunId hsome).1
      · rcases Life.processing_step (Queue.life_step hq id) hjob hp with
          ⟨worker, now, j₀, -, hj₀, hc, rfl⟩ | ⟨c, j₀, hlocal, -⟩ | ⟨hj₀, -⟩
        · have hnone : s.stored id j₀.fenceToken = none := stored_claimed h hj₀ hc
          cases hsome.symm.trans hnone
        · exact absurd (Queue.localize_checkRunSet hlocal) (hne id c)
        · exact (ho id j hj₀ hp checkRunId hsome).1
  exact ⟨hrun, fun scan => (getCheckRunId_job scan hj).trans hrun⟩

theorem ownersRun_step_iff (h : s.Consistent cfg) (ho : s.OwnersRun) (hs : Step py cfg s e t) :
    s.StoredByOwner e ↔ t.OwnersRun := by
  refine ⟨ownersRun_step h ho hs, fun hafter id token c hx j hj hp htoken c' hc' => ?_⟩
  obtain ⟨-, -, hstored⟩ := step_fleet hs
  rcases queue_cases h hs with ⟨id', token', c'', hx', hq⟩ | ⟨hnone, -⟩
  · cases hx.symm.trans hx'
    have hlife := (Queue.life_step hq id).2
    simp only [Queue.localize, ↓reduceIte] at hlife
    have hjob : t.fleet.queue.db.job id = some (j.checkRunSet c) := by
      have hj' : (t.fleet.queue.life id).job = (s.fleet.queue.db.job id).map (Job.checkRunSet c) := by
        rw [← hlife]
        rfl
      rw [hj] at hj'
      exact hj'
    have hkey : ¬ (id = id ∧ j.fenceToken = token) := fun hk => htoken hk.2.symm
    have hkept : t.stored id j.fenceToken = some c' := by
      rw [hstored, hx, record, if_neg hkey]
      exact hc'
    exact (Option.some.inj (hafter id (j.checkRunSet c) hjob hp c' hkept).1).symm
  · cases hx.symm.trans hnone

theorem exists_run (py : Python) (cfg : Settings) (s : CheckRunStore) (es : List FleetEvent)
    (p : CheckRunStore → Bool) (h : (replay (next py cfg) s es).any p = true) :
    ∃ t, Run (Step py cfg) s es t ∧ p t = true := exists_run_of_replay (next py cfg) h

end CheckRunStore

/-- In a run of a fleet the check run of a job being worked on is the one its claim stored, in
every state, exactly when no earlier claim stores another one after it. -/
theorem owners_run_iff (py : Python) (cfg : Settings) (es : List FleetEvent) (s : CheckRunStore) :
    Run (Guarded (CheckRunStore.Step py cfg) fun s e _ => s.StoredByOwner e) .empty es s ↔
      Run (Guarded (CheckRunStore.Step py cfg) fun _ _ t => t.OwnersRun) .empty es s := by
  refine Run.guarded_congr (I := fun s => s.Consistent cfg ∧ s.OwnersRun) ?_ ?_ ?_
  · exact fun s e t hI hs => CheckRunStore.ownersRun_step_iff hI.1 hI.2 hs
  · exact fun s e t hI hs hstore =>
      ⟨CheckRunStore.consistent_step hI.1 hs, CheckRunStore.ownersRun_step hI.1 hI.2 hs hstore⟩
  · exact ⟨CheckRunStore.consistent_empty, fun _ _ hj => nomatch hj⟩

namespace Sample

def successorReply : Reply
  | .createCheckRun _ _ _ => .ok 12
  | q => reply q

/-- A worker stalls after creating a check run. Another one claims the job and stores its own,
and then the first one goes on. -/
def stalledStore : List FleetEvent :=
  .environment enqueue :: .claimed "w1" .idle 0 true ::
    (List.replicate 3 (.answered 0 reply true second) ++
      .environment (.reconcileStaleJobs [] (100 * second)) ::
      .claimed "w2" .idle (300 * second) true ::
      List.replicate 4 (.answered 1 successorReply true (301 * second)) ++
      [.answered 0 reply true (302 * second)])

end Sample

/-- `get_check_run_id` answers with the check run of the worker that lost the job. -/
theorem superseded_run_stored : ∃ s j, Run (CheckRunStore.Step Sample.python {}) .empty
      Sample.stalledStore s ∧
    s.fleet.queue.db.job Sample.jobId = some j ∧ j.status = .processing ∧ j.fenceToken = 1 ∧
    s.stored Sample.jobId 1 = some 12 ∧ s.stored Sample.jobId 0 = some 11 ∧
    getCheckRunId .idle j.repoFullName j.prNumber j.commitSha s.fleet.queue.db = some 11 ∧
    ¬ s.OwnersRun := by
  obtain ⟨s, hr, hp⟩ := CheckRunStore.exists_run Sample.python {} .empty Sample.stalledStore
    (fun s => (s.fleet.queue.db.job Sample.jobId).map
        (fun j => (j.status, j.fenceToken, j.githubCheckRunId)) = some (.processing, 1, some 11) ∧
      s.stored Sample.jobId 1 = some 12 ∧ s.stored Sample.jobId 0 = some 11) (by decide)
  simp only [decide_eq_true_eq] at hp
  obtain ⟨hjob, howner, hsuperseded⟩ := hp
  obtain ⟨j, hj, hfields⟩ := Option.map_eq_some_iff.1 hjob
  simp only [Prod.mk.injEq] at hfields
  obtain ⟨hst, hfence, hrun⟩ := hfields
  refine ⟨s, j, hr, hj, hst, hfence, howner, hsuperseded, ?_, fun hall => ?_⟩
  · rw [getCheckRunId_job _ hj, hrun]
  · have h12 := (hall Sample.jobId j hj hst 12 (hfence ▸ howner)).1
    rw [hrun] at h12
    cases h12

end Revix
