import Revix.QueueRecords
import Revix.QueueStatements

/-! `enqueue_if_new`, statement by statement, looks like one transaction: a call that finds a
record or a job takes effect with its `SELECT`, and one that adds a job when it commits. -/
namespace Revix
open KeyedTables LabelledRuns AtomicObjects

/-! ## Calls that hold something -/

section Holders

variable {α γ : Type} {key : α → Option γ} {l : List α} {k : ℕ} {o o' : α}

/-- No two calls hold the same. -/
def Apart (key : α → Option γ) (l : List α) : Prop :=
  ∀ (i j : ℕ) (a b : α) (x : γ), l[i]? = some a → l[j]? = some b → key a = some x →
    key b = some x → i = j

theorem getElem?_set_eq (ho : l[k]? = some o) (i : ℕ) :
    (l.set k o')[i]? = if i = k then some o' else l[i]? := by
  have hk : k < l.length := (List.getElem?_eq_some_iff.1 ho).1
  rw [List.getElem?_set]
  by_cases hi : k = i
  · rw [if_pos hi, if_pos hk, if_pos hi.symm]
  · rw [if_neg hi, if_neg (Ne.symm hi)]

/-- A call keeps what it holds, or takes what nobody holds. -/
theorem Apart.set (h : Apart key l) (ho : l[k]? = some o)
    (hkey : ∀ x, key o' = some x → key o = some x ∨ ∀ b ∈ l, key b ≠ some x) :
    Apart key (l.set k o') := by
  have hother : ∀ (j : ℕ) (b : α) (x : γ), j ≠ k → l[j]? = some b → key b = some x →
      key o' ≠ some x := by
    intro j b x hj hb hbx hx
    rcases hkey x hx with hold | hfresh
    · exact hj (h j k b o x hb ho hbx hold)
    · exact hfresh b (List.mem_of_getElem? hb) hbx
  intro i j a b x ha hb hax hbx
  rw [getElem?_set_eq ho] at ha hb
  split_ifs at ha hb with hi hj hj
  · rw [hi, hj]
  · cases ha
    exact absurd hax (hother j b x hj hb hbx)
  · cases hb
    exact absurd hbx (hother i a x hi ha hax)
  · exact h i j a b x ha hb hax hbx

theorem Apart.append (h : Apart key l) (ho : key o = none) : Apart key (l ++ [o]) := by
  have hold : ∀ (i : ℕ) (a : α) (x : γ), (l ++ [o])[i]? = some a → key a = some x →
      l[i]? = some a := by
    intro i a x ha hax
    rw [List.getElem?_append] at ha
    split_ifs at ha with hi
    · exact ha
    · cases List.mem_singleton.1 (List.mem_of_getElem? ha)
      cases ho.symm.trans hax
  intro i j a b x ha hb hax hbx
  exact h i j a b x (hold i a x ha hax) (hold j b x hb hbx) hax hbx

end Holders

/-! ## What the transactions of others leave alone -/

theorem find_update_isSome {α : Type} [Keyed α] (t : Table α) (hit : α → Bool) {f : α → α}
    (hf : KeepsKeys f) (c : Column α) (v : Value c) :
    ((t.update hit f hf).find c v).isSome = (t.find c v).isSome := by
  rw [Table.find_update, Option.isSome_map]

/-- Only `enqueue_if_new` adds jobs, and nothing removes any. -/
theorem find_jobs_exec (cfg : Settings) (s : Queue) {e : Transaction} (he : e.enqueues = false)
    (c : Column Job) (v : Value c) :
    ((s.exec cfg e).db.jobs.find c v).isSome = (s.db.jobs.find c v).isSome := by
  cases e with
  | enqueueIfNew sha repo pullNumber installationId traceContext id now => cases he
  | claimJob worker scan now =>
    simp only [Queue.exec, claimJob]
    split
    · rfl
    · exact find_update_isSome _ _ (Job.keeps_claimed worker now) _ _
  | updateHeartbeat id worker now =>
    simp only [Queue.exec, (updateHeartbeat_snd id worker now s.db).1]
  | setCheckRunId id checkRunId =>
    exact find_update_isSome _ _ (Job.keeps_checkRunSet checkRunId) _ _
  | finalizeJob id token verdict aiFeedback now =>
    simp only [Queue.exec, finalizeJob]
    split
    · rename_i h
      split at h
      · cases h
      · cases h
        exact find_update_isSome _ _ (Job.keeps_finalized _ _ _) _ _
    · rfl
  | releaseJob id token delaySeconds now =>
    exact find_update_isSome _ _ (Job.keeps_released delaySeconds now) _ _
  | reconcileStaleJobs locked now =>
    exact (find_update_isSome _ _ Job.keeps_timedOut _ _).trans
      (find_update_isSome _ _ (Job.keeps_reclaimed cfg now) _ _)
  | heartbeatsLost => rfl

/-! ## The calls and the atomic object -/

abbrev EnqueueObject : Type := Atomic Queue ℕ EnqueueCall (Except DbError Bool)

/-- What a call of `enqueue_if_new` is to the atomic object. -/
def CallMatches (db : Database) :
    Option OpenEnqueue → Option (Call EnqueueCall (Except DbError Bool)) → Prop
  | none, x => x = none
  | some ⟨call, .begun⟩, x => x = some (.pending call)
  | some ⟨call, .locked⟩, x => x = some (.pending call)
  | some ⟨call, .checked⟩, x => (x = some (.pending call) ∧ db.jobOfSha call.sha = none) ∨
      (x = some (.decided (.ok true)) ∧ (db.jobOfSha call.sha).isSome)
  | some ⟨_, .ending answer none⟩, x => x = some (.decided answer)
  | some ⟨call, .ending answer (some row)⟩, x => x = some (.pending call) ∧ answer = .ok true ∧
      row = call.row ∧ db.jobOfSha call.sha = none ∧ db.job call.id = none
  | some ⟨_, .closed⟩, x => x = none

/-- A call does not notice a change of the queue that leaves what it looks for. -/
theorem CallMatches.mono {db db' : Database} {o : OpenEnqueue}
    {x : Option (Call EnqueueCall (Except DbError Bool))} (h : CallMatches db (some o) x)
    (hsha : o.stage.holdsLock = true →
      (db'.jobOfSha o.call.sha).isSome = (db.jobOfSha o.call.sha).isSome)
    (hid : o.rowId = some o.call.id → db.job o.call.id = none → db'.job o.call.id = none) :
    CallMatches db' (some o) x := by
  obtain ⟨call, stage⟩ := o
  cases stage with
  | begun => exact h
  | locked => exact h
  | checked =>
    have hsame := hsha rfl
    refine h.imp (fun ⟨hx, hnone⟩ => ⟨hx, ?_⟩) fun ⟨hx, hsome⟩ => ⟨hx, hsame ▸ hsome⟩
    exact Option.isNone_iff_eq_none.1 (by simpa [hnone] using hsame)
  | ending answer row =>
    cases row with
    | none => exact h
    | some row =>
      obtain ⟨hx, hanswer, rfl, hnone, hfree⟩ := h
      refine ⟨hx, hanswer, rfl, ?_, hid rfl hfree⟩
      have hsame := hsha rfl
      exact Option.isNone_iff_eq_none.1 (by simpa [hnone] using hsame)
  | closed => exact h

structure Coupled (cfg : Settings) (lockId : String → ℤ) (s : StatementQueue) (a : EnqueueObject) :
    Prop where
  state : a.state = s.queue
  reachable : Reachable (Queue.Step cfg) Queue.empty s.queue
  calls : ∀ k, CallMatches s.queue.db s.enqueues[k]? (a.calls k)
  locks : Apart (OpenEnqueue.lock lockId) s.enqueues
  rows : Apart OpenEnqueue.rowId s.enqueues

section Steps

variable {cfg : Settings} {lockId : String → ℤ} {md5 : String → List UInt8}
  {s s' : StatementQueue} {a : EnqueueObject}

theorem Coupled.record_none (h : Coupled cfg lockId s a) {sha : String}
    (hsha : s.queue.db.jobOfSha sha = none) : s.queue.db.record sha = none := by
  obtain ⟨es, hrun⟩ := h.reachable
  cases hr : s.queue.db.record sha with
  | none => rfl
  | some r =>
    obtain ⟨i, j, hj, hcommit⟩ := Queue.recordsOwned_of_run hrun sha r hr
    have hfound := Database.jobOfSha_eq_some_iff.2 ⟨(Database.job_eq_some_iff.1 hj).1, hcommit⟩
    cases hsha.symm.trans hfound

/-- A call goes on to a stage at which it matches `x`. -/
theorem Coupled.advance (h : Coupled cfg lockId s a) {k : ℕ} {call : EnqueueCall}
    {stage stage' : EnqueueStage} (ho : s.enqueues[k]? = some ⟨call, stage⟩)
    {x : Option (Call EnqueueCall (Except DbError Bool))}
    (hx : CallMatches s.queue.db (some ⟨call, stage'⟩) x)
    (hlock : stage'.holdsLock = true → stage.holdsLock = true ∨
      ∀ o ∈ s.enqueues, o.lock lockId ≠ some (lockId call.sha))
    (hrow : ∀ id, (OpenEnqueue.mk call stage').rowId = some id →
      (OpenEnqueue.mk call stage).rowId = some id ∨ ∀ o ∈ s.enqueues, o.rowId ≠ some id) :
    Coupled cfg lockId (s.setStage k call stage') (a.setCall k x) where
  state := h.state
  reachable := h.reachable
  calls k' := by
    simp only [StatementQueue.setStage, getElem?_set_eq ho]
    split_ifs with hk
    · rw [hk, Atomic.setCall_self]
      exact hx
    · rw [Atomic.setCall_of_ne a hk]
      exact h.calls k'
  locks := by
    refine h.locks.set ho fun x hlocked => ?_
    unfold OpenEnqueue.lock at hlocked
    split_ifs at hlocked with hholds
    cases hlocked
    refine (hlock hholds).imp_left fun hold => ?_
    exact if_pos hold
  rows := h.rows.set ho hrow

/-- The queue changes in a way that no open call notices. -/
theorem Coupled.setQueue (h : Coupled cfg lockId s a) {q : Queue}
    (hq : Reachable (Queue.Step cfg) Queue.empty q)
    (hsha : ∀ o ∈ s.enqueues, o.stage.holdsLock = true →
      (q.db.jobOfSha o.call.sha).isSome = (s.queue.db.jobOfSha o.call.sha).isSome)
    (hid : ∀ o ∈ s.enqueues, o.rowId = some o.call.id → s.queue.db.job o.call.id = none →
      q.db.job o.call.id = none) :
    Coupled cfg lockId { s with queue := q } { a with state := q } where
  state := rfl
  reachable := hq
  calls k := by
    have hcall := h.calls k
    cases ho : s.enqueues[k]? with
    | none =>
      rw [ho] at hcall
      exact hcall
    | some o =>
      rw [ho] at hcall
      have hmem := List.mem_of_getElem? ho
      exact hcall.mono (hsha o hmem) (hid o hmem)
  locks := h.locks
  rows := h.rows

def OtherStep (cfg : Settings) (s : Queue) (e : Transaction) (t : Queue) : Prop :=
  e.enqueues = false ∧ Queue.Step cfg s e t

/-- The atomic object goes on to match `s'`, and shows what is to be shown. -/
def Follows (cfg : Settings) (lockId : String → ℤ) (a : EnqueueObject)
    (shown : Option (Visible ℕ EnqueueCall (Except DbError Bool) Transaction))
    (s' : StatementQueue) : Prop :=
  ∃ ds a', Run (Atomic.Step (EnqueueCall.effect cfg) (OtherStep cfg)) a ds a' ∧
    ds.filterMap id = shown.toList ∧ Coupled cfg lockId s' a'

theorem EnqueueCall.step_of_effect {q t : Queue} {call : EnqueueCall} {answer : Except DbError Bool}
    (h : call.effect cfg q answer t) : Queue.Step cfg q call.transaction t := by
  rw [h.1]
  exact Queue.step_exec trivial

theorem EnqueueCall.effect_of_ok {q : Queue} {call : EnqueueCall} {b : Bool} {db : Database}
    (h : enqueueIfNew call.sha call.repo call.pullNumber call.installationId call.traceContext
      call.id call.now q.db = .ok (b, db)) : call.effect cfg q (.ok b) { q with db := db } :=
  ⟨by simp only [transaction, Queue.exec, h], by rw [h]; rfl⟩

theorem EnqueueCall.effect_of_error {q : Queue} {call : EnqueueCall} {e : DbError}
    (h : enqueueIfNew call.sha call.repo call.pullNumber call.installationId call.traceContext
      call.id call.now q.db = .error e) : call.effect cfg q (.error e) q :=
  ⟨by simp only [transaction, Queue.exec, h], by rw [h]; rfl⟩

/-- A row that is committed is the one that `enqueue_if_new` would insert as one transaction. -/
theorem EnqueueCall.effect_commit {q t : Queue} {call : EnqueueCall}
    (hr : q.db.record call.sha = none) (h : q.commit (some call.row) = some t) :
    call.effect cfg q (.ok true) t := by
  simp only [Queue.commit] at h
  split_ifs at h with hfree
  cases h
  obtain ⟨hid, hsha⟩ : q.db.job call.id = none ∧ q.db.jobOfSha call.sha = none := hfree
  refine effect_of_ok ?_
  unfold enqueueIfNew
  rw [if_neg (by simp [hr]), dif_pos hsha, dif_pos hid]
  rfl

/-! ## The events -/

theorem Coupled.free (h : Coupled cfg lockId s a) {k : ℕ} (hk : s.enqueues[k]? = none) :
    a.calls k = none := by
  have hcall := h.calls k
  rw [hk] at hcall
  exact hcall

theorem Coupled.call (h : Coupled cfg lockId s a) {k : ℕ} {o : OpenEnqueue}
    (ho : s.enqueues[k]? = some o) : CallMatches s.queue.db (some o) (a.calls k) :=
  ho ▸ h.calls k

theorem follows_begun (h : Coupled cfg lockId s a) (call : EnqueueCall) :
    Follows cfg lockId a (some (.invoked s.enqueues.length call))
      { s with enqueues := s.enqueues ++ [⟨call, .begun⟩] } := by
  have hfree : a.calls s.enqueues.length = none :=
    h.free (List.getElem?_eq_none (Nat.le_refl _))
  refine ⟨_, _, .single (.invoke call hfree), rfl, ?_⟩
  exact
    { state := h.state
      reachable := h.reachable
      calls k := by
        rcases Nat.lt_trichotomy k s.enqueues.length with hk | rfl | hk
        · rw [Atomic.setCall_of_ne a (Nat.ne_of_lt hk), List.getElem?_append_left hk]
          exact h.calls k
        · rw [Atomic.setCall_self, List.getElem?_concat_length]
          rfl
        · rw [Atomic.setCall_of_ne a (Nat.ne_of_gt hk), List.getElem?_eq_none (by simp; omega)]
          exact h.free (List.getElem?_eq_none (Nat.le_of_lt hk))
      locks := h.locks.append rfl
      rows := h.rows.append rfl }

/-- A call goes on without an effect. -/
theorem Coupled.goesOn (h : Coupled cfg lockId s a) {k : ℕ} {call : EnqueueCall}
    {stage stage' : EnqueueStage} (ho : s.enqueues[k]? = some ⟨call, stage⟩)
    (hx : CallMatches s.queue.db (some ⟨call, stage'⟩) (a.calls k))
    (hlock : stage'.holdsLock = true → stage.holdsLock = true ∨
      ∀ o ∈ s.enqueues, o.lock lockId ≠ some (lockId call.sha))
    (hrow : ∀ id, (OpenEnqueue.mk call stage').rowId = some id →
      (OpenEnqueue.mk call stage).rowId = some id ∨ ∀ o ∈ s.enqueues, o.rowId ≠ some id) :
    Follows cfg lockId a none (s.setStage k call stage') := by
  refine ⟨[], a, .nil a, rfl, ?_⟩
  have hadvance := h.advance ho hx hlock hrow
  rwa [Atomic.setCall_same] at hadvance

/-- A call takes effect without changing the queue. -/
theorem Coupled.decides (h : Coupled cfg lockId s a) {k : ℕ} {call : EnqueueCall}
    {stage stage' : EnqueueStage} (ho : s.enqueues[k]? = some ⟨call, stage⟩)
    (hpending : a.calls k = some (.pending call)) {answer : Except DbError Bool}
    (heffect : call.effect cfg s.queue answer s.queue)
    (hx : CallMatches s.queue.db (some ⟨call, stage'⟩) (some (.decided answer)))
    (hlock : stage.holdsLock = true) (hrow : (OpenEnqueue.mk call stage').rowId = none) :
    Follows cfg lockId a none (s.setStage k call stage') := by
  have hadvance := h.advance ho hx (fun _ => .inl hlock) fun id hid => by cases hrow.symm.trans hid
  have heffect' : call.effect cfg a.state answer a.state := by
    rw [h.state]
    exact heffect
  exact ⟨[none], _, .single (.takeEffect hpending heffect'), rfl, hadvance⟩

theorem follows_locked (h : Coupled cfg lockId s a) {k : ℕ} {call : EnqueueCall}
    (ho : s.enqueues[k]? = some ⟨call, .begun⟩)
    (hfree : ∀ o ∈ s.enqueues, o.lock lockId ≠ some (lockId call.sha)) :
    Follows cfg lockId a none (s.setStage k call .locked) := by
  have hpending : a.calls k = some (.pending call) := h.call ho
  exact h.goesOn ho hpending (fun _ => .inr hfree) nofun

theorem follows_selected (h : Coupled cfg lockId s a) {k : ℕ} {call : EnqueueCall}
    (ho : s.enqueues[k]? = some ⟨call, .locked⟩) :
    Follows cfg lockId a none (s.setStage k call
      (if (s.queue.db.record call.sha).isSome then .ending (.ok false) none else .checked)) := by
  have hpending : a.calls k = some (.pending call) := h.call ho
  cases hr : s.queue.db.record call.sha with
  | some r =>
    exact h.decides ho hpending (EnqueueCall.effect_of_ok (enqueueIfNew_recorded hr)) rfl rfl rfl
  | none =>
    cases hj : s.queue.db.jobOfSha call.sha with
    | none => exact h.goesOn ho (.inl ⟨hpending, hj⟩) (fun _ => .inl rfl) nofun
    | some j =>
      -- the job stays, and so the `INSERT` will do nothing
      exact h.decides ho hpending
        (EnqueueCall.effect_of_ok (enqueueIfNew_conflict _ _ _ _ _ _ hr hj))
        (.inr ⟨rfl, by rw [hj]; rfl⟩) rfl rfl

theorem follows_inserted (h : Coupled cfg lockId s a) {k : ℕ} {call : EnqueueCall}
    (ho : s.enqueues[k]? = some ⟨call, .checked⟩) (hinsert : s.insertRow k call = some s') :
    Follows cfg lockId a none s' := by
  unfold StatementQueue.insertRow at hinsert
  have hcall := h.call ho
  split_ifs at hinsert with hsha hclash hid
  · cases hinsert
    rcases hcall with ⟨-, hnone⟩ | ⟨hdecided, -⟩
    · rw [hnone] at hsha
      cases hsha
    · exact h.goesOn ho hdecided (fun _ => .inl rfl) nofun
  · cases hinsert
    rcases hcall with ⟨hpending, hnone⟩ | ⟨-, hsome⟩
    · obtain ⟨j, hj⟩ := Option.isSome_iff_exists.1 hid
      exact h.decides ho hpending
        (EnqueueCall.effect_of_error (enqueueIfNew_collision (h.record_none hnone) hnone hj))
        rfl rfl rfl
    · exact absurd hsome hsha
  · cases hinsert
    rcases hcall with ⟨hpending, hnone⟩ | ⟨-, hsome⟩
    · refine h.goesOn ho ⟨hpending, rfl, rfl, hnone, by simpa using hid⟩ (fun _ => .inl rfl)
        fun id hnew => .inr fun o hmem hold => hclash ?_
      cases hnew
      obtain ⟨row, hrow, hid⟩ := Option.map_eq_some_iff.1 hold
      refine List.any_eq_true.2 ⟨o, hmem, ?_⟩
      rw [hrow, Option.any_some, hid]
      simp [EnqueueCall.row, Job.enqueued]
    · exact absurd hsome hsha

theorem find_commit {q t : Queue} {row : Job} (h : q.commit (some row) = some t) :
    (∀ id, t.db.job id = if row.id = id then some row else q.db.job id) ∧
      ∀ sha, t.db.jobOfSha sha = if row.commitSha = sha then some row else q.db.jobOfSha sha := by
  simp only [Queue.commit] at h
  split_ifs at h with hfree
  cases h
  have hkeys : ∀ c, q.db.jobs.find c (value c row) = none := by
    rintro (_ | _)
    exacts [hfree.1, hfree.2]
  exact ⟨fun id => Table.find_insert q.db.jobs row hkeys JobColumn.id id,
    fun sha => Table.find_insert q.db.jobs row hkeys JobColumn.commitSha sha⟩

/-- When a transaction commits, its call has taken effect or takes effect now. -/
theorem Coupled.commits (h : Coupled cfg lockId s a) {k : ℕ} {call : EnqueueCall}
    {answer : Except DbError Bool} {row : Option Job}
    (ho : s.enqueues[k]? = some ⟨call, .ending answer row⟩)
    (hclose : s.close k call row = some s') :
    ∃ ds b, Run (Atomic.Step (EnqueueCall.effect cfg) (OtherStep cfg)) a ds b ∧
      ds.filterMap id = [] ∧ b.calls k = some (.decided answer) ∧
      Coupled cfg lockId s' (b.setCall k none) := by
  obtain ⟨q, hcommit, rfl⟩ := Option.map_eq_some_iff.1 hclose
  have hclosed : Coupled cfg lockId (s.setStage k call .closed) (a.setCall k none) :=
    h.advance ho rfl nofun nofun
  have hcall := h.call ho
  cases row with
  | none =>
    cases hcommit
    exact ⟨[], a, .nil a, rfl, hcall, hclosed⟩
  | some row =>
    obtain ⟨hpending, rfl, rfl, hnone, hfree⟩ := hcall
    have heffect : call.effect cfg a.state (.ok true) q := by
      rw [h.state]
      exact EnqueueCall.effect_commit (h.record_none hnone) hcommit
    refine ⟨[none], _, .single (.takeEffect hpending heffect), rfl, Atomic.setCall_self .., ?_⟩
    rw [Atomic.setCall_again]
    obtain ⟨hjob, hsha⟩ := find_commit hcommit
    have hreach : Reachable (Queue.Step cfg) Queue.empty q :=
      h.reachable.next (EnqueueCall.step_of_effect (h.state ▸ heffect))
    -- the others hold other locks and have inserted rows with other ids
    refine hclosed.setQueue hreach (fun o ho' hholds => ?_) fun o ho' hrow hid => ?_
    all_goals
      obtain ⟨k', hk'⟩ := List.mem_iff_getElem?.1 ho'
      simp only [StatementQueue.setStage, getElem?_set_eq ho] at hk'
      split_ifs at hk' with hkk
      · cases hk'
        first | cases hholds | cases hrow
    · rw [hsha, if_neg]
      · rfl
      · intro hsame
        refine hkk (h.locks k' k o _ (lockId call.sha) hk' ho ?_ (if_pos rfl))
        rw [OpenEnqueue.lock, if_pos hholds, ← hsame]
        rfl
    · rw [hjob, if_neg]
      · exact hid
      · exact fun hsame => hkk (h.rows k' k o _ o.call.id hk' ho hrow (congrArg some hsame))

theorem follows_ended (h : Coupled cfg lockId s a) {k : ℕ} {call : EnqueueCall}
    {answer : Except DbError Bool} {row : Option Job}
    (ho : s.enqueues[k]? = some ⟨call, .ending answer row⟩)
    (hclose : s.close k call row = some s') :
    Follows cfg lockId a (some (.responded k answer)) s' := by
  obtain ⟨ds, b, hrun, hsilent, hdecided, hcoupled⟩ := h.commits ho hclose
  refine ⟨ds ++ [_], _, hrun.append (.single (.respond hdecided)), ?_, hcoupled⟩
  rw [List.filterMap_append, hsilent]
  rfl

theorem follows_unheard (h : Coupled cfg lockId s a) {k : ℕ} {call : EnqueueCall}
    {answer : Except DbError Bool} {row : Option Job}
    (ho : s.enqueues[k]? = some ⟨call, .ending answer row⟩)
    (hclose : s.close k call row = some s') : Follows cfg lockId a (some (.lost k)) s' := by
  obtain ⟨ds, b, hrun, hsilent, hdecided, hcoupled⟩ := h.commits ho hclose
  refine ⟨ds ++ [_], _, hrun.append (.single (.lose hdecided)), ?_, hcoupled⟩
  rw [List.filterMap_append, hsilent]
  rfl

theorem follows_aborted (h : Coupled cfg lockId s a) {k : ℕ} {call : EnqueueCall}
    {stage : EnqueueStage} (ho : s.enqueues[k]? = some ⟨call, stage⟩) (hopen : stage ≠ .closed) :
    Follows cfg lockId a (some (.lost k)) (s.setStage k call .closed) := by
  have hclosed : Coupled cfg lockId (s.setStage k call .closed) (a.setCall k none) :=
    h.advance ho rfl nofun nofun
  obtain ⟨x, hx⟩ : ∃ x, a.calls k = some x := by
    have hcall := h.call ho
    cases stage with
    | begun => exact ⟨_, hcall⟩
    | locked => exact ⟨_, hcall⟩
    | checked => exact hcall.elim (fun hp => ⟨_, hp.1⟩) fun hd => ⟨_, hd.1⟩
    | ending answer row =>
      cases row with
      | none => exact ⟨_, hcall⟩
      | some row => exact ⟨_, hcall.1⟩
    | closed => exact absurd rfl hopen
  exact ⟨_, _, .single (.lose hx), rfl, hclosed⟩

theorem follows_other (h : Coupled cfg lockId s a) {e : Transaction} (he : e.enqueues = false)
    {q : Queue} (hq : Queue.Step cfg s.queue e q) :
    Follows cfg lockId a (some (.other e)) { s with queue := q } := by
  have hjobs : ∀ (c : Column Job) (v : Value c),
      (q.db.jobs.find c v).isSome = (s.queue.db.jobs.find c v).isSome := by
    obtain ⟨-, rfl⟩ := Queue.step_iff.1 hq
    exact find_jobs_exec cfg s.queue he
  have hstep : OtherStep cfg a.state e q := ⟨he, by rw [h.state]; exact hq⟩
  refine ⟨_, _, .single (.other hstep), rfl, h.setQueue (h.reachable.next hq)
    (fun o _ _ => hjobs JobColumn.commitSha o.call.sha) fun o _ _ hid => ?_⟩
  have hnone := hjobs JobColumn.id o.call.id
  rw [show s.queue.db.jobs.find JobColumn.id o.call.id = none from hid] at hnone
  exact Option.not_isSome_iff_eq_none.1 (Bool.eq_false_iff.1 hnone)

/-- The `UPDATE` of a heartbeat renews what it would renew together with the `SELECT`. -/
theorem renew_eq (hreach : Reachable (Queue.Step cfg) Queue.empty s.queue) (beat : Beat) :
    (s.renew beat).queue = s.queue.exec cfg (.updateHeartbeat beat.id beat.worker beat.now) := by
  have hfind : (s.queue.db.jobs.rows.find? fun j =>
      j.id = beat.id && j.workerId = some beat.worker) = _ := find_owned
  simp only [StatementQueue.renew, Queue.exec]
  by_cases hheld : (s.queue.db.job beat.id).any (Job.heldBy beat.worker) = true
  · obtain ⟨j, hj⟩ : ∃ j, s.queue.db.job beat.id = some j := by
      refine Option.ne_none_iff_exists'.1 fun hnone => ?_
      rw [hnone] at hheld
      cases hheld
    rw [hj, Option.any_some] at hheld
    obtain ⟨hworker, hprocessing⟩ := Job.heldBy_iff.1 hheld
    have hfound : (s.queue.db.job beat.id).filter (fun j => j.workerId = some beat.worker) =
        some j := by
      rw [hj]
      exact Option.filter_some_pos (by simpa using hworker)
    simp only [updateHeartbeat, hfind, hfound, hprocessing, ne_eq, not_true_eq_false, if_false]
  · rw [updateHeartbeat_of_not_held (Bool.eq_false_iff.2 hheld)]
    -- a heartbeat of this worker would be of a job that the worker holds
    have hnone : ∀ b ∈ s.queue.db.workerHeartbeats.rows,
        (b.jobId = beat.id && b.workerId = beat.worker) = false := by
      intro b hb
      refine Bool.eq_false_iff.2 fun hhit => hheld ?_
      obtain ⟨hid, hworker⟩ : b.jobId = beat.id ∧ b.workerId = beat.worker := by simpa using hhit
      obtain ⟨es, hrun⟩ := hreach
      obtain ⟨j, hj, hprocessing, howner⟩ := Queue.owned_of_run hrun beat.id b
        (Database.heartbeat_eq_some_iff.2 ⟨hb, hid⟩)
      rw [show s.queue.db.job beat.id = some j from hj, Option.any_some]
      exact Job.heldBy_iff.2 ⟨hworker ▸ howner, hprocessing⟩
    rw [Table.update_eq_self _ _ _ _ hnone]

theorem follows_renewed (h : Coupled cfg lockId s a) (beat : Beat) :
    Follows cfg lockId a (some (.other (.updateHeartbeat beat.id beat.worker beat.now)))
      (s.renew beat) := by
  have hq : Queue.Step cfg s.queue (.updateHeartbeat beat.id beat.worker beat.now)
      (s.renew beat).queue := by
    rw [renew_eq h.reachable]
    exact Queue.step_exec trivial
  obtain ⟨ds, b, hrun, hshown, hcoupled⟩ := follows_other h rfl hq
  exact ⟨ds, b, hrun, hshown, ⟨hcoupled.state, hcoupled.reachable, hcoupled.calls, hcoupled.locks,
    hcoupled.rows⟩⟩

/-- Every event is what happens to the atomic object, and shows the same. -/
theorem follows_step (h : Coupled cfg lockId s a) {e : StatementEvent}
    (hstep : StatementQueue.Step cfg lockId s e s') : Follows cfg lockId a e.shows s' := by
  unfold StatementQueue.Step at hstep
  cases e with
  | begun k call =>
    simp only [StatementQueue.next] at hstep
    split_ifs at hstep with hk
    cases hstep
    rw [hk]
    exact follows_begun h call
  | locked k =>
    simp only [StatementQueue.next] at hstep
    split at hstep
    · rename_i call ho
      split_ifs at hstep with hheld
      cases hstep
      refine follows_locked h ho fun o hmem hlock => hheld ?_
      exact List.any_eq_true.2 ⟨o, hmem, decide_eq_true hlock⟩
    · cases hstep
  | selected k =>
    simp only [StatementQueue.next] at hstep
    split at hstep
    · rename_i call ho
      cases hstep
      exact follows_selected h ho
    · cases hstep
  | inserted k =>
    simp only [StatementQueue.next] at hstep
    split at hstep
    · rename_i call ho
      exact follows_inserted h ho hstep
    · cases hstep
  | ended k answer =>
    simp only [StatementQueue.next] at hstep
    split at hstep
    · rename_i call answer' row ho
      split_ifs at hstep with hanswer
      rw [hanswer]
      exact follows_ended h ho hstep
    · cases hstep
  | unheard k =>
    simp only [StatementQueue.next] at hstep
    split at hstep
    · rename_i call answer row ho
      exact follows_unheard h ho hstep
    · cases hstep
  | aborted k =>
    simp only [StatementQueue.next] at hstep
    split at hstep
    · cases hstep
    · rename_i call stage hopen ho
      cases hstep
      exact follows_aborted h ho hopen
    · cases hstep
  | beatSelected beat =>
    simp only [StatementQueue.next] at hstep
    split_ifs at hstep
    cases hstep
    exact ⟨[], a, .nil a, rfl, ⟨h.state, h.reachable, h.calls, h.locks, h.rows⟩⟩
  | beatUpdated beat =>
    simp only [StatementQueue.next] at hstep
    split_ifs at hstep
    cases hstep
    exact follows_renewed h beat
  | other e =>
    simp only [StatementQueue.next] at hstep
    split_ifs at hstep with he
    obtain ⟨q, hq, rfl⟩ := Option.map_eq_some_iff.1 hstep
    exact follows_other h (Bool.eq_false_iff.2 he) hq

theorem coupled_start : Coupled cfg lockId .start ⟨Queue.empty, fun _ => none⟩ where
  state := rfl
  reachable := .refl _
  calls _ := rfl
  locks _ _ _ _ _ ha := absurd ha (by simp [StatementQueue.start])
  rows _ _ _ _ _ ha := absurd ha (by simp [StatementQueue.start])

theorem exists_coupled {es : List StatementEvent}
    (h : Run (StatementQueue.Step cfg lockId) .start es s) : ∃ ds a,
    Run (Atomic.Step (EnqueueCall.effect cfg) (OtherStep cfg)) ⟨Queue.empty, fun _ => none⟩ ds a ∧
      ds.filterMap id = es.filterMap StatementEvent.shows ∧ Coupled cfg lockId s a :=
  exists_traced (R := Coupled cfg lockId)
    (fun _ _ _ _ hcoupled hstep => follows_step hcoupled hstep) h coupled_start

/-- However the statements interleave, callers of `enqueue_if_new` see answers that it could give as
one transaction, which comes between the start of the call and its answer, and the queue is as after
these transactions. -/
theorem enqueue_linearizable {es : List StatementEvent}
    (h : Run (StatementQueue.Step cfg (generateLockId md5)) .start es s) : ∃ ds a,
    Run (Atomic.Step (EnqueueCall.effect cfg) (OtherStep cfg)) ⟨Queue.empty, fun _ => none⟩ ds a ∧
      ds.filterMap id = es.filterMap StatementEvent.shows ∧ a.state = s.queue := by
  obtain ⟨ds, a, hrun, hshown, hcoupled⟩ := exists_coupled h
  exact ⟨ds, a, hrun, hshown, hcoupled.state⟩

/-! ## No call is stuck -/

/-- A call goes on by itself. -/
def StatementEvent.advances : StatementEvent → Bool
  | .locked _ | .selected _ | .inserted _ | .ended _ _ => true
  | _ => false

theorem Coupled.exists_ended (h : Coupled cfg lockId s a) {k : ℕ} {call : EnqueueCall}
    {answer : Except DbError Bool} {row : Option Job}
    (ho : s.enqueues[k]? = some ⟨call, .ending answer row⟩) :
    ∃ e s', StatementQueue.Step cfg lockId s e s' ∧ e.advances = true := by
  obtain ⟨q, hq⟩ : ∃ q, s.queue.commit row = some q := by
    cases row with
    | none => exact ⟨s.queue, rfl⟩
    | some row =>
      obtain ⟨-, -, rfl, hsha, hid⟩ := h.call ho
      exact ⟨_, dif_pos ⟨hid, hsha⟩⟩
  refine ⟨.ended k answer, { s with queue := q }.setStage k call .closed, ?_, rfl⟩
  simp only [StatementQueue.Step, StatementQueue.next, ho, if_true, StatementQueue.close, hq]
  rfl

/-- What a call with a lock waits for can end. -/
theorem Coupled.exists_advance (h : Coupled cfg lockId s a) {k : ℕ} {o : OpenEnqueue}
    (ho : s.enqueues[k]? = some o) (hholds : o.stage.holdsLock = true) :
    ∃ e s', StatementQueue.Step cfg lockId s e s' ∧ e.advances = true := by
  obtain ⟨call, stage⟩ := o
  cases stage with
  | begun => cases hholds
  | locked =>
    refine ⟨.selected k, s.setStage k call (if (s.queue.db.record call.sha).isSome then
      .ending (.ok false) none else .checked), ?_, rfl⟩
    simp only [StatementQueue.Step, StatementQueue.next, ho]
  | checked =>
    cases hinsert : s.insertRow k call with
    | some s' =>
      refine ⟨.inserted k, s', ?_, rfl⟩
      simpa only [StatementQueue.Step, StatementQueue.next, ho] using hinsert
    | none =>
      unfold StatementQueue.insertRow at hinsert
      split_ifs at hinsert with _ hclash
      obtain ⟨o', hmem, hrow⟩ := List.any_eq_true.1 hclash
      obtain ⟨k', ho'⟩ := List.mem_iff_getElem?.1 hmem
      obtain ⟨call', stage'⟩ := o'
      cases stage' with
      | ending answer row => exact h.exists_ended ho'
      | begun => cases hrow
      | locked => cases hrow
      | checked => cases hrow
      | closed => cases hrow
  | ending answer row => exact h.exists_ended ho
  | closed => cases hholds

/-- As long as a call of `enqueue_if_new` has not ended, one of the open calls can go on: they never
wait for each other in a circle. -/
theorem enqueue_never_stuck {es : List StatementEvent}
    (h : Run (StatementQueue.Step cfg (generateLockId md5)) .start es s) {k : ℕ} {o : OpenEnqueue}
    (ho : s.enqueues[k]? = some o) (hopen : o.stage ≠ .closed) :
    ∃ e s', StatementQueue.Step cfg (generateLockId md5) s e s' ∧ e.advances = true := by
  obtain ⟨-, a, -, -, hcoupled⟩ := exists_coupled h
  by_cases hholds : o.stage.holdsLock = true
  · exact hcoupled.exists_advance ho hholds
  · obtain ⟨call, stage⟩ := o
    cases stage with
    | begun =>
      by_cases hheld : (s.enqueues.any fun o =>
          o.lock (generateLockId md5) = some (generateLockId md5 call.sha)) = true
      · obtain ⟨o', hmem, hlock⟩ := List.any_eq_true.1 hheld
        obtain ⟨k', ho'⟩ := List.mem_iff_getElem?.1 hmem
        refine hcoupled.exists_advance ho' ?_
        by_contra hfree
        rw [OpenEnqueue.lock, if_neg hfree] at hlock
        cases hlock
      · refine ⟨.locked k, s.setStage k call .locked, ?_, rfl⟩
        simp only [StatementQueue.Step, StatementQueue.next, ho, if_neg hheld]
    | locked => exact absurd rfl hholds
    | checked => exact absurd rfl hholds
    | ending answer row => exact absurd rfl hholds
    | closed => exact absurd rfl hopen

end Steps

namespace Sample

def delivery (id : String) : EnqueueCall := ⟨"abc", "octo/app", 7, 1, none, ⟨id⟩, 0⟩

def digest (sha : String) : List UInt8 := sha.toList.map fun c => UInt8.ofNat c.toNat

/-- The second call waits until the first has committed. -/
def deliveries : List StatementEvent :=
  [.begun 0 (delivery "a"), .begun 1 (delivery "b"), .locked 0, .selected 0, .inserted 0,
    .ended 0 (.ok true), .locked 1, .selected 1, .inserted 1]

end Sample

theorem exists_deliveries : ∃ s,
    Run (StatementQueue.Step {} (generateLockId Sample.digest)) .start Sample.deliveries s ∧
    s.queue.db.jobs.rows.length = 1 ∧ ∃ o, s.enqueues[1]? = some o ∧ o.stage ≠ .closed := by
  obtain ⟨s, hrun, hgood⟩ := @exists_run_of_replay _ _
    (StatementQueue.next {} (generateLockId Sample.digest)) .start Sample.deliveries
    (fun s => s.queue.db.jobs.rows.length = 1 ∧
      (s.enqueues[1]?).any fun o => o.stage.holdsLock) (by decide)
  simp only [Bool.decide_and, Bool.and_eq_true, decide_eq_true_eq] at hgood
  refine ⟨s, hrun, hgood.1, ?_⟩
  obtain ⟨o, ho, hholds⟩ := (Option.any_eq_true _ _).1 hgood.2
  exact ⟨o, ho, fun hclosed => by rw [hclosed] at hholds; cases hholds⟩

theorem enqueue_linearizable_deliveries : ∃ s ds a,
    Run (StatementQueue.Step {} (generateLockId Sample.digest)) .start Sample.deliveries s ∧
    Run (Atomic.Step (EnqueueCall.effect {}) (OtherStep {})) ⟨Queue.empty, fun _ => none⟩ ds a ∧
    ds.filterMap id = [.invoked 0 (Sample.delivery "a"), .invoked 1 (Sample.delivery "b"),
      .responded 0 (.ok true)] ∧ a.state = s.queue ∧ s.queue.db.jobs.rows.length = 1 := by
  obtain ⟨s, hrun, hjobs, -⟩ := exists_deliveries
  obtain ⟨ds, a, hatomic, hshown, hstate⟩ := enqueue_linearizable hrun
  exact ⟨s, ds, a, hrun, hatomic, hshown, hstate, hjobs⟩

theorem enqueue_never_stuck_deliveries : ∃ s,
    Run (StatementQueue.Step {} (generateLockId Sample.digest)) .start Sample.deliveries s ∧
    ∃ e s', StatementQueue.Step {} (generateLockId Sample.digest) s e s' ∧ e.advances = true := by
  obtain ⟨s, hrun, -, o, ho, hopen⟩ := exists_deliveries
  exact ⟨s, hrun, enqueue_never_stuck hrun ho hopen⟩

end Revix
