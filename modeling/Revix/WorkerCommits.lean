import Revix.QueueVerdicts
import Revix.WorkerClaims

namespace Revix
open KeyedTables LabelledRuns EffectPrograms

namespace Queue

variable {cfg : Settings} {s t : Queue} {e : Transaction} {id : Uuid} {token : ℕ}

/-- The claim with this token has not finished the job. -/
def Unsettled (s : Queue) (id : Uuid) (token : ℕ) : Prop :=
  ∀ j, s.db.job id = some j → j.fenceToken = token → j.status.finished = false

/-- A transaction other than a finalization leaves every claim as it was. -/
theorem unsettled_step (he : (s.localize id e).finalizes = false) (hs : Step cfg s e t)
    (h : s.Unsettled id token) : t.Unsettled id token := by
  intro j' hj' hft
  by_contra hfin
  rw [Bool.not_eq_false] at hfin
  have hlife : (t.life id).job = some j' := hj'
  obtain ⟨j, hj, hfin', hfence⟩ := Life.finished_before hlife hfin he (life_step hs id)
  simp [h j hj (hfence.trans hft)] at hfin'

/-- A finalization concerns no other claim. -/
theorem unsettled_finalize {id' : Uuid} {token' : ℕ} {verdict : Verdict}
    {aiFeedback : Option Dict} {now : Timestamp} (hne : id' = id → token' ≠ token)
    (hs : Step cfg s (.finalizeJob id' token' verdict aiFeedback now) t)
    (h : s.Unsettled id token) : t.Unsettled id token := by
  by_cases hi : id = id'
  · subst hi
    intro j' hj' hft
    have hlife := (life_step hs id).2
    simp only [localize, ↓reduceIte] at hlife
    have hj'' : ((s.life id).exec cfg (.finalized token' verdict aiFeedback now)).job =
        some j' := by
      rw [hlife]
      exact hj'
    rw [Life.job_finalized] at hj''
    obtain ⟨j, hj, rfl⟩ := Option.map_eq_some_iff.1 hj''
    split_ifs at hft ⊢ with hf
    · exact absurd (hf.symm.trans hft) (hne rfl)
    · exact h j hj hft
  · exact unsettled_step (by simp [localize, hi, LifeEvent.finalizes]) hs h

theorem localize_finalizes (h : ∀ id token verdict aiFeedback now,
    e ≠ .finalizeJob id token verdict aiFeedback now) : (s.localize id e).finalizes = false := by
  cases hl : s.localize id e with
  | finalized => exact absurd (localize_finalized hl) (h _ _ _ _ _)
  | _ => rfl

end Queue

namespace Fleet

variable {py : Python} {cfg : Settings} {f g : Fleet}

/-- While a task may still finalize, its claim has not finished the job. -/
def Follows (q : Queue) (task : Task) : Prop :=
  ∃ m, task.rest.Obeys (commitMonitor task.id task.token) (fun _ _ => True) m ∧
    (m = .unsettled → q.Unsettled task.id task.token)

structure Sound (cfg : Settings) (f : Fleet) : Prop where
  coupled : f.Coupled cfg
  follows : ∀ (n : ℕ) task, f.tasks[n]? = some task → Follows f.queue task
  distinct : ∀ (n m : ℕ) a b, f.tasks[n]? = some a → f.tasks[m]? = some b → a.id = b.id →
    a.token = b.token → n = m

theorem Follows.imp {q q' : Queue} {task : Task} (h : Follows q task)
    (hu : q.Unsettled task.id task.token → q'.Unsettled task.id task.token) : Follows q' task := by
  obtain ⟨m, hobeys, hm⟩ := h
  exact ⟨m, hobeys, fun hopen => hu (hm hopen)⟩

theorem sound_empty : Sound cfg empty :=
  ⟨coupled_empty, fun _ _ h => by simp [empty] at h, fun _ _ _ _ h => by simp [empty] at h⟩

/-- One task goes on, and the others still follow. -/
theorem Sound.set (h : f.Sound cfg) {n : ℕ} {task task' : Task} (htask : f.tasks[n]? = some task)
    (hg : g.tasks = f.tasks.set n task') (hid : task'.id = task.id)
    (htoken : task'.token = task.token) (hc : g.Coupled cfg)
    (hself : Follows g.queue task')
    (hothers : ∀ (k : ℕ) a, k ≠ n → f.tasks[k]? = some a → Follows g.queue a) : g.Sound cfg := by
  have hget : ∀ (k : ℕ) a, g.tasks[k]? = some a → (k = n ∧ a = task') ∨
      (k ≠ n ∧ f.tasks[k]? = some a) := by
    intro k a hk
    rw [hg, List.getElem?_set] at hk
    split_ifs at hk with hkn hlt
    · exact .inl ⟨hkn.symm, (Option.some.inj hk).symm⟩
    · exact .inr ⟨fun he => hkn he.symm, hk⟩
  refine ⟨hc, fun k a hk => ?_, fun k m a b hk hm hab hab' => ?_⟩
  · rcases hget k a hk with ⟨rfl, rfl⟩ | ⟨hkn, hk⟩
    · exact hself
    · exact hothers k a hkn hk
  · rcases hget k a hk with ⟨rfl, rfl⟩ | ⟨hkn, hk⟩ <;>
      rcases hget m b hm with ⟨rfl, rfl⟩ | ⟨hmn, hm⟩
    · rfl
    · exact h.distinct _ _ _ _ htask hm (hid.symm.trans hab) (htoken.symm.trans hab')
    · exact h.distinct _ _ _ _ hk htask (hab.trans hid) (hab'.trans htoken)
    · exact h.distinct _ _ _ _ hk hm hab hab'

def request (f : Fleet) (n : ℕ) : Option Request :=
  match f.tasks[n]? with
  | some ⟨_, _, .ask q _⟩ => some q
  | _ => none

/-- A task that is neither answered nor killed waits for what it waited for. -/
theorem request_step {e : FleetEvent} {n : ℕ} {q : Request} (hs : Step py cfg f e g)
    (hanswered : ∀ reply committed now, e ≠ .answered n reply committed now)
    (hkilled : e ≠ .killed n) (hq : f.request n = some q) : g.request n = some q := by
  have hkeep : ∀ tasks : List Task, g.tasks = tasks → tasks[n]? = f.tasks[n]? →
      g.request n = some q := by
    intro tasks htasks hn
    rw [← hq, request, request, htasks, hn]
  cases e with
  | environment e =>
    obtain ⟨-, -, htasks⟩ := step_environment hs
    exact hkeep _ htasks rfl
  | claimed worker scan now delivered =>
    obtain ⟨-, htasks | ⟨c, -, htasks⟩⟩ := step_claimed hs
    · exact hkeep _ htasks rfl
    · have hlt : n < f.tasks.length := by
        by_contra hge
        rw [request, List.getElem?_eq_none (by omega)] at hq
        cases hq
      exact hkeep _ htasks (List.getElem?_append_left hlt)
  | answered m reply committed now =>
    obtain ⟨id, token, q', resume, -, htasks, -⟩ := step_answered hs
    refine hkeep _ htasks (List.getElem?_set_ne fun heq => ?_)
    exact hanswered reply committed now (by rw [heq])
  | killed m =>
    obtain ⟨task, -, -, htasks⟩ := step_killed hs
    exact hkeep _ htasks (List.getElem?_set_ne fun heq => hkilled (by rw [heq]))

/-- No commit of `SUCCESS` raises, but for a rate limit. -/
def AckKept (f : Fleet) : FleetEvent → Prop
  | .answered n reply true _ => ∀ q, f.request n = some q → q.retried (reply q) = false
  | _ => True

theorem unsettled_of_next {id : Uuid} {token : ℕ} {m : Claim} {q : Request}
    {r : Except Raised q.Answer} (ha : (commitMonitor id token).allows m q)
    (hn : (commitMonitor id token).next m q r = .unsettled) : m = .unsettled := by
  cases q with
  | finalizeJob => exact ha.1
  | _ => exact hn

/-- What a task commits finds its job unfinished, and settles no other claim. -/
theorem committed_request {q q' : Queue} {id : Uuid} {token : ℕ} {m : Claim} {req : Request}
    {r : Except Raised req.Answer} {now : Timestamp} {e : Transaction}
    (hallow : (commitMonitor id token).allows m req)
    (hm : m = .unsettled → q.Unsettled id token) (he : req.transaction now = some e)
    (hkept : req.retried r = false) (hs : Queue.Step cfg q e q') :
    q.Undecided e ∧
      ((commitMonitor id token).next m req r = .unsettled → q'.Unsettled id token) ∧
      ∀ id' token', (id = id' → token ≠ token') → q.Unsettled id' token' →
        q'.Unsettled id' token' := by
  cases req with
  | finalizeJob =>
    cases he
    obtain ⟨hopen, rfl, rfl⟩ := hallow
    refine ⟨fun j hj ht hfin => ?_, fun hn => ?_, fun id' token' hne => ?_⟩
    · simp [hm hopen j hj ht] at hfin
    · simp [commitMonitor, hkept] at hn
    · exact Queue.unsettled_finalize hne hs
  | setCheckRunId =>
    cases he
    have hkeep : ∀ id' token', q.Unsettled id' token' → q'.Unsettled id' token' :=
      fun id' token' => Queue.unsettled_step (Queue.localize_finalizes (by simp)) hs
    exact ⟨trivial, fun hn => hkeep _ _ (hm hn), fun id' token' _ => hkeep id' token'⟩
  | releaseJob =>
    cases he
    have hkeep : ∀ id' token', q.Unsettled id' token' → q'.Unsettled id' token' :=
      fun id' token' => Queue.unsettled_step (Queue.localize_finalizes (by simp)) hs
    exact ⟨trivial, fun hn => hkeep _ _ (hm hn), fun id' token' _ => hkeep id' token'⟩
  | _ => cases he

theorem sound_answered {n : ℕ} {reply : Reply} {committed : Bool} {now : Timestamp}
    (h : f.Sound cfg) (hs : Step py cfg f (.answered n reply committed now) g)
    (hack : f.AckKept (.answered n reply committed now)) :
    g.Sound cfg ∧ f.queue.Settled g.queue := by
  have hc := coupled_step h.coupled hs
  obtain ⟨id, token, q, resume, htask, htasks, hqueue⟩ := step_answered hs
  obtain ⟨m, ⟨hallow, hnext⟩, hm⟩ := h.follows n _ htask
  have hissued : token ∈ f.queue.tokens id := (h.coupled.bound _ (List.mem_of_getElem? htask)).1
  rcases hqueue with hsame | ⟨e, he, rfl, hexec⟩
  · -- nothing is committed
    refine ⟨h.set htask htasks rfl rfl hc ?_ ?_, hsame ▸ .refl _⟩
    · rw [hsame]
      exact ⟨_, hnext (reply q), fun hopen => hm (unsettled_of_next hallow hopen)⟩
    · rw [hsame]
      exact fun k a _ hk => h.follows k a hk
  · have hkept : q.retried (reply q) = false := hack q (by simp [request, htask])
    have hq : Queue.Step cfg f.queue e g.queue :=
      hexec ▸ Queue.step_exec (permitted_request hissued hallow he)
    obtain ⟨hundecided, hself, hothers⟩ := committed_request hallow hm he hkept hq
    obtain ⟨es, hr⟩ := h.coupled.reachable
    refine ⟨h.set htask htasks rfl rfl hc ?_ ?_, (Queue.undecided_iff_settled hr hq).1 hundecided⟩
    · exact ⟨_, hnext (reply q), hself⟩
    · intro k a hkn hk
      refine (h.follows k a hk).imp (hothers _ _ fun hid htoken => hkn ?_)
      exact h.distinct _ _ _ _ hk htask hid.symm htoken.symm

/-- A claim starts a task for a token nobody had. -/
theorem sound_claimed {worker : String} {scan : Scan} {now : Timestamp} {delivered : Bool}
    (h : f.Sound cfg) (hs : Step py cfg f (.claimed worker scan now delivered) g) :
    g.Sound cfg ∧ f.queue.Settled g.queue := by
  have hcoupled := coupled_step h.coupled hs
  obtain ⟨hq, htasks⟩ := step_claimed hs
  obtain ⟨es, hr⟩ := h.coupled.reachable
  have hfollows : ∀ (k : ℕ) a, f.tasks[k]? = some a → Follows g.queue a := fun k a hk =>
    (h.follows k a hk).imp (Queue.unsettled_step (Queue.localize_finalizes (by simp)) hq)
  refine ⟨?_, (Queue.undecided_iff_settled hr hq).1 trivial⟩
  rcases htasks with htasks | ⟨c, hc, htasks⟩
  · exact ⟨hcoupled, htasks ▸ hfollows, htasks ▸ h.distinct⟩
  · obtain ⟨hjob, hclaim, -⟩ := claimCandidate_spec hc
    have hfresh : c.fenceToken ∉ f.queue.tokens c.id := by
      intro hmem
      have hengaged := (Queue.fenced_of_run hr c.id).engaged (j := c) hjob hmem
      rw [(Job.claimable_iff.1 hclaim).1] at hengaged
      cases hengaged
    have hnew : Follows g.queue (spawn py cfg (c.claimed worker now)) := by
      refine ⟨.unsettled, processJob_obeys {}, fun _ j hj _ => ?_⟩
      have hj' : (claimJob worker scan now f.queue.db).2.job c.id = some j := by
        rw [← (Queue.step_iff.1 hq).2] at hj
        exact hj
      rw [job_claimJob hc, if_pos rfl] at hj'
      rw [← Option.some.inj hj']
      rfl
    have hget : ∀ (k : ℕ) a, g.tasks[k]? = some a → f.tasks[k]? = some a ∨
        (k = f.tasks.length ∧ a = spawn py cfg (c.claimed worker now)) := by
      intro k a hk
      rw [htasks, List.getElem?_append] at hk
      split_ifs at hk with hlt
      · exact .inl hk
      · rw [List.getElem?_singleton] at hk
        split_ifs at hk with hz
        exact .inr ⟨by omega, (Option.some.inj hk).symm⟩
    have hold : ∀ (k : ℕ) a, f.tasks[k]? = some a → a.id = c.id → a.token ≠ c.fenceToken := by
      intro k a hk hid htoken
      have hissued := (h.coupled.bound a (List.mem_of_getElem? hk)).1
      rw [hid, htoken] at hissued
      exact hfresh hissued
    refine ⟨hcoupled, fun k a hk => ?_, fun k m a b hk hm hid htoken => ?_⟩
    · rcases hget k a hk with hk | ⟨-, rfl⟩
      · exact hfollows k a hk
      · exact hnew
    · rcases hget k a hk with hk | ⟨rfl, rfl⟩ <;> rcases hget m b hm with hm | ⟨rfl, rfl⟩
      · exact h.distinct _ _ _ _ hk hm hid htoken
      · exact absurd htoken (hold k a hk hid)
      · exact absurd htoken.symm (hold m b hm hid.symm)
      · rfl

theorem sound_step {e : FleetEvent} (h : f.Sound cfg) (hs : Step py cfg f e g)
    (hack : f.AckKept e) : g.Sound cfg ∧ f.queue.Settled g.queue := by
  have hc := coupled_step h.coupled hs
  cases e with
  | environment e =>
    obtain ⟨he, hq, htasks⟩ := step_environment hs
    have hne : ∀ id token verdict aiFeedback now,
        e ≠ .finalizeJob id token verdict aiFeedback now := by
      rintro id token verdict aiFeedback now rfl
      cases he
    obtain ⟨es, hr⟩ := h.coupled.reachable
    refine ⟨⟨hc, ?_, htasks ▸ h.distinct⟩,
      (Queue.undecided_iff_settled hr hq).1 (Queue.undecided_of_ne hne)⟩
    rw [htasks]
    exact fun k a hk =>
      (h.follows k a hk).imp (Queue.unsettled_step (Queue.localize_finalizes hne) hq)
  | claimed worker scan now delivered => exact sound_claimed h hs
  | answered n reply committed now => exact sound_answered h hs hack
  | killed n =>
    obtain ⟨task, htask, hqueue, htasks⟩ := step_killed hs
    refine ⟨h.set htask htasks rfl rfl hc ⟨.settled, trivial, nofun⟩ ?_, hqueue ▸ .refl _⟩
    rw [hqueue]
    exact fun k a _ hk => h.follows k a hk

end Fleet

/-- Finished and dead jobs stay as they are. For the queue: in a run, every step keeps them
exactly when no finalization finds its job finished and says otherwise. For a fleet: from any
point of a run in which no commit of `SUCCESS` raises, but for a rate limit, they are kept to
the end. -/
theorem terminal_absorbing (py : Python) (cfg : Settings) :
    (∀ es s, Run (Guarded (Queue.Step cfg) fun s e _ => s.Undecided e) .empty es s ↔
      Run (Guarded (Queue.Step cfg) fun s _ t => s.Settled t) .empty es s) ∧
    ∀ es f fs g, Run (Guarded (Fleet.Step py cfg) fun f e _ => f.AckKept e) .empty es f →
      Run (Guarded (Fleet.Step py cfg) fun f e _ => f.AckKept e) f fs g →
      f.queue.Settled g.queue := by
  constructor
  · intro es s
    refine Run.guarded_congr (I := Reachable (Queue.Step cfg) .empty) ?_
      (fun _ _ _ h hs _ => h.next hs) (.refl _)
    rintro s e t ⟨fs, h⟩ hs
    exact Queue.undecided_iff_settled h hs
  · intro es f fs g hf hg
    have hsound : f.Sound cfg := hf.invariant (I := Fleet.Sound cfg)
      (fun _ _ _ h hs => (Fleet.sound_step h hs.1 hs.2).1) Fleet.sound_empty
    exact hg.relates (I := Fleet.Sound cfg) (R := fun f g => f.queue.Settled g.queue)
      (fun _ _ _ h hs => (Fleet.sound_step h hs.1 hs.2).1) (fun _ => .refl _) .trans
      (fun _ _ _ h hs => (Fleet.sound_step h hs.1 hs.2).2) hsound

/-- The commit of `SUCCESS` whose connection is lost is followed by a commit of `FAILURE`. -/
theorem success_overwritten : ∃ f g,
    Run (Fleet.Step Sample.python {}) .empty (Sample.reviewed Sample.lostReply) f ∧
    Run (Fleet.Step Sample.python {}) f
      (List.replicate 2 (.answered 0 Sample.lostReply true (2 * second))) g ∧
    ¬ f.queue.Settled g.queue := by
  obtain ⟨f, hf, hp⟩ := Fleet.exists_run Sample.python {} .empty
    (Sample.reviewed Sample.lostReply)
    (fun f => (f.queue.db.job Sample.jobId).map Job.status = some .success ∧
      (replay (Fleet.next Sample.python {}) f
        (List.replicate 2 (.answered 0 Sample.lostReply true (2 * second)))).any
          (fun g => (g.queue.db.job Sample.jobId).map Job.status = some .failure) = true)
    (by decide)
  simp only [decide_eq_true_eq] at hp
  obtain ⟨hsuccess, hnext⟩ := hp
  obtain ⟨g, hg, hfailure⟩ := Fleet.exists_run _ _ _ _ _ hnext
  refine ⟨f, g, hf, hg, fun hsettled => ?_⟩
  obtain ⟨j, hj, hst⟩ := Option.map_eq_some_iff.1 hsuccess
  obtain ⟨j', hj', hst', -⟩ := hsettled Sample.jobId j hj (by simp [hst]; rfl)
  have hjob : g.queue.db.job Sample.jobId = some j' := hj'
  simp [hjob, hst', hst] at hfailure

theorem Sample.retried_reply (q : Request) : q.retried (Sample.reply q) = false := by
  cases q with
  | finalizeJob id token verdict aiFeedback => cases verdict <;> rfl
  | _ => rfl

/-- With every call answered, the verdict outlives the end of the task and a reconciliation. -/
theorem success_kept : ∃ f g : Fleet,
    (f.queue.db.job Sample.jobId).map Job.status = some .success ∧ f.queue.Settled g.queue := by
  obtain ⟨f, hf, hp⟩ := Fleet.exists_run Sample.python {} .empty
    (Sample.reviewed Sample.reply)
    (fun f => (f.queue.db.job Sample.jobId).map Job.status = some .success ∧
      (replay (Fleet.next Sample.python {}) f [.answered 0 Sample.reply true second,
        .environment (.reconcileStaleJobs [] (7200 * second))]).any (fun _ => true) = true)
    (by decide)
  simp only [decide_eq_true_eq] at hp
  obtain ⟨g, hg, -⟩ := Fleet.exists_run _ _ _ _ _ hp.2
  have hack : ∀ (f : Fleet) n now, f.AckKept (.answered n Sample.reply true now) :=
    fun _ _ _ q _ => Sample.retried_reply q
  have hfirst : ∀ e ∈ Sample.reviewed Sample.reply, ∀ f : Fleet, f.AckKept e := by
    intro e he f
    rcases List.mem_cons.1 he with rfl | he
    · trivial
    · rcases List.mem_cons.1 he with rfl | he
      · trivial
      · rw [List.eq_of_mem_replicate he]
        exact hack f _ _
  have hlast : ∀ e ∈ [.answered 0 Sample.reply true second,
      .environment (.reconcileStaleJobs [] (7200 * second))], ∀ f : Fleet, f.AckKept e := by
    intro e he f
    rcases List.mem_cons.1 he with rfl | he
    · exact hack f _ _
    · rw [List.mem_singleton.1 he]
      trivial
  exact ⟨f, g, hp.1, (terminal_absorbing Sample.python {}).2 _ f _ g
    (hf.guard fun e he f _ => hfirst e he f) (hg.guard fun e he f _ => hlast e he f)⟩

end Revix
