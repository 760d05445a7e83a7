import Revix.WorkerClaims
import Revix.WorkerCommits

namespace Revix
open EffectPrograms

/-- A task stores and completes only the check run it created. -/
def ownMonitor : Monitor Request (fun q => Except Raised q.Answer) (Option ℤ) where
  allows
    | m, .setCheckRunId _ checkRunId => m = some checkRunId
    | m, .updateCheckRun update _ => m = some update.checkRunId
    | _, _ => True
  next
    | _, .createCheckRun _ _ _, .ok checkRunId => some checkRunId
    | m, _, _ => m

/-- The requests the monitor does not notice. -/
def Request.detached : Request → Bool
  | .createCheckRun _ _ _ => false
  | .setCheckRunId _ _ => false
  | .updateCheckRun _ _ => false
  | _ => true

def Tracks {α : Type} (m : Option ℤ) (l : Locals) (_ : Except Raised α) : Prop := l.checkRunId = m

section Process

variable {py : Python} {cfg : Settings} {job : Job} {m : Option ℤ} {l : Locals} {α β : Type}

theorem detached_unnoticed {q : Request} (h : q.detached = true) :
    ownMonitor.allows m q ∧ ∀ r, ownMonitor.next m q r = m := by
  cases q with
  | createCheckRun => cases h
  | setCheckRunId => cases h
  | updateCheckRun => cases h
  | _ => exact ⟨trivial, fun _ => rfl⟩

theorem tracks_of_calls {x : JobScript α} (hx : x.Calls fun q => q.detached = true)
    (hl : l.checkRunId = m) : x.Obeys ownMonitor Tracks m l := by
  apply (hx.obeys (fun _ => detached_unnoticed) l).mono
  intro m' l' _ h
  rw [Tracks, h.1, h.2]
  exact hl

theorem tracks_ask {q : Request} (h : q.detached = true) (hl : l.checkRunId = m) :
    (ask q).Obeys ownMonitor Tracks m l :=
  tracks_of_calls (calls_ask h) hl

theorem tracks_bind {x : JobScript α} {f : α → JobScript β} (hx : x.Obeys ownMonitor Tracks m l)
    (hf : ∀ a m l, l.checkRunId = m → (f a).Obeys ownMonitor Tracks m l) :
    (x >>= f).Obeys ownMonitor Tracks m l := by
  refine Script.obeys_bind.2 (hx.mono fun m l r hr => ?_)
  cases r with
  | ok a => exact hf a m l hr
  | error e => exact hr

theorem tracks_exceptException {x : JobScript α} {handler : PyError → JobScript α}
    (hx : x.Obeys ownMonitor Tracks m l)
    (hh : ∀ e m l, l.checkRunId = m → (handler e).Obeys ownMonitor Tracks m l) :
    (exceptException x handler).Obeys ownMonitor Tracks m l := by
  refine Script.obeys_tryCatch.2 (hx.mono fun m l r hr => ?_)
  rcases r with (e | _) | _
  · exact hh e m l hr
  · exact hr
  · exact hr

theorem tracks_suppress {x : JobScript Unit} (hx : x.Obeys ownMonitor Tracks m l) :
    (suppress x).Obeys ownMonitor Tracks m l :=
  tracks_exceptException hx fun _ _ _ hl => hl

theorem tracks_createCheckRun (token : String) (hl : l.checkRunId = m) :
    (createCheckRun job token).Obeys ownMonitor Tracks m l := by
  refine tracks_suppress (Script.obeys_bind.2 (Script.obeys_request.2 ⟨trivial, fun r => ?_⟩))
  cases r with
  | error e => exact hl
  | ok checkRunId =>
    refine Script.obeys_bind.2 ?_
    exact (Script.obeys_request (q := Request.setCheckRunId job.id checkRunId)).2
      ⟨rfl, fun _ => rfl⟩

theorem liveCheckRun_eq {l : Locals} {checkRunId : ℤ} (h : l.liveCheckRun = some checkRunId) :
    l.checkRunId = some checkRunId := (Option.filter_eq_some_iff.1 h).1

theorem tracks_completeCheckRun (result : ReviewResult) (token : String) (hl : l.checkRunId = m) :
    (completeCheckRun job result token).Obeys ownMonitor Tracks m l := by
  unfold completeCheckRun
  apply Script.obeys_get.2
  split
  · exact hl
  · rename_i checkRunId hlive
    have hown : m = some checkRunId := hl.symm.trans (liveCheckRun_eq hlive)
    exact Script.obeys_request.2 ⟨hown, fun _ => hl⟩

theorem tracks_failCheckRun (e : PyError) (hl : l.checkRunId = m) :
    (failCheckRun job e).Obeys ownMonitor Tracks m l := by
  unfold failCheckRun
  apply Script.obeys_get.2
  split
  · rename_i checkRunId token hlive _
    have hown : m = some checkRunId := hl.symm.trans (liveCheckRun_eq hlive)
    exact tracks_suppress (Script.obeys_request.2 ⟨hown, fun _ => hl⟩)
  · exact hl

theorem tracks_review (installationId : ℤ) (hl : l.checkRunId = m) :
    (review cfg job installationId).Obeys ownMonitor Tracks m l := by
  unfold review
  refine tracks_bind (tracks_ask rfl hl) fun token m l hl => ?_
  refine tracks_bind (x := Script.modify _) hl fun _ m l hl => ?_
  refine tracks_bind (tracks_createCheckRun token hl) fun _ m l hl => ?_
  refine tracks_bind (tracks_ask rfl hl) fun diff m l hl => ?_
  refine tracks_bind (tracks_ask rfl hl) fun prFiles m l hl => ?_
  refine tracks_bind (tracks_ask rfl hl) fun prDetails m l hl => ?_
  have hindex : ∀ m l, l.checkRunId = m → (indexFiles job prFiles).Obeys ownMonitor Tracks m l :=
    fun _ _ => tracks_of_calls (calls_indexFiles (fun _ _ => rfl) (fun _ _ _ => rfl) prFiles)
  refine tracks_bind (hindex m l hl) fun _ m l hl => ?_
  refine tracks_bind (tracks_ask rfl hl) fun result m l hl => ?_
  refine tracks_bind (tracks_ask rfl hl) fun _ m l hl => ?_
  refine tracks_bind (tracks_completeCheckRun result token hl) fun _ m l hl => ?_
  exact tracks_ask rfl hl

theorem tracks_handleError (e : PyError) (hl : l.checkRunId = m) :
    (handleError py job e).Obeys ownMonitor Tracks m l := by
  have hdelay : (retryDelayFor py e job.attemptCount).Obeys ownMonitor Tracks m l :=
    tracks_of_calls (calls_retryDelayFor (by rfl) e _) hl
  unfold handleError
  refine tracks_bind hdelay fun delay m l hl => ?_
  split
  · exact tracks_ask rfl hl
  · refine tracks_bind (tracks_failCheckRun e hl) fun _ m l hl => ?_
    exact tracks_suppress (tracks_ask rfl hl)

/-- A run of `process_job` stores and completes no other check run than the one it created. -/
theorem tracks_processJob : (processJob py cfg job).Obeys ownMonitor Tracks none {} := by
  unfold processJob
  split
  · exact tracks_suppress (tracks_ask rfl rfl)
  · rename_i installationId _
    refine tracks_bind (tracks_ask rfl rfl) fun _ m l hl => ?_
    have hbody : (exceptException (review cfg job installationId) (handleError py job)).Obeys
        ownMonitor Tracks m l :=
      tracks_exceptException (tracks_review installationId hl) fun e _ _ hl =>
        tracks_handleError e hl
    refine Script.obeys_finallyDo.2 (hbody.mono fun m l r hr => ?_)
    apply (tracks_ask (q := .close) rfl hr).mono
    intro m l r' hr'
    cases r' <;> exact hr'

end Process

/-- A job with a check run had it before, unless the step is what stores it; and a job that is
finished or dead stays so. -/
theorem Life.checkRun_step {cfg : Settings} {l l' : Life} {e : LifeEvent} {j : Job} {c : ℤ}
    (hs : Life.Step cfg l e l') (hj : l'.job = some j) (hc : j.githubCheckRunId = some c)
    (he : e ≠ .checkRunSet c) : ∃ j₀, l.job = some j₀ ∧ j₀.githubCheckRunId = some c ∧
      (j₀.status.terminal = true → j.status.terminal = true) := by
  obtain ⟨hperm, rfl⟩ := hs
  cases e with
  | skip => exact ⟨j, hj, hc, id⟩
  | enqueued row =>
    obtain ⟨-, id, sha, repo, pn, inst, tc, now, rfl⟩ := hperm
    obtain rfl := Option.some.inj hj
    cases hc
  | claimed worker now =>
    obtain ⟨j₀, hj₀, hclaim⟩ := hperm
    rw [Life.job_claimed, hj₀] at hj
    obtain rfl := Option.some.inj hj
    refine ⟨j₀, hj₀, hc, fun hterm => ?_⟩
    exact absurd (Job.claimable_iff.1 hclaim).1 (Status.terminal_ne hterm).1
  | renewed worker now => exact ⟨j, hj, hc, id⟩
  | checkRunSet c' =>
    obtain ⟨j₀, -, rfl⟩ := Option.map_eq_some_iff.1 hj
    exact absurd (congrArg LifeEvent.checkRunSet (Option.some.inj hc)) he
  | finalized token verdict aiFeedback now =>
    rw [Life.job_finalized] at hj
    obtain ⟨j₀, hj₀, rfl⟩ := Option.map_eq_some_iff.1 hj
    split_ifs at hc ⊢ with hf
    · refine ⟨j₀, hj₀, hc, fun _ => ?_⟩
      cases verdict <;> rfl
    · exact ⟨j₀, hj₀, hc, id⟩
  | released token delaySeconds now =>
    obtain ⟨j₀, hj₀, rfl⟩ := Option.map_eq_some_iff.1 hj
    split_ifs at hc ⊢ with hh
    · refine ⟨j₀, hj₀, hc, fun hterm => ?_⟩
      exact absurd (Job.holds_iff.1 hh).2 (Status.terminal_ne hterm).2
    · exact ⟨j₀, hj₀, hc, id⟩
  | reconciled locked now =>
    obtain ⟨j₀, hj₀, rfl⟩ := Option.map_eq_some_iff.1 hj
    refine ⟨j₀, hj₀, ?_, fun hterm => ?_⟩
    · unfold Job.expired Job.reconciled at hc
      split at hc <;> split at hc <;> exact hc
    · rw [Life.reconciled_idle (Status.terminal_ne hterm).1 (Status.terminal_ne hterm).2]
      exact hterm
  | heartbeatsLost => exact ⟨j, hj, hc, id⟩

end Revix
