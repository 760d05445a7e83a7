import Revix.CheckRunTasks
import Revix.CheckRunOwners
import Revix.WebhookOverrides

/-! The workers, the overrides of the webhook and the reconciliations over one queue and the check
runs of GitHub. Each step is one answer to one of them. -/
namespace Revix
open EffectPrograms

/-! ## The check runs of GitHub -/

inductive Shown
  | inProgress
  | completed (conclusion : Conclusion)
  deriving DecidableEq, Repr

/-- What GitHub shows, and which task created it. -/
structure CheckRuns where
  shown : ℤ → Option Shown
  creator : ℤ → Option ℕ

namespace CheckRuns

def empty : CheckRuns := ⟨fun _ => none, fun _ => none⟩

def create (n : ℕ) (checkRunId : ℤ) (x : CheckRuns) : CheckRuns where
  shown c := if c = checkRunId then some .inProgress else x.shown c
  creator c := if c = checkRunId then some n else x.creator c

def complete (update : CheckRunUpdate) (x : CheckRuns) : CheckRuns :=
  { x with shown := fun c =>
      if c = update.checkRunId then some (.completed update.conclusion) else x.shown c }

/-- An update that takes effect finds its check run. Without effect it is not answered. -/
def update (update : CheckRunUpdate) (answered applied : Bool) (x : CheckRuns) :
    Option CheckRuns :=
  if applied then
    if (x.shown update.checkRunId).isSome then some (x.complete update) else none
  else if answered then none else some x

/-- What an answer to the `n`-th task means to GitHub, which gives each check run an id of its
own. -/
def answer (n : ℕ) (applied : Bool) (x : CheckRuns) :
    (q : Request) → Except Raised q.Answer → Option CheckRuns
  | .createCheckRun _ _ _, .ok checkRunId =>
    if (x.shown checkRunId).isNone then some (x.create n checkRunId) else none
  | .updateCheckRun update _, r => x.update update r.isOk applied
  | _, _ => some x

variable {n : ℕ} {applied : Bool} {x y : CheckRuns}

theorem update_eq {u : CheckRunUpdate} {answered : Bool} (h : x.update u answered applied = some y) :
    y = x ∨ applied = true ∧ y = x.complete u := by
  unfold update at h
  split_ifs at h with happlied
  · exact .inr ⟨happlied, (Option.some.inj h).symm⟩
  · exact .inl (Option.some.inj h).symm

theorem answer_eq {q : Request} {r : Except Raised q.Answer} (h : x.answer n applied q r = some y) :
    y = x ∨ (∃ checkRunId, x.shown checkRunId = none ∧ y = x.create n checkRunId ∧
        ∀ m, ownMonitor.next m q r = some checkRunId) ∨
      ∃ u token, q = .updateCheckRun u token ∧ applied = true ∧ y = x.complete u := by
  unfold answer at h
  split at h
  · rename_i checkRunId
    split_ifs at h with hfresh
    exact .inr (.inl ⟨checkRunId, Option.isNone_iff_eq_none.1 hfresh, (Option.some.inj h).symm,
      fun _ => rfl⟩)
  · rename_i u token r
    exact (update_eq h).imp_right fun ⟨happlied, hy⟩ => .inr ⟨u, token, rfl, happlied, hy⟩
  · exact .inl (Option.some.inj h).symm

/-- What a task has after an answer, it had before, or it has just created. -/
theorem creator_of_next {q : Request} {r : Except Raised q.Answer} {m : Option ℤ} {c : ℤ}
    (h : x.answer n applied q r = some y) (hm : ownMonitor.next m q r = some c) :
    m = some c ∨ y.creator c = some n := by
  unfold answer at h
  split at h
  · rename_i checkRunId
    have hc : checkRunId = c := Option.some.inj hm
    split_ifs at h
    cases h
    exact .inr (if_pos hc.symm)
  · exact .inl hm
  · rename_i hcreate hupdate
    refine .inl ?_
    cases q with
    | createCheckRun repo headSha token =>
      cases r with
      | error e => exact hm
      | ok checkRunId => exact absurd HEq.rfl (hcreate repo headSha token checkRunId rfl)
    | _ => exact hm

end CheckRuns

/-! ## The writers together -/

/-- An override or a reconciliation under way, with the rows it was given. -/
structure Party where
  rows : List ReconciledRow
  rest : Prog CheckRunCall (fun q => Except Raised q.Answer) (Except Raised Unit × Unit)

structure Board where
  fleet : Fleet
  parties : List Party
  checkRuns : CheckRuns

inductive BoardEvent
  /-- A step of the workers, or of what else changes the queue. -/
  | fleet (e : FleetEvent)
  | commented (c : IssueComment)
  /-- A turn of `reconciliation_loop` begins. -/
  | reconciling
  /-- An override or a reconciliation gets an answer; for a transaction and for an update,
  whether it took effect. -/
  | answered (n : ℕ) (reply : (q : CheckRunCall) → Except Raised q.Answer) (applied : Bool)
      (scan : Scan) (now : Timestamp)
  | killed (n : ℕ)

/-- Reconciliations are parties of their own, and only tasks store check runs. -/
def FleetEvent.onBoard : FleetEvent → Bool
  | .environment (.reconcileStaleJobs _ _) => false
  | e => e.storesByTask

namespace Board

def empty : Board := ⟨.empty, [], .empty⟩

section Steps

variable (py : Python) (cfg : Settings)

/-- What a step of the fleet means to GitHub. -/
def publish (b : Board) : FleetEvent → Option CheckRuns
  | .answered n reply applied _ =>
    match b.fleet.request n with
    | some q => b.checkRuns.answer n applied q (reply q)
    | none => some b.checkRuns
  | _ => some b.checkRuns

def serve (b : Board) (reply : (q : CheckRunCall) → Except Raised q.Answer) (applied : Bool)
    (scan : Scan) (now : Timestamp) :
    (q : CheckRunCall) → Option (Except Raised q.Answer × Queue × CheckRuns)
  | .reconcileStaleJobs =>
    if applied then
      let r := reconcileStaleJobs cfg scan.locked now b.fleet.queue.db
      some ((reply .reconcileStaleJobs).map fun _ => r.1,
        b.fleet.queue.exec cfg (.reconcileStaleJobs scan.locked now), b.checkRuns)
    else if (reply .reconcileStaleJobs).isOk then none
    else some (reply .reconcileStaleJobs, b.fleet.queue, b.checkRuns)
  | .getCheckRunId repo prNumber commitSha =>
    some ((reply (.getCheckRunId repo prNumber commitSha)).map fun _ =>
      getCheckRunId scan repo prNumber commitSha b.fleet.queue.db, b.fleet.queue, b.checkRuns)
  | .updateCheckRun update token =>
    (b.checkRuns.update update (reply (.updateCheckRun update token)).isOk applied).map fun x =>
      (reply (.updateCheckRun update token), b.fleet.queue, x)
  | q => some (reply q, b.fleet.queue, b.checkRuns)

def next (b : Board) : BoardEvent → Option Board
  | .fleet e =>
    if e.onBoard then
      match b.fleet.next py cfg e, b.publish e with
      | some fleet, some checkRuns => some { b with fleet := fleet, checkRuns := checkRuns }
      | _, _ => none
    else none
  | .commented c => some { b with parties := b.parties ++ [⟨[], commentWebhook c ()⟩] }
  | .reconciling => some { b with parties := b.parties ++
      [⟨[], reconciliation (fun s => (py.loads s).toOption) ()⟩] }
  | .answered n reply applied scan now =>
    match b.parties[n]? with
    | some ⟨rows, .ask q resume⟩ =>
      (b.serve cfg reply applied scan now q).map fun r =>
        { fleet := { b.fleet with queue := r.2.1 }
          parties := b.parties.set n ⟨reportMonitor.next rows q r.1, resume r.1⟩
          checkRuns := r.2.2 }
    | _ => none
  | .killed n => (b.parties[n]?).map fun party =>
    { b with parties := b.parties.set n { party with rest := .done (.error .cancelled, ()) } }

def Step (b : Board) (e : BoardEvent) (b' : Board) : Prop := b.next py cfg e = some b'

end Steps

variable {py : Python} {cfg : Settings} {b b' : Board}

theorem step_fleet {e : FleetEvent} (h : Step py cfg b (.fleet e) b') : e.onBoard = true ∧
    Fleet.Step py cfg b.fleet e b'.fleet ∧ b.publish e = some b'.checkRuns ∧
    b'.parties = b.parties := by
  simp only [Step, next] at h
  split_ifs at h with he
  split at h
  · rename_i fleet checkRuns hfleet hpublish
    cases h
    exact ⟨he, hfleet, hpublish, rfl⟩
  · cases h

theorem step_answered {n : ℕ} {reply : (q : CheckRunCall) → Except Raised q.Answer}
    {applied : Bool} {scan : Scan} {now : Timestamp}
    (h : Step py cfg b (.answered n reply applied scan now) b') :
    ∃ rows q resume r, b.parties[n]? = some ⟨rows, .ask q resume⟩ ∧
      b.serve cfg reply applied scan now q = some (r, b'.fleet.queue, b'.checkRuns) ∧
      b'.parties = b.parties.set n ⟨reportMonitor.next rows q r, resume r⟩ ∧
      b'.fleet.tasks = b.fleet.tasks := by
  simp only [Step, next] at h
  split at h
  · rename_i rows q resume hparty
    obtain ⟨⟨r, queue, checkRuns⟩, hserve, rfl⟩ := Option.map_eq_some_iff.1 h
    exact ⟨rows, q, resume, r, hparty, hserve, rfl, rfl⟩
  · cases h

theorem step_killed {n : ℕ} (h : Step py cfg b (.killed n) b') : ∃ party,
    b.parties[n]? = some party ∧ b'.fleet = b.fleet ∧ b'.checkRuns = b.checkRuns ∧
    b'.parties = b.parties.set n { party with rest := .done (.error .cancelled, ()) } := by
  obtain ⟨party, hparty, rfl⟩ := Option.map_eq_some_iff.1 h
  exact ⟨party, hparty, rfl, rfl, rfl⟩

/-- Only a reconciliation changes the queue, and only an update the check runs. -/
theorem serve_eq {reply : (q : CheckRunCall) → Except Raised q.Answer} {applied : Bool}
    {scan : Scan} {now : Timestamp} {q : CheckRunCall} {r : Except Raised q.Answer} {queue : Queue}
    {x : CheckRuns} (h : b.serve cfg reply applied scan now q = some (r, queue, x)) :
    (queue = b.fleet.queue ∨
      queue = b.fleet.queue.exec cfg (.reconcileStaleJobs scan.locked now)) ∧
    (x = b.checkRuns ∨ ∃ u token, q = .updateCheckRun u token ∧ applied = true ∧
      x = b.checkRuns.complete u) ∧
    ∀ rows, reportMonitor.next rows q r = rows ∨
      reportMonitor.next rows q r = (reconcileStaleJobs cfg scan.locked now b.fleet.queue.db).1 := by
  cases q with
  | reconcileStaleJobs =>
    simp only [serve] at h
    split_ifs at h with happlied hok
    · cases h
      refine ⟨.inr rfl, .inl rfl, fun rows => ?_⟩
      cases reply .reconcileStaleJobs with
      | error e => exact .inl rfl
      | ok rows' => exact .inr rfl
    · cases h
      refine ⟨.inl rfl, .inl rfl, fun rows => ?_⟩
      cases hreply : reply .reconcileStaleJobs with
      | error e => exact .inl rfl
      | ok rows' =>
        rw [hreply] at hok
        exact absurd rfl hok
  | updateCheckRun u token =>
    obtain ⟨y, hy, heq⟩ := Option.map_eq_some_iff.1 h
    cases heq
    refine ⟨.inl rfl, (CheckRuns.update_eq hy).imp_right fun ⟨happlied, hx⟩ => ?_,
      fun rows => .inl rfl⟩
    exact ⟨u, token, rfl, happlied, hx⟩
  | _ =>
    cases h
    exact ⟨.inl rfl, .inl rfl, fun rows => .inl rfl⟩

/-! ### What every step keeps -/

def CompletedByTask (b : Board) (e : BoardEvent) (n : ℕ) (u : CheckRunUpdate) : Prop :=
  ∃ reply now id token token' resume, e = .fleet (.answered n reply true now) ∧
    b.fleet.tasks[n]? = some ⟨id, token, .ask (.updateCheckRun u token') resume⟩

def CompletedByParty (b : Board) (e : BoardEvent) (rows : List ReconciledRow)
    (u : CheckRunUpdate) : Prop :=
  ∃ n reply scan now token resume, e = .answered n reply true scan now ∧
    b.parties[n]? = some ⟨rows, .ask (.updateCheckRun u token) resume⟩

/-- Tasks complete what they created, the others what they were given. -/
structure Consistent (cfg : Settings) (b : Board) : Prop where
  coupled : b.fleet.Coupled cfg
  own : ∀ (n : ℕ) task, b.fleet.tasks[n]? = some task → ∃ m,
    task.rest.Obeys ownMonitor (fun _ _ => True) m ∧
    ∀ c, m = some c → b.checkRuns.creator c = some n
  reports : ∀ party ∈ b.parties, party.rest.Obeys reportMonitor (fun _ _ => True) party.rows
  created : ∀ c n, b.checkRuns.creator c = some n →
    (b.checkRuns.shown c).isSome = true ∧ n < b.fleet.tasks.length

theorem consistent_empty : Consistent cfg empty :=
  ⟨Fleet.coupled_empty, nofun, nofun, nofun⟩

theorem checkRuns_step {e : BoardEvent} (hs : Step py cfg b e b') :
    b'.checkRuns = b.checkRuns ∨
    (∃ n reply applied now id token q resume c, e = .fleet (.answered n reply applied now) ∧
      b.fleet.tasks[n]? = some ⟨id, token, .ask q resume⟩ ∧ b.checkRuns.shown c = none ∧
      b'.checkRuns = b.checkRuns.create n c ∧ ∀ m, ownMonitor.next m q (reply q) = some c) ∨
    ∃ u, b'.checkRuns = b.checkRuns.complete u ∧
      ((∃ n, b.CompletedByTask e n u) ∨ ∃ rows, b.CompletedByParty e rows u) := by
  cases e with
  | fleet e =>
    obtain ⟨-, hf, hpublish, -⟩ := step_fleet hs
    cases e with
    | answered n reply applied now =>
      obtain ⟨id, token, q, resume, htask, -, -⟩ := Fleet.step_answered hf
      have hrequest : b.fleet.request n = some q := by simp [Fleet.request, htask]
      simp only [publish, hrequest] at hpublish
      rcases CheckRuns.answer_eq hpublish with hsame | ⟨c, hfresh, hcreate, hnext⟩ |
        ⟨u, token', rfl, rfl, hcomplete⟩
      · exact .inl hsame
      · exact .inr (.inl ⟨n, reply, applied, now, id, token, q, resume, c, rfl, htask, hfresh,
          hcreate, hnext⟩)
      · exact .inr (.inr ⟨u, hcomplete, .inl ⟨n, reply, now, id, token, token', resume, rfl, htask⟩⟩)
    | _ => exact .inl (Option.some.inj hpublish).symm
  | commented c =>
    cases hs
    exact .inl rfl
  | reconciling =>
    cases hs
    exact .inl rfl
  | answered n reply applied scan now =>
    obtain ⟨rows, q, resume, r, hparty, hserve, -, -⟩ := step_answered hs
    obtain ⟨-, hsame | ⟨u, token, rfl, rfl, hcomplete⟩, -⟩ := serve_eq hserve
    · exact .inl hsame
    · exact .inr (.inr ⟨u, hcomplete, .inr ⟨rows, n, reply, scan, now, token, resume, rfl, hparty⟩⟩)
  | killed n =>
    obtain ⟨-, -, -, hsame, -⟩ := step_killed hs
    exact .inl hsame

/-- A step is at most one transaction, and only tasks store check runs. -/
theorem queue_step {e : BoardEvent} (h : ∀ task ∈ b.fleet.tasks, Fleet.Bound b.fleet.queue task)
    (hs : Step py cfg b e b') :
    b'.fleet.queue = b.fleet.queue ∨ ∃ e', Queue.Step cfg b.fleet.queue e' b'.fleet.queue ∧
      ∀ id c, e' = .setCheckRunId id c → ∃ (n : ℕ) (id' : Uuid) (token : ℕ) (resume : _),
        b.fleet.tasks[n]? = some ⟨id', token, .ask (.setCheckRunId id c) resume⟩ := by
  cases e with
  | fleet e =>
    obtain ⟨he, hf, -, -⟩ := step_fleet hs
    refine (Fleet.transaction_step h hf).imp_right fun ⟨e', hq, hwhere⟩ => ⟨e', hq, ?_⟩
    rintro id c rfl
    rcases hwhere with ⟨rfl, -⟩ | ⟨_, _, _, _, -, heq⟩ | ⟨n, _, _, id', token, q, resume, -, htask, he'⟩
    · cases he
    · cases heq
    · cases q with
      | setCheckRunId id'' c' =>
        cases he'
        exact ⟨n, id', token, resume, htask⟩
      | _ => cases he'
  | commented c =>
    cases hs
    exact .inl rfl
  | reconciling =>
    cases hs
    exact .inl rfl
  | answered n reply applied scan now =>
    obtain ⟨rows, q, resume, r, -, hserve, -, -⟩ := step_answered hs
    refine (serve_eq hserve).1.imp_right fun hexec =>
      ⟨.reconcileStaleJobs scan.locked now, ?_, fun _ _ heq => nomatch heq⟩
    rw [hexec]
    exact Queue.step_exec (e := .reconcileStaleJobs scan.locked now) trivial
  | killed n =>
    obtain ⟨-, -, hfleet, -, -⟩ := step_killed hs
    exact .inl (congrArg Fleet.queue hfleet)

theorem coupled_step {e : BoardEvent} (h : b.fleet.Coupled cfg) (hs : Step py cfg b e b') :
    b'.fleet.Coupled cfg := by
  cases e with
  | fleet e =>
    obtain ⟨-, hf, -, -⟩ := step_fleet hs
    exact Fleet.coupled_step h hf
  | commented c =>
    cases hs
    exact h
  | reconciling =>
    cases hs
    exact h
  | answered n reply applied scan now =>
    obtain ⟨rows, q, resume, r, -, -, -, htasks⟩ := step_answered hs
    rcases queue_step h.bound hs with hqueue | ⟨e', hq, -⟩
    · refine ⟨hqueue ▸ h.reachable, fun task hmem => ?_⟩
      rw [htasks] at hmem
      rw [hqueue]
      exact h.bound task hmem
    · refine ⟨h.reachable.next hq, fun task hmem => ?_⟩
      rw [htasks] at hmem
      exact (h.bound task hmem).step hq
  | killed n =>
    obtain ⟨-, -, hfleet, -, -⟩ := step_killed hs
    rw [hfleet]
    exact h

theorem tasks_step {e : BoardEvent} (hs : Step py cfg b e b') :
    (∃ e', e = .fleet e' ∧ Fleet.Step py cfg b.fleet e' b'.fleet) ∨
      b'.fleet.tasks = b.fleet.tasks := by
  cases e with
  | fleet e =>
    obtain ⟨-, hf, -, -⟩ := step_fleet hs
    exact .inl ⟨e, rfl, hf⟩
  | commented c =>
    cases hs
    exact .inr rfl
  | reconciling =>
    cases hs
    exact .inr rfl
  | answered n reply applied scan now =>
    obtain ⟨rows, q, resume, r, -, -, -, htasks⟩ := step_answered hs
    exact .inr htasks
  | killed n =>
    obtain ⟨-, -, hfleet, -, -⟩ := step_killed hs
    exact .inr (congrArg Fleet.tasks hfleet)

theorem length_tasks_le {e : BoardEvent} (hs : Step py cfg b e b') :
    b.fleet.tasks.length ≤ b'.fleet.tasks.length := by
  rcases tasks_step hs with ⟨e', -, hf⟩ | htasks
  · exact Fleet.length_tasks_le hf
  · rw [htasks]

theorem creator_step {e : BoardEvent} {c : ℤ} (hc : (b.checkRuns.shown c).isSome = true)
    (hs : Step py cfg b e b') : b'.checkRuns.creator c = b.checkRuns.creator c ∧
      (b'.checkRuns.shown c).isSome = true := by
  rcases checkRuns_step hs with hsame | ⟨n, _, _, _, _, _, _, _, c', -, -, hfresh, hcreate, -⟩ |
    ⟨u, hcomplete, -⟩
  · rw [hsame]
    exact ⟨rfl, hc⟩
  · have hne : c ≠ c' := by
      rintro rfl
      rw [hfresh] at hc
      cases hc
    rw [hcreate]
    simp only [CheckRuns.create, if_neg hne]
    exact ⟨trivial, hc⟩
  · rw [hcomplete]
    refine ⟨rfl, ?_⟩
    simp only [CheckRuns.complete]
    split
    · rfl
    · exact hc

theorem created_step {e : BoardEvent} (h : Consistent cfg b) (hs : Step py cfg b e b') (c : ℤ)
    (n : ℕ) (hc : b'.checkRuns.creator c = some n) :
    (b'.checkRuns.shown c).isSome = true ∧ n < b'.fleet.tasks.length := by
  have hold : b.checkRuns.creator c = some n →
      (b'.checkRuns.shown c).isSome = true ∧ n < b'.fleet.tasks.length := by
    intro hcreator
    obtain ⟨hshown, hlt⟩ := h.created c n hcreator
    exact ⟨(creator_step hshown hs).2, hlt.trans_le (length_tasks_le hs)⟩
  rcases checkRuns_step hs with hsame | ⟨n', _, _, _, _, _, _, _, c', -, htask, -, hcreate, -⟩ |
    ⟨u, hcomplete, -⟩
  · exact hold (hsame ▸ hc)
  · rw [hcreate] at hc
    simp only [CheckRuns.create] at hc
    split_ifs at hc with heq
    · have hn : n' = n := Option.some.inj hc
      have hlt : n' < b.fleet.tasks.length := (List.getElem?_eq_some_iff.1 htask).1
      refine ⟨?_, hn ▸ hlt.trans_le (length_tasks_le hs)⟩
      rw [hcreate]
      simp [CheckRuns.create, heq]
    · exact hold hc
  · rw [hcomplete] at hc
    exact hold hc

/-- Where a party comes from: it was there, is new, one answer further, or killed. -/
theorem step_parties {e : BoardEvent} (hs : Step py cfg b e b') {party : Party}
    (hmem : party ∈ b'.parties) : party ∈ b.parties ∨
      (party.rows = [] ∧ party.rest.Obeys reportMonitor (fun _ _ => True) []) ∨
      (∃ rows q resume r, ⟨rows, .ask q resume⟩ ∈ b.parties ∧
        party = ⟨reportMonitor.next rows q r, resume r⟩ ∧
        (party.rows = rows ∨
          ∃ locked now, party.rows = (reconcileStaleJobs cfg locked now b.fleet.queue.db).1)) ∨
      ∃ r, party.rest = .done r := by
  have hnew : ∀ rest, rest.Obeys reportMonitor (fun _ _ => True) [] →
      party ∈ b.parties ++ [⟨[], rest⟩] → party ∈ b.parties ∨
        party.rows = [] ∧ party.rest.Obeys reportMonitor (fun _ _ => True) [] := by
    intro rest hobeys hmem
    rcases List.mem_append.1 hmem with hmem | hmem
    · exact .inl hmem
    · rw [List.mem_singleton.1 hmem]
      exact .inr ⟨rfl, hobeys⟩
  cases e with
  | fleet e =>
    obtain ⟨-, -, -, hparties⟩ := step_fleet hs
    exact .inl (hparties ▸ hmem)
  | commented c =>
    cases hs
    have hobeys : (commentWebhook c ()).Obeys reportMonitor (fun _ _ => True) [] :=
      (quiet_commentWebhook c ()).mono fun _ _ _ _ => trivial
    exact (hnew _ hobeys hmem).imp_right .inl
  | reconciling =>
    cases hs
    exact (hnew _ reconciliation_obeys hmem).imp_right .inl
  | answered n reply applied scan now =>
    obtain ⟨rows, q, resume, r, hparty, hserve, hparties, -⟩ := step_answered hs
    rw [hparties] at hmem
    rcases List.mem_or_eq_of_mem_set hmem with hmem | rfl
    · exact .inl hmem
    · refine .inr (.inr (.inl ⟨rows, q, resume, r, List.mem_of_getElem? hparty, rfl, ?_⟩))
      exact ((serve_eq hserve).2.2 rows).imp_right fun h => ⟨scan.locked, now, h⟩
  | killed n =>
    obtain ⟨party₀, -, -, -, hparties⟩ := step_killed hs
    rw [hparties] at hmem
    rcases List.mem_or_eq_of_mem_set hmem with hmem | rfl
    · exact .inl hmem
    · exact .inr (.inr (.inr ⟨_, rfl⟩))

theorem consistent_step {e : BoardEvent} (h : Consistent cfg b) (hs : Step py cfg b e b') :
    Consistent cfg b' := by
  have hcreator : ∀ c n, b.checkRuns.creator c = some n → b'.checkRuns.creator c = some n :=
    fun c n hc => (creator_step (h.created c n hc).1 hs).1.trans hc
  refine ⟨coupled_step h.coupled hs, fun n task htask => ?_, fun party hmem => ?_,
    created_step h hs⟩
  · have hkept : b.fleet.tasks[n]? = some task → ∃ m,
        task.rest.Obeys ownMonitor (fun _ _ => True) m ∧
        ∀ c, m = some c → b'.checkRuns.creator c = some n := by
      intro hsame
      obtain ⟨m, hobeys, hm⟩ := h.own n task hsame
      exact ⟨m, hobeys, fun c hc => hcreator c n (hm c hc)⟩
    rcases tasks_step hs with ⟨e, rfl, hf⟩ | htasks
    · rcases Fleet.step_tasks hf htask with hsame | ⟨worker, _, now, c, -, -, -, rfl⟩ |
        ⟨id, token, q, resume, reply, applied, now, rfl, hasked, rfl⟩ | ⟨task₀, -, rfl⟩
      · exact hkept hsame
      · exact ⟨none, tracks_processJob.mono fun _ _ _ _ => trivial, nofun⟩
      · obtain ⟨m, hobeys, hm⟩ := h.own n _ hasked
        obtain ⟨-, -, hpublish, -⟩ := step_fleet hs
        have hrequest : b.fleet.request n = some q := by simp [Fleet.request, hasked]
        simp only [publish, hrequest] at hpublish
        refine ⟨_, hobeys.2 (reply q), fun c hc => ?_⟩
        rcases CheckRuns.creator_of_next hpublish hc with hold | hnew
        · exact hcreator c n (hm c hold)
        · exact hnew
      · exact ⟨none, trivial, nofun⟩
    · exact hkept (htasks ▸ htask)
  · rcases step_parties hs hmem with hold | ⟨hrows, hobeys⟩ |
      ⟨rows, q, resume, r, hasked, rfl, -⟩ | ⟨r, hdone⟩
    · exact h.reports party hold
    · rw [hrows]
      exact hobeys
    · exact (h.reports _ hasked).2 r
    · rw [hdone]
      trivial

end Board

end Revix
