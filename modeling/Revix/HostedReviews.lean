import Revix.ConcurrentSwarm
import Revix.SandboxRuns
import Revix.ToolTranscripts

/-! `analyze_diff` with its calls under way at the same time and each step of its sandboxes a
call. The calls for a file do not wait: that others may come in between only adds orders of
events. -/
namespace Revix
open EffectPrograms EffectSessions GatheredPrograms HandledPrograms LabelledRuns

abbrev HostPool : Type 1 :=
  Pool HostCall (fun q => Except Raised q.Answer) (Except Raised ReviewResult)

/-- The calls in `async with self.semaphore`. -/
def HostCall.gated : HostCall → Bool
  | .completion _ => true
  | _ => false

section Hosted

variable (undecodable : ByteArray → String) (lib : Libraries) (models : Settings)
  (cfg : SwarmSettings)

/-- `analyze_diff` with the steps of its sandboxes. -/
def hostedFlow (prFiles : List PullFile) (prDetails : Dict) :
    Flow HostCall (fun q => Except Raised q.Answer) (Except Raised ReviewResult) :=
  handledFlow (serveSwarm undecodable) (analysisFlow lib models cfg prFiles prDetails)

def startHosted (aiConcurrency : ℕ) (reviews : List (List PullFile × Dict)) : HostPool :=
  .start aiConcurrency
    ((reviews.map fun review => analysisFlow lib models cfg review.1 review.2).map
      (handledFlow (serveSwarm undecodable)))

abbrev HostStep : HostPool → ℕ × Action HostCall (fun q => Except Raised q.Answer) →
    HostPool → Prop :=
  Pool.Step HostCall.gated

end Hosted

section Runs

variable {undecodable : ByteArray → String} {lib : Libraries} {models : Settings}
  {cfg : SwarmSettings} {aiConcurrency : ℕ} {reviews : List (List PullFile × Dict)} {p : HostPool}
  {es : List (ℕ × Action HostCall (fun q => Except Raised q.Answer))}

section Agents

variable {i j : ℕ} {prFiles : List PullFile} {prDetails : Dict} {α : Type}
  {tasks : List (GatheredPrograms.Task HostCall (fun q => Except Raised q.Answer) α)}
  {next : List α → Flow HostCall (fun q => Except Raised q.Answer) (Except Raised ReviewResult)}
  {t : GatheredPrograms.Task HostCall (fun q => Except Raised q.Answer) α}

/-- However the reviews interleave and whatever is answered, each agent uses the sandbox as it is
meant, and gives back its file before it is done. -/
theorem agents_sandboxed
    (h : Run HostStep (startHosted undecodable lib models cfg aiConcurrency reviews) es p)
    (hreview : reviews[i]? = some (prFiles, prDetails))
    (hflow : p.flows[i]? = some (.gather tasks next)) (ht : tasks[j]? = some t) :
    ∃ progs prog phase,
      (hostedFlow undecodable lib models cfg prFiles prDetails).Reaches (.gather progs next) ∧
      progs[j]? = some prog ∧
      Run (Session (follow (sandboxMonitor undecodable))) (.idle, prog) (answersTo i j es)
        (phase, t.prog) ∧
      (∀ q resume, t.prog = .ask q resume → (sandboxMonitor undecodable).allows phase q) ∧
      ∀ a, t.prog = .done a → phase = .idle := by
  have hserve : ∀ q phase, phase = SandboxPhase.idle → (serveSwarm undecodable q).Obeys
      (sandboxMonitor undecodable) (fun phase _ => phase = .idle) phase := by
    rintro q phase rfl
    exact serveSwarm_obeys q
  obtain ⟨progs, prog, phase, hreaches, hprog, hrun, hobeys⟩ :=
    obeys_of_run hserve rfl h (by rw [List.getElem?_map, hreview, Option.map_some]) hflow ht
  refine ⟨progs, prog, phase, hreaches, hprog, hrun, fun q resume hask => ?_, fun a hdone => ?_⟩
  · rw [hask] at hobeys
    exact hobeys.1
  · rw [hdone] at hobeys
    exact hobeys

/-- An agent runs a script outside gVisor exactly when its last call was the run in gVisor and
docker has reported that there is none, which a script can bring about. -/
theorem outside_gvisor_iff
    (h : Run HostStep (startHosted undecodable lib models cfg aiConcurrency reviews) es p)
    (hreview : reviews[i]? = some (prFiles, prDetails))
    (hflow : p.flows[i]? = some (.gather tasks next)) (ht : tasks[j]? = some t) {q : HostCall}
    {resume : Except Raised q.Answer → HostProg α} (hask : t.prog = .ask q resume) :
    ∃ progs prog log,
      (hostedFlow undecodable lib models cfg prFiles prDetails).Reaches (.gather progs next) ∧
      progs[j]? = some prog ∧
      Run (Session noting) ([], prog) (answersTo i j es) (log, .ask q resume) ∧
      (OutsideGvisor q ↔ LastRunMissing log) := by
  have hstart : ¬ LastRunMissing [] := by
    rintro ⟨_, _, hlast, -⟩
    cases hlast
  obtain ⟨progs, prog, log, hreaches, hprog, hrun, hobeys⟩ :=
    obeys_of_run (fun q log => serveSwarm_falls_back q) hstart h
      (by rw [List.getElem?_map, hreview, Option.map_some]) hflow ht
  rw [hask] at hrun hobeys
  exact ⟨progs, prog, log, hreaches, hprog, hrun, hobeys.1⟩

end Agents

theorem calls_raising {α : Type} {P : HostCall → Prop} (x : Except String α) :
    (raising x).Calls P := by
  cases x with
  | error text => exact Script.calls_throw _
  | ok a => exact Script.calls_pure a

/-- The calls of the sandbox hold no permit. -/
theorem calls_hostCall {q : HostCall} (hq : q.gated = false) :
    (Script.request q : HostScript q.Answer).Calls (HostCall.gated · = false) :=
  Script.calls_request hq

theorem calls_executeScript (name : String) :
    (executeScript undecodable name).Calls (HostCall.gated · = false) := by
  refine Script.Calls.tryCatch ((calls_hostCall rfl).bind fun proc =>
    (calls_raising _).bind fun missing => ?_) fun e => ?_
  · cases missing with
    | true => exact (calls_hostCall rfl).bind fun proc => calls_raising _
    | false => exact calls_raising _
  · cases e with
    | cancelled => exact Script.calls_throw _
    | exception e => exact Script.calls_pure _

theorem calls_runInSandbox (script : Json) :
    (runInSandbox undecodable script).Calls (HostCall.gated · = false) := by
  refine (calls_hostCall (q := .createFile) rfl).bind fun name =>
    Script.Calls.finallyDo ?_ (calls_hostCall (q := .deleteFile name) rfl)
  cases script with
  | str text =>
    exact (calls_hostCall (q := .writeFile name text) rfl).bind fun _ => calls_executeScript name
  | null => exact Script.calls_throw _
  | bool b => exact Script.calls_throw _
  | int n => exact Script.calls_throw _
  | float text => exact Script.calls_throw _
  | arr xs => exact Script.calls_throw _
  | obj fields => exact Script.calls_throw _

/-- A completion is one call, and a call of the sandbox waits for no permit. -/
theorem serves_serveSwarm : Serves isCompletion HostCall.gated (serveSwarm undecodable) := by
  intro q
  cases q with
  | completion c => exact ⟨⟨_, _, rfl⟩, rfl, fun _ r => ⟨r, rfl⟩, fun r => trivial⟩
  | sandbox script =>
    have hcalls : (serveSwarm undecodable (.sandbox script)).Obeys
        (Script.callMonitor (HostCall.gated · = false)) (fun _ _ => True) () :=
      Prog.obeys_bind.2 (Prog.Obeys.mono (fun _ _ _ => trivial) (calls_runInSandbox script ()))
    exact ⟨⟨_, _, rfl⟩, keepsGate_of_obeys (fun _ q hq => hq) hcalls⟩

def HostUncancelled (es : List (ℕ × Action HostCall (fun q => Except Raised q.Answer))) : Prop :=
  ∀ e ∈ es, ∀ reply ∈ e.2.replies, ∀ q, reply q ≠ .error .cancelled

/-- What is answered to the calls that are not on their way. -/
def unasked (q : SwarmCall) : Except Raised q.Answer := .error (.exception ⟨"", none⟩)

/-- Every run of the reviews with the steps of their sandboxes is a run in which a call of the
sandbox is one call, answered at its last step by what `_run_in_sandbox` makes of the answers to
its steps. Unless a call is cancelled, an analysis then ends as `analyzeDiff` does. -/
theorem sandboxes_refine
    (h : Run HostStep (startHosted undecodable lib models cfg aiConcurrency reviews) es p) :
    ∃ (ls : List _) (caller : SwarmPool) (replies : _), ls.map Prod.fst = es ∧
      Run (Hosted (serveSwarm undecodable) unasked isCompletion HostCall.gated)
        ⟨startHosted undecodable lib models cfg aiConcurrency reviews,
          startReviews lib models cfg aiConcurrency reviews, fun _ _ => []⟩ ls
        ⟨p, caller, replies⟩ ∧
      Run ReviewStep (startReviews lib models cfg aiConcurrency reviews) (ls.filterMap Prod.snd)
        caller ∧
      (∀ (i : ℕ) (r : Except Raised ReviewResult),
        p.flows[i]? = some (.done r) ↔ caller.flows[i]? = some (.done r)) ∧
      (HostUncancelled es → NoneCancelled (ls.filterMap Prod.snd) ∧
        ∀ (i : ℕ) (r : Except Raised ReviewResult), p.flows[i]? = some (.done r) →
          ∃ prFiles prDetails rs,
          reviews[i]? = some (prFiles, prDetails) ∧
          (∀ reply ∈ rs, ∀ q, reply q ≠ .error .cancelled) ∧
          Run (Session swarm) ((), analyzeDiff lib models cfg prFiles prDetails ()) rs
            ((), .done (r, ()))) := by
  obtain ⟨ls, ⟨_, caller, replies⟩, rfl, hls, hrun, hagrees⟩ := exists_run_hosted
    serves_serveSwarm unasked (agrees_start (serveSwarm undecodable) aiConcurrency _) h
  have hcaller : Run ReviewStep (startReviews lib models cfg aiConcurrency reviews)
      (ls.filterMap Prod.snd) caller := caller_run hrun
  refine ⟨ls, caller, replies, hls, hrun, hcaller, fun i r => hagrees.done_iff i r,
    fun huncancelled => ?_⟩
  have hnone : NoneCancelled (ls.filterMap Prod.snd) := by
    refine replies_of_hosted (G := fun reply : HostReply => ∀ q, reply q ≠ .error .cancelled)
      (P := fun q r => r ≠ .error .cancelled) (fun q hq => by cases hq) uncancelled_serveSwarm hrun
      (fun _ _ _ hr => nomatch hr) fun l hl => huncancelled l.1 ?_
    rw [← hls]
    exact List.mem_map_of_mem hl
  refine ⟨hnone, fun i r hr => ?_⟩
  obtain ⟨f, hflow, rs, hperm, hend⟩ := Pool.completes_of_run hcaller
    ((hagrees.done_iff i r).1 hr)
  rw [List.getElem?_map] at hflow
  obtain ⟨⟨prFiles, prDetails⟩, hreview, rfl⟩ := Option.map_eq_some_iff.1 hflow
  have hrs : ∀ reply ∈ rs, ∀ q, reply q ≠ .error .cancelled :=
    fun reply hreply => hnone.repliesTo i (hperm.subset hreply)
  exact ⟨prFiles, prDetails, rs, hreview, hrs, completes_analyzeDiff hrs hend⟩

end Runs

namespace Sample

def routingReply : String := "[\"SecurityAgent\", \"VerificationAgent\"]"

def routingPython : Python where
  loads text := if text = routingReply then
    .ok (.arr [.str "SecurityAgent", .str "VerificationAgent"])
    else .error "Expecting value: line 1 column 1 (char 0)"
  int := python.int

def executing : Libraries := { reviewing with python := routingPython, dumps := agents.dumps }

/-- What docker ends with on a host without gVisor. -/
def withoutRunsc : Process :=
  ⟨125, ByteArray.empty, "docker: Error response from daemon: Unknown runtime specified.".toUTF8⟩

/-- The verification runs a script, and each of the two agents submits a finding. -/
def hostReply : HostReply
  | .completion c =>
    if c.tools = [] then .ok ⟨some routingReply, []⟩
    else if c.tools = ["synthesize_review"] then
      .ok ⟨none, [⟨"call_3", "synthesize_review",
        .obj [("global_summary", .str "One defect."), ("global_score", .int 60)]⟩]⟩
    else if "run_in_sandbox" ∈ c.tools ∧ c.messages.length = 2 then
      .ok ⟨none, [scriptCall "call_1"]⟩
    else .ok ⟨none, [⟨"call_2", "submit_review", .obj
      [("summary", .str "One defect."), ("score", .int 60), ("comments", .arr [eviction])]⟩]⟩
  | .createFile => .ok "/tmp/script.py"
  | .writeFile _ _ => .ok ()
  | .execute cmd =>
    .ok (if "--runtime=runsc" ∈ cmd then withoutRunsc else ⟨0, ByteArray.empty, ByteArray.empty⟩)
  | .deleteFile _ => .ok ()

def hostedReview : HostPool := startHosted (fun _ => "") executing {} {} 2 [([changed], [])]

/-- The verification has its script run while the other agent waits for its model. -/
def runningScript : List (ℕ × Action HostCall (fun q => Except Raised q.Answer)) :=
  [(0, .sent 0), (0, .answered 0 hostReply), (0, .joined), (0, .sent 1),
    (0, .answered 1 hostReply), (0, .sent 1), (0, .answered 1 hostReply), (0, .sent 1),
    (0, .answered 1 hostReply), (0, .sent 0), (0, .sent 1)]

def runningAgain : List (ℕ × Action HostCall (fun q => Except Raised q.Answer)) :=
  runningScript ++ [(0, .answered 1 hostReply), (0, .sent 1)]

def ending : List (ℕ × Action HostCall (fun q => Except Raised q.Answer)) :=
  runningAgain ++ [(0, .answered 1 hostReply), (0, .sent 1), (0, .answered 1 hostReply),
    (0, .sent 1), (0, .answered 1 hostReply), (0, .answered 0 hostReply), (0, .joined),
    (0, .sent 0), (0, .answered 0 hostReply), (0, .joined)]

def executors : List (String × Option String) :=
  [("lru.py", some "SecurityAgent"), ("lru.py", some "VerificationAgent")]

theorem ending_uncancelled : HostUncancelled ending := by
  have hreply : ∀ e ∈ ending, ∀ reply ∈ e.2.replies, reply = hostReply := by
    simp [ending, runningAgain, runningScript, Action.replies]
  intro e he reply hmem q
  rw [hreply e he reply hmem]
  cases q with
  | completion c =>
    simp only [hostReply]
    split_ifs <;> simp
  | createFile => simp [hostReply]
  | writeFile name text => simp [hostReply]
  | execute cmd => simp [hostReply]
  | deleteFile name => simp [hostReply]

end Sample

/-- The file of one agent is there while a model is called by the other. -/
theorem agents_sandboxed_running : ∃ (p : HostPool) (α : Type)
    (tasks : List (GatheredPrograms.Task HostCall (fun q => Except Raised q.Answer) α)) (next : _)
    (t : _) (progs : _) (prog : _) (phase : _),
    Run HostStep Sample.hostedReview Sample.runningScript p ∧
    p.inFlight.map HostCall.gated = [true, false] ∧
    p.flows[0]? = some (.gather tasks next) ∧ tasks[1]? = some t ∧
    (hostedFlow (fun _ => "") Sample.executing {} {} [Sample.changed] []).Reaches
      (.gather progs next) ∧
    progs[1]? = some prog ∧
    Run (Session (follow (sandboxMonitor fun _ => ""))) (.idle, prog)
      (answersTo 0 1 Sample.runningScript) (phase, t.prog) ∧
    (∀ q resume, t.prog = .ask q resume → (sandboxMonitor fun _ => "").allows phase q) ∧
    ∀ a, t.prog = .done a → phase = .idle := by
  obtain ⟨p, hrun, hp⟩ := exists_run_of_replay (Pool.next HostCall.gated)
    (p := fun p => p.inFlight.map HostCall.gated = [true, false] ∧
      ((p.flows[0]?.bind (Running.waiting 1)).isSome = true))
    (show (replay (Pool.next HostCall.gated) Sample.hostedReview Sample.runningScript).any _ = true by
      decide)
  obtain ⟨hflight, hwaits⟩ := of_decide_eq_true hp
  obtain ⟨q, hq⟩ := Option.isSome_iff_exists.1 hwaits
  obtain ⟨f, hf, hwaiting⟩ := Option.bind_eq_some_iff.1 hq
  obtain ⟨α, tasks, next, t, resume, rfl, ht, -⟩ := exists_of_waiting hwaiting
  obtain ⟨progs, prog, phase, h⟩ := agents_sandboxed (i := 0) hrun rfl hf ht
  exact ⟨p, α, tasks, next, t, progs, prog, phase, hrun, hflight, hf, ht, h⟩

/-- The script is on its way outside gVisor, for the status that docker has ended with. -/
theorem outside_gvisor_iff_again : ∃ (p : HostPool) (α : Type)
    (tasks : List (GatheredPrograms.Task HostCall (fun q => Except Raised q.Answer) α)) (next : _)
    (t : _) (q : HostCall) (resume : _) (progs : _) (prog : _) (log : HostLog),
    Run HostStep Sample.hostedReview Sample.runningAgain p ∧
    p.flows[0]? = some (.gather tasks next) ∧ tasks[1]? = some t ∧ t.prog = .ask q resume ∧
    (hostedFlow (fun _ => "") Sample.executing {} {} [Sample.changed] []).Reaches
      (.gather progs next) ∧
    progs[1]? = some prog ∧
    Run (Session noting) ([], prog) (answersTo 0 1 Sample.runningAgain) (log, .ask q resume) ∧
    OutsideGvisor q ∧ LastRunMissing log := by
  obtain ⟨p, hrun, hp⟩ := exists_run_of_replay (Pool.next HostCall.gated)
    (p := fun p => (p.flows[0]?.bind (Running.waiting 1)).any fun q => OutsideGvisor q)
    (show (replay (Pool.next HostCall.gated) Sample.hostedReview Sample.runningAgain).any _ = true by
      decide)
  obtain ⟨q, hq, houtside⟩ := (Option.any_eq_true _ _).1 hp
  obtain ⟨f, hf, hwaiting⟩ := Option.bind_eq_some_iff.1 hq
  obtain ⟨α, tasks, next, t, resume, rfl, ht, hask⟩ := exists_of_waiting hwaiting
  obtain ⟨progs, prog, log, hreaches, hprog, hlog, hiff⟩ :=
    outside_gvisor_iff (i := 0) hrun rfl hf ht hask
  have houtside : OutsideGvisor q := of_decide_eq_true houtside
  exact ⟨p, α, tasks, next, t, q, resume, progs, prog, log, hrun, hf, ht, hask, hreaches, hprog,
    hlog, houtside, hiff.1 houtside⟩

/-- The review with both findings is one of the analysis that calls the sandbox once. -/
theorem sandboxes_refine_ending : ∃ (p : HostPool) (review : ReviewResult) (ls : List _)
    (caller : SwarmPool) (replies : _) (rs : List SwarmReply),
    Run HostStep Sample.hostedReview Sample.ending p ∧
    p.flows[0]? = some (.done (.ok review)) ∧
    Sample.reporters review = Sample.executors ∧
    ls.map Prod.fst = Sample.ending ∧
    Run (Hosted (serveSwarm fun _ => "") unasked isCompletion HostCall.gated)
      ⟨Sample.hostedReview, startReviews Sample.executing {} {} 2 [([Sample.changed], [])],
        fun _ _ => []⟩ ls ⟨p, caller, replies⟩ ∧
    Run ReviewStep (startReviews Sample.executing {} {} 2 [([Sample.changed], [])])
      (ls.filterMap Prod.snd) caller ∧
    caller.flows[0]? = some (.done (.ok review)) ∧ NoneCancelled (ls.filterMap Prod.snd) ∧
    (∀ reply ∈ rs, ∀ q, reply q ≠ .error .cancelled) ∧
    Run (Session swarm) ((), analyzeDiff Sample.executing {} {} [Sample.changed] [] ()) rs
      ((), .done (.ok review, ())) := by
  obtain ⟨p, hrun, hp⟩ := exists_run_of_replay (Pool.next HostCall.gated)
    (p := fun p => (p.flows[0]?.bind Running.outcome).any fun r => r.toOption.any fun review =>
      Sample.reporters review = Sample.executors)
    (show (replay (Pool.next HostCall.gated) Sample.hostedReview Sample.ending).any _ = true by
      decide)
  obtain ⟨_ | review, hr, hreporters⟩ := (Option.any_eq_true _ _).1 hp
  · cases hreporters
  obtain ⟨f, hf, hdone⟩ := Option.bind_eq_some_iff.1 hr
  have hflow : p.flows[0]? = some (.done (.ok review)) := by
    rw [hf, Running.eq_done_of_outcome hdone]
  obtain ⟨ls, caller, replies, hls, hhosted, hcaller, hiff, hend⟩ := sandboxes_refine hrun
  obtain ⟨hnone, hends⟩ := hend Sample.ending_uncancelled
  obtain ⟨prFiles, prDetails, rs, hfiles, hrs, hanalysis⟩ := hends 0 _ hflow
  cases hfiles
  exact ⟨p, review, ls, caller, replies, rs, hrun, hflow, of_decide_eq_true hreporters, hls, hhosted,
    hcaller, (hiff 0 _).1 hflow, hnone, hrs, hanalysis⟩

end Revix
