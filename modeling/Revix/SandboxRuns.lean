import Revix.HandledPrograms
import Revix.SwarmFindings

/-! `_run_in_sandbox` with its file and its commands. The text that `str(e)` makes of bytes that
are not UTF-8 is an argument. -/
namespace Revix
open EffectPrograms EffectSessions GatheredPrograms HandledPrograms LabelledRuns

structure Process where
  returncode : ℤ
  stdout : ByteArray
  stderr : ByteArray

inductive HostCall
  | completion (c : Completion)
  /-- `NamedTemporaryFile(suffix=".py", mode="w")`, answered by the name. -/
  | createFile
  | writeFile (name text : String)
  /-- `create_subprocess_exec` and `communicate` -/
  | execute (cmd : List String)
  /-- The end of the `with` statement. -/
  | deleteFile (name : String)

abbrev HostCall.Answer : HostCall → Type
  | .completion _ => AssistantMessage
  | .createFile => String
  | .writeFile _ _ => Unit
  | .execute _ => Process
  | .deleteFile _ => Unit

abbrev HostScript (α : Type) : Type :=
  EffectPrograms.Script HostCall HostCall.Answer Raised Unit α

abbrev HostProg (α : Type) : Type := Prog HostCall (fun q => Except Raised q.Answer) α

def dockerCommand (name : String) : List String :=
  ["docker", "run", "--rm", "--runtime=runsc", "--network=none", "-v",
    name ++ ":/app/test.py:ro", "python:3.11-slim", "python", "/app/test.py"]

/-- `type(v).__name__` of a decoded value. -/
def Json.typeName : Json → String
  | .null => "NoneType"
  | .bool _ => "bool"
  | .int _ => "int"
  | .float _ => "float"
  | .str _ => "str"
  | .arr _ => "list"
  | .obj _ => "dict"

section Sandbox

variable (undecodable : ByteArray → String)

/-- `b.decode()` -/
def decodeBytes (b : ByteArray) : Except String String :=
  match String.fromUTF8? b with
  | some text => .ok text
  | none => .error (undecodable b)

/-- `proc.returncode == 125 or "Unknown runtime" in stderr.decode()` -/
def runtimeMissing (proc : Process) : Except String Bool :=
  if proc.returncode = 125 then .ok true
  else (decodeBytes undecodable proc.stderr).map fun text =>
    occursIn "Unknown runtime".toList text.toList

/-- What `_run_in_sandbox` returns of a process. -/
def processReport (proc : Process) : Except String Dict := do
  let stdout ← decodeBytes undecodable proc.stdout
  let stderr ← decodeBytes undecodable proc.stderr
  return [("exit_code", .int proc.returncode), ("stdout", .str stdout), ("stderr", .str stderr)]

def raising {α : Type} : Except String α → HostScript α
  | .ok a => Script.pure a
  | .error text => Script.throw (.exception ⟨text, none⟩)

/-- The `try` statement of `_run_in_sandbox`. -/
def executeScript (name : String) : HostScript Dict :=
  tryExcept (do
      let proc ← Script.request (HostCall.execute (dockerCommand name))
      if ← raising (runtimeMissing undecodable proc) then
        let proc ← Script.request
          (HostCall.execute ((dockerCommand name).erase "--runtime=runsc"))
        raising (processReport undecodable proc)
      else raising (processReport undecodable proc))
    fun e => Script.pure [("error", .str e.text)]

def runInSandbox (script : Json) : HostScript Dict := do
  let name ← Script.request HostCall.createFile
  Script.finallyDo (match script with
    | .str text => do
      Script.request (HostCall.writeFile name text)
      executeScript undecodable name
    | v => Script.throw (.exception ⟨"write() argument must be str, not " ++ v.typeName, none⟩))
    (Script.request (HostCall.deleteFile name))

def serveSwarm : (q : SwarmCall) → HostProg (Except Raised q.Answer)
  | .completion c => .ask (HostCall.completion c) .done
  | .sandbox script => (runInSandbox undecodable script ()).bind fun r => .done r.1

/-! ## What the sandbox is for -/

inductive SandboxPhase
  | idle
  | created (name : String)
  | written (name : String)
  /-- It has been run once. -/
  | ran (name : String) (proc : Process)
  | finished (name : String)

/-- Every script is run in the sandbox, from a file of its own that is deleted afterwards. It is run
a second time, without gVisor but still without network, exactly when the first run says that
there is no gVisor. -/
def sandboxMonitor : Monitor HostCall (fun q => Except Raised q.Answer) SandboxPhase where
  allows phase q := match phase, q with
    | .idle, .completion _ => True
    | .idle, .createFile => True
    | .created name, .writeFile name' _ => name' = name
    | .created name, .deleteFile name' => name' = name
    | .written name, .execute cmd => cmd = dockerCommand name
    | .ran name proc, .execute cmd => runtimeMissing undecodable proc = .ok true ∧
        cmd = ["docker", "run", "--rm", "--network=none", "-v", name ++ ":/app/test.py:ro",
          "python:3.11-slim", "python", "/app/test.py"]
    | .ran name proc, .deleteFile name' => runtimeMissing undecodable proc ≠ .ok true ∧ name' = name
    | .finished name, .deleteFile name' => name' = name
    | _, _ => False
  next phase q r := match phase, q, r with
    | .idle, .createFile, .ok name => .created name
    | .created name, .writeFile _ _, .ok _ => .written name
    | .created name, .writeFile _ _, .error _ => .finished name
    | .written name, .execute _, .ok proc => .ran name proc
    | .written name, .execute _, .error _ => .finished name
    | .ran name _, .execute _, _ => .finished name
    | _, .deleteFile _, _ => .idle
    | phase, _, _ => phase

end Sandbox

section Monitored

variable {undecodable : ByteArray → String} {name : String}

def Deletable (undecodable : ByteArray → String) (name : String) (phase : SandboxPhase) : Prop :=
  (sandboxMonitor undecodable).allows phase (.deleteFile name)

theorem dockerCommand_erase (name : String) : (dockerCommand name).erase "--runtime=runsc" =
    ["docker", "run", "--rm", "--network=none", "-v", name ++ ":/app/test.py:ro",
      "python:3.11-slim", "python", "/app/test.py"] := rfl

/-- An exception in the `try` statement is turned into a report. -/
theorem obeys_reported {M : Type*} {mon : Monitor HostCall (fun q => Except Raised q.Answer) M}
    {R : M → Prop} {x : HostScript Dict} {m : M}
    (hx : x.Obeys mon (fun m _ _ => R m) m ()) :
    (tryExcept x fun e => Script.pure [("error", .str e.text)]).Obeys mon
      (fun m _ _ => R m) m () := by
  refine Script.obeys_tryCatch.2 (hx.mono fun m s r hm => ?_)
  rcases r with (e | _) | d
  · exact hm
  · exact hm
  · exact hm

theorem obeys_raising {M : Type*} {mon : Monitor HostCall (fun q => Except Raised q.Answer) M}
    {R : M → Prop} {α : Type} {x : Except String α} {m : M} (h : R m) :
    (raising x).Obeys mon (fun m _ _ => R m) m () := by
  cases x with
  | error text => exact h
  | ok a => exact h

/-- The run without gVisor is the last one. -/
theorem obeys_rerun {M : Type*} {mon : Monitor HostCall (fun q => Except Raised q.Answer) M}
    {R : M → Prop} {m : M}
    (hallows : mon.allows m (.execute ((dockerCommand name).erase "--runtime=runsc")))
    (hnext : ∀ r, R (mon.next m (.execute ((dockerCommand name).erase "--runtime=runsc")) r)) :
    (do
      let proc ← Script.request (HostCall.execute ((dockerCommand name).erase "--runtime=runsc"))
      raising (processReport undecodable proc) : HostScript Dict).Obeys mon
        (fun m _ _ => R m) m () := by
  refine Script.obeys_bind.2 (Script.obeys_request.2 ⟨hallows, fun r => ?_⟩)
  cases r with
  | error e => exact hnext _
  | ok proc => exact obeys_raising (hnext _)

theorem executeScript_obeys : (executeScript undecodable name).Obeys (sandboxMonitor undecodable)
    (fun m _ _ => Deletable undecodable name m) (.written name) () := by
  refine obeys_reported (Script.obeys_bind.2 (Script.obeys_request.2 ⟨rfl, fun r => ?_⟩))
  cases r with
  | error e => exact (rfl : name = name)
  | ok proc =>
    refine Script.obeys_bind.2 ?_
    cases hmissing : runtimeMissing undecodable proc with
    | error text => exact ⟨by rw [hmissing]; nofun, rfl⟩
    | ok missing =>
      cases missing with
      | false => exact obeys_raising ⟨by rw [hmissing]; nofun, rfl⟩
      | true =>
        exact obeys_rerun (R := Deletable undecodable name) ⟨hmissing, dockerCommand_erase name⟩
          fun _ => rfl

/-- Whatever a script ends with, it gives back its file. -/
theorem obeys_given_back {M : Type*} {mon : Monitor HostCall (fun q => Except Raised q.Answer) M}
    {R D : M → Prop} {x : HostScript Dict} {m : M} (hx : x.Obeys mon (fun m _ _ => D m) m ())
    (hdelete : ∀ m, D m → mon.allows m (.deleteFile name) ∧
      ∀ r, R (mon.next m (.deleteFile name) r)) :
    (x.finallyDo (Script.request (HostCall.deleteFile name))).Obeys mon (fun m _ _ => R m) m () := by
  refine Script.obeys_finallyDo.2 (hx.mono fun m s r hm =>
    Script.obeys_request.2 ⟨(hdelete m hm).1, fun r' => ?_⟩)
  have hgiven := (hdelete m hm).2 r'
  cases r' with
  | error e => exact hgiven
  | ok _ => exact hgiven

/-- From the creation of the file, `C` holds until it is written and `D` until it is given back. -/
theorem obeys_runInSandbox {M : Type*} {mon : Monitor HostCall (fun q => Except Raised q.Answer) M}
    {R : M → Prop} {C D : String → M → Prop} {m : M} (script : Json)
    (hcreate : mon.allows m .createFile)
    (hraised : ∀ e, R (mon.next m .createFile (.error e)))
    (hcreated : ∀ name, C name (mon.next m .createFile (.ok name)))
    (hunwritten : ∀ name m, C name m → D name m)
    (hwrite : ∀ name text m, C name m → mon.allows m (.writeFile name text) ∧
      (∀ e, D name (mon.next m (.writeFile name text) (.error e))) ∧
      (executeScript undecodable name).Obeys mon (fun m _ _ => D name m)
        (mon.next m (.writeFile name text) (.ok ())) ())
    (hdelete : ∀ name m, D name m → mon.allows m (.deleteFile name) ∧
      ∀ r, R (mon.next m (.deleteFile name) r)) :
    (runInSandbox undecodable script).Obeys mon (fun m _ _ => R m) m () := by
  refine Script.obeys_bind.2 (Script.obeys_request.2 ⟨hcreate, fun r => ?_⟩)
  cases r with
  | error e => exact hraised e
  | ok name =>
    have hnext := hcreated name
    refine obeys_given_back (D := D name) ?_ (hdelete name)
    cases script with
    | str text =>
      obtain ⟨hallows, hfails, hexecutes⟩ := hwrite name text _ hnext
      refine Script.obeys_bind.2 (Script.obeys_request.2 ⟨hallows, fun r => ?_⟩)
      cases r with
      | error e => exact hfails e
      | ok _ => exact hexecutes
    | null => exact hunwritten _ _ hnext
    | bool b => exact hunwritten _ _ hnext
    | int n => exact hunwritten _ _ hnext
    | float text => exact hunwritten _ _ hnext
    | arr xs => exact hunwritten _ _ hnext
    | obj fields => exact hunwritten _ _ hnext

/-- A call of the sandbox leaves nothing behind. -/
theorem runInSandbox_obeys (script : Json) : (runInSandbox undecodable script).Obeys
    (sandboxMonitor undecodable) (fun m _ _ => m = .idle) .idle () := by
  refine obeys_runInSandbox (C := fun name m => m = .created name) (D := Deletable undecodable)
    script trivial (fun _ => rfl) (fun _ => rfl) ?_ ?_ fun name m hm => ⟨hm, fun r => ?_⟩
  · rintro name m rfl
    exact (rfl : name = name)
  · rintro name text m rfl
    exact ⟨rfl, fun _ => (rfl : name = name), executeScript_obeys⟩
  · cases m <;> rfl

theorem serveSwarm_obeys (q : SwarmCall) : (serveSwarm undecodable q).Obeys
    (sandboxMonitor undecodable) (fun m _ => m = .idle) .idle := by
  cases q with
  | completion c => exact ⟨trivial, fun r => by cases r <;> rfl⟩
  | sandbox script =>
    exact Prog.obeys_bind.2 (Prog.Obeys.mono (fun m r hm => hm) (runInSandbox_obeys script))

end Monitored

/-! ## Outside gVisor -/

/-- A docker command that does not ask for gVisor. -/
def OutsideGvisor : HostCall → Prop
  | .execute cmd => "--runtime=runsc" ∉ cmd
  | _ => False

instance : DecidablePred OutsideGvisor
  | .execute cmd => inferInstanceAs (Decidable ("--runtime=runsc" ∉ cmd))
  | .completion _ => inferInstanceAs (Decidable False)
  | .createFile => inferInstanceAs (Decidable False)
  | .writeFile _ _ => inferInstanceAs (Decidable False)
  | .deleteFile _ => inferInstanceAs (Decidable False)

/-- Docker ends with the status 125, or writes about an unknown runtime in UTF-8. -/
def ReportsMissing (proc : Process) : Prop :=
  proc.returncode = 125 ∨ ∃ text, String.fromUTF8? proc.stderr = some text ∧
    occursIn "Unknown runtime".toList text.toList = true

abbrev HostLog := List ((q : HostCall) × Except Raised q.Answer)

/-- The last call was the run of a script in gVisor, and docker reports that there is none. -/
def LastRunMissing (log : HostLog) : Prop :=
  ∃ name proc, log.getLast? = some ⟨.execute (dockerCommand name), .ok proc⟩ ∧ ReportsMissing proc

/-- Scripts are run outside gVisor after such a run, and at no other time. -/
def fallbackMonitor : Monitor HostCall (fun q => Except Raised q.Answer) HostLog :=
  logging fun log q => OutsideGvisor q ↔ LastRunMissing log

section Outside

variable {undecodable : ByteArray → String} {log : HostLog}

theorem runtimeMissing_iff (proc : Process) :
    runtimeMissing undecodable proc = .ok true ↔ ReportsMissing proc := by
  unfold runtimeMissing ReportsMissing decodeBytes
  by_cases hstatus : proc.returncode = 125
  · simp [hstatus]
  · rw [if_neg hstatus]
    cases String.fromUTF8? proc.stderr with
    | none => simp [hstatus, Except.map]
    | some text => simp [hstatus, Except.map]

theorem fallbackMonitor_next (log : HostLog) (q : HostCall) (r : Except Raised q.Answer) :
    fallbackMonitor.next log q r = log ++ [⟨q, r⟩] := rfl

theorem lastRunMissing_append {q : HostCall} {r : Except Raised q.Answer} :
    LastRunMissing (log ++ [⟨q, r⟩]) ↔ ∃ name proc,
      (⟨q, r⟩ : (q : HostCall) × Except Raised q.Answer) =
        ⟨.execute (dockerCommand name), .ok proc⟩ ∧ ReportsMissing proc := by
  simp only [LastRunMissing, List.getLast?_concat, Option.some.injEq]

theorem mount_ne (name : String) : name ++ ":/app/test.py:ro" ≠ "--runtime=runsc" := by
  intro h
  have hlen := congrArg String.length h
  rw [String.length_append] at hlen
  have hsuffix : (":/app/test.py:ro" : String).length = 16 := rfl
  have hflag : ("--runtime=runsc" : String).length = 15 := rfl
  omega

theorem outsideGvisor_erase (name : String) :
    OutsideGvisor (.execute ((dockerCommand name).erase "--runtime=runsc")) := by
  rw [dockerCommand_erase]
  simp [OutsideGvisor, (mount_ne name).symm]

theorem not_outsideGvisor (name : String) : ¬ OutsideGvisor (.execute (dockerCommand name)) :=
  fun h => h (by simp [dockerCommand])

theorem lastRunMissing_execute {cmd : List String} {r : Except Raised Process} :
    LastRunMissing (log ++ [⟨.execute cmd, r⟩]) ↔
      (∃ name, cmd = dockerCommand name) ∧ ∃ proc, r = .ok proc ∧ ReportsMissing proc := by
  rw [lastRunMissing_append]
  constructor
  · rintro ⟨name, proc, heq, hreports⟩
    exact ⟨⟨name, HostCall.execute.inj (congrArg Sigma.fst heq)⟩, proc,
      eq_of_heq (Sigma.mk.inj heq).2, hreports⟩
  · rintro ⟨⟨name, rfl⟩, proc, rfl, hreports⟩
    exact ⟨name, proc, rfl, hreports⟩

theorem erase_ne (name name' : String) :
    (dockerCommand name).erase "--runtime=runsc" ≠ dockerCommand name' := by
  intro h
  have hlen := congrArg List.length h
  rw [dockerCommand_erase] at hlen
  simp [dockerCommand] at hlen

theorem not_lastRunMissing {q : HostCall} (hq : ∀ cmd, q ≠ .execute cmd)
    (r : Except Raised q.Answer) : ¬ LastRunMissing (log ++ [⟨q, r⟩]) := by
  rw [lastRunMissing_append]
  rintro ⟨name, proc, heq, -⟩
  exact hq _ (congrArg Sigma.fst heq)

theorem executeScript_falls_back (name : String) (hlog : ¬ LastRunMissing log) :
    (executeScript undecodable name).Obeys fallbackMonitor (fun log _ _ => ¬ LastRunMissing log)
      log () := by
  refine obeys_reported (R := fun log => ¬ LastRunMissing log) (Script.obeys_bind.2
    (Script.obeys_request.2 ⟨iff_of_false (not_outsideGvisor name) hlog, fun r => ?_⟩))
  cases r with
  | error e =>
    rw [fallbackMonitor_next, lastRunMissing_execute]
    rintro ⟨-, proc, heq, -⟩
    cases heq
  | ok proc =>
    have hran : LastRunMissing (fallbackMonitor.next log (.execute (dockerCommand name)) (.ok proc)) ↔
        runtimeMissing undecodable proc = .ok true := by
      rw [fallbackMonitor_next, lastRunMissing_execute, runtimeMissing_iff]
      constructor
      · rintro ⟨-, _, ⟨⟩, hreports⟩
        exact hreports
      · exact fun hreports => ⟨⟨name, rfl⟩, proc, rfl, hreports⟩
    refine Script.obeys_bind.2 ?_
    cases hmissing : runtimeMissing undecodable proc with
    | error text => exact fun hlast => nomatch hmissing.symm.trans (hran.1 hlast)
    | ok missing =>
      cases missing with
      | false =>
        exact obeys_raising (R := fun log => ¬ LastRunMissing log) fun hlast =>
          nomatch hmissing.symm.trans (hran.1 hlast)
      | true =>
        refine obeys_rerun (R := fun log => ¬ LastRunMissing log)
          (iff_of_true (outsideGvisor_erase name) (hran.2 hmissing)) fun r => ?_
        rw [fallbackMonitor_next, lastRunMissing_execute]
        rintro ⟨⟨name', heq⟩, -⟩
        exact erase_ne name name' heq

theorem runInSandbox_falls_back (script : Json) (hlog : ¬ LastRunMissing log) :
    (runInSandbox undecodable script).Obeys fallbackMonitor (fun log _ _ => ¬ LastRunMissing log)
      log () := by
  refine obeys_runInSandbox (R := fun log => ¬ LastRunMissing log)
    (C := fun _ log => ¬ LastRunMissing log) (D := fun _ log => ¬ LastRunMissing log) script
    (iff_of_false id hlog) (fun e => not_lastRunMissing (q := .createFile) nofun (.error e))
    (fun name => not_lastRunMissing (q := .createFile) nofun (.ok name)) (fun _ _ hlog => hlog)
    (fun name text log hlog => ⟨iff_of_false id hlog, fun e =>
      not_lastRunMissing (q := .writeFile name text) nofun (.error e), executeScript_falls_back name
        (not_lastRunMissing (q := .writeFile name text) nofun (.ok ()))⟩)
    fun name log hlog => ⟨iff_of_false id hlog, fun r =>
      not_lastRunMissing (q := .deleteFile name) nofun r⟩

theorem serveSwarm_falls_back (q : SwarmCall) (hlog : ¬ LastRunMissing log) :
    (serveSwarm undecodable q).Obeys fallbackMonitor (fun log _ => ¬ LastRunMissing log) log := by
  cases q with
  | completion c =>
    exact ⟨iff_of_false id hlog, fun r => not_lastRunMissing (q := .completion c) nofun r⟩
  | sandbox script =>
    exact Prog.obeys_bind.2 (Prog.Obeys.mono (fun log r hlog => hlog)
      (runInSandbox_falls_back script hlog))

end Outside

/-! ## What is raised -/

abbrev HostReply := (q : HostCall) → Except Raised q.Answer

def Unhampered (_ : Unit) (q : HostCall) (reply : HostReply) : Prop :=
  reply q ≠ .error .cancelled

section Raising

variable {undecodable : ByteArray → String}

theorem raises_hostCall (q : HostCall) : Script.Raises answering Unhampered (· ≠ .cancelled)
    (Script.request q : HostScript q.Answer) :=
  Script.raises_request fun _ _ hreply _ he hcancelled => hreply (hcancelled ▸ he)

theorem raises_raising {α : Type} (x : Except String α) :
    Script.Raises answering Unhampered (· ≠ .cancelled) (raising x) := by
  cases x with
  | error text => exact Script.raises_throw nofun
  | ok a => exact Script.raises_pure a

theorem raises_executeScript (name : String) :
    Script.Raises answering Unhampered (· ≠ .cancelled) (executeScript undecodable name) := by
  refine raises_tryExcept ((raises_hostCall _).bind fun proc => (raises_raising _).bind
    fun missing => ?_) fun e => Script.raises_pure _
  cases missing with
  | true => exact (raises_hostCall _).bind fun proc => raises_raising _
  | false => exact raises_raising _

/-- Only a cancelled call cancels a call of the sandbox. -/
theorem raises_runInSandbox (script : Json) :
    Script.Raises answering Unhampered (· ≠ .cancelled) (runInSandbox undecodable script) := by
  refine (raises_hostCall HostCall.createFile).bind fun name =>
    Script.Raises.finallyDo ?_ (raises_hostCall (HostCall.deleteFile name))
  cases script with
  | str text =>
    exact (raises_hostCall (HostCall.writeFile name text)).bind fun _ => raises_executeScript name
  | null => exact Script.raises_throw nofun
  | bool b => exact Script.raises_throw nofun
  | int n => exact Script.raises_throw nofun
  | float text => exact Script.raises_throw nofun
  | arr xs => exact Script.raises_throw nofun
  | obj fields => exact Script.raises_throw nofun

theorem uncancelled_serveSwarm (q : SwarmCall) (replies : List HostReply)
    (r : Except Raised q.Answer) (hreplies : ∀ reply ∈ replies, ∀ q, reply q ≠ .error .cancelled)
    (h : Completes (serveSwarm undecodable q) replies r) : r ≠ .error .cancelled := by
  cases q with
  | completion c =>
    rcases run_ask.1 h with ⟨-, hend⟩ | ⟨reply, rest, rfl, hrest⟩
    · cases hend
    · obtain ⟨-, hend⟩ := run_done.1 hrest
      cases hend
      exact hreplies reply (by simp) (HostCall.completion c)
  | sandbox script =>
    obtain ⟨rs₁, rs₂, r', rfl, hfirst, hthen⟩ := exists_of_completes_bind h
    obtain ⟨-, hend⟩ := run_done.1 hthen
    cases hend
    have hraises := Script.Ensures.complete (raises_runInSandbox script () ())
      (guard_session hfirst fun reply hreply _ q => hreplies reply (by simp [hreply]) q)
    exact fun hcancelled => hraises _ hcancelled rfl

end Raising

end Revix
