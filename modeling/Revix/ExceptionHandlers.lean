import Revix.EffectSessions
import Revix.WorkerProcess

namespace Revix
open EffectPrograms EffectSessions

/-- `except Exception as e`, for the calls of any service. -/
def tryExcept {Q : Type} {A : Q → Type} {S α : Type} (x : EffectPrograms.Script Q A Raised S α)
    (handler : PyError → EffectPrograms.Script Q A Raised S α) :
    EffectPrograms.Script Q A Raised S α :=
  x.tryCatch fun
    | .exception e => handler e
    | .cancelled => Script.throw .cancelled

theorem ok_of_isOk {α : Type} {x : Except Raised α} (h : x.isOk = true) : ∃ a, x = .ok a := by
  cases x with
  | error e => cases h
  | ok a => exact ⟨a, rfl⟩

section Monitors

variable {Q : Type} {A : Q → Type} {S α : Type} {M : Type*} {P : Q → Prop}
  {mon : Monitor Q (fun q => Except Raised (A q)) M} {m : M}
  {x : EffectPrograms.Script Q A Raised S α}
  {handler : PyError → EffectPrograms.Script Q A Raised S α}

theorem calls_tryExcept (hx : x.Calls P) (hh : ∀ e, (handler e).Calls P) :
    (tryExcept x handler).Calls P := by
  apply hx.tryCatch
  intro e
  cases e with
  | exception e => exact hh e
  | cancelled => exact Script.calls_throw _

theorem quiet_tryExcept (hx : x.Quiet mon m) (hh : ∀ e, (handler e).Quiet mon m) :
    (tryExcept x handler).Quiet mon m := by
  apply hx.tryCatch
  intro e
  cases e with
  | exception e => exact hh e
  | cancelled => exact Script.quiet_throw _

theorem obeys_tryExcept {s : S} (hx : x.Obeys mon (fun _ _ _ => True) m s)
    (hh : ∀ e m s, (handler e).Obeys mon (fun _ _ _ => True) m s) :
    (tryExcept x handler).Obeys mon (fun _ _ _ => True) m s := by
  refine Script.obeys_tryCatch.2 (hx.mono fun m s r _ => ?_)
  rcases r with (e | _) | a
  · exact hh e m s
  · trivial
  · trivial

end Monitors

section Sessions

variable {Q : Type} {A : Q → Type} {S α : Type} {σ C : Type*}
  {srv : Server Q (fun q => Except Raised (A q)) σ C} {fits : σ → Q → C → Prop} {inv : σ → Prop}
  {s : σ} {l : S} {x : EffectPrograms.Script Q A Raised S α}
  {handler : PyError → EffectPrograms.Script Q A Raised S α}

theorem ensures_tryExcept {post : σ → S → Except Raised α → Prop} :
    Script.Ensures srv fits inv post (tryExcept x handler) s l ↔
      Script.Ensures srv fits inv (fun s l r => match r with
        | .ok a => post s l (.ok a)
        | .error (.exception e) => Script.Ensures srv fits inv post (handler e) s l
        | .error .cancelled => post s l (.error .cancelled)) x s l := by
  refine Script.ensures_tryCatch.trans (iff_of_eq ?_)
  congr 1
  funext s l r
  rcases r with (_ | _) | _ <;> rfl

theorem returns_tryExcept {P : α → Prop} (hx : Script.Returns srv fits P x)
    (hh : ∀ e, Script.Returns srv fits P (handler e)) :
    Script.Returns srv fits P (tryExcept x handler) := by
  apply hx.tryCatch
  intro e
  cases e with
  | exception e => exact hh e
  | cancelled => exact Script.returns_throw _

/-- `except Exception` leaves the cancellations and what the handler raises. -/
theorem raises_tryExcept {P : Raised → Prop} (hx : Script.Raises srv fits (· ≠ .cancelled) x)
    (hh : ∀ e, Script.Raises srv fits P (handler e)) :
    Script.Raises srv fits P (tryExcept x handler) := by
  refine hx.tryCatch fun e he => ?_
  cases e with
  | exception e => exact hh e
  | cancelled => exact absurd rfl he

end Sessions

section Worker

variable {α : Type} {σ C : Type*} {srv : Server Request (fun q => Except Raised q.Answer) σ C}
  {fits : σ → Request → C → Prop} {inv : σ → Prop} {s : σ} {l : Locals}

theorem ensures_exceptException {x : JobScript α} {handler : PyError → JobScript α}
    {post : σ → Locals → Except Raised α → Prop} :
    Script.Ensures srv fits inv post (exceptException x handler) s l ↔
      Script.Ensures srv fits inv (fun s l r => match r with
        | .ok a => post s l (.ok a)
        | .error (.exception e) => Script.Ensures srv fits inv post (handler e) s l
        | .error .cancelled => post s l (.error .cancelled)) x s l := ensures_tryExcept

theorem ensures_suppress {x : JobScript Unit} {post : σ → Locals → Except Raised Unit → Prop} :
    Script.Ensures srv fits inv post (suppress x) s l ↔
      Script.Ensures srv fits inv (fun s l r => match r with
        | .ok _ => post s l (.ok ())
        | .error (.exception _) => post s l (.ok ())
        | .error .cancelled => post s l (.error .cancelled)) x s l := by
  refine ensures_exceptException.trans (iff_of_eq ?_)
  congr 1
  funext s l r
  rcases r with (_ | _) | _ <;> rfl

end Worker

end Revix
