import Revix.LabelledRuns
import Mathlib.Data.List.Range

/-! A lock that can be taken away. Each acquisition is handed the fence as its token, a revocation
raises the fence, and a commit is admitted exactly when its token is the fence. -/
namespace Revix.FencingTokens
open LabelledRuns

variable {V : Type*}

inductive Phase (V : Type*)
  | free
  | held
  | committed (v : V)
  | retired
  deriving DecidableEq

structure Lock (V : Type*) where
  phase : Phase V
  fence : ℕ
  /-- Every token handed out so far, the newest first. -/
  issued : List ℕ

/-- A holder has the current token: it is working, or it has committed. -/
def Phase.engaged : Phase V → Bool
  | .free => false
  | .held => true
  | .committed _ => true
  | .retired => false

def initial : Lock V := ⟨.free, 0, []⟩

inductive Move (V : Type*)
  | acquire
  | revoke (retire : Bool)
  | retire
  | commit (token : ℕ) (v : V)

inductive Step : Lock V → Move V → Lock V → Prop
  | acquire (n : ℕ) (ts : List ℕ) : Step ⟨.free, n, ts⟩ .acquire ⟨.held, n, n :: ts⟩
  | revoke (n : ℕ) (ts : List ℕ) (retire : Bool) :
      Step ⟨.held, n, ts⟩ (.revoke retire) ⟨if retire then .retired else .free, n + 1, ts⟩
  | retire (n : ℕ) (ts : List ℕ) : Step ⟨.free, n, ts⟩ .retire ⟨.retired, n, ts⟩
  | commit (p : Phase V) (n : ℕ) (ts : List ℕ) (v : V) (h : n ∈ ts) :
      Step ⟨p, n, ts⟩ (.commit n v) ⟨.committed v, n, ts⟩

/-- The tokens handed out are the numbers below the fence, and the fence itself while a
holder is engaged. -/
def Coherent (l : Lock V) : Prop :=
  l.issued = (List.range (l.fence + if l.phase.engaged then 1 else 0)).reverse

theorem coherent_initial : Coherent (initial : Lock V) := rfl

/-- Only an engaged lock has handed out its own fence. -/
theorem Coherent.engaged {l : Lock V} (h : Coherent l) (hf : l.fence ∈ l.issued) :
    l.phase.engaged = true := by
  unfold Coherent at h
  by_contra hne
  rw [h] at hf
  simp [hne] at hf

theorem coherent_step {l l' : Lock V} {m : Move V} (h : Coherent l) (hs : Step l m l') :
    Coherent l' := by
  cases hs with
  | acquire n ts =>
    simp only [Coherent, Phase.engaged] at h ⊢
    simp [h, List.range_succ]
  | revoke n ts retire =>
    simp only [Coherent, Phase.engaged] at h ⊢
    cases retire <;> simpa using h
  | retire n ts => exact h
  | commit p n ts v hn =>
    have he := Coherent.engaged h hn
    simp only [Coherent, he] at h ⊢
    simpa [Phase.engaged] using h

theorem Coherent.reachable {l l' : Lock V} (h : Coherent l) (hr : Reachable Step l l') :
    Coherent l' := hr.invariant (I := Coherent) (fun _ _ _ hl hs => coherent_step hl hs) h

theorem step_fence_le {l l' : Lock V} {m : Move V} (hs : Step l m l') : l.fence ≤ l'.fence := by
  cases hs <;> simp

theorem reachable_fence_le {l l' : Lock V} (hr : Reachable Step l l') : l.fence ≤ l'.fence := by
  obtain ⟨ms, h⟩ := hr
  exact h.relates (I := fun _ => True) (R := fun a b => a.fence ≤ b.fence)
    (fun _ _ _ _ _ => trivial) (fun _ => le_rfl) le_trans (fun _ _ _ _ => step_fence_le) trivial

/-- A revoked token stays below the fence for ever. -/
theorem revoked_lt {l l' l'' : Lock V} {retire : Bool} (hs : Step l (.revoke retire) l')
    (hr : Reachable Step l' l'') : l.fence < l''.fence := by
  have hle := reachable_fence_le hr
  cases hs
  exact hle

/-- A committed lock keeps its fence: nothing acquires, revokes or retires it any more. -/
theorem committed_step {l l' : Lock V} {m : Move V} {v : V} (hp : l.phase = .committed v)
    (hs : Step l m l') : (∃ v', l'.phase = .committed v') ∧ l'.fence = l.fence := by
  cases hs with
  | acquire => cases hp
  | revoke => cases hp
  | retire => cases hp
  | commit p n ts v' hn => exact ⟨⟨v', rfl⟩, rfl⟩

theorem committed_fence {l l' : Lock V} {v : V} (hp : l.phase = .committed v)
    (hr : Reachable Step l l') : l'.fence = l.fence := by
  have hI : (∃ v', l'.phase = .committed v') ∧ l'.fence = l.fence := by
    refine hr.invariant (I := fun k => (∃ v', k.phase = .committed v') ∧ k.fence = l.fence)
      ?_ ⟨⟨v, hp⟩, rfl⟩
    rintro a m b ⟨⟨v', hv⟩, hf⟩ hs
    obtain ⟨hc, hb⟩ := committed_step hv hs
    exact ⟨hc, hb.trans hf⟩
  exact hI.2

end Revix.FencingTokens
