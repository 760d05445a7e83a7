import Revix.EffectSessions

/-! Requests with weights. `Spends` bounds what a script spends, whatever is answered; there is
one rule for each way to build a script. -/
namespace Revix.EffectCosts
open EffectPrograms EffectSessions LabelledRuns

universe u

variable {Q : Type u} {A : Q → Type u} {E S α β : Type u} (weight : Q → ℕ)

/-- A server that answers as it is told, and the weight of all requests so far. -/
def meter : Server Q A ℕ ((q : Q) → A q) := fun spent q reply => (reply q, spent + weight q)

/-- With replies as `good` says the script spends at most `n` and returns only what `R` says. -/
def Spends (good : ((q : Q) → Except E (A q)) → Prop) (n : ℕ) (R : α → Prop)
    (x : Script Q A E S α) : Prop :=
  ∀ spent l, Script.Ensures (meter weight) (fun _ _ reply => good reply) (fun _ => True)
    (fun spent' _ r => spent' ≤ spent + n ∧ ∀ a, r = .ok a → R a) x spent l

variable {weight} {good : ((q : Q) → Except E (A q)) → Prop} {n m : ℕ} {R : α → Prop}
  {R' : β → Prop}

theorem Spends.mono {x : Script Q A E S α} (h : Spends weight good n R x) (hn : n ≤ m)
    {R' : α → Prop} (hR : ∀ a, R a → R' a) : Spends weight good m R' x :=
  fun spent l => (h spent l).mono fun spent' _ _ hr =>
    ⟨by omega, fun a ha => hR a (hr.2 a ha)⟩

theorem spends_pure {a : α} (h : R a) :
    Spends weight good n R (pure a : Script Q A E S α) := by
  refine fun spent l => ⟨Nat.le_add_right _ _, fun b hb => ?_⟩
  cases hb
  exact h

theorem spends_throw (e : E) : Spends weight good n R (Script.throw e : Script Q A E S α) :=
  fun _ _ => ⟨Nat.le_add_right _ _, nofun⟩

theorem spends_request {q : Q} {R : A q → Prop}
    (h : ∀ reply, good reply → ∀ a, reply q = .ok a → R a) :
    Spends weight good (weight q) R (Script.request q : Script Q A E S (A q)) :=
  fun _ _ => Script.ensures_request.2 ⟨trivial, fun reply hreply => ⟨Nat.le_refl _, h reply hreply⟩⟩

theorem Spends.bind {x : Script Q A E S α} {f : α → Script Q A E S β}
    (hx : Spends weight good n R x) (hf : ∀ a, R a → Spends weight good m R' (f a)) :
    Spends weight good (n + m) R' (x >>= f) := by
  refine fun spent l => Script.ensures_bind.2 ((hx spent l).mono fun spent₁ l r hr => ?_)
  cases r with
  | ok a =>
    refine (hf a (hr.2 a rfl) spent₁ l).mono fun spent₂ l r hr' => ⟨?_, hr'.2⟩
    have := hr.1
    have := hr'.1
    omega
  | error e =>
    refine ⟨?_, nofun⟩
    have := hr.1
    omega

theorem Spends.tryCatch {x : Script Q A E S α} {handler : E → Script Q A E S α}
    (hx : Spends weight good n R x) (hh : ∀ e, Spends weight good m R (handler e)) :
    Spends weight good (n + m) R (x.tryCatch handler) := by
  refine fun spent l => Script.ensures_tryCatch.2 ((hx spent l).mono fun spent₁ l r hr => ?_)
  cases r with
  | ok a =>
    refine ⟨?_, hr.2⟩
    have := hr.1
    omega
  | error e =>
    refine (hh e spent₁ l).mono fun spent₂ l r hr' => ⟨?_, hr'.2⟩
    have := hr.1
    have := hr'.1
    omega

/-- A loop spends at most what its body does for each element. -/
theorem Spends.collect {body : α → Script Q A E S β} {as : List α}
    (hbody : ∀ a, Spends weight good n R' (body a)) :
    Spends weight good (as.length * n) (fun bs => bs.length = as.length ∧ ∀ b ∈ bs, R' b)
      (Script.collect body as) := by
  induction as with
  | nil => exact spends_pure ⟨rfl, nofun⟩
  | cons a as ih =>
    have hloop := (hbody a).bind fun b hb => ih.bind fun bs hbs =>
      spends_pure (n := 0) (R := fun bs => bs.length = (a :: as).length ∧ ∀ b ∈ bs, R' b)
        ⟨congrArg (· + 1) hbs.1, List.forall_mem_cons.2 ⟨hb, hbs.2⟩⟩
    refine Spends.mono hloop ?_ fun _ h => h
    rw [List.length_cons, Nat.succ_mul]
    omega

/-- A run of a program that is done, read off the meter. -/
theorem exists_metered (weight : Q → ℕ) {srv : Server Q A Unit ((q : Q) → A q)}
    (hsrv : ∀ s q reply, (srv s q reply).1 = reply q) {p : Prog Q A α} {s s' : Unit}
    {replies : List ((q : Q) → A q)} {a : α}
    (h : Run (Session srv) (s, p) replies (s', .done a)) (spent : ℕ) :
    ∃ spent', Run (Session (meter weight)) (spent, p) replies (spent', .done a) ∧
      ∀ n, (∀ q, n ≤ weight q) → spent + replies.length * n ≤ spent' := by
  induction replies generalizing p s spent with
  | nil =>
    cases h
    exact ⟨spent, .nil _, fun n _ => by simp⟩
  | cons reply replies ih =>
    cases p with
    | done b => cases (run_done.1 h).1
    | ask q resume =>
      rcases run_ask.1 h with ⟨hnil, -⟩ | ⟨_, _, hcons, hrest⟩
      · cases hnil
      · cases hcons
        rw [hsrv] at hrest
        obtain ⟨spent', hrun, hleast⟩ := ih hrest (spent + weight q)
        refine ⟨spent', .cons rfl hrun, fun n hn => ?_⟩
        have := hleast n hn
        have := hn q
        rw [List.length_cons, Nat.succ_mul]
        omega

/-- What a script spends in a run. -/
theorem Spends.complete {x : Script Q A E S α} (hx : Spends weight good n R x) {spent spent' : ℕ}
    {l l' : S} {replies : List ((q : Q) → Except E (A q))} {r : Except E α}
    (h : Run (Session (meter weight)) (spent, x l) replies (spent', .done (r, l')))
    (hgood : ∀ reply ∈ replies, good reply) : spent' ≤ spent + n :=
  ((hx spent l).complete (guard_session h fun reply hreply _ _ => hgood reply hreply)).1

end Revix.EffectCosts
