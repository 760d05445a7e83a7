import Mathlib.Tactic.TypeStar

/-! A `Prog` asks requests of its surroundings and goes on with whatever is answered. A `Script`
has local variables besides, and its requests can be answered by an exception. A `Monitor` watches
both; `Obeys` says that it allows every request, and what holds at the end. -/
namespace Revix.EffectPrograms

universe u

/-- Programs with requests `Q`, where `q` is answered by an `A q`. -/
inductive Prog (Q : Type u) (A : Q → Type u) (α : Type u)
  | done (a : α)
  | ask (q : Q) (resume : A q → Prog Q A α)

structure Monitor (Q : Type u) (A : Q → Type u) (M : Type*) where
  allows : M → Q → Prop
  next : M → (q : Q) → A q → M

namespace Prog

variable {Q : Type u} {A : Q → Type u} {α β : Type u} {M : Type*}

def bind : Prog Q A α → (α → Prog Q A β) → Prog Q A β
  | .done a, f => f a
  | .ask q resume, f => .ask q fun r => (resume r).bind f

/-- The monitor allows every request, and the program ends only as `post` says. -/
def Obeys (mon : Monitor Q A M) (post : M → α → Prop) : Prog Q A α → M → Prop
  | .done a, m => post m a
  | .ask q resume, m => mon.allows m q ∧ ∀ r, (resume r).Obeys mon post (mon.next m q r)

theorem Obeys.mono {mon : Monitor Q A M} {post post' : M → α → Prop}
    (h : ∀ m a, post m a → post' m a) {p : Prog Q A α} {m : M} (hp : p.Obeys mon post m) :
    p.Obeys mon post' m := by
  induction p generalizing m with
  | done a => exact h m a hp
  | ask q resume ih => exact ⟨hp.1, fun r => ih r (hp.2 r)⟩

/-- A monitor that follows another one allows what the other allows. -/
theorem Obeys.simulates {M' : Type*} {mon : Monitor Q A M} {mon' : Monitor Q A M'}
    {R : M → M' → Prop} {post : M → α → Prop}
    (hR : ∀ m m' q, R m m' → mon.allows m q →
      mon'.allows m' q ∧ ∀ r, R (mon.next m q r) (mon'.next m' q r))
    {p : Prog Q A α} {m : M} {m' : M'} (h : R m m') (hp : p.Obeys mon post m) :
    p.Obeys mon' (fun m' a => ∃ m, R m m' ∧ post m a) m' := by
  induction p generalizing m m' with
  | done a => exact ⟨m, h, hp⟩
  | ask q resume ih =>
    obtain ⟨hallow, hnext⟩ := hR m m' q h hp.1
    exact ⟨hallow, fun r => ih r (hnext r) (hp.2 r)⟩

theorem obeys_bind {mon : Monitor Q A M} {post : M → β → Prop} {p : Prog Q A α}
    {f : α → Prog Q A β} {m : M} :
    (p.bind f).Obeys mon post m ↔ p.Obeys mon (fun m a => (f a).Obeys mon post m) m := by
  induction p generalizing m with
  | done a => exact Iff.rfl
  | ask q resume ih => exact and_congr Iff.rfl (forall_congr' fun r => ih r)

end Prog

/-- A program with local variables `S` and exceptions `E`. -/
def Script (Q : Type u) (A : Q → Type u) (E S α : Type u) : Type u :=
  S → Prog Q (fun q => Except E (A q)) (Except E α × S)

namespace Script

variable {Q : Type u} {A : Q → Type u} {E S α β : Type u} {M : Type*}

def pure (a : α) : Script Q A E S α := fun s => .done (.ok a, s)

def bind (x : Script Q A E S α) (f : α → Script Q A E S β) : Script Q A E S β := fun s =>
  (x s).bind fun
    | (.ok a, s') => f a s'
    | (.error e, s') => .done (.error e, s')

instance : Monad (Script Q A E S) where
  pure := Script.pure
  bind := Script.bind

/-- Make a request; an exception in answer is raised. -/
def request (q : Q) : Script Q A E S (A q) := fun s => .ask q fun r => .done (r, s)

def throw (e : E) : Script Q A E S α := fun s => .done (.error e, s)

def get : Script Q A E S S := fun s => .done (.ok s, s)

def modify (f : S → S) : Script Q A E S PUnit := fun s => .done (.ok ⟨⟩, f s)

/-- The local variables keep what the body assigned before it raised. -/
def tryCatch (x : Script Q A E S α) (handler : E → Script Q A E S α) : Script Q A E S α := fun s =>
  (x s).bind fun
    | (.ok a, s') => .done (.ok a, s')
    | (.error e, s') => handler e s'

/-- `finally`: an exception in the cleanup replaces the outcome of the body. -/
def finallyDo (x : Script Q A E S α) (cleanup : Script Q A E S PUnit) : Script Q A E S α := fun s =>
  (x s).bind fun (r, s') => (cleanup s').bind fun
    | (.ok _, s'') => .done (r, s'')
    | (.error e, s'') => .done (.error e, s'')

def collect (body : α → Script Q A E S β) : List α → Script Q A E S (List β)
  | [] => pure []
  | a :: as => do
    let b ← body a
    let bs ← collect body as
    pure (b :: bs)

/-- From the monitor's state `m` and local variables `s`, the monitor allows every request and
the script ends only as `post` says. -/
def Obeys (mon : Monitor Q (fun q => Except E (A q)) M) (post : M → S → Except E α → Prop)
    (x : Script Q A E S α) (m : M) (s : S) : Prop :=
  (x s).Obeys mon (fun m r => post m r.2 r.1) m

section Rules

variable {mon : Monitor Q (fun q => Except E (A q)) M} {post : M → S → Except E α → Prop}
  {post' : M → S → Except E β → Prop} {m : M} {s : S}

theorem Obeys.mono {post₂ : M → S → Except E α → Prop} (h : ∀ m s r, post m s r → post₂ m s r)
    {x : Script Q A E S α} (hx : x.Obeys mon post m s) : x.Obeys mon post₂ m s :=
  Prog.Obeys.mono (fun m (r : Except E α × S) => h m r.2 r.1) (p := x s) hx

theorem obeys_request {q : Q} {post : M → S → Except E (A q) → Prop} :
    (request q).Obeys mon post m s ↔ mon.allows m q ∧ ∀ r, post (mon.next m q r) s r := Iff.rfl

theorem obeys_get {f : S → Script Q A E S α} :
    (get >>= f).Obeys mon post m s ↔ (f s).Obeys mon post m s := Iff.rfl

theorem obeys_bind {x : Script Q A E S α} {f : α → Script Q A E S β} :
    (x >>= f).Obeys mon post' m s ↔ x.Obeys mon (fun m s r => match r with
      | .ok a => (f a).Obeys mon post' m s
      | .error e => post' m s (.error e)) m s := by
  refine Prog.obeys_bind.trans (iff_of_eq ?_)
  congr 1
  funext m r
  rcases r with ⟨_ | _, s⟩ <;> rfl

theorem obeys_tryCatch {x : Script Q A E S α} {handler : E → Script Q A E S α} :
    (tryCatch x handler).Obeys mon post m s ↔ x.Obeys mon (fun m s r => match r with
      | .ok a => post m s (.ok a)
      | .error e => (handler e).Obeys mon post m s) m s := by
  refine Prog.obeys_bind.trans (iff_of_eq ?_)
  congr 1
  funext m r
  rcases r with ⟨_ | _, s⟩ <;> rfl

theorem obeys_finallyDo {x : Script Q A E S α} {cleanup : Script Q A E S PUnit} :
    (finallyDo x cleanup).Obeys mon post m s ↔ x.Obeys mon (fun m s r =>
      cleanup.Obeys mon (fun m s r' => match r' with
        | .ok _ => post m s r
        | .error e => post m s (.error e)) m s) m s := by
  refine Prog.obeys_bind.trans (iff_of_eq ?_)
  congr 1
  funext m r
  refine propext (Prog.obeys_bind.trans (iff_of_eq ?_))
  congr 1
  funext m r'
  rcases r' with ⟨_ | _, s⟩ <;> rfl

end Rules

/-! ## Scripts that a monitor does not notice -/

/-- The monitor is in the state `m` all along. -/
def Quiet (mon : Monitor Q (fun q => Except E (A q)) M) (m : M) (x : Script Q A E S α) : Prop :=
  ∀ s, x.Obeys mon (fun m' _ _ => m' = m) m s

variable {mon : Monitor Q (fun q => Except E (A q)) M} {m : M}

theorem Quiet.obeys {post : M → S → Except E α → Prop} {x : Script Q A E S α} {s : S}
    (h : x.Quiet mon m) (hpost : ∀ s r, post m s r) : x.Obeys mon post m s :=
  (h s).mono fun _ s r hm => hm ▸ hpost s r

theorem quiet_pure (a : α) : (pure a : Script Q A E S α).Quiet mon m := fun _ => rfl

theorem quiet_modify (f : S → S) : (modify f : Script Q A E S PUnit).Quiet mon m := fun _ => rfl

theorem quiet_throw (e : E) : (throw e : Script Q A E S α).Quiet mon m := fun _ => rfl

theorem quiet_request {q : Q} (ha : mon.allows m q) (hn : ∀ r, mon.next m q r = m) :
    (request q : Script Q A E S (A q)).Quiet mon m := fun _ => obeys_request.2 ⟨ha, hn⟩

theorem Quiet.bind {x : Script Q A E S α} {f : α → Script Q A E S β} (hx : x.Quiet mon m)
    (hf : ∀ a, (f a).Quiet mon m) : (x >>= f).Quiet mon m := by
  refine fun s => obeys_bind.2 (hx.obeys fun s r => ?_)
  cases r with
  | ok a => exact hf a s
  | error e => rfl

theorem Quiet.andThen {post : M → S → Except E β → Prop} {x : Script Q A E S α}
    {f : α → Script Q A E S β} {s : S} (hx : x.Quiet mon m)
    (hf : ∀ a s, (f a).Obeys mon post m s) (he : ∀ e s, post m s (.error e)) :
    (x >>= f).Obeys mon post m s := by
  refine obeys_bind.2 (hx.obeys fun s r => ?_)
  cases r with
  | ok a => exact hf a s
  | error e => exact he e s

theorem Quiet.tryCatch {x : Script Q A E S α} {handler : E → Script Q A E S α}
    (hx : x.Quiet mon m) (hh : ∀ e, (handler e).Quiet mon m) :
    (x.tryCatch handler).Quiet mon m := by
  refine fun s => obeys_tryCatch.2 (hx.obeys fun s r => ?_)
  cases r with
  | ok a => rfl
  | error e => exact hh e s

/-- A quiet cleanup leaves a body as allowed as it was. -/
theorem Obeys.finallyDo {x : Script Q A E S α} {cleanup : Script Q A E S PUnit} {s : S}
    (hx : x.Obeys mon (fun _ _ _ => True) m s) (hc : ∀ m, cleanup.Quiet mon m) :
    (x.finallyDo cleanup).Obeys mon (fun _ _ _ => True) m s := by
  refine obeys_finallyDo.2 (hx.mono fun m s r _ => (hc m).obeys fun s r' => ?_)
  cases r' <;> trivial

theorem Quiet.finallyDo {x : Script Q A E S α} {cleanup : Script Q A E S PUnit}
    (hx : x.Quiet mon m) (hc : cleanup.Quiet mon m) : (x.finallyDo cleanup).Quiet mon m := by
  refine fun s => obeys_finallyDo.2 (hx.obeys fun s r => hc.obeys fun s r' => ?_)
  cases r' <;> rfl

/-! ## Scripts that make only some calls -/

def callMonitor (P : Q → Prop) : Monitor Q (fun q => Except E (A q)) Unit where
  allows _ q := P q
  next m _ _ := m

/-- Whatever is answered, the script calls only for what `P` says and assigns nothing. -/
def Calls (P : Q → Prop) (x : Script Q A E S α) : Prop :=
  ∀ s, x.Obeys (callMonitor P) (fun _ s' _ => s' = s) () s

variable {P : Q → Prop}

theorem calls_pure (a : α) : (pure a : Script Q A E S α).Calls P := fun _ => rfl

theorem calls_throw (e : E) : (throw e : Script Q A E S α).Calls P := fun _ => rfl

theorem calls_get : (get : Script Q A E S S).Calls P := fun _ => rfl

theorem calls_request {q : Q} (h : P q) : (request q : Script Q A E S (A q)).Calls P :=
  fun _ => ⟨h, fun _ => rfl⟩

theorem Calls.bind {x : Script Q A E S α} {f : α → Script Q A E S β} (hx : x.Calls P)
    (hf : ∀ a, (f a).Calls P) : (x >>= f).Calls P := by
  refine fun s => obeys_bind.2 ((hx s).mono fun m s' r hs => ?_)
  subst hs
  cases r with
  | ok a => exact hf a s'
  | error e => rfl

theorem Calls.tryCatch {x : Script Q A E S α} {handler : E → Script Q A E S α} (hx : x.Calls P)
    (hh : ∀ e, (handler e).Calls P) : (x.tryCatch handler).Calls P := by
  refine fun s => obeys_tryCatch.2 ((hx s).mono fun m s' r hs => ?_)
  subst hs
  cases r with
  | ok a => rfl
  | error e => exact hh e s'

theorem Calls.finallyDo {x : Script Q A E S α} {cleanup : Script Q A E S PUnit} (hx : x.Calls P)
    (hc : cleanup.Calls P) : (x.finallyDo cleanup).Calls P := by
  refine fun s => obeys_finallyDo.2 ((hx s).mono fun m s' r hs => ?_)
  subst hs
  refine (hc s').mono fun m s r' hs => ?_
  cases r' with
  | ok _ => exact hs
  | error e => exact hs

theorem Calls.collect {body : α → Script Q A E S β} (h : ∀ a, (body a).Calls P) :
    ∀ as : List α, (collect body as).Calls P
  | [] => calls_pure []
  | a :: as => (h a).bind fun b => (Calls.collect h as).bind fun bs => calls_pure (b :: bs)

/-- A monitor that allows these calls and does not notice them. -/
theorem Calls.obeys {x : Script Q A E S α} (hx : x.Calls P)
    (hP : ∀ q, P q → mon.allows m q ∧ ∀ r, mon.next m q r = m) (s : S) :
    x.Obeys mon (fun m' s' _ => m' = m ∧ s' = s) m s := by
  have hsim : ∀ (_ : Unit) m' q, m' = m → P q →
      mon.allows m' q ∧ ∀ r, mon.next m' q r = m := by
    intro u m' q hm' hq
    rw [hm']
    exact hP q hq
  have hfollow : (x s).Obeys mon (fun m' r => ∃ _ : Unit, m' = m ∧ r.2 = s) m :=
    Prog.Obeys.simulates (R := fun _ m' => m' = m) hsim rfl (hx s)
  exact Prog.Obeys.mono (fun _ _ ⟨_, h⟩ => h) hfollow

theorem Calls.quiet {x : Script Q A E S α} (hx : x.Calls P)
    (hP : ∀ q, P q → mon.allows m q ∧ ∀ r, mon.next m q r = m) : x.Quiet mon m :=
  fun s => (hx.obeys hP s).mono fun _ _ _ h => h.1

end Script

/-! ## Programs with only some of the requests -/

section Embedding

variable {Q Q' : Type u} {A : Q' → Type u} {E S α : Type u} {M : Type*} (ι : Q → Q')

/-- The requests of the program are among those of another kind. -/
def Prog.embed : Prog Q (fun q => A (ι q)) α → Prog Q' A α
  | .done a => .done a
  | .ask q resume => .ask (ι q) fun r => (resume r).embed

def Script.embed (x : Script Q (fun q => A (ι q)) E S α) : Script Q' A E S α :=
  fun s => (x s).embed ι

def Monitor.pull (mon : Monitor Q' A M) : Monitor Q (fun q => A (ι q)) M where
  allows m q := mon.allows m (ι q)
  next m q r := mon.next m (ι q) r

theorem Prog.obeys_embed {ι : Q → Q'} {mon : Monitor Q' A M} {post : M → α → Prop}
    {p : Prog Q (fun q => A (ι q)) α} {m : M} :
    (p.embed ι).Obeys mon post m ↔ p.Obeys (mon.pull ι) post m := by
  induction p generalizing m with
  | done a => exact Iff.rfl
  | ask q resume ih => exact and_congr Iff.rfl (forall_congr' fun r => ih r)

end Embedding

end Revix.EffectPrograms
