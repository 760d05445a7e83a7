import Revix.EffectPrograms
import Revix.LabelledRuns

/-! A session is a run of a program with a `Server`, which answers by the choices of the
surroundings. `Ensures` says what every session keeps and how it ends; there is one rule for each
way to build a script. -/
namespace Revix.EffectSessions
open EffectPrograms LabelledRuns

universe u

/-- In a state, a request and a choice give the answer and the state to go on in. -/
abbrev Server (Q : Type u) (A : Q → Type u) (σ C : Type*) := σ → (q : Q) → C → A q × σ

section Programs

variable {Q : Type u} {A : Q → Type u} {α β : Type u} {σ C : Type*}

/-- One request is answered. A program that is done asks nothing. -/
def advance (srv : Server Q A σ C) : σ × Prog Q A α → C → Option (σ × Prog Q A α)
  | (s, .ask q resume), c => some ((srv s q c).2, resume (srv s q c).1)
  | (_, .done _), _ => none

def Session (srv : Server Q A σ C) (x : σ × Prog Q A α) (c : C) (y : σ × Prog Q A α) : Prop :=
  advance srv x c = some y

def Fits (fits : σ → Q → C → Prop) (x : σ × Prog Q A α) (c : C) (_ : σ × Prog Q A α) : Prop :=
  match x.2 with
  | .ask q _ => fits x.1 q c
  | .done _ => True

/-- While the choices are as `fits` says, a session that goes on is in states with `inv`, and one
that is complete has ended as `post` says. -/
def Ensures (srv : Server Q A σ C) (fits : σ → Q → C → Prop) (inv : σ → Prop)
    (post : σ → α → Prop) : Prog Q A α → σ → Prop
  | .done a, s => post s a
  | .ask q resume, s => inv s ∧
      ∀ c, fits s q c → Ensures srv fits inv post (resume (srv s q c).1) (srv s q c).2

variable {srv : Server Q A σ C} {fits : σ → Q → C → Prop} {inv : σ → Prop}

theorem Ensures.mono {post post' : σ → α → Prop} (h : ∀ s a, post s a → post' s a)
    {p : Prog Q A α} {s : σ} (hp : Ensures srv fits inv post p s) :
    Ensures srv fits inv post' p s := by
  induction p generalizing s with
  | done a => exact h s a hp
  | ask q resume ih => exact ⟨hp.1, fun c hc => ih _ (hp.2 c hc)⟩

theorem Ensures.and {post post' : σ → α → Prop} {p : Prog Q A α} {s : σ}
    (hp : Ensures srv fits inv post p s) (hp' : Ensures srv fits inv post' p s) :
    Ensures srv fits inv (fun s a => post s a ∧ post' s a) p s := by
  induction p generalizing s with
  | done a => exact ⟨hp, hp'⟩
  | ask q resume ih => exact ⟨hp.1, fun c hc => ih _ (hp.2 c hc) (hp'.2 c hc)⟩

theorem ensures_of_forall {post : σ → α → Prop} (hinv : ∀ s, inv s) (h : ∀ s a, post s a)
    (p : Prog Q A α) (s : σ) : Ensures srv fits inv post p s := by
  induction p generalizing s with
  | done a => exact h s a
  | ask q resume ih => exact ⟨hinv s, fun c _ => ih _ _⟩

theorem ensures_bind {post : σ → β → Prop} {p : Prog Q A α} {f : α → Prog Q A β} {s : σ} :
    Ensures srv fits inv post (p.bind f) s ↔
      Ensures srv fits inv (fun s a => Ensures srv fits inv post (f a) s) p s := by
  induction p generalizing s with
  | done a => exact Iff.rfl
  | ask q resume ih =>
    exact and_congr Iff.rfl (forall_congr' fun c => imp_congr Iff.rfl (ih _))

/-- What a program ensures, the rest of it ensures at every point of a session. -/
theorem Ensures.run {post : σ → α → Prop} {x y : σ × Prog Q A α} {cs : List C}
    (hr : Run (Guarded (Session srv) (Fits fits)) x cs y)
    (hx : Ensures srv fits inv post x.2 x.1) : Ensures srv fits inv post y.2 y.1 := by
  refine hr.invariant (I := fun x => Ensures srv fits inv post x.2 x.1) ?_ hx
  rintro ⟨s, _ | ⟨q, resume⟩⟩ c y hx ⟨hstep, hfits⟩
  · cases hstep
  · cases hstep
    exact hx.2 c hfits

theorem Ensures.complete {post : σ → α → Prop} {p : Prog Q A α} {s s' : σ} {a : α} {cs : List C}
    (hp : Ensures srv fits inv post p s)
    (hr : Run (Guarded (Session srv) (Fits fits)) (s, p) cs (s', .done a)) : post s' a :=
  Ensures.run hr hp

theorem run_done {s : σ} {a : α} {cs : List C} {y : σ × Prog Q A α} :
    Run (Session srv) (s, .done a) cs y ↔ cs = [] ∧ y = (s, .done a) := by
  constructor
  · intro h
    cases h with
    | nil => exact ⟨rfl, rfl⟩
    | cons first _ => cases first
  · rintro ⟨rfl, rfl⟩
    exact .nil _

theorem run_ask {s : σ} {q : Q} {resume : A q → Prog Q A α} {cs : List C} {y : σ × Prog Q A α} :
    Run (Session srv) (s, .ask q resume) cs y ↔ (cs = [] ∧ y = (s, .ask q resume)) ∨
      ∃ c cs', cs = c :: cs' ∧ Run (Session srv) ((srv s q c).2, resume (srv s q c).1) cs' y := by
  constructor
  · intro h
    cases h with
    | nil => exact .inl ⟨rfl, rfl⟩
    | cons first rest =>
      cases first
      exact .inr ⟨_, _, rfl, rest⟩
  · rintro (⟨rfl, rfl⟩ | ⟨c, cs', rfl, h⟩)
    · exact .nil _
    · exact .cons rfl h

/-- When the first part of a program is complete, the session goes on with the second. -/
theorem run_bind {p : Prog Q A α} {f : α → Prog Q A β} {s s₁ : σ} {a : α} {cs cs' : List C}
    {y : σ × Prog Q A β} (h : Run (Session srv) (s, p) cs (s₁, .done a))
    (h' : Run (Session srv) (s, p.bind f) (cs ++ cs') y) :
    Run (Session srv) (s₁, f a) cs' y := by
  induction p generalizing s cs with
  | done a' =>
    obtain ⟨rfl, hy⟩ := run_done.1 h
    cases hy
    exact h'
  | ask q resume ih =>
    rcases run_ask.1 h with ⟨-, hy⟩ | ⟨c, cs₁, rfl, hrest⟩
    · cases hy
    · rcases run_ask.1 h' with ⟨hnil, -⟩ | ⟨c', cs₂, hcons, hrest'⟩
      · cases hnil
      · cases hcons
        exact ih _ hrest hrest'

/-- A session of the first part of a program is one of the program. -/
theorem run_bind_left {p p' : Prog Q A α} {s s' : σ} {cs : List C}
    (h : Run (Session srv) (s, p) cs (s', p')) (f : α → Prog Q A β) :
    Run (Session srv) (s, p.bind f) cs (s', p'.bind f) := by
  induction cs generalizing s p with
  | nil =>
    cases h
    exact .nil _
  | cons c cs ih =>
    cases p with
    | done a => cases (run_done.1 h).1
    | ask q resume =>
      rcases run_ask.1 h with ⟨hnil, -⟩ | ⟨c', cs', hcons, hrest⟩
      · cases hnil
      · cases hcons
        exact .cons rfl (ih hrest)

/-- A program that is done has gone through its first part. -/
theorem exists_of_run_bind {p : Prog Q A α} {f : α → Prog Q A β} {s s' : σ} {b : β} {cs : List C}
    (h : Run (Session srv) (s, p.bind f) cs (s', .done b)) :
    ∃ cs₁ cs₂ s₁ a, cs = cs₁ ++ cs₂ ∧ Run (Session srv) (s, p) cs₁ (s₁, .done a) ∧
      Run (Session srv) (s₁, f a) cs₂ (s', .done b) := by
  induction p generalizing s cs with
  | done a => exact ⟨[], cs, s, a, rfl, .nil _, h⟩
  | ask q resume ih =>
    rcases run_ask.1 h with ⟨-, hy⟩ | ⟨c, cs', rfl, hrest⟩
    · cases hy
    · obtain ⟨cs₁, cs₂, s₁, a, rfl, hfirst, hthen⟩ := ih _ hrest
      exact ⟨c :: cs₁, cs₂, s₁, a, rfl, .cons rfl hfirst, hthen⟩

/-- Every program is complete after finitely many of the choices. -/
theorem exists_run_done (srv : Server Q A σ C) (choices : ℕ → C) (s : σ) (p : Prog Q A α) :
    ∃ n s' a, Run (Session srv) (s, p) ((List.range n).map choices) (s', .done a) := by
  induction p generalizing s choices with
  | done a => exact ⟨0, s, a, .nil _⟩
  | ask q resume ih =>
    obtain ⟨n, s', a, hrun⟩ := ih (srv s q (choices 0)).1 (fun i => choices (i + 1))
      (srv s q (choices 0)).2
    refine ⟨n + 1, s', a, ?_⟩
    rw [List.range_succ_eq_map, List.map_cons, List.map_map]
    exact .cons rfl hrun

def result : Prog Q A α → Option α
  | .done a => some a
  | .ask _ _ => none

theorem exists_result (srv : Server Q A σ C) {s : σ} {p : Prog Q A α} {cs : List C}
    (good : σ → α → Bool)
    (h : (replay (advance srv) (s, p) cs).any (fun y => (result y.2).any (good y.1)) = true) :
    ∃ s' a, Run (Session srv) (s, p) cs (s', .done a) ∧ good s' a = true := by
  obtain ⟨⟨s', p'⟩, hrun, hgood⟩ := exists_run_of_replay (advance srv) h
  cases p' with
  | done a => exact ⟨s', a, hrun, hgood⟩
  | ask q resume => cases hgood

/-- Where a program gets to when each request has one answer. -/
def play (answer : (q : Q) → A q) : Prog Q A α → α
  | .done a => a
  | .ask q resume => play answer (resume (answer q))

/-- Every program is complete after finitely many answers. -/
theorem exists_run_play {c : C} {answer : (q : Q) → A q} (h : ∀ s q, (srv s q c).1 = answer q)
    (s : σ) (p : Prog Q A α) :
    ∃ n s', Run (Session srv) (s, p) (List.replicate n c) (s', .done (play answer p)) := by
  induction p generalizing s with
  | done a => exact ⟨0, s, .nil _⟩
  | ask q resume ih =>
    obtain ⟨n, s', hrun⟩ := ih (answer q) (srv s q c).2
    refine ⟨n + 1, s', .cons ?_ hrun⟩
    rw [← h s q]
    rfl

/-- The choices of a session that are as `fits` says in every state. -/
theorem guard_session {x y : σ × Prog Q A α} {cs : List C} (h : Run (Session srv) x cs y)
    (hfits : ∀ c ∈ cs, ∀ s q, fits s q c) : Run (Guarded (Session srv) (Fits fits)) x cs y := by
  apply h.guard
  intro c hc x y
  rcases x with ⟨s, _ | _⟩
  · trivial
  · exact hfits c hc s _

/-- The server that answers as it is told and is in the state of a monitor. -/
def follow {M : Type*} (mon : Monitor Q A M) : Server Q A M ((q : Q) → A q) :=
  fun m q reply => (reply q, mon.next m q (reply q))

theorem obeys_of_follow {M : Type*} {mon : Monitor Q A M} {post : M → α → Prop} {p p' : Prog Q A α}
    {m m' : M} (h : p.Obeys mon post m) {replies : List ((q : Q) → A q)}
    (hr : Run (Session (follow mon)) (m, p) replies (m', p')) : p'.Obeys mon post m' := by
  refine hr.invariant (I := fun x => x.2.Obeys mon post x.1) ?_ h
  rintro ⟨m, _ | ⟨q, resume⟩⟩ reply y hx hstep
  · cases hstep
  · cases hstep
    exact hx.2 _

/-- What a monitor allows of a program, it allows at every point of a session that it follows. -/
theorem allowed_of_run {M : Type*} {mon : Monitor Q A M} {post : M → α → Prop} {p : Prog Q A α}
    {m m' : M} (h : p.Obeys mon post m) {replies : List ((q : Q) → A q)} {q : Q}
    {resume : A q → Prog Q A α}
    (hr : Run (Session (follow mon)) (m, p) replies (m', .ask q resume)) : mon.allows m' q :=
  (obeys_of_follow h hr).1

/-- The server that answers as it is told and keeps the requests with their answers. -/
def noting : Server Q A (List ((q : Q) × A q)) ((q : Q) → A q) :=
  fun log q reply => (reply q, log ++ [⟨q, reply q⟩])

/-- The requests so far, with their answers, decide what is allowed. -/
def logging (allows : List ((q : Q) × A q) → Q → Prop) : Monitor Q A (List ((q : Q) × A q)) where
  allows := allows
  next log q r := log ++ [⟨q, r⟩]

end Programs

namespace Script

variable {Q : Type u} {A : Q → Type u} {E S α β : Type u} {σ C : Type*}

def Ensures (srv : Server Q (fun q => Except E (A q)) σ C) (fits : σ → Q → C → Prop)
    (inv : σ → Prop) (post : σ → S → Except E α → Prop) (x : Script Q A E S α) (s : σ) (l : S) :
    Prop :=
  EffectSessions.Ensures srv fits inv (fun s r => post s r.2 r.1) (x l) s

variable {srv : Server Q (fun q => Except E (A q)) σ C} {fits : σ → Q → C → Prop} {inv : σ → Prop}
  {post : σ → S → Except E α → Prop} {post' : σ → S → Except E β → Prop} {s : σ} {l : S}

theorem Ensures.mono {post₂ : σ → S → Except E α → Prop} (h : ∀ s l r, post s l r → post₂ s l r)
    {x : Script Q A E S α} (hx : Ensures srv fits inv post x s l) :
    Ensures srv fits inv post₂ x s l :=
  EffectSessions.Ensures.mono (fun s (r : Except E α × S) => h s r.2 r.1) (p := x l) hx

theorem Ensures.and {post₂ : σ → S → Except E α → Prop} {x : EffectPrograms.Script Q A E S α}
    (hx : Ensures srv fits inv post x s l) (hx' : Ensures srv fits inv post₂ x s l) :
    Ensures srv fits inv (fun s l r => post s l r ∧ post₂ s l r) x s l :=
  EffectSessions.Ensures.and (p := x l) hx hx'

theorem ensures_request {q : Q} {post : σ → S → Except E (A q) → Prop} :
    Ensures srv fits inv post (Script.request q) s l ↔
      inv s ∧ ∀ c, fits s q c → post (srv s q c).2 l (srv s q c).1 := Iff.rfl

theorem ensures_pure {a : α} : Ensures srv fits inv post (Script.pure a) s l ↔ post s l (.ok a) :=
  Iff.rfl

theorem ensures_modify {f : S → S} {g : PUnit → Script Q A E S α} :
    Ensures srv fits inv post (Script.modify f >>= g) s l ↔
      Ensures srv fits inv post (g ⟨⟩) s (f l) := Iff.rfl

theorem ensures_get {f : S → Script Q A E S α} :
    Ensures srv fits inv post (Script.get >>= f) s l ↔ Ensures srv fits inv post (f l) s l := Iff.rfl

theorem ensures_bind {x : Script Q A E S α} {f : α → Script Q A E S β} :
    Ensures srv fits inv post' (x >>= f) s l ↔
      Ensures srv fits inv (fun s l r => match r with
        | .ok a => Ensures srv fits inv post' (f a) s l
        | .error e => post' s l (.error e)) x s l := by
  refine EffectSessions.ensures_bind.trans (iff_of_eq ?_)
  congr 1
  funext s r
  rcases r with ⟨_ | _, l⟩ <;> rfl

theorem ensures_tryCatch {x : Script Q A E S α} {handler : E → Script Q A E S α} :
    Ensures srv fits inv post (x.tryCatch handler) s l ↔
      Ensures srv fits inv (fun s l r => match r with
        | .ok a => post s l (.ok a)
        | .error e => Ensures srv fits inv post (handler e) s l) x s l := by
  refine EffectSessions.ensures_bind.trans (iff_of_eq ?_)
  congr 1
  funext s r
  rcases r with ⟨_ | _, l⟩ <;> rfl

theorem ensures_finallyDo {x : Script Q A E S α} {cleanup : Script Q A E S PUnit} :
    Ensures srv fits inv post (x.finallyDo cleanup) s l ↔
      Ensures srv fits inv (fun s l r => Ensures srv fits inv (fun s l r' => match r' with
        | .ok _ => post s l r
        | .error e => post s l (.error e)) cleanup s l) x s l := by
  refine EffectSessions.ensures_bind.trans (iff_of_eq ?_)
  congr 1
  funext s r
  refine propext (EffectSessions.ensures_bind.trans (iff_of_eq ?_))
  congr 1
  funext s r'
  rcases r' with ⟨_ | _, l⟩ <;> rfl

/-- Steps one after the other: what the first ensures is enough for the second, and for the
script when the first raises. -/
theorem Ensures.andThen {x : Script Q A E S α} {f : α → Script Q A E S β}
    (hx : Ensures srv fits inv post x s l)
    (hf : ∀ a s l, post s l (.ok a) → Ensures srv fits inv post' (f a) s l)
    (he : ∀ e s l, post s l (.error e) → post' s l (.error e)) :
    Ensures srv fits inv post' (x >>= f) s l := by
  refine ensures_bind.2 (hx.mono fun s l r hr => ?_)
  cases r with
  | ok a => exact hf a s l hr
  | error e => exact he e s l hr

/-- How a script ends whatever it returns: with `I`, or with an exception and `J`. -/
def Ends (I : σ → S → Prop) (J : σ → S → E → Prop) {α : Type u} (s : σ) (l : S) :
    Except E α → Prop
  | .ok _ => I s l
  | .error e => J s l e

/-- A loop whose body keeps `I` while it goes on, and leaves `J` when it raises. -/
theorem ensures_collect {I : σ → S → Prop} {J : σ → S → E → Prop}
    {body : α → EffectPrograms.Script Q A E S β}
    (hbody : ∀ a s l, I s l → Ensures srv fits inv (Ends I J) (body a) s l)
    (as : List α) {s : σ} {l : S} (h : I s l) :
    Ensures srv fits inv (Ends I J) (Script.collect body as) s l := by
  induction as generalizing s l with
  | nil => exact h
  | cons a as ih =>
    refine (hbody a s l h).andThen (fun b s l hb => ?_) fun e s l he => he
    exact (ih hb).andThen (fun bs s l hbs => hbs) fun e s l he => he

/-- Whatever happens, what the script returns has the property `P`. -/
def Returns (srv : Server Q (fun q => Except E (A q)) σ C) (fits : σ → Q → C → Prop)
    (P : α → Prop) (x : EffectPrograms.Script Q A E S α) : Prop :=
  ∀ s l, Ensures srv fits (fun _ => True) (fun _ _ r => ∀ a, r = .ok a → P a) x s l

theorem returns_true (x : EffectPrograms.Script Q A E S α) :
    Returns srv fits (fun _ => True) x :=
  fun _ l => EffectSessions.ensures_of_forall (fun _ => trivial) (fun _ _ _ _ => trivial) (x l) _

theorem returns_pure {P : α → Prop} {a : α} (h : P a) :
    Returns srv fits P (pure a : EffectPrograms.Script Q A E S α) := by
  intro s l a' ha
  cases ha
  exact h

theorem returns_throw {P : α → Prop} (e : E) :
    Returns srv fits P (Script.throw e : EffectPrograms.Script Q A E S α) :=
  fun _ _ _ ha => nomatch ha

theorem Returns.bind {P : α → Prop} {R : β → Prop} {x : EffectPrograms.Script Q A E S α}
    {f : α → EffectPrograms.Script Q A E S β} (hx : Returns srv fits P x)
    (hf : ∀ a, P a → Returns srv fits R (f a)) : Returns srv fits R (x >>= f) :=
  fun s l => (hx s l).andThen (fun a s l ha => hf a (ha a rfl) s l) fun _ _ _ _ _ hb => nomatch hb

theorem Returns.tryCatch {P : α → Prop} {x : EffectPrograms.Script Q A E S α}
    {handler : E → EffectPrograms.Script Q A E S α} (hx : Returns srv fits P x)
    (hh : ∀ e, Returns srv fits P (handler e)) : Returns srv fits P (x.tryCatch handler) := by
  refine fun s l => ensures_tryCatch.2 ((hx s l).mono fun s l r hr => ?_)
  cases r with
  | ok a => exact hr
  | error e => exact hh e s l

/-- A loop returns one value for each element, related to it as its body relates them. -/
theorem returns_collect {R : α → β → Prop} {body : α → EffectPrograms.Script Q A E S β}
    (hbody : ∀ a, Returns srv fits (R a) (body a)) (as : List α) :
    Returns srv fits (List.Forall₂ R as) (Script.collect body as) := by
  induction as with
  | nil => exact returns_pure .nil
  | cons a as ih =>
    exact (hbody a).bind fun b hb => ih.bind fun bs hbs => returns_pure (.cons hb hbs)

theorem Returns.complete {P : α → Prop} {x : EffectPrograms.Script Q A E S α}
    (hx : Returns srv fits P x) {s' : σ} {a : α} {l' : S} {cs : List C}
    (hr : Run (Guarded (Session srv) (Fits fits)) (s, x l) cs (s', .done (.ok a, l'))) : P a := by
  have hend : ∀ a', Except.ok a = (.ok a' : Except E α) → P a' :=
    EffectSessions.Ensures.complete (hx s l) hr
  exact hend a rfl

/-- Whatever happens, what the script raises has the property `P`. -/
def Raises (srv : Server Q (fun q => Except E (A q)) σ C) (fits : σ → Q → C → Prop)
    (P : E → Prop) (x : EffectPrograms.Script Q A E S α) : Prop :=
  ∀ s l, Ensures srv fits (fun _ => True) (fun _ _ r => ∀ e, r = .error e → P e) x s l

section Raises

variable {P : E → Prop}

theorem raises_pure (a : α) : Raises srv fits P (pure a : EffectPrograms.Script Q A E S α) :=
  fun _ _ _ he => nomatch he

theorem raises_throw {e : E} (h : P e) :
    Raises srv fits P (Script.throw e : EffectPrograms.Script Q A E S α) := by
  intro s l e' he
  cases he
  exact h

theorem raises_request {q : Q} (h : ∀ s c, fits s q c → ∀ e, (srv s q c).1 = .error e → P e) :
    Raises srv fits P (Script.request q : EffectPrograms.Script Q A E S (A q)) :=
  fun s _ => ensures_request.2 ⟨trivial, fun c hc => h s c hc⟩

theorem Raises.bind {x : EffectPrograms.Script Q A E S α}
    {f : α → EffectPrograms.Script Q A E S β} (hx : Raises srv fits P x)
    (hf : ∀ a, Raises srv fits P (f a)) : Raises srv fits P (x >>= f) :=
  fun s l => (hx s l).andThen (fun a s l _ => hf a s l) fun e _ _ he e' he' => by
    cases he'
    exact he e rfl

/-- What the handler does not catch, it raises again. -/
theorem Raises.tryCatch {R : E → Prop} {x : EffectPrograms.Script Q A E S α}
    {handler : E → EffectPrograms.Script Q A E S α} (hx : Raises srv fits P x)
    (hh : ∀ e, P e → Raises srv fits R (handler e)) : Raises srv fits R (x.tryCatch handler) := by
  refine fun s l => ensures_tryCatch.2 ((hx s l).mono fun s l r hr => ?_)
  cases r with
  | ok a => exact fun e he => nomatch he
  | error e => exact hh e (hr e rfl) s l

/-- An exception of the cleanup is raised, too. -/
theorem Raises.finallyDo {x : EffectPrograms.Script Q A E S α}
    {cleanup : EffectPrograms.Script Q A E S PUnit} (hx : Raises srv fits P x)
    (hc : Raises srv fits P cleanup) : Raises srv fits P (x.finallyDo cleanup) := by
  refine fun s l => ensures_finallyDo.2 ((hx s l).mono fun s l r hr => (hc s l).mono
    fun s l r' hr' => ?_)
  cases r' with
  | ok _ => exact hr
  | error e => exact fun e' he' => hr' e' (by cases he'; rfl)

theorem Raises.collect {body : α → EffectPrograms.Script Q A E S β}
    (hbody : ∀ a, Raises srv fits P (body a)) (as : List α) :
    Raises srv fits P (Script.collect body as) := by
  induction as with
  | nil => exact raises_pure []
  | cons a as ih => exact (hbody a).bind fun b => ih.bind fun bs => raises_pure (b :: bs)

/-- A script that raises nothing has ended with a value. -/
theorem Raises.complete {x : EffectPrograms.Script Q A E S α}
    (hx : Raises srv fits (fun _ => False) x) {s' : σ} {r : Except E α} {l' : S} {cs : List C}
    (hr : Run (Guarded (Session srv) (Fits fits)) (s, x l) cs (s', .done (r, l'))) :
    ∃ a, r = .ok a := by
  cases r with
  | ok a => exact ⟨a, rfl⟩
  | error e =>
    have hend : ∀ e', Except.error e = (.error e' : Except E α) → False :=
      EffectSessions.Ensures.complete (hx s l) hr
    exact (hend e rfl).elim

end Raises

/-- A session in which a loop collects `bs` from the elements `as`, one after the other. -/
inductive Collects (srv : Server Q (fun q => Except E (A q)) σ C)
    (body : α → EffectPrograms.Script Q A E S β) :
    σ × S → List α → List C → List β → σ × S → Prop
  | nil (x : σ × S) : Collects srv body x [] [] [] x
  | cons {x y z : σ × S} {a : α} {as : List α} {cs cs' : List C} {b : β} {bs : List β}
      (first : Run (Session srv) (x.1, body a x.2) cs (y.1, .done (.ok b, y.2)))
      (rest : Collects srv body y as cs' bs z) :
      Collects srv body x (a :: as) (cs ++ cs') (b :: bs) z

/-- A loop that keeps nothing of what its body returns. -/
def forEach (body : α → EffectPrograms.Script Q A E S PUnit) :
    List α → EffectPrograms.Script Q A E S PUnit
  | [] => pure ⟨⟩
  | a :: as => do
    body a
    forEach body as

/-- When the first part of a script returns, the session goes on with the second. -/
theorem run_bind {x : EffectPrograms.Script Q A E S α}
    {f : α → EffectPrograms.Script Q A E S β} {s₁ : σ} {a : α} {l₁ : S} {cs cs' : List C}
    {y : σ × Prog Q (fun q => Except E (A q)) (Except E β × S)}
    (h : Run (Session srv) (s, x l) cs (s₁, .done (.ok a, l₁)))
    (h' : Run (Session srv) (s, (x >>= f) l) (cs ++ cs') y) :
    Run (Session srv) (s₁, f a l₁) cs' y :=
  EffectSessions.run_bind (p := x l) h h'

/-- A script that returns has gone through its first part. -/
theorem exists_ok_of_run_bind {x : EffectPrograms.Script Q A E S α}
    {f : α → EffectPrograms.Script Q A E S β} {s' : σ} {l' : S} {b : β} {cs : List C}
    (h : Run (Session srv) (s, (x >>= f) l) cs (s', .done (.ok b, l'))) :
    ∃ cs₁ cs₂ s₁ l₁ a, cs = cs₁ ++ cs₂ ∧
      Run (Session srv) (s, x l) cs₁ (s₁, .done (.ok a, l₁)) ∧
      Run (Session srv) (s₁, f a l₁) cs₂ (s', .done (.ok b, l')) := by
  obtain ⟨cs₁, cs₂, s₁, ⟨e | a, l₁⟩, rfl, hfirst, hthen⟩ := exists_of_run_bind h
  · cases (run_done.1 hthen).2
  · exact ⟨cs₁, cs₂, s₁, l₁, a, rfl, hfirst, hthen⟩

theorem collects_of_run {body : α → EffectPrograms.Script Q A E S β} {as : List α} {s' : σ}
    {l' : S} {bs : List β} {cs : List C}
    (h : Run (Session srv) (s, Script.collect body as l) cs (s', .done (.ok bs, l'))) :
    Collects srv body (s, l) as cs bs (s', l') := by
  induction as generalizing s l cs bs with
  | nil =>
    obtain ⟨rfl, hend⟩ := run_done.1 h
    cases hend
    exact .nil _
  | cons a as ih =>
    obtain ⟨cs₁, cs₂, s₁, l₁, b, rfl, hfirst, hthen⟩ := exists_ok_of_run_bind h
    obtain ⟨cs₂, cs₃, s₂, l₂, bs', rfl, hrest, hend⟩ := exists_ok_of_run_bind hthen
    obtain ⟨rfl, heq⟩ := run_done.1 hend
    cases heq
    rw [List.append_nil]
    exact .cons (y := (s₁, l₁)) hfirst (ih hrest)

theorem allowed_of_run {M : Type*} {mon : Monitor Q (fun q => Except E (A q)) M}
    {post : M → S → Except E α → Prop} {x : EffectPrograms.Script Q A E S α} {m m' : M}
    (h : x.Obeys mon post m l) {replies : List ((q : Q) → Except E (A q))} {q : Q}
    {resume : Except E (A q) → Prog Q (fun q => Except E (A q)) (Except E α × S)}
    (hr : Run (Session (follow mon)) (m, x l) replies (m', .ask q resume)) : mon.allows m' q :=
  EffectSessions.allowed_of_run (p := x l) h hr

theorem Ensures.complete {x : Script Q A E S α} {s' : σ} {r : Except E α × S} {cs : List C}
    (hx : Ensures srv fits inv post x s l)
    (hr : Run (Guarded (Session srv) (Fits fits)) (s, x l) cs (s', .done r)) : post s' r.2 r.1 := by
  unfold Ensures at hx
  exact hx.complete hr

end Script

end Revix.EffectSessions
