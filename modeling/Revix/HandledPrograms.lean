import Revix.GatheredPrograms
import Mathlib.Data.Option.Basic
import Mathlib.Logic.Function.Basic

/-! Programs whose requests are served by programs of another kind. A pool of them is, for whom
does not look into the calls, a pool of the callers. -/
namespace Revix.HandledPrograms
open EffectPrograms EffectSessions GatheredPrograms LabelledRuns

universe u

variable {Q Q' : Type u} {A : Q → Type u} {A' : Q' → Type u} {α β : Type u} {M : Type*}
  {serve : (q : Q) → Prog Q' A' (A q)}

def handled (serve : (q : Q) → Prog Q' A' (A q)) : Prog Q A α → Prog Q' A' α
  | .done a => .done a
  | .ask q resume => (serve q).bind fun r => handled serve (resume r)

def handledFlow (serve : (q : Q) → Prog Q' A' (A q)) : Flow Q A β → Flow Q' A' β
  | .done b => .done b
  | .gather progs next => .gather (progs.map (handled serve)) fun as => handledFlow serve (next as)

/-- What a monitor allows of every serving program that starts and ends with `I`, it allows of the
whole. -/
theorem obeys_handled {mon : Monitor Q' A' M} {I : M → Prop}
    (hserve : ∀ q m, I m → (serve q).Obeys mon (fun m _ => I m) m) {p : Prog Q A α} {m : M}
    (hm : I m) : (handled serve p).Obeys mon (fun m _ => I m) m := by
  induction p generalizing m with
  | done a => exact hm
  | ask q resume ih =>
    exact Prog.obeys_bind.2 (Prog.Obeys.mono (fun m r hm => ih r hm) (hserve q m hm))

theorem reaches_handledFlow {f : Flow Q A β} {g : Flow Q' A' β}
    (h : (handledFlow serve f).Reaches g) : ∃ f', f.Reaches f' ∧ handledFlow serve f' = g := by
  induction h with
  | refl => exact ⟨f, .refl, rfl⟩
  | next _ as ih =>
    obtain ⟨f', hreaches, hgather⟩ := ih
    cases f' with
    | done b => cases hgather
    | gather progs next =>
      cases hgather
      exact ⟨next as, .next hreaches as, rfl⟩

/-- Each task of a pool is allowed by a monitor that allows the serving programs, after the answers
to it. -/
theorem obeys_of_run {gated : Q' → Bool} {mon : Monitor Q' A' M} {I : M → Prop}
    (hserve : ∀ q m, I m → (serve q).Obeys mon (fun m _ => I m) m) {m : M} (hm : I m) {limit : ℕ}
    {flows : List (Flow Q A β)} {p : Pool Q' A' β} {es : List (ℕ × Action Q' A')}
    (h : Run (Pool.Step gated) (.start limit (flows.map (handledFlow serve))) es p) {i j : ℕ}
    {flow : Flow Q A β} (hflow : flows[i]? = some flow) {tasks : List (Task Q' A' α)}
    {next : List α → Flow Q' A' β} (hf : p.flows[i]? = some (.gather tasks next))
    {t : Task Q' A' α} (ht : tasks[j]? = some t) : ∃ progs prog m',
      (handledFlow serve flow).Reaches (.gather progs next) ∧ progs[j]? = some prog ∧
      Run (Session (follow mon)) (m, prog) (answersTo i j es) (m', t.prog) ∧
      t.prog.Obeys mon (fun m _ => I m) m' := by
  obtain ⟨progs, prog, hreaches, hprog, hrun⟩ := Pool.exists_program h
    (by rw [List.getElem?_map, hflow, Option.map_some]) hf ht
  have hanswers : ∀ m q reply, (follow mon m q reply).1 = reply q := fun _ _ _ => rfl
  obtain ⟨m', hfollow⟩ := exists_run_of_answering hanswers hrun m
  obtain ⟨f, -, hgather⟩ := reaches_handledFlow hreaches
  have hobeys : prog.Obeys mon (fun m _ => I m) m := by
    cases f with
    | done b => cases hgather
    | gather progs' next' =>
      cases hgather
      obtain ⟨prog', -, rfl⟩ := Option.map_eq_some_iff.1 (List.getElem?_map ▸ hprog)
      exact obeys_handled hserve hm
  exact ⟨progs, prog, m', hreaches, hprog, hfollow, obeys_of_follow hobeys hfollow⟩

/-- A gated request is served by a single gated request, and another one by requests that are not
gated. -/
def KeepsGate (gated' : Q' → Bool) (g : Bool) : Prog Q' A' α → Prop
  | .done _ => True
  | .ask q f => gated' q = g ∧ (g = true → ∀ r, ∃ a, f r = .done a) ∧
      ∀ r, KeepsGate gated' g (f r)

/-- Every request is served, by one request at least, and waits for a permit as it does without the
serving programs. -/
def Serves (gated : Q → Bool) (gated' : Q' → Bool) (serve : (q : Q) → Prog Q' A' (A q)) : Prop :=
  ∀ q, (∃ q' f, serve q = .ask q' f) ∧ KeepsGate gated' (gated q) (serve q)

open Classical in
/-- One request is answered by `r`, and the others as `rest` says. -/
noncomputable def answer (rest : (q : Q) → A q) (q : Q) (r : A q) (q' : Q) : A q' :=
  if h : q' = q then h ▸ r else rest q'

/-- A pool of callers, the pool that serves them, and the replies to each call on its way. -/
structure Hosting (Q : Type u) (A : Q → Type u) (Q' : Type u) (A' : Q' → Type u) (β : Type u) where
  host : Pool Q' A' β
  caller : Pool Q A β
  replies : ℕ → ℕ → List ((q : Q') → A' q)

def setReplies (replies : ℕ → ℕ → List ((q : Q') → A' q)) (i j : ℕ)
    (rs : List ((q : Q') → A' q)) : ℕ → ℕ → List ((q : Q') → A' q) :=
  Function.update replies i (Function.update (replies i) j rs)

/-- A step of the serving pool, and what it is for the callers. -/
inductive Hosted (serve : (q : Q) → Prog Q' A' (A q)) (rest : (q : Q) → A q) (gated : Q → Bool)
    (gated' : Q' → Bool) : Hosting Q A Q' A' β →
      (ℕ × Action Q' A') × Option (ℕ × Action Q A) → Hosting Q A Q' A' β → Prop
  /-- The first request for a call: the call is sent. -/
  | call {p p' : Pool Q' A' β} {c c' : Pool Q A β} (replies : ℕ → ℕ → List ((q : Q') → A' q))
      {i j : ℕ} (host : Pool.Step gated' p (i, .sent j) p')
      (caller : Pool.Step gated c (i, .sent j) c') :
      Hosted serve rest gated gated' ⟨p, c, replies⟩ ((i, .sent j), some (i, .sent j))
        ⟨p', c', setReplies replies i j []⟩
  /-- A later request for a call. -/
  | request {p p' : Pool Q' A' β} (c : Pool Q A β) (replies : ℕ → ℕ → List ((q : Q') → A' q))
      {i j : ℕ} (host : Pool.Step gated' p (i, .sent j) p') :
      Hosted serve rest gated gated' ⟨p, c, replies⟩ ((i, .sent j), none) ⟨p', c, replies⟩
  /-- A reply that is not the last one for a call. -/
  | reply {p p' : Pool Q' A' β} (c : Pool Q A β) (replies : ℕ → ℕ → List ((q : Q') → A' q))
      {i j : ℕ} {r : (q : Q') → A' q} (host : Pool.Step gated' p (i, .answered j r) p') :
      Hosted serve rest gated gated' ⟨p, c, replies⟩ ((i, .answered j r), none)
        ⟨p', c, setReplies replies i j (replies i j ++ [r])⟩
  /-- The last reply: the call is answered by what the serving program ends with. -/
  | finish {p p' : Pool Q' A' β} {c c' : Pool Q A β} (replies : ℕ → ℕ → List ((q : Q') → A' q))
      {i j : ℕ} {r : (q : Q') → A' q} {q : Q} {a : A q}
      (host : Pool.Step gated' p (i, .answered j r) p')
      (waits : c.flows[i]?.bind (Running.waiting j) = some q)
      (ends : Completes (serve q) (replies i j ++ [r]) a)
      (caller : Pool.Step gated c (i, .answered j (answer rest q a)) c') :
      Hosted serve rest gated gated' ⟨p, c, replies⟩
        ((i, .answered j r), some (i, .answered j (answer rest q a))) ⟨p', c', replies⟩
  | join {p p' : Pool Q' A' β} {c c' : Pool Q A β} (replies : ℕ → ℕ → List ((q : Q') → A' q))
      {i : ℕ} (host : Pool.Step gated' p (i, .joined) p')
      (caller : Pool.Step gated c (i, .joined) c') :
      Hosted serve rest gated gated' ⟨p, c, replies⟩ ((i, .joined), some (i, .joined))
        ⟨p', c', replies⟩

section Simulation

variable {gated : Q → Bool} {gated' : Q' → Bool}

theorem answer_self (rest : (q : Q) → A q) (q : Q) (r : A q) : answer rest q r q = r := dif_pos rfl

theorem answer_all {P : (q : Q) → A q → Prop} {rest : (q : Q) → A q} (hrest : ∀ q, P q (rest q))
    {q : Q} {r : A q} (hr : P q r) (q' : Q) : P q' (answer rest q r q') := by
  unfold answer
  split_ifs with h
  · subst h
    exact hr
  · exact hrest q'

theorem KeepsGate.run {g : Bool} {p p' : Prog Q' A' α} {rs : List ((q : Q') → A' q)}
    (h : Run (Session answering) ((), p) rs ((), p')) (hp : KeepsGate gated' g p) :
    KeepsGate gated' g p' := by
  refine h.invariant (I := fun x => KeepsGate gated' g x.2) ?_ hp
  rintro ⟨s, _ | ⟨q, f⟩⟩ reply y hx hstep
  · cases hstep
  · cases hstep
    exact hx.2.2 _

theorem keepsGate_of_obeys {mon : Monitor Q' A' M} {post : M → α → Prop}
    (hmon : ∀ m q, mon.allows m q → gated' q = false) {p : Prog Q' A' α} {m : M}
    (h : p.Obeys mon post m) : KeepsGate gated' false p := by
  induction p generalizing m with
  | done a => trivial
  | ask q f ih => exact ⟨hmon m q h.1, nofun, fun r => ih r (h.2 r)⟩

/-- A program that has gone on to another request makes no gated one. -/
theorem KeepsGate.eq_false {g : Bool} {p : Prog Q' A' α} {rs : List ((q : Q') → A' q)} {q : Q'}
    {f : A' q → Prog Q' A' α} (h : Run (Session answering) ((), p) rs ((), .ask q f))
    (hrs : rs ≠ []) (hp : KeepsGate gated' g p) : g = false := by
  cases p with
  | done a => exact absurd (run_done.1 h).1 hrs
  | ask q' f' =>
    rcases run_ask.1 h with ⟨hnil, -⟩ | ⟨r, rs, rfl, hrest⟩
    · exact absurd hnil hrs
    · cases g with
      | false => rfl
      | true =>
        obtain ⟨a, ha⟩ := hp.2.1 rfl (r q')
        have hdone : f' (answering () q' r).1 = .done a := ha
        rw [hdone] at hrest
        cases (run_done.1 hrest).2

/-- A task of a caller, and the task that serves it after the replies to the present call. -/
inductive Calling (serve : (q : Q) → Prog Q' A' (A q)) (rs : List ((q : Q') → A' q)) :
    Task Q A α → Task Q' A' α → Prop
  | idle (p : Prog Q A α) : Calling serve rs (.idle p) (.idle (handled serve p))
  | calling {q : Q} {q' : Q'} (resume : A q → Prog Q A α) {f : A' q' → Prog Q' A' (A q)}
      {sent : Bool} (started : Run (Session answering) ((), serve q) rs ((), .ask q' f))
      (hsent : rs = [] → sent = true) : Calling serve rs ⟨true, .ask q resume⟩
        ⟨sent, .ask q' fun r => (f r).bind fun a => handled serve (resume a)⟩

inductive Callers (serve : (q : Q) → Prog Q' A' (A q)) (replies : ℕ → List ((q : Q') → A' q)) :
    Running Q A β → Running Q' A' β → Prop
  | done (b : β) : Callers serve replies (.done b) (.done b)
  | gather {α : Type u} {tasks : List (Task Q A α)} {tasks' : List (Task Q' A' α)}
      (next : List α → Flow Q A β)
      (calling : ∀ j, Option.Rel (Calling serve (replies j)) tasks[j]? tasks'[j]?) :
      Callers serve replies (.gather tasks next)
        (.gather tasks' fun as => handledFlow serve (next as))

theorem callers_start (replies : ℕ → List ((q : Q') → A' q)) (f : Flow Q A β) :
    Callers serve replies f.start (handledFlow serve f).start := by
  cases f with
  | done b => exact .done b
  | gather progs next =>
    refine .gather next fun j => ?_
    rw [List.map_map, List.getElem?_map, List.getElem?_map]
    cases progs[j]? with
    | none => exact .none
    | some p => exact .some (.idle p)

/-- One task moves, and the others stay as they are. -/
theorem rel_set {γ δ : Type*} {R : ℕ → γ → δ → Prop} {l : List γ} {l' : List δ} {j : ℕ} {a : γ}
    {b : δ} (h : ∀ k, k ≠ j → Option.Rel (R k) l[k]? l'[k]?) (hj : (l[j]?).isSome = (l'[j]?).isSome)
    (hab : R j a b) (k : ℕ) : Option.Rel (R k) (l.set j a)[k]? (l'.set j b)[k]? := by
  rw [List.getElem?_set, List.getElem?_set]
  split_ifs with hk hl hl'
  · subst hk
    exact .some hab
  · simp_all
  · simp_all
  · exact .none
  · exact h k fun heq => hk heq.symm

/-- An unsent request is the first one for a call, or a later one. -/
theorem Calling.of_unsent {rs : List ((q : Q') → A' q)} {t : Task Q A α} {q' : Q'}
    {f : A' q' → Prog Q' A' α} (hserve : Serves gated gated' serve)
    (h : Calling serve rs t ⟨false, .ask q' f⟩) : ∃ (q : Q) (resume : A q → Prog Q A α)
      (f₁ : A' q' → Prog Q' A' (A q)), f = (fun r => (f₁ r).bind fun a => handled serve (resume a)) ∧
        (t = ⟨false, .ask q resume⟩ ∧ serve q = .ask q' f₁ ∨
          t = ⟨true, .ask q resume⟩ ∧ rs ≠ [] ∧
            Run (Session answering) ((), serve q) rs ((), .ask q' f₁)) := by
  generalize ht' : (⟨false, .ask q' f⟩ : Task Q' A' α) = t' at h
  cases h with
  | idle p =>
    injection ht' with _ hprog
    cases p with
    | done a => cases hprog
    | ask q resume =>
      obtain ⟨⟨q₁, f₁, hq⟩, -⟩ := hserve q
      rw [handled, hq] at hprog
      cases hprog
      exact ⟨q, resume, f₁, rfl, .inl ⟨rfl, hq⟩⟩
  | calling resume started hsent =>
    cases ht'
    exact ⟨_, resume, _, rfl, .inr ⟨rfl, (fun hrs => by cases hsent hrs), started⟩⟩

theorem Calling.of_sent {rs : List ((q : Q') → A' q)} {t : Task Q A α} {q' : Q'}
    {f : A' q' → Prog Q' A' α} (h : Calling serve rs t ⟨true, .ask q' f⟩) :
    ∃ (q : Q) (resume : A q → Prog Q A α) (f₁ : A' q' → Prog Q' A' (A q)),
      f = (fun r => (f₁ r).bind fun a => handled serve (resume a)) ∧ t = ⟨true, .ask q resume⟩ ∧
        Run (Session answering) ((), serve q) rs ((), .ask q' f₁) := by
  generalize ht' : (⟨true, .ask q' f⟩ : Task Q' A' α) = t' at h
  cases h with
  | idle p => cases ht'
  | calling resume started hsent =>
    cases ht'
    exact ⟨_, resume, _, rfl, rfl, started⟩

theorem Calling.of_done {rs : List ((q : Q') → A' q)} {t : Task Q A α} {t' : Task Q' A' α} {a : α}
    (hserve : Serves gated gated' serve) (h : Calling serve rs t t') (ht' : t'.prog = .done a) :
    t.prog = .done a := by
  cases h with
  | idle p =>
    cases p with
    | done b =>
      cases ht'
      rfl
    | ask q resume =>
      obtain ⟨⟨q₁, f₁, hq⟩, -⟩ := hserve q
      change handled serve (.ask q resume) = .done a at ht'
      rw [handled, hq] at ht'
      cases ht'
  | calling resume started hsent => cases ht'

theorem exists_of_rel {γ δ : Type*} {R : γ → δ → Prop} {o : Option γ} {b : δ}
    (h : Option.Rel R o (some b)) : ∃ a, o = some a ∧ R a b := by
  cases h with
  | some hab => exact ⟨_, rfl, hab⟩

theorem need_eq {q : Q} {q' : Q'} (h : gated' q' = gated q) :
    Running.need gated' q' = Running.need gated q := by
  rw [Running.need, Running.need, h]

theorem set_self {γ : Type*} {l : List γ} {j : ℕ} {a : γ} (h : l[j]? = some a) : l.set j a = l := by
  obtain ⟨before, after, rfl, rfl⟩ := exists_split h
  exact set_split before after a a

section Moves

variable {replies : ℕ → List ((q : Q') → A' q)} {f : Running Q A β} {g g' : Running Q' A' β}
  {n m j : ℕ}

/-- A task of the caller and the one that serves it go on, and the replies to its call may. -/
theorem callers_set {tasks : List (Task Q A α)} {tasks' : List (Task Q' A' α)}
    (next : List α → Flow Q A β) (rs : List ((q : Q') → A' q))
    (calling : ∀ j, Option.Rel (Calling serve (replies j)) tasks[j]? tasks'[j]?)
    {t t₁ : Task Q A α} {t' t₁' : Task Q' A' α} (ht : tasks[j]? = some t)
    (ht' : tasks'[j]? = some t') (h : Calling serve rs t₁ t₁') :
    Callers serve (Function.update replies j rs) (.gather (tasks.set j t₁) next)
      (.gather (tasks'.set j t₁') fun as => handledFlow serve (next as)) := by
  refine .gather next (rel_set (fun k hk => ?_) (by rw [ht, ht', Option.isSome, Option.isSome]) ?_)
  · rw [Function.update_of_ne hk]
    exact calling k
  · rw [Function.update_self]
    exact h

theorem Callers.send (hserve : Serves gated gated' serve) (h : Callers serve replies f g)
    (hmove : g.Moves gated' n (.sent j) m g') :
    (∃ f', f.Moves gated n (.sent j) m f' ∧
        Callers serve (Function.update replies j []) f' g') ∨
      m = n ∧ Callers serve replies f g' := by
  cases hmove with
  | @send _ q' f' before after next' _ _ free =>
    cases h with
    | @gather _ tasks _ next calling =>
      have ht' := getElem?_split before after (⟨false, .ask q' f'⟩ : Task Q' A' _)
      obtain ⟨t, ht, hcalling⟩ := exists_of_rel (ht' ▸ calling before.length)
      rw [← set_split before after ⟨false, .ask q' f'⟩ ⟨true, .ask q' f'⟩]
      obtain ⟨q, resume, f₁, rfl, ⟨rfl, hq⟩ | ⟨rfl, hrs, hrun⟩⟩ := hcalling.of_unsent hserve
      · have hgate : KeepsGate gated' (gated q) (.ask q' f₁) := hq ▸ (hserve q).2
        rw [need_eq hgate.1] at free
        have hstart : Run (Session answering) ((), serve q) [] ((), .ask q' f₁) := by
          rw [hq]
          exact .nil _
        have hsent : Calling serve [] (⟨true, .ask q resume⟩ : Task Q A _) ⟨true, _⟩ :=
          .calling resume hstart fun _ => rfl
        refine .inl ⟨_, ?_, callers_set next [] calling ht ht' hsent⟩
        obtain ⟨before₁, after₁, rfl, hlen⟩ := exists_split ht
        rw [← hlen, set_split]
        exact .send before₁ after₁ next free
      · have hungated : gated' q' = false := by
          have hgate := KeepsGate.run hrun (hserve q).2
          rw [hgate.1, KeepsGate.eq_false hrun hrs (hserve q).2]
        have hsent : Calling serve (replies before.length)
            (⟨true, .ask q resume⟩ : Task Q A _) ⟨true, _⟩ := .calling resume hrun fun _ => rfl
        have hcallers := callers_set next _ calling ht ht' hsent
        rw [Function.update_eq_self, set_self ht] at hcallers
        rw [Running.need, hungated] at free
        exact .inr ⟨free.symm, hcallers⟩

theorem Callers.answer (hserve : Serves gated gated' serve) (rest : (q : Q) → A q)
    (h : Callers serve replies f g) {r : (q : Q') → A' q}
    (hmove : g.Moves gated' n (.answered j r) m g') :
    (∃ q a f', f.waiting j = some q ∧ Completes (serve q) (replies j ++ [r]) a ∧
        f.Moves gated n (.answered j (answer rest q a)) m f' ∧ Callers serve replies f' g') ∨
      m = n ∧ Callers serve (Function.update replies j (replies j ++ [r])) f g' := by
  cases hmove with
  | @answer _ q' f' before after next' _ _ =>
    cases h with
    | @gather _ tasks _ next calling =>
      have ht' := getElem?_split before after (⟨true, .ask q' f'⟩ : Task Q' A' _)
      obtain ⟨t, ht, hcalling⟩ := exists_of_rel (ht' ▸ calling before.length)
      rw [← set_split before after ⟨true, .ask q' f'⟩ ⟨false, f' (r q')⟩]
      obtain ⟨q, resume, f₁, rfl, rfl, hrun⟩ := hcalling.of_sent
      have hgate := KeepsGate.run hrun (hserve q).2
      have hreply : Run (Session answering) ((), serve q) (replies before.length ++ [r])
          ((), f₁ (r q')) := hrun.append (.single rfl)
      cases hlast : f₁ (r q') with
      | done a =>
        rw [hlast] at hreply
        have hresumed : Calling serve (replies before.length)
            (⟨false, resume (answer rest q a q)⟩ : Task Q A _)
            ⟨false, (f₁ (r q')).bind fun a => handled serve (resume a)⟩ := by
          rw [answer_self, hlast]
          exact .idle (resume a)
        have hcallers := callers_set next _ calling ht ht' hresumed
        rw [Function.update_eq_self] at hcallers
        refine .inl ⟨q, a, _, ?_, hreply, ?_, hcallers⟩
        · rw [Running.waiting, ht]
          rfl
        · obtain ⟨before₁, after₁, rfl, hlen⟩ := exists_split ht
          rw [← hlen, set_split, need_eq hgate.1]
          exact .answer before₁ after₁ next n _
      | ask q₂ f₂ =>
        have hungated : gated' q' = false := by
          rw [hgate.1]
          by_contra hgated
          obtain ⟨a, ha⟩ := hgate.2.1 (by simpa using hgated) (r q')
          rw [ha] at hlast
          cases hlast
        rw [hlast] at hreply
        have hwaits : Calling serve (replies before.length ++ [r])
            (⟨true, .ask q resume⟩ : Task Q A _)
            ⟨false, (f₁ (r q')).bind fun a => handled serve (resume a)⟩ := by
          rw [hlast]
          exact .calling resume hreply fun hnil => by simp at hnil
        have hcallers := callers_set next _ calling ht ht' hwaits
        rw [set_self ht] at hcallers
        refine .inr ⟨?_, hcallers⟩
        rw [Running.need, hungated]
        rfl

theorem results_of_calling (hserve : Serves gated gated' serve) {tasks : List (Task Q A α)}
    {tasks' : List (Task Q' A' α)}
    (calling : ∀ j, Option.Rel (Calling serve (replies j)) tasks[j]? tasks'[j]?) {as : List α}
    (h : results tasks' = some as) : results tasks = some as := by
  rw [results_eq_some_iff] at h ⊢
  refine List.ext_getElem? fun j => ?_
  have hj := congrArg (·[j]?) h
  have hrel := calling j
  simp only [List.getElem?_map] at hj ⊢
  generalize tasks[j]? = o at hrel ⊢
  generalize tasks'[j]? = o' at hj hrel
  cases hrel with
  | none => cases ha : as[j]? with
    | none => rfl
    | some a =>
      rw [ha] at hj
      cases hj
  | some hcalling =>
    obtain ⟨a, ha, hdone⟩ := Option.map_eq_some_iff.1 hj.symm
    rw [ha, Option.map_some, Option.map_some, hcalling.of_done hserve hdone.symm]

theorem Callers.join (hserve : Serves gated gated' serve) (h : Callers serve replies f g)
    (hmove : g.Moves gated' n .joined m g') :
    ∃ f', f.Moves gated n .joined m f' ∧ Callers serve replies f' g' := by
  cases hmove with
  | join next' _ finished =>
    cases h with
    | gather next calling =>
      exact ⟨_, .join next n (results_of_calling hserve calling finished), callers_start replies _⟩

end Moves

/-- The callers are where the pool that serves them says. -/
structure Hosting.Agrees (serve : (q : Q) → Prog Q' A' (A q)) (x : Hosting Q A Q' A' β) : Prop where
  permits : x.caller.permits = x.host.permits
  flows : ∀ i, Option.Rel (Callers serve (x.replies i)) x.caller.flows[i]? x.host.flows[i]?

theorem Hosting.Agrees.done_iff {x : Hosting Q A Q' A' β} (h : x.Agrees serve) (i : ℕ) (b : β) :
    x.host.flows[i]? = some (.done b) ↔ x.caller.flows[i]? = some (.done b) := by
  have hi := h.flows i
  generalize x.host.flows[i]? = g at hi ⊢
  generalize x.caller.flows[i]? = f at hi ⊢
  cases hi with
  | none => simp
  | some hcallers => cases hcallers with
    | done b' => simp
    | gather next calling => simp

theorem agrees_start (serve : (q : Q) → Prog Q' A' (A q)) (limit : ℕ) (flows : List (Flow Q A β)) :
    Hosting.Agrees serve ⟨.start limit (flows.map (handledFlow serve)), .start limit flows,
      fun _ _ => []⟩ := by
  refine ⟨rfl, fun i => ?_⟩
  rw [Pool.start, Pool.start, List.map_map, List.getElem?_map, List.getElem?_map]
  cases flows[i]? with
  | none => exact .none
  | some f => exact .some (callers_start _ f)

theorem agrees_set {p p' : Pool Q' A' β} {c : Pool Q A β}
    {replies : ℕ → ℕ → List ((q : Q') → A' q)} (h : Hosting.Agrees serve ⟨p, c, replies⟩) {i : ℕ}
    {f f' : Running Q A β} {g g' : Running Q' A' β} (hf : c.flows[i]? = some f)
    (hg : p.flows[i]? = some g) (hp' : p'.flows = p.flows.set i g') {m : ℕ} (hm : m = p'.permits)
    {rs : ℕ → List ((q : Q') → A' q)} (hcallers : Callers serve rs f' g') :
    Hosting.Agrees serve ⟨p', ⟨m, c.flows.set i f'⟩, Function.update replies i rs⟩ := by
  refine ⟨hm, fun k => ?_⟩
  rw [hp']
  refine rel_set (R := fun k => Callers serve (Function.update replies i rs k)) (fun k hk => ?_)
    (by rw [hf, hg, Option.isSome, Option.isSome]) ?_ k
  · rw [Function.update_of_ne hk]
    exact h.flows k
  · rw [Function.update_self]
    exact hcallers

/-- Every step of the serving pool is one of the two together. -/
theorem exists_hosted (hserve : Serves gated gated' serve) (rest : (q : Q) → A q)
    {x : Hosting Q A Q' A' β} (hx : x.Agrees serve) {e : ℕ × Action Q' A'} {p' : Pool Q' A' β}
    (h : Pool.Step gated' x.host e p') : ∃ e' y, y.host = p' ∧
      Hosted serve rest gated gated' x (e, e') y ∧ y.Agrees serve := by
  obtain ⟨p, c, replies⟩ := x
  obtain ⟨i, e⟩ := e
  obtain ⟨g, g', hg, hmove, hp'⟩ := Pool.step_iff_moves.1 h
  obtain ⟨f, hf, hcallers⟩ := exists_of_rel (hg ▸ hx.flows i)
  have hpermits : c.permits = p.permits := hx.permits
  have hstep : ∀ {e : Action Q A} {f' : Running Q A β}, f.Moves gated p.permits e p'.permits f' →
      Pool.Step gated c (i, e) ⟨p'.permits, c.flows.set i f'⟩ := fun hmove =>
    Pool.step_iff_moves.2 ⟨f, _, hf, hpermits ▸ hmove, rfl⟩
  have hself : c.flows.set i f = c.flows := set_self hf
  cases e with
  | sent j =>
    rcases hcallers.send hserve hmove with ⟨f', hcall, hcallers'⟩ | ⟨hm, hcallers'⟩
    · exact ⟨_, _, rfl, .call replies h (hstep hcall), agrees_set hx hf hg hp' rfl hcallers'⟩
    · have hagrees := agrees_set hx hf hg hp' (hpermits.trans hm.symm) hcallers'
      rw [hself, Function.update_eq_self] at hagrees
      exact ⟨_, _, rfl, .request c replies h, hagrees⟩
  | answered j r =>
    rcases hcallers.answer hserve rest hmove with
      ⟨q, a, f', hwaits, hends, hcall, hcallers'⟩ | ⟨hm, hcallers'⟩
    · have hagrees := agrees_set hx hf hg hp' rfl hcallers'
      rw [Function.update_eq_self] at hagrees
      refine ⟨_, _, rfl, .finish replies h ?_ hends (hstep hcall), hagrees⟩
      rw [hf]
      exact hwaits
    · have hagrees := agrees_set hx hf hg hp' (hpermits.trans hm.symm) hcallers'
      rw [hself] at hagrees
      exact ⟨_, _, rfl, .reply c replies h, hagrees⟩
  | joined =>
    obtain ⟨f', hjoin, hcallers'⟩ := hcallers.join hserve hmove
    have hagrees := agrees_set hx hf hg hp' rfl hcallers'
    rw [Function.update_eq_self] at hagrees
    exact ⟨_, _, rfl, .join replies h (hstep hjoin), hagrees⟩

/-- Every run of the serving pool is one of the two together. -/
theorem exists_run_hosted (hserve : Serves gated gated' serve) (rest : (q : Q) → A q)
    {x : Hosting Q A Q' A' β} (hx : x.Agrees serve) {es : List (ℕ × Action Q' A')}
    {p' : Pool Q' A' β} (h : Run (Pool.Step gated') x.host es p') : ∃ ls y, y.host = p' ∧
      ls.map Prod.fst = es ∧ Run (Hosted serve rest gated gated') x ls y ∧ y.Agrees serve := by
  generalize hp : x.host = p at h
  induction h generalizing x with
  | nil p => exact ⟨[], x, hp, rfl, .nil x, hx⟩
  | @cons p p₁ p' e es first rest' ih =>
    subst hp
    obtain ⟨e', y, hy, hstep, hagrees⟩ := exists_hosted hserve rest hx first
    obtain ⟨ls, z, hz, hls, hrun, hagrees'⟩ := ih hagrees hy
    exact ⟨(e, e') :: ls, z, hz, by rw [List.map_cons, hls], .cons hstep hrun, hagrees'⟩

/-- What the two together do, the callers do. -/
theorem caller_run {rest : (q : Q) → A q} {x y : Hosting Q A Q' A' β}
    {ls : List ((ℕ × Action Q' A') × Option (ℕ × Action Q A))}
    (h : Run (Hosted serve rest gated gated') x ls y) :
    Run (Pool.Step gated) x.caller (ls.filterMap Prod.snd) y.caller := by
  induction h with
  | nil x => exact .nil _
  | cons first _ ih => cases first with
    | call replies host caller => exact .cons caller ih
    | request c replies host => exact ih
    | reply c replies host => exact ih
    | finish replies host waits ends caller => exact .cons caller ih
    | join replies host caller => exact .cons caller ih

theorem forall_setReplies {G : ((q : Q') → A' q) → Prop}
    {replies : ℕ → ℕ → List ((q : Q') → A' q)} (h : ∀ i j, ∀ r ∈ replies i j, G r) {i j : ℕ}
    {rs : List ((q : Q') → A' q)} (hrs : ∀ r ∈ rs, G r) :
    ∀ k l, ∀ r ∈ setReplies replies i j rs k l, G r := by
  intro k l r hr
  rw [setReplies, Function.update_apply] at hr
  split_ifs at hr with hk
  · rw [Function.update_apply] at hr
    split_ifs at hr
    · exact hrs r hr
    · exact h i l r hr
  · exact h k l r hr

/-- When serving programs with good replies end only as `P` says, so are the calls answered. -/
theorem replies_of_hosted {G : ((q : Q') → A' q) → Prop} {P : (q : Q) → A q → Prop}
    {rest : (q : Q) → A q} (hrest : ∀ q, P q (rest q))
    (hends : ∀ q rs a, (∀ r ∈ rs, G r) → Completes (serve q) rs a → P q a)
    {x y : Hosting Q A Q' A' β} {ls : List ((ℕ × Action Q' A') × Option (ℕ × Action Q A))}
    (h : Run (Hosted serve rest gated gated') x ls y) (hx : ∀ i j, ∀ r ∈ x.replies i j, G r)
    (hls : ∀ l ∈ ls, ∀ r ∈ l.1.2.replies, G r) :
    ∀ e ∈ ls.filterMap Prod.snd, ∀ reply ∈ e.2.replies, ∀ q, P q (reply q) := by
  induction h with
  | nil x => exact nofun
  | cons first _ ih =>
    obtain ⟨hfirst, hlater⟩ := List.forall_mem_cons.1 hls
    cases first with
    | call replies host caller =>
      exact List.forall_mem_cons.2 ⟨nofun, ih (forall_setReplies hx nofun) hlater⟩
    | request c replies host => exact ih hx hlater
    | reply c replies host =>
      refine ih (forall_setReplies hx fun r hr => ?_) hlater
      rcases List.mem_append.1 hr with hr | hr
      · exact hx _ _ r hr
      · exact hfirst r hr
    | @finish _ _ _ _ replies i j r q a host waits ends caller =>
      refine List.forall_mem_cons.2 ⟨fun reply hreply => ?_, ih hx hlater⟩
      rw [List.mem_singleton.1 hreply]
      refine answer_all hrest (hends q _ a (fun r' hr => ?_) ends)
      rcases List.mem_append.1 hr with hr | hr
      · exact hx i j r' hr
      · exact hfirst r' hr
    | join replies host caller => exact List.forall_mem_cons.2 ⟨nofun, ih hx hlater⟩

end Simulation

end Revix.HandledPrograms
