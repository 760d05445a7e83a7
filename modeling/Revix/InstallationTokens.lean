import Revix.LabelledRuns
import Revix.QueueSchema

/-! `get_token`, called any number of times at once. A call is one transaction, whose `NOW()` is
the moment of its first statement and whose row is visible to others from the commit on. -/
namespace Revix
open KeyedTables LabelledRuns

def minute : ℤ := 60 * second

structure InstallationToken where
  installationId : ℤ
  token : String
  expiresAt : Timestamp
  deriving DecidableEq, Repr

/-- `PRIMARY KEY (installation_id)`. -/
instance : Keyed InstallationToken where
  Column := Unit
  Value _ := ℤ
  value _ := InstallationToken.installationId
  decEq _ := inferInstanceAs (DecidableEq ℤ)

instance : Subsingleton (Column InstallationToken) := inferInstanceAs (Subsingleton Unit)

namespace InstallationToken

/-- `expires_at > NOW() + INTERVAL '5 minutes'`. -/
def servable (now : Timestamp) (row : InstallationToken) : Bool :=
  decide (now + 5 * minute < row.expiresAt)

/-- `SET token = EXCLUDED.token, expires_at = EXCLUDED.expires_at`. -/
def excluded (row old : InstallationToken) : InstallationToken :=
  { old with token := row.token, expiresAt := row.expiresAt }

theorem excluded_keeps (row : InstallationToken) : KeepsKeys row.excluded := fun _ _ => rfl

/-- The cache lookup of `get_token`. -/
def select (rows : Table InstallationToken) (installationId : ℤ) (now : Timestamp) :
    Option String :=
  ((rows.find () installationId).filter (servable now)).map InstallationToken.token

def upsert (rows : Table InstallationToken) (installationId : ℤ) (token : String)
    (now : Timestamp) : Table InstallationToken :=
  let row : InstallationToken := ⟨installationId, token, now + 55 * minute⟩
  rows.upsert () row row.excluded row.excluded_keeps

theorem select_eq_some_iff {rows : Table InstallationToken} {installationId : ℤ}
    {now : Timestamp} {token : String} :
    select rows installationId now = some token ↔
      ∃ row, rows.find () installationId = some row ∧ row.token = token ∧
        now + 5 * minute < row.expiresAt := by
  simp only [select, Option.map_eq_some_iff, Option.filter_eq_some_iff, servable,
    decide_eq_true_eq]
  constructor
  · rintro ⟨row, ⟨hrow, hlater⟩, htoken⟩
    exact ⟨row, hrow, htoken, hlater⟩
  · rintro ⟨row, hrow, htoken, hlater⟩
    exact ⟨row, ⟨hrow, hlater⟩, htoken⟩

/-- Whatever stood there before, the upsert leaves the new token and the new expiry together. -/
theorem find_upsert (rows : Table InstallationToken) (installationId : ℤ) (token : String)
    (now : Timestamp) (i : ℤ) :
    (upsert rows installationId token now).find () i =
      if installationId = i then some ⟨installationId, token, now + 55 * minute⟩
      else rows.find () i := by
  rw [upsert, Table.find_upsert]
  change (if installationId = i then _ else _) = _
  split_ifs with hi
  · subst hi
    cases hrow : rows.find () installationId with
    | none => rfl
    | some row =>
      have hv : row.installationId = installationId := Table.find_value hrow
      simp [excluded, hv]
  · rfl

end InstallationToken

structure IssuedToken where
  installationId : ℤ
  token : String
  issuedAt : Timestamp

/-- GitHub issues tokens for an hour. -/
def IssuedToken.validUntil (g : IssuedToken) : Timestamp := g.issuedAt + 60 * minute

/-- A call that missed the cache: its transaction's `NOW()`, and GitHub's answer once it is
there. -/
structure TokenCall where
  installationId : ℤ
  startedAt : Timestamp
  answer : Option String

/-- A token that a call returned, and whether it came from the cache. -/
structure ServedToken where
  installationId : ℤ
  token : String
  lookedUpAt : Timestamp
  cached : Bool

structure TokenStore where
  clock : Timestamp
  rows : Table InstallationToken
  calls : ℕ → Option TokenCall
  issued : List IssuedToken
  served : List ServedToken

/-- What can happen next, at the time `now`. A call is named by a number that no call still in
flight has. -/
inductive TokenEvent
  | getToken (call : ℕ) (installationId : ℤ) (now : Timestamp)
  | issued (call : ℕ) (token : String) (now : Timestamp)
  | stored (call : ℕ) (now : Timestamp)
  | failed (call : ℕ) (now : Timestamp)

def TokenEvent.now : TokenEvent → Timestamp
  | .getToken _ _ now | .issued _ _ now | .stored _ now | .failed _ now => now

namespace TokenStore

def initial (clock : Timestamp) : TokenStore := ⟨clock, .empty, fun _ => none, [], []⟩

def setCall (s : TokenStore) (call : ℕ) (c : Option TokenCall) : TokenStore :=
  { s with calls := Function.update s.calls call c }

/-- The first statement of a call. A hit ends the call, a miss asks GitHub. -/
def getToken (s : TokenStore) (call : ℕ) (installationId : ℤ) : TokenStore :=
  match InstallationToken.select s.rows installationId s.clock with
  | some token => { s with served := s.served ++ [⟨installationId, token, s.clock, true⟩] }
  | none => s.setCall call (some ⟨installationId, s.clock, none⟩)

def issue (s : TokenStore) (call : ℕ) (c : TokenCall) (token : String) : TokenStore :=
  { s.setCall call (some { c with answer := some token }) with
    issued := s.issued ++ [⟨c.installationId, token, s.clock⟩] }

/-- The upsert's commit. The stored expiry is counted from the start of the transaction. -/
def store (s : TokenStore) (call : ℕ) (c : TokenCall) (token : String) : TokenStore :=
  { s.setCall call none with
    rows := InstallationToken.upsert s.rows c.installationId token c.startedAt
    served := s.served ++ [⟨c.installationId, token, c.startedAt, false⟩] }

def exec (s : TokenStore) : TokenEvent → Option TokenStore
  | .getToken call installationId _ =>
    if (s.calls call).isNone then some (s.getToken call installationId) else none
  | .issued call token _ =>
    ((s.calls call).filter fun c => c.answer.isNone).map fun c => s.issue call c token
  | .stored call _ => (s.calls call).bind fun c => c.answer.map (s.store call c)
  | .failed call _ => (s.calls call).map fun _ => s.setCall call none

def next (s : TokenStore) (e : TokenEvent) : Option TokenStore :=
  if s.clock ≤ e.now then exec { s with clock := e.now } e else none

def Step (s : TokenStore) (e : TokenEvent) (t : TokenStore) : Prop := s.next e = some t

variable {s t : TokenStore} {e : TokenEvent}

theorem setCall_self {call : ℕ} {c : Option TokenCall} : (s.setCall call c).calls call = c :=
  Function.update_self _ _ _

theorem setCall_of_ne {call i : ℕ} {c : Option TokenCall} (h : i ≠ call) :
    (s.setCall call c).calls i = s.calls i := Function.update_of_ne h _ _

def Issued (s : TokenStore) (installationId : ℤ) (token : String) (since : Timestamp) : Prop :=
  ∃ g ∈ s.issued, g.installationId = installationId ∧ g.token = token ∧ since ≤ g.issuedAt

theorem Issued.mono {i : ℤ} {token : String} {since since' : Timestamp}
    (h : s.Issued i token since) (hs : s.issued ⊆ t.issued) (hle : since' ≤ since) :
    t.Issued i token since' := by
  obtain ⟨g, hg, hi, htoken, hsince⟩ := h
  exact ⟨g, hs hg, hi, htoken, Int.le_trans hle hsince⟩

/-- What every reachable state satisfies. A row's expiry is at most 55 minutes after a moment
at which its token was not issued yet. -/
structure Sound (s : TokenStore) : Prop where
  started : ∀ i c, s.calls i = some c → c.startedAt ≤ s.clock
  answered : ∀ i c token, s.calls i = some c → c.answer = some token →
    s.Issued c.installationId token c.startedAt
  cached : ∀ i row, s.rows.find () i = some row →
    s.Issued i row.token (row.expiresAt - 55 * minute)
  served : ∀ r ∈ s.served, r.cached = true →
    s.Issued r.installationId r.token (r.lookedUpAt - 50 * minute + 1)

theorem remaining {lookedUpAt issuedAt : ℤ} (h : lookedUpAt - 50 * minute + 1 ≤ issuedAt) :
    10 * minute < issuedAt + 60 * minute - lookedUpAt := by
  omega

theorem sound_initial (clock : Timestamp) : (initial clock).Sound where
  started i c h := by cases h
  answered i c token h := by cases h
  cached i row h := by cases h
  served r h := by cases h

theorem Sound.later (h : s.Sound) {now : Timestamp} (hnow : s.clock ≤ now) :
    ({ s with clock := now } : TokenStore).Sound where
  started i c hc := Int.le_trans (h.started i c hc) hnow
  answered := h.answered
  cached := h.cached
  served := h.served

/-- Ending a call, or starting one whose answer is not there yet, keeps what is known. -/
theorem Sound.setCall (h : s.Sound) (call : ℕ) {c : Option TokenCall}
    (hc : ∀ c', c = some c' → c'.startedAt ≤ s.clock ∧ ∀ token, c'.answer = some token →
      s.Issued c'.installationId token c'.startedAt) : (s.setCall call c).Sound where
  started i c' hi := by
    by_cases hic : i = call
    · subst hic
      rw [setCall_self] at hi
      exact (hc c' hi).1
    · rw [setCall_of_ne hic] at hi
      exact h.started i c' hi
  answered i c' token hi ha := by
    by_cases hic : i = call
    · subst hic
      rw [setCall_self] at hi
      exact (hc c' hi).2 token ha
    · rw [setCall_of_ne hic] at hi
      exact h.answered i c' token hi ha
  cached := h.cached
  served := h.served

theorem Sound.serve (h : s.Sound) {r : ServedToken}
    (hr : r.cached = true → s.Issued r.installationId r.token (r.lookedUpAt - 50 * minute + 1)) :
    ({ s with served := s.served ++ [r] } : TokenStore).Sound where
  started := h.started
  answered := h.answered
  cached := h.cached
  served r' hr' := by
    rcases List.mem_append.1 hr' with hr' | hr'
    · exact h.served r' hr'
    · obtain rfl := List.mem_singleton.1 hr'
      exact hr

private theorem margin {now expiresAt : ℤ} (h : now + 5 * minute < expiresAt) :
    now - 50 * minute + 1 ≤ expiresAt - 55 * minute := by
  omega

theorem Sound.getToken (h : s.Sound) {call : ℕ} {installationId : ℤ} :
    (s.getToken call installationId).Sound := by
  unfold TokenStore.getToken
  split
  · rename_i token hit
    obtain ⟨row, hrow, rfl, hlater⟩ := InstallationToken.select_eq_some_iff.1 hit
    exact h.serve fun _ => (h.cached _ row hrow).mono (List.Subset.refl _) (margin hlater)
  · refine h.setCall call fun c hc => ?_
    cases hc
    exact ⟨Int.le_refl _, fun token ht => by cases ht⟩

theorem Sound.issue (h : s.Sound) {call : ℕ} {c : TokenCall} (hc : s.calls call = some c)
    (token : String) : (s.issue call c token).Sound := by
  let s' : TokenStore := { s with issued := s.issued ++ [⟨c.installationId, token, s.clock⟩] }
  have hsub : s.issued ⊆ s'.issued := List.subset_append_left _ _
  have hs' : s'.Sound :=
    { started := h.started
      answered := fun i c' t hi ha => (h.answered i c' t hi ha).mono hsub (Int.le_refl _)
      cached := fun i row hi => (h.cached i row hi).mono hsub (Int.le_refl _)
      served := fun r hr hcached => (h.served r hr hcached).mono hsub (Int.le_refl _) }
  refine hs'.setCall call fun c' hc' => ?_
  cases hc'
  have hstarted := h.started call c hc
  refine ⟨hstarted, fun t ht => ?_⟩
  cases ht
  exact ⟨⟨c.installationId, token, s.clock⟩, by simp [s'], rfl, rfl, hstarted⟩

theorem Sound.store (h : s.Sound) {call : ℕ} {c : TokenCall} {token : String}
    (hc : s.calls call = some c) (ha : c.answer = some token) : (s.store call c token).Sound := by
  have hissued := h.answered call c token hc ha
  have hs' : ({ s with rows := InstallationToken.upsert s.rows c.installationId token c.startedAt }
      : TokenStore).Sound :=
    { started := h.started
      answered := h.answered
      served := h.served
      cached := fun i row hi => by
        rw [InstallationToken.find_upsert] at hi
        split_ifs at hi with hid
        · cases hi
          subst hid
          exact hissued.mono (List.Subset.refl _) (by simp)
        · exact h.cached i row hi }
  exact (hs'.setCall call (fun c' hc' => by cases hc')).serve fun hcached => by cases hcached

theorem sound_exec (h : s.Sound) (hs : s.exec e = some t) : t.Sound := by
  cases e with
  | getToken call installationId now =>
    simp only [exec, Option.ite_none_right_eq_some, Option.some.injEq] at hs
    obtain ⟨-, rfl⟩ := hs
    exact h.getToken
  | issued call token now =>
    simp only [exec, Option.map_eq_some_iff, Option.filter_eq_some_iff] at hs
    obtain ⟨c, ⟨hc, -⟩, rfl⟩ := hs
    exact h.issue hc token
  | stored call now =>
    simp only [exec, Option.bind_eq_some_iff, Option.map_eq_some_iff] at hs
    obtain ⟨c, hc, token, ha, rfl⟩ := hs
    exact h.store hc ha
  | failed call now =>
    simp only [exec, Option.map_eq_some_iff] at hs
    obtain ⟨c, -, rfl⟩ := hs
    exact h.setCall call fun c' hc' => by cases hc'

theorem sound_step (h : s.Sound) (hs : Step s e t) : t.Sound := by
  unfold Step next at hs
  split_ifs at hs with hnow
  exact sound_exec (h.later hnow) hs

theorem sound_of_run {clock : Timestamp} {es : List TokenEvent}
    (h : Run Step (initial clock) es s) : s.Sound :=
  h.invariant (fun _ _ _ hs hstep => sound_step hs hstep) (sound_initial clock)

end TokenStore

/-- A token served from the cache lives for more than ten minutes after its lookup, whatever
other calls did with the cache in the meantime. -/
theorem cached_tokens_outlast_ten_minutes {clock : Timestamp} {es : List TokenEvent}
    {s : TokenStore} (h : Run TokenStore.Step (TokenStore.initial clock) es s) {r : ServedToken}
    (hr : r ∈ s.served) (hcached : r.cached = true) :
    ∃ g ∈ s.issued, g.installationId = r.installationId ∧ g.token = r.token ∧
      10 * minute < g.validUntil - r.lookedUpAt := by
  obtain ⟨g, hg, hi, htoken, hsince⟩ := (TokenStore.sound_of_run h).served r hr hcached
  exact ⟨g, hg, hi, htoken, TokenStore.remaining hsince⟩

/-- Two calls miss the cache at once. The second to begin stores its token first and the first
overwrites it, and a third call finds that token half an hour later. -/
def overlappingCalls : List TokenEvent :=
  [.getToken 0 7 0, .getToken 1 7 second, .issued 1 "ghs_b" (2 * second),
    .issued 0 "ghs_a" (3 * second), .stored 1 (4 * second), .stored 0 (5 * second),
    .getToken 0 7 (30 * minute)]

theorem cached_tokens_outlast_ten_minutes_overlappingCalls :
    ∃ s, Run TokenStore.Step (TokenStore.initial 0) overlappingCalls s ∧
      ∃ r ∈ s.served, r.cached = true ∧ r.token = "ghs_a" ∧
        ∃ g ∈ s.issued, g.installationId = r.installationId ∧ g.token = r.token ∧
          10 * minute < g.validUntil - r.lookedUpAt := by
  have hreplay : (replay TokenStore.next (TokenStore.initial 0) overlappingCalls).any
      (fun s => s.served.any fun r => r.cached && decide (r.token = "ghs_a")) = true := by
    decide
  obtain ⟨s, hrun, hs⟩ := exists_run_of_replay _ hreplay
  obtain ⟨r, hr, hp⟩ := List.any_eq_true.1 hs
  obtain ⟨hcached, htoken⟩ := Bool.and_eq_true_iff.1 hp
  exact ⟨s, hrun, r, hr, hcached, of_decide_eq_true htoken,
    cached_tokens_outlast_ten_minutes hrun hr hcached⟩

end Revix
