import Revix.ReadCommitted
import Revix.RepoGraph

/-! `persist_repo_graph` as a transaction: two `DELETE`s, and a `COPY` for each list that is not
empty. Calls for one repository interleave as the locks on the deleted rows allow. -/
namespace Revix
open LabelledRuns ReadCommitted

inductive GraphTable
  | symbols
  | references
  deriving DecidableEq, Repr

inductive GraphRow
  | symbol (row : SymbolRow)
  | reference (row : ReferenceRow)
  deriving DecidableEq, Repr

def GraphRow.isOf (repo : String) : GraphTable → GraphRow → Bool
  | .symbols, .symbol row => row.repoFullName = repo
  | .references, .reference row => row.repoFullName = repo
  | _, _ => false

theorem GraphRow.isOf_eq {repo : String} {table table' : GraphTable} {r : GraphRow}
    (h : r.isOf repo table = true) : r.isOf repo table' = decide (table' = table) := by
  cases table <;> cases table' <;> cases r <;> first | exact h | cases h | rfl

def RepoGraph.rows (g : RepoGraph) : List GraphRow :=
  g.symbols.map .symbol ++ g.references.map .reference

/-- The two contents hold the same rows for the repository, however often each. -/
def SameFor (repo : String) (rows rows' : List GraphRow) : Prop :=
  ∀ table, (rows.filter (GraphRow.isOf repo table)).Perm (rows'.filter (GraphRow.isOf repo table))

structure GraphCall where
  symbols : List Symbol
  references : List Reference

namespace GraphCall

/-- `if xs: async with cur.copy(..)` -/
def copy (rows : List GraphRow) : List (Statement GraphTable GraphRow) :=
  if rows = [] then [] else [.insert rows]

def rows (c : GraphCall) (repo : String) : GraphTable → List GraphRow
  | .symbols => c.symbols.map fun s => .symbol ⟨repo, s⟩
  | .references => c.references.map fun r => .reference ⟨repo, r⟩

def statements (c : GraphCall) (repo : String) : List (Statement GraphTable GraphRow) :=
  [.delete .symbols (GraphRow.isOf repo .symbols),
    .delete .references (GraphRow.isOf repo .references)] ++
    copy (c.rows repo .symbols) ++ copy (c.rows repo .references)

variable {c : GraphCall} {repo : String}

theorem copy_rows (rows : List GraphRow) : (copy rows).flatMap Statement.rows = rows := by
  unfold copy
  split_ifs with h
  · rw [h, List.flatMap_nil]
  · simp [Statement.rows]

theorem copy_scan (rows : List GraphRow) : (copy rows).filterMap Statement.scan = [] := by
  unfold copy
  split_ifs
  · rfl
  · rfl

theorem statements_rows :
    (c.statements repo).flatMap Statement.rows = c.rows repo .symbols ++ c.rows repo .references := by
  simp [statements, copy_rows, Statement.rows]

theorem statements_scan :
    (c.statements repo).filterMap Statement.scan =
      [(.symbols, GraphRow.isOf repo .symbols), (.references, GraphRow.isOf repo .references)] := by
  simp only [statements, List.filterMap_append, copy_scan, List.append_nil]
  rfl

theorem statements_deletesFirst : Store.DeletesFirst (c.statements repo) := by
  have hcopy : ∀ rows, ∀ st ∈ copy rows, st.isDelete = false := by
    intro rows st hst
    unfold copy at hst
    split_ifs at hst
    · exact absurd hst List.not_mem_nil
    · obtain rfl := List.mem_singleton.1 hst
      rfl
  have hcopies : ∀ st ∈ copy (c.rows repo .symbols) ++ copy (c.rows repo .references),
      st.isDelete = false := by
    intro st hst
    rcases List.mem_append.1 hst with hst | hst
    · exact hcopy _ st hst
    · exact hcopy _ st hst
  unfold Store.DeletesFirst statements
  rw [List.append_assoc]
  refine List.pairwise_append.2 ⟨by simp [Statement.isDelete], ?_, ?_⟩
  · refine List.Pairwise.imp_of_mem (R := fun _ _ => True) ?_ (List.pairwise_of_forall (by simp))
    intro a b _ hb _ hdel
    rw [hcopies b hb] at hdel
    cases hdel
  · intro a _ b hb hdel
    rw [hcopies b hb] at hdel
    cases hdel

theorem rows_filter (table : GraphTable) :
    (c.rows repo .symbols ++ c.rows repo .references).filter (GraphRow.isOf repo table) =
      c.rows repo table := by
  cases table <;>
    simp [rows, GraphRow.isOf, List.filter_append, List.filter_map, Function.comp_def]

theorem persist_rows_filter (g : RepoGraph) (table : GraphTable) :
    (g.persistRepoGraph repo c.symbols c.references).rows.filter (GraphRow.isOf repo table) =
      c.rows repo table := by
  cases table <;>
    simp [RepoGraph.rows, RepoGraph.persistRepoGraph, RepoGraph.copyRepo, RepoGraph.deleteRepo,
      rows, GraphRow.isOf, List.filter_append, List.filter_map, List.filter_filter,
      Function.comp_def]

end GraphCall

namespace GraphStore

variable {τ : Type} [DecidableEq τ] (g : RepoGraph) (repo : String) (calls : τ → GraphCall)

def start : Store GraphTable GraphRow τ := .initial g.rows fun t => (calls t).statements repo

/-- Some call started its `DELETE` on the table after `t` had committed. -/
def superseded (s : Store GraphTable GraphRow τ) (t : τ) (table : GraphTable) : Bool :=
  s.log.any fun d => d.name = table && t ∈ d.saw

variable {g} {repo} {calls} {s : Store GraphTable GraphRow τ} {es : List τ}

theorem sound (h : Run Store.Step (start g repo calls) es s) : s.Sound :=
  Store.sound_of_run (fun _ => GraphCall.statements_deletesFirst) h

theorem scans (h : Run Store.Step (start g repo calls) es s) (hall : ∀ t, t ∈ s.committed) (t : τ) :
    ((s.log.filter fun d => d.owner = t).map fun d => (d.name, d.hit)) =
      [(.symbols, GraphRow.isOf repo .symbols), (.references, GraphRow.isOf repo .references)] := by
  have hscans := (Store.accounts_of_run h).scans t
  rwa [((sound h).done t (hall t)).1, List.filterMap_nil, List.append_nil,
    GraphCall.statements_scan] at hscans

theorem hit_eq (h : Run Store.Step (start g repo calls) es s) (hall : ∀ t, t ∈ s.committed)
    {d : ReadCommitted.Scan GraphTable GraphRow τ} (hd : d ∈ s.log) :
    d.hit = GraphRow.isOf repo d.name := by
  have hmem : (d.name, d.hit) ∈ (s.log.filter fun e => e.owner = d.owner).map
      fun e => (e.name, e.hit) :=
    List.mem_map.2 ⟨d, List.mem_filter.2 ⟨hd, by simp⟩, rfl⟩
  rw [scans h hall] at hmem
  rcases List.mem_cons.1 hmem with heq | hmem
  · obtain ⟨hname, hhit⟩ := Prod.mk.inj heq
    rw [hname, hhit]
  · obtain ⟨hname, hhit⟩ := Prod.mk.inj (List.mem_singleton.1 hmem)
    rw [hname, hhit]

theorem exists_scan (h : Run Store.Step (start g repo calls) es s) (hall : ∀ t, t ∈ s.committed)
    (t : τ) (table : GraphTable) : ∃ d ∈ s.log, d.owner = t ∧ d.name = table := by
  have hmem : (table, GraphRow.isOf repo table) ∈ (s.log.filter fun e => e.owner = t).map
      fun e => (e.name, e.hit) := by
    rw [scans h hall]
    cases table <;> simp
  obtain ⟨d, hd, heq⟩ := List.mem_map.1 hmem
  obtain ⟨hd, howner⟩ := List.mem_filter.1 hd
  exact ⟨d, hd, by simpa using howner, (Prod.mk.inj heq).1⟩

theorem overtaken_eq (h : Run Store.Step (start g repo calls) es s) (hall : ∀ t, t ∈ s.committed)
    {table : GraphTable} {r : GraphRow} (hr : r.isOf repo table = true) (t : τ) :
    s.overtaken (some t) r = superseded s t table := by
  unfold Store.overtaken superseded
  rw [Bool.eq_iff_iff, List.any_eq_true, List.any_eq_true]
  apply exists_congr
  intro d
  apply and_congr_right
  intro hd
  rw [ReadCommitted.Scan.sees, hit_eq h hall hd, GraphRow.isOf_eq hr]
  rfl

theorem overtaken_none (h : Run Store.Step (start g repo calls) es s)
    (hall : ∀ t, t ∈ s.committed) {table : GraphTable} {r : GraphRow}
    (hr : r.isOf repo table = true) (t : τ) : s.overtaken none r = true := by
  obtain ⟨d, hd, -, hname⟩ := exists_scan h hall t table
  refine List.any_eq_true.2 ⟨d, hd, ?_⟩
  rw [ReadCommitted.Scan.sees, hit_eq h hall hd, hname, hr]
  rfl

/-- Once all calls have committed, a table holds what those of them wrote to it that no later
call superseded there. -/
theorem contents_filter (h : Run Store.Step (start g repo calls) es s)
    (hall : ∀ t, t ∈ s.committed) {ts : List τ} (hnodup : ts.Nodup) (hts : ∀ t, t ∈ ts) (t₀ : τ)
    (table : GraphTable) :
    (s.contents.filter (GraphRow.isOf repo table)).Perm
      (ts.flatMap fun t => if superseded s t table then [] else (calls t).rows repo table) := by
  have hperm := Store.contents_perm (sound h) (Store.accounts_of_run h) hall hnodup hts
  refine (hperm.filter _).trans (List.Perm.of_eq ?_)
  have hold : ∀ rows : List GraphRow, (rows.filter fun r => !s.overtaken none r).filter
      (GraphRow.isOf repo table) = [] := by
    intro rows
    rw [List.filter_filter]
    apply List.filter_eq_nil_iff.2
    intro r _ hboth
    obtain ⟨hr, hnot⟩ := Bool.and_eq_true_iff.1 hboth
    rw [overtaken_none h hall hr t₀] at hnot
    cases hnot
  have hnew : ∀ t, (((calls t).statements repo).flatMap Statement.rows |>.filter
      fun r => !s.overtaken (some t) r).filter (GraphRow.isOf repo table) =
        if superseded s t table then [] else (calls t).rows repo table := by
    intro t
    rw [GraphCall.statements_rows, List.filter_comm, GraphCall.rows_filter]
    have hrow : ∀ r ∈ (calls t).rows repo table,
        (!s.overtaken (some t) r) = !superseded s t table := by
      intro r hr
      rw [← GraphCall.rows_filter] at hr
      rw [overtaken_eq h hall (List.mem_filter.1 hr).2]
    rw [List.filter_congr hrow]
    cases superseded s t table <;> simp
  rw [List.filter_append, hold, List.nil_append, List.filter_flatMap]
  apply List.flatMap_congr
  intro t _
  exact hnew t

theorem ordered (h : Run Store.Step (start g repo calls) es s) : s.Ordered :=
  Store.ordered_of_run (fun _ => GraphCall.statements_deletesFirst) h

theorem superseded_iff {t : τ} {table : GraphTable} :
    superseded s t table = true ↔ ∃ d ∈ s.log, d.name = table ∧ t ∈ d.saw := by
  simp [superseded]

/-- A call deletes from `repo_references` later than from `repo_symbols`, and sees more there. -/
theorem superseded_references (h : Run Store.Step (start g repo calls) es s)
    (hall : ∀ t, t ∈ s.committed) {t : τ} (hsym : superseded s t .symbols = true) :
    superseded s t .references = true := by
  obtain ⟨d, hd, hname, ht⟩ := superseded_iff.1 hsym
  have hscans := scans h hall d.owner
  have hlater := ((ordered h).later.imp (S := fun a b => a.saw ⊆ b.saw) fun hab => hab.1).filter
    fun e => e.owner = d.owner
  obtain ⟨a, as, heq, ha, has⟩ := List.map_eq_cons_iff.1 hscans
  obtain ⟨b, bs, rfl, hb, hbs⟩ := List.map_eq_cons_iff.1 has
  obtain rfl := List.map_eq_nil_iff.1 hbs
  have hmem : d ∈ s.log.filter fun e => e.owner = d.owner := List.mem_filter.2 ⟨hd, by simp⟩
  rw [heq] at hmem hlater
  have hb_mem : b ∈ s.log := by
    have hb' : b ∈ s.log.filter fun e => e.owner = d.owner := by simp [heq]
    exact (List.mem_filter.1 hb').1
  rcases List.mem_cons.1 hmem with rfl | hmem
  · have hsub := (List.pairwise_cons.1 hlater).1 b (by simp)
    exact superseded_iff.2 ⟨b, hb_mem, (Prod.mk.inj hb).1, hsub ht⟩
  · obtain rfl := List.mem_singleton.1 hmem
    rw [(Prod.mk.inj hb).1] at hname
    cases hname

end GraphStore

/-- A call that no other one disturbs leaves what `persistRepoGraph` computes. -/
theorem persist_alone (g : RepoGraph) (repo : String) (c : GraphCall) {es : List Unit}
    {s : Store GraphTable GraphRow Unit}
    (h : Run Store.Step (GraphStore.start g repo fun _ => c) es s) (hdone : () ∈ s.committed) :
    SameFor repo s.contents (g.persistRepoGraph repo c.symbols c.references).rows := by
  intro table
  have hperm := GraphStore.contents_filter h (fun _ => hdone) (List.nodup_singleton ()) (by simp) ()
    table
  have hnot : GraphStore.superseded s () table = false := by
    rw [Bool.eq_false_iff]
    intro hsup
    obtain ⟨d, hd, -, ht⟩ := GraphStore.superseded_iff.1 hsup
    exact (GraphStore.ordered h).opened d hd ht
  rw [GraphCall.persist_rows_filter]
  simpa [hnot] using hperm

inductive Call
  | first
  | second
  deriving DecidableEq, Repr

def Call.other : Call → Call
  | .first => .second
  | .second => .first

theorem Call.other_other (t : Call) : t.other.other = t := by
  cases t <;> rfl

theorem Call.eq_other {t u : Call} (h : u ≠ t) : u = t.other := by
  cases t <;> cases u <;> first | rfl | exact absurd rfl h

namespace GraphStore

variable {g : RepoGraph} {repo : String} {calls : Call → GraphCall}
  {s : Store GraphTable GraphRow Call} {es : List Call}

/-- One call committed before the other one's first `DELETE`; or the calls overlapped, and had so
little to write that this cannot be told from the rows. -/
def Separated (calls : Call → GraphCall) (s : Store GraphTable GraphRow Call) : Prop :=
  ∃ t : Call, superseded s t .symbols = true ∨
    (superseded s t .references = true ∧ ((calls t).symbols = [] ∨
      (calls t.other).symbols = [] ∧ (calls t).references.Perm (calls t.other).references)) ∨
    (superseded s t .references = false ∧ superseded s t.other .references = false ∧
      (calls t).symbols = [] ∧ (calls t).references = [])

/-- If one call was superseded in a table, the other one was in none. -/
theorem not_superseded (h : Run Store.Step (start g repo calls) es s) {t : Call}
    {table table' : GraphTable} (hsup : superseded s t table = true) :
    superseded s t.other table' = false := by
  rw [Bool.eq_false_iff]
  intro hsup'
  obtain ⟨a, ha, -, hta⟩ := superseded_iff.1 hsup
  obtain ⟨b, hb, -, htb⟩ := superseded_iff.1 hsup'
  have howner : a.owner = t.other := Call.eq_other fun he => (ordered h).opened a ha (he ▸ hta)
  have howner' : b.owner = t := by
    have hne : b.owner ≠ t.other := fun he => (ordered h).opened b hb (he ▸ htb)
    have heq := Call.eq_other hne
    cases t <;> exact heq
  exact (ordered h).not_both ha hb (howner' ▸ hta) (howner ▸ htb)

/-- What a call wrote to a table and was not superseded there. -/
def kept (calls : Call → GraphCall) (repo : String) (s : Store GraphTable GraphRow Call) (t : Call)
    (table : GraphTable) : List GraphRow :=
  if superseded s t table then [] else (calls t).rows repo table

theorem contents_two (h : Run Store.Step (start g repo calls) es s) (hall : ∀ t, t ∈ s.committed)
    (t : Call) (table : GraphTable) :
    (s.contents.filter (GraphRow.isOf repo table)).Perm
      (kept calls repo s t table ++ kept calls repo s t.other table) := by
  have hnodup : [t, t.other].Nodup := by cases t <;> decide
  have hcover : ∀ u, u ∈ [t, t.other] := by
    intro u
    cases t <;> cases u <;> decide
  simpa [kept] using contents_filter h hall hnodup hcover t table

theorem rows_eq_nil_iff {c : GraphCall} :
    (c.rows repo .symbols = [] ↔ c.symbols = []) ∧
      (c.rows repo .references = [] ↔ c.references = []) := by
  simp [GraphCall.rows]

theorem references_perm_iff {c c' : GraphCall} :
    (c.rows repo .references).Perm (c'.rows repo .references) ↔ c.references.Perm c'.references := by
  apply List.map_perm_map_iff
  intro r r' heq
  cases heq
  rfl

theorem kept_of_superseded {t : Call} {table : GraphTable} (h : superseded s t table = true) :
    kept calls repo s t table = [] := if_pos h

theorem kept_of_not_superseded {t : Call} {table : GraphTable}
    (h : superseded s t table = false) : kept calls repo s t table = (calls t).rows repo table :=
  if_neg (by simp [h])

theorem kept_of_nil {t : Call} {table : GraphTable} (h : (calls t).rows repo table = []) :
    kept calls repo s t table = [] := by
  simp [kept, h]

def LeavesOnly (calls : Call → GraphCall) (repo : String) (s : Store GraphTable GraphRow Call)
    (u : Call) : Prop :=
  ∀ table, (kept calls repo s u table ++ kept calls repo s u.other table).Perm
    ((calls u).rows repo table)

theorem sameFor_iff_leavesOnly (h : Run Store.Step (start g repo calls) es s)
    (hall : ∀ t, t ∈ s.committed) (u : Call) :
    SameFor repo s.contents (g.persistRepoGraph repo (calls u).symbols (calls u).references).rows ↔
      LeavesOnly calls repo s u := by
  apply forall_congr'
  intro table
  rw [GraphCall.persist_rows_filter]
  have hperm := contents_two h hall u table
  exact ⟨fun hsame => hperm.symm.trans hsame, fun honly => hperm.trans honly⟩

theorem append_perm_left_iff {α : Type*} {as bs : List α} : (as ++ bs).Perm as ↔ bs = [] := by
  constructor
  · intro hperm
    have hlen := hperm.length_eq
    rw [List.length_append] at hlen
    exact List.eq_nil_of_length_eq_zero (by omega)
  · rintro rfl
    rw [List.append_nil]

/-- The call that is not superseded in a table leaves its rows there, if the other one is or has
none. -/
theorem kept_other (h : Run Store.Step (start g repo calls) es s) {t : Call}
    {table table' : GraphTable}
    (hsup : superseded s t table = true) :
    kept calls repo s t.other table' = (calls t.other).rows repo table' :=
  kept_of_not_superseded (not_superseded h hsup)

theorem leavesOnly_other (h : Run Store.Step (start g repo calls) es s) {t : Call}
    (hsup : superseded s t .references = true) (hsym : kept calls repo s t .symbols = []) :
    LeavesOnly calls repo s t.other := by
  intro table
  have hnone : kept calls repo s t table = [] := by
    cases table with
    | symbols => exact hsym
    | references => exact kept_of_superseded hsup
  rw [Call.other_other, kept_other h hsup, hnone, List.append_nil]

theorem leavesOnly_of_separated (h : Run Store.Step (start g repo calls) es s)
    (hall : ∀ t, t ∈ s.committed) (hsep : Separated calls s) : ∃ u, LeavesOnly calls repo s u := by
  obtain ⟨t, hsym | ⟨href, hnil | ⟨hnil, hperm⟩⟩ | ⟨href, href', hsym, hrefs⟩⟩ := hsep
  · exact ⟨t.other, leavesOnly_other h (superseded_references h hall hsym) (kept_of_superseded hsym)⟩
  · exact ⟨t.other, leavesOnly_other h href (kept_of_nil (rows_eq_nil_iff.1.2 hnil))⟩
  · by_cases hsym : superseded s t .symbols = true
    · exact ⟨t.other, leavesOnly_other h href (kept_of_superseded hsym)⟩
    · refine ⟨t, fun table => ?_⟩
      cases table with
      | symbols =>
        rw [kept_of_not_superseded (by simpa using hsym), kept_of_nil (rows_eq_nil_iff.1.2 hnil),
          List.append_nil]
      | references =>
        rw [kept_of_superseded href, kept_other h href, List.nil_append]
        exact references_perm_iff.2 hperm.symm
  · refine ⟨t.other, fun table => ?_⟩
    have hmine : kept calls repo s t table = [] := by
      cases table with
      | symbols => exact kept_of_nil (rows_eq_nil_iff.1.2 hsym)
      | references => exact kept_of_nil (rows_eq_nil_iff.2.2 hrefs)
    have hother : superseded s t.other table = false := by
      cases table with
      | references => exact href'
      | symbols =>
        rw [Bool.eq_false_iff]
        intro hsup
        rw [superseded_references h hall hsup] at href'
        cases href'
    rw [Call.other_other, kept_of_not_superseded hother, hmine, List.append_nil]

theorem separated_of_leavesOnly {u : Call} (honly : LeavesOnly calls repo s u) :
    Separated calls s := by
  cases hw : superseded s u.other .symbols with
  | true => exact ⟨u.other, .inl hw⟩
  | false =>
    cases hu : superseded s u .symbols with
    | true => exact ⟨u, .inl hu⟩
    | false =>
      have hsym := honly .symbols
      rw [kept_of_not_superseded hw, kept_of_not_superseded hu, append_perm_left_iff] at hsym
      have hnil := rows_eq_nil_iff.1.1 hsym
      have hrefs := honly .references
      cases hw' : superseded s u.other .references with
      | true => exact ⟨u.other, .inr (.inl ⟨hw', .inl hnil⟩)⟩
      | false =>
        cases hu' : superseded s u .references with
        | true =>
          rw [kept_of_superseded hu', kept_of_not_superseded hw', List.nil_append] at hrefs
          exact ⟨u, .inr (.inl ⟨hu', .inr ⟨hnil, references_perm_iff.1 hrefs.symm⟩⟩)⟩
        | false =>
          rw [kept_of_not_superseded hw', kept_of_not_superseded hu', append_perm_left_iff] at hrefs
          refine ⟨u.other, .inr (.inr ⟨hw', ?_, hnil, rows_eq_nil_iff.2.1 hrefs⟩)⟩
          rw [Call.other_other]
          exact hu'

end GraphStore

/-- Two concurrent calls leave what one of them would leave alone exactly if one of them committed
before the other one's first `DELETE` started, or they had too little to write. -/
theorem serialisable_iff_separated (g : RepoGraph) (repo : String) (calls : Call → GraphCall)
    {es : List Call} {s : Store GraphTable GraphRow Call}
    (h : Run Store.Step (GraphStore.start g repo calls) es s) (hall : ∀ t, t ∈ s.committed) :
    ((∃ u, SameFor repo s.contents
      (g.persistRepoGraph repo (calls u).symbols (calls u).references).rows) ↔
        GraphStore.Separated calls s) ∧
    ∀ u (alone : List Unit) (s' : Store GraphTable GraphRow Unit),
      Run Store.Step (GraphStore.start g repo fun _ => calls u) alone s' → () ∈ s'.committed →
        SameFor repo s'.contents
          (g.persistRepoGraph repo (calls u).symbols (calls u).references).rows := by
  refine ⟨?_, fun u alone s' halone hdone => persist_alone g repo (calls u) halone hdone⟩
  constructor
  · rintro ⟨u, hsame⟩
    exact GraphStore.separated_of_leavesOnly
      ((GraphStore.sameFor_iff_leavesOnly h hall u).1 hsame)
  · intro hsep
    obtain ⟨u, honly⟩ := GraphStore.leavesOnly_of_separated h hall hsep
    exact ⟨u, (GraphStore.sameFor_iff_leavesOnly h hall u).2 honly⟩

namespace Sample

def oldGraph : RepoGraph :=
  ⟨[⟨"octo/app", "g", "g", "function_definition", "c.py", 0, 1, "def g():", none⟩], []⟩

/-- Two reviews of pull requests with disjoint files. -/
def graphCalls : Call → GraphCall
  | .first => ⟨[⟨"f", "f", "function_definition", "a.py", 0, 1, "def f():", none⟩],
      [⟨"f", "b.py", 0, "", "call"⟩]⟩
  | .second => ⟨[⟨"h", "h", "function_definition", "d.py", 0, 1, "def h():", none⟩], []⟩

/-- The second call's `DELETE` starts while the first holds the lock on the old row, and ends when
the first has committed. -/
def lockedOut : List Call :=
  [.first, .first, .first, .second, .first, .first, .first, .second, .second, .second, .second,
    .second]

def oneAfterTheOther : List Call :=
  [.first, .first, .first, .first, .first, .first, .second, .second, .second, .second, .second,
    .second]

def mixed (s : Store GraphTable GraphRow Call) : Bool :=
  decide (Call.first ∈ s.committed) && decide (Call.second ∈ s.committed) &&
    (s.contents.filter (GraphRow.isOf "octo/app" .symbols)).length = 2

def committedBoth (s : Store GraphTable GraphRow Call) : Bool :=
  decide (Call.first ∈ s.committed) && decide (Call.second ∈ s.committed)

end Sample

theorem serialisable_iff_separated_oneAfterTheOther :
    ∃ s, Run Store.Step (GraphStore.start Sample.oldGraph "octo/app" Sample.graphCalls)
        Sample.oneAfterTheOther s ∧ (∀ t, t ∈ s.committed) ∧
      ((∃ u, SameFor "octo/app" s.contents (Sample.oldGraph.persistRepoGraph "octo/app"
        (Sample.graphCalls u).symbols (Sample.graphCalls u).references).rows) ↔
          GraphStore.Separated Sample.graphCalls s) ∧
      ∀ u (alone : List Unit) (s' : Store GraphTable GraphRow Unit),
        Run Store.Step (GraphStore.start Sample.oldGraph "octo/app" fun _ => Sample.graphCalls u)
          alone s' → () ∈ s'.committed →
          SameFor "octo/app" s'.contents (Sample.oldGraph.persistRepoGraph "octo/app"
            (Sample.graphCalls u).symbols (Sample.graphCalls u).references).rows := by
  have hreplay : (replay Store.next (GraphStore.start Sample.oldGraph "octo/app" Sample.graphCalls)
      Sample.oneAfterTheOther).any Sample.committedBoth = true := by
    decide
  obtain ⟨s, hrun, hs⟩ := exists_run_of_replay _ hreplay
  obtain ⟨hfirst, hsecond⟩ := Bool.and_eq_true_iff.1 hs
  have hall : ∀ t, t ∈ s.committed := by
    intro t
    cases t with
    | first => exact of_decide_eq_true hfirst
    | second => exact of_decide_eq_true hsecond
  exact ⟨s, hrun, hall, serialisable_iff_separated _ _ _ hrun hall⟩

/-- Both calls commit, and the table holds the symbols of both: neither call alone leaves that. -/
theorem graph_mixed_by_overlapping_calls :
    ∃ s, Run Store.Step (GraphStore.start Sample.oldGraph "octo/app" Sample.graphCalls)
        Sample.lockedOut s ∧ (∀ t, t ∈ s.committed) ∧
      ¬∃ u, SameFor "octo/app" s.contents (Sample.oldGraph.persistRepoGraph "octo/app"
        (Sample.graphCalls u).symbols (Sample.graphCalls u).references).rows := by
  have hreplay : (replay Store.next (GraphStore.start Sample.oldGraph "octo/app" Sample.graphCalls)
      Sample.lockedOut).any Sample.mixed = true := by
    decide
  obtain ⟨s, hrun, hs⟩ := exists_run_of_replay _ hreplay
  obtain ⟨hboth, hlen⟩ := Bool.and_eq_true_iff.1 hs
  obtain ⟨hfirst, hsecond⟩ := Bool.and_eq_true_iff.1 hboth
  refine ⟨s, hrun, ?_, ?_⟩
  · intro t
    cases t with
    | first => exact of_decide_eq_true hfirst
    | second => exact of_decide_eq_true hsecond
  · rintro ⟨u, hsame⟩
    have htwo := (hsame .symbols).length_eq
    rw [of_decide_eq_true hlen, GraphCall.persist_rows_filter] at htwo
    cases u <;> cases htwo

end Revix
