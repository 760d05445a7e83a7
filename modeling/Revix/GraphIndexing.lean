import Revix.EffectSessions
import Revix.GraphReviews
import Revix.WorkerProcess

namespace Revix
open EffectPrograms EffectSessions LabelledRuns

/-- `d[key]`, a string. -/
def Dict.str? (d : Dict) (key : String) : Option String :=
  match Dict.get d key with
  | some (.str s) => some s
  | _ => none

/-- `d[key]`, a row number. -/
def Dict.nat? (d : Dict) (key : String) : Option ℕ :=
  match Dict.get d key with
  | some (.int n) => if 0 ≤ n then some n.toNat else none
  | _ => none

/-- What `persist_repo_graph` writes for a symbol. A missing key is a `KeyError`. -/
def Symbol.ofVars (d : Dict) : Option Symbol := do
  let name ← d.str? "name"
  let qualifiedName ← d.str? "qualified_name"
  let kind ← d.str? "kind"
  let filePath ← d.str? "file_path"
  let startLine ← d.nat? "start_line"
  let endLine ← d.nat? "end_line"
  let signature ← d.str? "signature"
  return ⟨name, qualifiedName, kind, filePath, startLine, endLine, signature, d.str? "parent"⟩

/-- What `persist_repo_graph` writes for a reference. -/
def Reference.ofVars (d : Dict) : Option Reference := do
  let symbolName ← d.str? "symbol_name"
  let filePath ← d.str? "file_path"
  let line ← d.nat? "line"
  let contextLine ← d.str? "context_line"
  let refType ← d.str? "ref_type"
  return ⟨symbolName, filePath, line, contextLine, refType⟩

theorem Symbol.ofVars_vars (s : Symbol) : Symbol.ofVars s.vars = some s := by
  rcases s with ⟨name, qualifiedName, kind, filePath, startLine, endLine, signature, _ | parent⟩ <;>
    rfl

theorem Reference.ofVars_vars (r : Reference) : Reference.ofVars r.vars = some r := rfl

theorem mapM_ofVars {α : Type} {vars : α → Dict} {ofVars : Dict → Option α}
    (h : ∀ a, ofVars (vars a) = some a) (as : List α) : (as.map vars).mapM ofVars = some as := by
  induction as with
  | nil => rfl
  | cons a as ih => simp [List.mapM_cons, h, ih]

/-- The indexer and the store, for the requests of the indexing; the other requests of a job are
not theirs. A call may fail, and then has no effect. -/
def graphServer (parse : Parser) :
    Server Request (fun q => Except Raised q.Answer) RepoGraph (Option Raised)
  | g, _, some e => (.error e, g)
  | g, .indexFile filename source, none =>
    let (symbols, references) := RepoIndexer.indexFile parse filename source
    (.ok (symbols.map Symbol.vars, references.map Reference.vars), g)
  | g, .persistRepoGraph repo symbols references, none =>
    match symbols.mapM Symbol.ofVars, references.mapM Reference.ofVars with
    | some symbols, some references => (.ok (), g.persistRepoGraph repo symbols references)
    | _, _ => (.error (.exception ⟨"KeyError", none⟩), g)
  | g, _, none => (.error .cancelled, g)

/-- The changed files that the indexing reads: a file with content needs a name. -/
def changedFiles : List PullFile → Option ChangeSet
  | [] => some []
  | f :: fs =>
    match f.content.filter (· ≠ "") with
    | none => changedFiles fs
    | some source => do
      let filename ← f.filename
      let files ← changedFiles fs
      return ⟨filename, source⟩ :: files

/-- Jobs have indexed their pull requests, one after the other. -/
inductive JobsIndexed (parse : Parser) :
    RepoGraph → List (Job × List PullFile × Except Raised Unit) → RepoGraph → Prop
  | nil (g : RepoGraph) : JobsIndexed parse g [] g
  | cons {g g₁ g₂ : RepoGraph} {job : Job} {prFiles : List PullFile} {l l' : Locals}
      {failures : List (Option Raised)} {r : Except Raised Unit}
      {jobs : List (Job × List PullFile × Except Raised Unit)}
      (first : Run (Session (graphServer parse)) (g, indexFiles job prFiles l) failures
        (g₁, .done (r, l')))
      (rest : JobsIndexed parse g₁ jobs g₂) :
      JobsIndexed parse g ((job, prFiles, r) :: jobs) g₂

/-- The changed files of the jobs of a repository whose indexing has not failed. -/
def reviewsOf (repo : String) (jobs : List (Job × List PullFile × Except Raised Unit)) :
    List ChangeSet :=
  jobs.filterMap fun (job, prFiles, r) =>
    if job.repoFullName = repo ∧ r.isOk then changedFiles prFiles else none

section Session

variable {parse : Parser} {g : RepoGraph} {l : Locals}

def FileIndexed (parse : Parser) (f : PullFile) (x : List Dict × List Dict) : Prop :=
  match f.content.filter (· ≠ "") with
  | none => x = ([], [])
  | some source => ∃ filename, f.filename = some filename ∧
      x = (((RepoIndexer.indexFile parse filename source).1.map Symbol.vars),
        ((RepoIndexer.indexFile parse filename source).2.map Reference.vars))

def AllIndexed (parse : Parser) (fs : List PullFile) (xs : List (List Dict × List Dict)) : Prop :=
  ∃ files, changedFiles fs = some files ∧
    xs.flatMap Prod.fst = (files.symbols parse).map Symbol.vars ∧
    xs.flatMap Prod.snd = (files.references parse).map Reference.vars

/-- The indexing of a job ends with the graph of the review, or raises without any effect. -/
def ReviewIndexed (parse : Parser) (repo : String) (prFiles : List PullFile) (g g' : RepoGraph) :
    Except Raised Unit → Prop
  | .error _ => g' = g
  | .ok () => ∃ files, changedFiles prFiles = some files ∧ g' = g.indexReview parse repo files

theorem ensures_fileIndexed (f : PullFile) :
    Script.Ensures (graphServer parse) (fun _ _ _ => True) (fun _ => True)
      (fun g' _ r => g' = g ∧ ∀ x, r = .ok x → FileIndexed parse f x) (indexFile f) g l := by
  unfold indexFile FileIndexed
  cases f.content.filter (· ≠ "") with
  | none => exact ⟨rfl, fun x hx => (Except.ok.inj hx).symm⟩
  | some source =>
    cases f.filename with
    | none => exact ⟨rfl, nofun⟩
    | some filename =>
      refine ⟨trivial, fun failure _ => ?_⟩
      cases failure with
      | some e => exact ⟨rfl, nofun⟩
      | none => exact ⟨rfl, fun x hx => ⟨filename, rfl, (Except.ok.inj hx).symm⟩⟩

theorem allIndexed_cons {fs : List PullFile} {f : PullFile} {x : List Dict × List Dict}
    {xs : List (List Dict × List Dict)} (hx : FileIndexed parse f x) (hxs : AllIndexed parse fs xs) :
    AllIndexed parse (f :: fs) (x :: xs) := by
  obtain ⟨files, hfiles, hsymbols, hreferences⟩ := hxs
  unfold FileIndexed at hx
  unfold AllIndexed changedFiles
  cases hc : f.content.filter (· ≠ "") with
  | none =>
    rw [hc] at hx
    subst hx
    exact ⟨files, hfiles, hsymbols, hreferences⟩
  | some source =>
    rw [hc] at hx
    obtain ⟨filename, hname, rfl⟩ := hx
    refine ⟨⟨filename, source⟩ :: files, by simp [hname, hfiles], ?_, ?_⟩
    · simp [hsymbols, ChangeSet.symbols]
    · simp [hreferences, ChangeSet.references]

theorem ensures_allIndexed (fs : List PullFile) :
    Script.Ensures (graphServer parse) (fun _ _ _ => True) (fun _ => True)
      (fun g' _ r => g' = g ∧ ∀ xs, r = .ok xs → AllIndexed parse fs xs)
      (Script.collect indexFile fs) g l := by
  induction fs generalizing l with
  | nil =>
    refine ⟨rfl, fun xs hxs => ?_⟩
    cases hxs
    exact ⟨[], rfl, rfl, rfl⟩
  | cons f fs ih =>
    refine (ensures_fileIndexed f).andThen (fun x g' l' hx => ?_) fun e g' l' he => ⟨he.1, nofun⟩
    obtain ⟨rfl, hx⟩ := hx
    refine ih.andThen (fun xs g' l' hxs => ?_) fun e g' l' he => ⟨he.1, nofun⟩
    obtain ⟨rfl, hxs⟩ := hxs
    refine ⟨rfl, fun ys hys => ?_⟩
    cases hys
    exact allIndexed_cons (hx x rfl) (hxs xs rfl)

/-- The indexing of a job leaves the graph of the review in the store. -/
theorem ensures_reviewIndexed (job : Job) (prFiles : List PullFile) :
    Script.Ensures (graphServer parse) (fun _ _ _ => True) (fun _ => True)
      (fun g' _ r => ReviewIndexed parse job.repoFullName prFiles g g' r)
      (indexFiles job prFiles) g l := by
  refine (ensures_allIndexed prFiles).andThen (fun indexed g' l' h => ?_) fun e g' l' h => h.1
  obtain ⟨rfl, hall⟩ := h
  obtain ⟨files, hfiles, hsymbols, hreferences⟩ := hall indexed rfl
  rw [hsymbols, hreferences]
  by_cases hp : files.persists parse = true
  · have hne : (files.symbols parse).map Symbol.vars ≠ [] ∨
        (files.references parse).map Reference.vars ≠ [] := by
      simpa [ChangeSet.persists, or_iff_not_imp_left] using hp
    rw [if_pos hne]
    refine ⟨trivial, fun failure _ => ?_⟩
    cases failure with
    | some e => exact rfl
    | none =>
      simp only [graphServer, mapM_ofVars Symbol.ofVars_vars, mapM_ofVars Reference.ofVars_vars]
      exact ⟨files, hfiles, by rw [RepoGraph.indexReview, if_pos hp]⟩
  · have hnil : ¬((files.symbols parse).map Symbol.vars ≠ [] ∨
        (files.references parse).map Reference.vars ≠ []) := by
      simpa [ChangeSet.persists, or_iff_not_imp_left] using hp
    rw [if_neg hnil]
    exact ⟨files, hfiles, by rw [RepoGraph.indexReview, if_neg hp]⟩

/-- A job of another repository is not seen, and one of this repository is a review of it. -/
theorem alike_of_reviewIndexed {repo : String} {job : Job} {prFiles : List PullFile}
    {g' h : RepoGraph} {r : Except Raised Unit} (hgh : RepoGraph.Alike repo g h)
    (hr : ReviewIndexed parse job.repoFullName prFiles g g' r) :
    RepoGraph.Alike repo g' (h.indexReviews parse repo (reviewsOf repo [(job, prFiles, r)])) := by
  cases r with
  | error e =>
    have hnone : reviewsOf repo [(job, prFiles, .error e)] = [] := by
      simp [reviewsOf, Except.isOk, Except.toBool]
    rw [hnone, show g' = g from hr]
    exact hgh
  | ok _ =>
    obtain ⟨files, hfiles, rfl⟩ := hr
    by_cases hrepo : job.repoFullName = repo
    · have hone : reviewsOf repo [(job, prFiles, .ok ())] = [files] := by
        simp [reviewsOf, hrepo, hfiles, Except.isOk, Except.toBool]
      rw [hone, hrepo]
      change RepoGraph.Alike repo (g.indexReview parse repo files) (h.indexReview parse repo files)
      unfold RepoGraph.indexReview
      split
      · exact hgh.persist
      · exact hgh
    · have hnone : reviewsOf repo [(job, prFiles, .ok ())] = [] := by simp [reviewsOf, hrepo]
      rw [hnone]
      refine RepoGraph.Alike.trans ?_ hgh
      unfold RepoGraph.indexReview
      split
      · exact RepoGraph.alike_persist_of_ne hrepo
      · exact .refl g

theorem alike_of_jobs {repo : String} {jobs : List (Job × List PullFile × Except Raised Unit)}
    {g' h : RepoGraph} (hjobs : JobsIndexed parse g jobs g') (hgh : RepoGraph.Alike repo g h) :
    RepoGraph.Alike repo g' (h.indexReviews parse repo (reviewsOf repo jobs)) := by
  induction hjobs generalizing h with
  | nil g => exact hgh
  | @cons g g₁ g₂ job prFiles l l' failures r jobs first rest ih =>
    have hreview : ReviewIndexed parse job.repoFullName prFiles g g₁ r :=
      Script.Ensures.complete (ensures_reviewIndexed job prFiles)
        (guard_session first fun _ _ _ _ => trivial)
    have hsplit : reviewsOf repo ((job, prFiles, r) :: jobs) =
        reviewsOf repo [(job, prFiles, r)] ++ reviewsOf repo jobs := by
      rw [reviewsOf, ← List.singleton_append, List.filterMap_append]
      rfl
    rw [hsplit, RepoGraph.indexReviews, List.foldl_append]
    exact ih (alike_of_reviewIndexed hgh hreview)

/-- After the indexing of any jobs, whichever of their calls have failed, the callers found for a
repository are those after the reviews of its own jobs that have not failed. -/
theorem callers_of_jobs {jobs : List (Job × List PullFile × Except Raised Unit)} {g' : RepoGraph}
    (h : JobsIndexed parse g jobs g') (repo : String) (symbolNames : List String)
    (c : ExternalCaller) : c ∈ g'.getExternalCallers repo symbolNames ↔
      c ∈ (g.indexReviews parse repo (reviewsOf repo jobs)).getExternalCallers repo symbolNames :=
  (alike_of_jobs h (.refl g)).callers

end Session

namespace Sample

def pullRequest (id sha repo : String) : Job := Job.enqueued ⟨id⟩ sha repo 7 42 none 0

def closedConnection : Raised := .exception ⟨"the connection is closed", none⟩

/-- A function and its caller in one repository, a file of another one, and the first repository
again, where the store fails. -/
def indexings : List (Job × List PullFile × Except Raised Unit) :=
  [(pullRequest "first" "6dcb09b" "octo/app",
      [⟨some "a.py", some "def f():\n    pass\n", []⟩, ⟨some "b.py", some "f()\n", []⟩], .ok ()),
    (pullRequest "second" "0f3c1d7" "octo/tools",
      [⟨some "c.py", some "def g():\n    pass\n", []⟩, ⟨some "logo.png", none, []⟩], .ok ()),
    (pullRequest "third" "a94a8fe" "octo/app", [⟨some "c.py", some "def g():\n    pass\n", []⟩],
      .error closedConnection)]

def firstIndexed : RepoGraph :=
  RepoGraph.empty.indexReview parse "octo/app"
    [⟨"a.py", "def f():\n    pass\n"⟩, ⟨"b.py", "f()\n"⟩]

def bothIndexed : RepoGraph :=
  firstIndexed.indexReview parse "octo/tools" [⟨"c.py", "def g():\n    pass\n"⟩]

end Sample

/-- The caller in `b.py` outlives a job of another repository and one that has failed. -/
theorem callers_of_jobs_indexings :
    JobsIndexed Sample.parse RepoGraph.empty Sample.indexings Sample.bothIndexed ∧
    ⟨⟨"octo/app", Sample.caller⟩, "a.py"⟩ ∈
      Sample.bothIndexed.getExternalCallers "octo/app" ["f"] := by
  have first : Run (Session (graphServer Sample.parse))
      (RepoGraph.empty, indexFiles (Sample.pullRequest "first" "6dcb09b" "octo/app")
        [⟨some "a.py", some "def f():\n    pass\n", []⟩, ⟨some "b.py", some "f()\n", []⟩] {})
      [none, none, none] (Sample.firstIndexed, .done (.ok (), {})) :=
    .cons rfl (.cons rfl (.cons rfl (.nil _)))
  have second : Run (Session (graphServer Sample.parse))
      (Sample.firstIndexed, indexFiles (Sample.pullRequest "second" "0f3c1d7" "octo/tools")
        [⟨some "c.py", some "def g():\n    pass\n", []⟩, ⟨some "logo.png", none, []⟩] {})
      [none, none] (Sample.bothIndexed, .done (.ok (), {})) :=
    .cons rfl (.cons rfl (.nil _))
  have third : Run (Session (graphServer Sample.parse))
      (Sample.bothIndexed, indexFiles (Sample.pullRequest "third" "a94a8fe" "octo/app")
        [⟨some "c.py", some "def g():\n    pass\n", []⟩] {})
      [none, some Sample.closedConnection]
      (Sample.bothIndexed, .done (.error Sample.closedConnection, {})) :=
    .cons rfl (.cons rfl (.nil _))
  have hjobs : JobsIndexed Sample.parse RepoGraph.empty Sample.indexings Sample.bothIndexed :=
    .cons first (.cons second (.cons third (.nil _)))
  exact ⟨hjobs, (callers_of_jobs hjobs "octo/app" ["f"] _).2 (by decide)⟩

end Revix
