import Revix.ReviewChunks
import Revix.StableSorting

namespace Revix
open StableSorting

variable (chunkByAst : String → String → String → List String)

/-- The chunks of one file: those of its content if it has any, its patch, or none. -/
def fileChunks (f : PullFile) : List String :=
  match f.content.filter (· ≠ "") with
  | some source => chunkByAst f.name source (f.patch.getD "")
  | none =>
    if f.patch.getD "" = "" then []
    else ["FILE: " ++ f.name ++ "\n" ++ f.patch.getD ""]

variable (maxChunks : ℕ)

/-- The chunks that the loop goes on with after a file. -/
theorem collectChunks_cons {f : PullFile} {filename : String} (hname : f.filename = some filename)
    (chunks : List String) (fs : List PullFile) :
    collectChunks chunkByAst maxChunks chunks (f :: fs) =
        collectChunks chunkByAst maxChunks (chunks ++ fileChunks chunkByAst f) fs ∨
      (maxChunks ≤ (chunks ++ fileChunks chunkByAst f).length ∧
        collectChunks chunkByAst maxChunks chunks (f :: fs) =
          .ok (chunks ++ fileChunks chunkByAst f)) := by
  have hstr : f.name = filename := by rw [PullFile.name, hname, Option.getD_some]
  rw [collectChunks, fileChunks, hname, hstr]
  cases f.content.filter (· ≠ "") with
  | some source =>
    dsimp only
    split
    · rename_i hlimit
      exact .inr ⟨hlimit, rfl⟩
    · exact .inl rfl
  | none =>
    dsimp only
    split
    · rw [List.append_nil]
      exact .inl rfl
    · split
      · rename_i hlimit
        exact .inr ⟨hlimit, rfl⟩
      · exact .inl rfl

/-- Whether the loop stops early or not, it returns the same chunks up to the budget. -/
theorem exists_collectChunks {fs : List PullFile} (hnames : ∀ f ∈ fs, f.filename.isSome = true)
    (chunks : List String) : ∃ r, collectChunks chunkByAst maxChunks chunks fs = .ok r ∧
      r.take maxChunks = (chunks ++ fs.flatMap (fileChunks chunkByAst)).take maxChunks := by
  induction fs generalizing chunks with
  | nil => exact ⟨chunks, rfl, by rw [List.flatMap_nil, List.append_nil]⟩
  | cons f fs ih =>
    obtain ⟨filename, hname⟩ := Option.isSome_iff_exists.1 (hnames f (.head _))
    rw [List.flatMap_cons, ← List.append_assoc]
    rcases collectChunks_cons chunkByAst maxChunks hname chunks fs with heq | ⟨hlimit, heq⟩
    · rw [heq]
      exact ih (fun f hf => hnames f (.tail _ hf)) _
    · refine ⟨_, heq, ?_⟩
      rw [List.take_append_of_le_length hlimit]

theorem rankFiles_stable (files : List PullFile) :
    StablySorted PullFile.reviewPriority (files.filter PullFile.reviewable) (rankFiles files) :=
  stablySorted_insertionSort PullFile.reviewPriority _

/-- The chunks are the first ones of all chunks of the reviewable files, by descending priority. -/
theorem buildReviewChunks_plain (cfg : SwarmSettings) (files : List PullFile)
    (hnames : ∀ f ∈ files, f.filename.isSome = true) :
    ∃ ranked, StablySorted PullFile.reviewPriority (files.filter PullFile.reviewable) ranked ∧
      (∀ other, StablySorted PullFile.reviewPriority (files.filter PullFile.reviewable) other →
        other = ranked) ∧
      buildReviewChunks chunkByAst cfg files = .ok
        ((ranked.flatMap (fileChunks chunkByAst)).take (max cfg.reviewMaxChunks 1).toNat) := by
  have hranked : ∀ f ∈ rankFiles files, f.filename.isSome = true := fun f hf =>
    hnames f (List.mem_of_mem_filter ((rankFiles_stable files).perm.mem_iff.1 hf))
  obtain ⟨chunks, hcollect, htake⟩ :=
    exists_collectChunks chunkByAst (max cfg.reviewMaxChunks 1).toNat hranked []
  refine ⟨rankFiles files, rankFiles_stable files,
    fun other hother => hother.unique (rankFiles_stable files), ?_⟩
  rw [List.nil_append] at htake
  rw [buildReviewChunks, hcollect, ← htake]
  rfl

namespace Sample

def pullFiles : List PullFile :=
  [⟨some "README.md", none, [("patch", .str "@@ -1 +1 @@")]⟩,
    ⟨some "a.py", none, [("patch", .str "@@ -1 +1 @@")]⟩,
    ⟨some "token.py", none, [("patch", .str "@@ -2 +2 @@")]⟩]

end Sample

theorem buildReviewChunks_plain_token :
    ∃ ranked, StablySorted PullFile.reviewPriority (Sample.pullFiles.filter PullFile.reviewable)
        ranked ∧
      (∀ other, StablySorted PullFile.reviewPriority
        (Sample.pullFiles.filter PullFile.reviewable) other → other = ranked) ∧
      buildReviewChunks (fun _ source _ => [source]) { reviewMaxChunks := 1 } Sample.pullFiles = .ok
        ((ranked.flatMap (fileChunks fun _ source _ => [source])).take (max 1 1 : ℤ).toNat) :=
  buildReviewChunks_plain _ { reviewMaxChunks := 1 } Sample.pullFiles (by decide)

end Revix
