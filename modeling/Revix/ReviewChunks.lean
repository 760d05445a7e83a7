import Revix.ReviewRendering

/-! Which files of a pull request are reviewed, and the chunks that the budget leaves. How a file
is split along its syntax tree is an argument. -/
namespace Revix

/-- What the reviewing agents read of the settings, with the defaults. -/
structure SwarmSettings where
  reviewProfile : String := "chill"
  reviewMaxChunks : ℤ := 12
  reviewMaxAgentsPerChunk : ℤ := 2

/-- `xs[:n]` -/
def sliceTo {α : Type} (n : ℤ) (xs : List α) : List α :=
  if 0 ≤ n then xs.take n.toNat else xs.take (xs.length - n.natAbs)

/-- The lower case of a character as far as words of ASCII letters can tell: beyond ASCII only
the Kelvin sign has an ASCII letter for its lower case. -/
def lowerChar (c : Char) : Char := if c.toNat = 0x212a then 'k' else c.toLower

/-- `needle in text.lower()` for a needle in ASCII. -/
def occursInLower (needle text : String) : Bool :=
  occursIn needle.toList (text.toList.map lowerChar)

def endsWithAny (suffixes : List String) (s : String) : Bool :=
  suffixes.any fun suffix => suffix.toList.isSuffixOf s.toList

namespace PullFile

/-- `str(pr_file.get("filename", ""))` -/
def name (f : PullFile) : String := f.filename.getD ""

/-- `pr_file.get("patch")`, which GitHub sends as a string if at all. -/
def patch (f : PullFile) : Option String :=
  match Dict.get f.fields "patch" with
  | some (.str s) => some s
  | _ => none

def reviewable (f : PullFile) : Bool :=
  !endsWithAny [".png", ".jpg", ".jpeg", ".gif", ".svg", ".lock", ".md", ".txt", ".map"] f.name &&
    !(["/node_modules/", "/dist/", "/build/", "/coverage/"].any fun part =>
      occursIn part.toList ("/" ++ f.name).toList)

def reviewPriority (f : PullFile) : ℕ :=
  let patch := ((f.patch.filter (· ≠ "")) <|> (f.content.filter (· ≠ ""))).getD ""
  let text := f.name ++ "\n" ++ patch
  let terms := ["auth", "token", "secret", "password", "permission", "admin", "payment", "webhook",
    "localstorage", "firebase", "sql", "database", "api/", "route"]
  min (patch.length / 500) 8 + 4 * terms.countP (fun term => occursInLower term text) +
    if endsWithAny [".py", ".ts", ".tsx", ".js", ".jsx", ".go", ".cpp", ".c", ".h", ".rs"] f.name
    then 3 else 0

end PullFile

/-- `sorted(.., key=self._file_review_priority, reverse=True)`, which keeps equal files in order. -/
def rankFiles (files : List PullFile) : List PullFile :=
  (files.filter PullFile.reviewable).insertionSort fun a b => b.reviewPriority ≤ a.reviewPriority

section Chunks

-- `_chunk_by_ast`, of a file's name, source and patch
variable (chunkByAst : String → String → String → List String)

/-- The loop of `_build_review_chunks`, which looks at the budget after each file with chunks.
The text is that of the `KeyError` of a file without a name. -/
def collectChunks (maxChunks : ℕ) (chunks : List String) :
    List PullFile → Except String (List String)
  | [] => .ok chunks
  | f :: fs =>
    match f.filename with
    | none => .error "'filename'"
    | some filename =>
      let patch := f.patch.getD ""
      match f.content.filter (· ≠ "") with
      | some source =>
        let chunks := chunks ++ chunkByAst filename source patch
        if maxChunks ≤ chunks.length then .ok chunks else collectChunks maxChunks chunks fs
      | none =>
        if patch = "" then collectChunks maxChunks chunks fs
        else
          let chunks := chunks ++ ["FILE: " ++ filename ++ "\n" ++ patch]
          if maxChunks ≤ chunks.length then .ok chunks else collectChunks maxChunks chunks fs

def buildReviewChunks (cfg : SwarmSettings) (files : List PullFile) :
    Except String (List String) := do
  let maxChunks := (max cfg.reviewMaxChunks 1).toNat
  let chunks ← collectChunks chunkByAst maxChunks [] (rankFiles files)
  return chunks.take maxChunks

end Chunks

end Revix
