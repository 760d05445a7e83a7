import Revix.ChangedLines
import Revix.GreedyPacking
import Revix.SyntaxTrees

/-! `_chunk_by_ast` and `_chunk_changed_nodes`. A chunk is kept as the nodes it is made of; its
text is what is sent to the agents. -/
namespace Revix
open GreedyPacking

def estimateTokens (text : String) : ℕ := text.length / 4

def rstrip (text : String) : String :=
  String.ofList (text.toList.reverse.dropWhile isSpace).reverse

/-- What a scoped chunk packs: a top-level node, or a member of a class under the class header. -/
inductive Piece
  | whole (n : Node)
  | member (cls body sub : Node)

/-- What the unscoped path emits on its own: a member of a class, or the notice for a node. -/
inductive Single
  | member (sub : Node)
  | skip (n : Node)

/-- The text of a class before its body. -/
def headerSpan (cls body : Node) : Span := ⟨cls.span.start, body.span.start⟩

def Piece.text (source : String) : Piece → String
  | .whole n => n.text source
  | .member cls body sub => rstrip ((headerSpan cls body).text source) ++ "\n" ++ sub.text source

def skipNotice (path source : String) (n : Node) : String :=
  "### [SKIP] " ++ path ++ " - unit " ++ n.type ++ " too large for review (" ++
    toString (estimateTokens (n.text source)) ++ " tokens)"

def scopedText (path source : String) : Parcel Piece Node → String
  | .group pieces =>
    "FILE: " ++ path ++ "\n" ++ joinTexts "\n\n" (pieces.map (Piece.text source))
  | .single n => skipNotice path source n

def unscopedText (path source : String) : Parcel Node Single → String
  | .group nodes => joinTexts "\n" (("FILE: " ++ path) :: nodes.map (Node.text source))
  | .single (.member sub) => "FILE: " ++ path ++ "\n" ++ sub.text source
  | .single (.skip n) => skipNotice path source n

section Chunking

-- `MAX_CHUNK_TOKENS`, the file and the boundary types of its extension
variable (maxChunkTokens : ℕ) (source : String) (boundary : List String)

def Node.tokens (n : Node) : ℕ := estimateTokens (n.text source)

def Piece.tokens (p : Piece) : ℕ := estimateTokens (p.text source)

def Node.isOversizedClass (n : Node) : Bool :=
  n.type ∈ classTypes && maxChunkTokens < n.tokens source

/-- `touched(node)`, for the set `changed` of line numbers from 1. -/
def touched (changed : List ℕ) (n : Node) : Bool :=
  changed.any fun line => n.startRow source + 1 ≤ line && line ≤ n.endRow source + 1

/-- The members of a class that are emitted instead of it. -/
def emittedMembers (changed : List ℕ) (n : Node) : List Piece :=
  match n.childByFieldName "body" with
  | some body => (body.children.filter fun sub =>
      sub.type ∈ boundary && touched source changed sub).map (Piece.member n body)
  | none => []

/-- The loop body of `_chunk_changed_nodes`. -/
def chunkChangedNode (changed : List ℕ) (s : Packer Piece Node) (n : Node) : Packer Piece Node :=
  if touched source changed n then
    let members :=
      if n.isOversizedClass maxChunkTokens source then emittedMembers source boundary changed n
      else []
    if members.isEmpty then
      if maxChunkTokens < n.tokens source then s.flush.send n
      else s.add maxChunkTokens (Piece.tokens source) (.whole n)
    else members.foldl (Packer.add maxChunkTokens (Piece.tokens source)) s
  else s

def chunkChangedNodes (tree : Tree) (changed : List ℕ) : List (Parcel Piece Node) :=
  if tree.hasError then []
  else (tree.root.children.foldl (chunkChangedNode maxChunkTokens source boundary changed)
    .empty).flush.sent

def allMembers (n : Node) : List Node :=
  match n.childByFieldName "body" with
  | some body => if n.type ∈ classTypes then body.children.filter fun sub => sub.type ∈ boundary else []
  | none => []

/-- The loop body of the unscoped path. -/
def chunkNode (s : Packer Node Single) (n : Node) : Packer Node Single :=
  let tokens := n.tokens source
  if n.type ∈ boundary then
    if maxChunkTokens < tokens then
      let members := allMembers boundary n
      if members.isEmpty then s.send (.skip n) else (members.map Single.member).foldl Packer.send s
    else if maxChunkTokens < s.load + tokens then ⟨s.sent ++ [.group s.pending], [n], tokens⟩
    else s.push (Node.tokens source) n
  else s.push (Node.tokens source) n

/-- The unscoped path of `_chunk_by_ast`. -/
def chunkNodes (tree : Tree) : List (Parcel Node Single) :=
  (tree.root.children.foldl (chunkNode maxChunkTokens source boundary) .empty).flush.sent

end Chunking

/-- `_chunk_by_ast`. An absent patch is an empty one. -/
def chunkByAst (parse : Parser) (maxChunkTokens : ℕ) (path source patch : String) : List String :=
  match parse.tree? path source with
  | none => ["FILE: " ++ path ++ "\n" ++ source]
  | some tree =>
    let boundary := boundaryTypes (extension path)
    let changed := parseChangedLines patch
    let scopedChunks :=
      if changed.isEmpty then [] else chunkChangedNodes maxChunkTokens source boundary tree changed
    if scopedChunks.isEmpty then
      (chunkNodes maxChunkTokens source boundary tree).map (unscopedText path source)
    else scopedChunks.map (scopedText path source)

end Revix
