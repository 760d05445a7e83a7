import Revix.ReviewRendering

namespace Revix

/-- The line boundaries of `str.splitlines` besides the pair of carriage return and line feed. -/
def isLineBreak (c : Char) : Bool :=
  let n := c.toNat
  (10 ≤ n && n ≤ 13) || (0x1c ≤ n && n ≤ 0x1e) || n = 0x85 || n = 0x2028 || n = 0x2029

/-- `s.splitlines()`, with the characters of the line that is read. -/
def splitLinesFrom (line : List Char) : List Char → List (List Char)
  | [] => if line = [] then [] else [line]
  | '\r' :: '\n' :: cs => line :: splitLinesFrom [] cs
  | c :: cs =>
    if isLineBreak c then line :: splitLinesFrom [] cs else splitLinesFrom (line ++ [c]) cs

def splitLines (s : String) : List (List Char) := splitLinesFrom [] s.toList

/-- The digits zero of Unicode, each followed by the other nine. -/
def digitZeros : List ℕ :=
  [0x30, 0x660, 0x6f0, 0x7c0, 0x966, 0x9e6, 0xa66, 0xae6, 0xb66, 0xbe6, 0xc66, 0xce6, 0xd66, 0xde6,
    0xe50, 0xed0, 0xf20, 0x1040, 0x1090, 0x17e0, 0x1810, 0x1946, 0x19d0, 0x1a80, 0x1a90, 0x1b50,
    0x1bb0, 0x1c40, 0x1c50, 0xa620, 0xa8d0, 0xa900, 0xa9d0, 0xa9f0, 0xaa50, 0xabf0, 0xff10, 0x104a0,
    0x10d30, 0x11066, 0x110f0, 0x11136, 0x111d0, 0x112f0, 0x11450, 0x114d0, 0x11650, 0x116c0,
    0x11730, 0x118e0, 0x11950, 0x11c50, 0x11d50, 0x11da0, 0x11f50, 0x16a60, 0x16ac0, 0x16b50,
    0x1d7ce, 0x1d7d8, 0x1d7e2, 0x1d7ec, 0x1d7f6, 0x1e140, 0x1e2f0, 0x1e4f0, 0x1e950, 0x1fbf0]

/-- The value of a character that `\d` matches. -/
def digitValue (c : Char) : Option ℕ :=
  (digitZeros.find? fun d => d ≤ c.toNat && c.toNat < d + 10).map fun d => c.toNat - d

def digitsValue (cs : List Char) : ℕ :=
  cs.foldl (fun n c => 10 * n + (digitValue c).getD 0) 0

/-- A literal part of the pattern. -/
def eat (part : String) (cs : List Char) : Option (List Char) :=
  if part.toList.isPrefixOf cs then some (cs.drop part.toList.length) else none

/-- `(\d+)`, with its value. No shorter match can help, since no digit follows in the pattern. -/
def eatNumber (cs : List Char) : Option (ℕ × List Char) :=
  let digits := cs.takeWhile fun c => (digitValue c).isSome
  if digits = [] then none else some (digitsValue digits, cs.drop digits.length)

/-- `(?:,\d+)?` -/
def eatCount (cs : List Char) : List Char :=
  match (eat "," cs).bind eatNumber with
  | some (_, rest) => rest
  | none => cs

/-- `HUNK_HEADER_RE.match(raw)`, and its first group as a number. -/
def hunkStart (raw : List Char) : Option ℕ := do
  let cs ← eat "@@ -" raw
  let (_, cs) ← eatNumber cs
  let cs ← eat " +" (eatCount cs)
  let (start, cs) ← eatNumber cs
  let _ ← eat " @@" (eatCount cs)
  return start

/-- The variables of the loop: the next line of the new file, and the set of changed lines as the
list of what was added to it. -/
structure LineScan where
  lineNo : ℕ
  changed : List ℕ
  deriving DecidableEq, Repr

def scanLine (s : LineScan) (raw : List Char) : LineScan :=
  match hunkStart raw with
  | some start => { s with lineNo := start }
  | none =>
    match raw with
    | '+' :: _ => ⟨s.lineNo + 1, s.changed ++ [s.lineNo]⟩
    | '-' :: _ => ⟨s.lineNo, s.changed ++ [s.lineNo]⟩
    | ' ' :: _ => ⟨s.lineNo + 1, s.changed⟩
    | _ => s

def parseChangedLines (patch : String) : List ℕ :=
  ((splitLines patch).foldl scanLine ⟨0, []⟩).changed

example : parseChangedLines "@@ -10,4 +10,2 @@\n context\n-gone_one\n-gone_two\n more\n" = [11, 11] := by
  decide

end Revix
