import Mathlib.Data.List.Basic

namespace LenientBase64

def alphabet : List Char :=
  "ABCDEFGHIJKLMNOPQRSTUVWXYZabcdefghijklmnopqrstuvwxyz0123456789+/".toList

def digit (n : ℕ) : Char := alphabet.getD n 'A'

def digitValue? (c : Char) : Option ℕ := alphabet.idxOf? c

set_option maxRecDepth 20000 in
theorem idxOf?_alphabet : ∀ n < 64, alphabet.idxOf? (alphabet.getD n 'A') = some n := by decide

theorem digitValue?_digit {n : ℕ} (h : n < 64) : digitValue? (digit n) = some n :=
  idxOf?_alphabet n h

theorem digit_ne_pad {n : ℕ} (h : n < 64) : digit n ≠ '=' := by
  intro hpad
  have hvalue := digitValue?_digit h
  have hnone : digitValue? '=' = none := by decide
  rw [hpad, hnone] at hvalue
  cases hvalue

/-- The bits of an open group that belong to the next byte. -/
inductive Pending
  | none
  | six (bits : ℕ)
  | four (bits : ℕ)
  | two (bits : ℕ)
  deriving DecidableEq

def Pending.digits : Pending → ℕ
  | .none => 0
  | .six _ => 1
  | .four _ => 2
  | .two _ => 3

/-- The byte that a further digit completes, and the bits that remain. -/
def Pending.push : Pending → ℕ → List UInt8 × Pending
  | .none, v => ([], .six v)
  | .six bits, v => ([UInt8.ofNat (bits * 4 + v / 16)], .four (v % 16))
  | .four bits, v => ([UInt8.ofNat (bits * 16 + v / 4)], .two (v % 4))
  | .two bits, v => ([UInt8.ofNat (bits * 64 + v)], .none)

inductive DecodeError
  /-- The last group has a single digit; `count` is the number of all digits. -/
  | singleDigit (count : ℕ)
  | padding
  deriving DecidableEq

/-- The decoder after `count` digits, with `pads` signs of padding since the last one. -/
def decodeFrom (count pads : ℕ) (open_ : Pending) :
    List Char → Except DecodeError (List UInt8)
  | [] =>
    match open_ with
    | .none => .ok []
    | .six _ => .error (.singleDigit count)
    | _ => .error .padding
  | c :: cs =>
    if c = '=' then
      if 2 ≤ open_.digits then
        if 4 ≤ open_.digits + (pads + 1) then .ok [] else decodeFrom count (pads + 1) open_ cs
      else decodeFrom count pads open_ cs
    else
      match digitValue? c with
      | some v => do
        let bytes ← decodeFrom (count + 1) 0 (open_.push v).2 cs
        return (open_.push v).1 ++ bytes
      | none => decodeFrom count pads open_ cs

def decode (s : List Char) : Except DecodeError (List UInt8) := decodeFrom 0 0 .none s

def encode : List UInt8 → List Char
  | [] => []
  | [a] => [digit (a.toNat / 4), digit (a.toNat % 4 * 16), '=', '=']
  | [a, b] => [digit (a.toNat / 4), digit (a.toNat % 4 * 16 + b.toNat / 16),
      digit (b.toNat % 16 * 4), '=']
  | a :: b :: c :: bytes => digit (a.toNat / 4) :: digit (a.toNat % 4 * 16 + b.toNat / 16) ::
      digit (b.toNat % 16 * 4 + c.toNat / 64) :: digit (c.toNat % 64) :: encode bytes

def isBase64 (c : Char) : Bool := c = '=' || (digitValue? c).isSome

section Decoding

variable {count pads : ℕ} {p : Pending} {cs : List Char}

theorem decodeFrom_digit {n : ℕ} (h : n < 64) : decodeFrom count pads p (digit n :: cs) = do
    let bytes ← decodeFrom (count + 1) 0 (p.push n).2 cs
    return (p.push n).1 ++ bytes := by
  rw [decodeFrom, if_neg (digit_ne_pad h), digitValue?_digit h]

/-- Foreign characters are passed over. -/
theorem decodeFrom_filter (s : List Char) :
    decodeFrom count pads p (s.filter isBase64) = decodeFrom count pads p s := by
  induction s generalizing count pads p with
  | nil => rfl
  | cons c cs ih =>
    by_cases hpad : c = '='
    · rw [List.filter_cons_of_pos (by simp [isBase64, hpad])]
      simp only [decodeFrom, if_pos hpad, ih]
    · cases hvalue : digitValue? c with
      | none =>
        rw [List.filter_cons_of_neg (by simp [isBase64, hpad, hvalue]), ih]
        simp [decodeFrom, hpad, hvalue]
      | some v =>
        rw [List.filter_cons_of_pos (by simp [isBase64, hvalue])]
        simp only [decodeFrom, if_neg hpad, hvalue, ih]

end Decoding

theorem ofNat_of_toNat {n : ℕ} {a : UInt8} (h : n = a.toNat) : UInt8.ofNat n = a := by
  rw [h, UInt8.ofNat_toNat]

theorem decodeFrom_encode (count : ℕ) (bytes : List UInt8) :
    decodeFrom count 0 .none (encode bytes) = .ok bytes := by
  induction bytes using encode.induct generalizing count with
  | case1 => rfl
  | case2 a =>
    have ha := a.toNat_lt
    rw [encode, decodeFrom_digit (by omega), decodeFrom_digit (by omega)]
    have hlast : a.toNat / 4 * 4 + a.toNat % 4 * 16 / 16 = a.toNat := by omega
    simp only [Pending.push, ofNat_of_toNat hlast]
    rfl
  | case3 a b =>
    have ha := a.toNat_lt
    have hb := b.toNat_lt
    rw [encode, decodeFrom_digit (by omega), decodeFrom_digit (by omega),
      decodeFrom_digit (by omega)]
    have hfirst : a.toNat / 4 * 4 + (a.toNat % 4 * 16 + b.toNat / 16) / 16 = a.toNat := by omega
    have hlast : (a.toNat % 4 * 16 + b.toNat / 16) % 16 * 16 + b.toNat % 16 * 4 / 4 = b.toNat := by
      omega
    simp only [Pending.push, ofNat_of_toNat hfirst, ofNat_of_toNat hlast]
    rfl
  | case4 a b c bytes ih =>
    have ha := a.toNat_lt
    have hb := b.toNat_lt
    have hc := c.toNat_lt
    rw [encode, decodeFrom_digit (by omega), decodeFrom_digit (by omega),
      decodeFrom_digit (by omega), decodeFrom_digit (by omega)]
    have hfirst : a.toNat / 4 * 4 + (a.toNat % 4 * 16 + b.toNat / 16) / 16 = a.toNat := by omega
    have hsecond : (a.toNat % 4 * 16 + b.toNat / 16) % 16 * 16 +
        (b.toNat % 16 * 4 + c.toNat / 64) / 4 = b.toNat := by omega
    have hthird : (b.toNat % 16 * 4 + c.toNat / 64) % 4 * 64 + c.toNat % 64 = c.toNat := by omega
    simp only [Pending.push, ofNat_of_toNat hfirst, ofNat_of_toNat hsecond, ofNat_of_toNat hthird,
      ih]
    rfl

/-- A text is decoded to what was encoded, whatever foreign characters stand between its digits. -/
theorem decode_of_filter {s : List Char} {bytes : List UInt8}
    (h : s.filter isBase64 = encode bytes) : decode s = .ok bytes := by
  rw [decode, ← decodeFrom_filter, h, decodeFrom_encode]

end LenientBase64
