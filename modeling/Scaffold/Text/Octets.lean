import Scaffold.Text.Basic

/-!
# Strings of bytes

File names and file contents are strings of bytes. Most of them are text in
UTF-8, and those are kept as the text they stand for; only bytes that decode to
no text are kept as bytes. The proof carried by `Octets.binary` makes the two
kinds disjoint, so equal strings of bytes have one representation.

Decoding follows the shape of a UTF-8 character: a lead byte says how many
continuation bytes follow and in which range the first of them lies. Where a
character breaks off, the bytes read so far count as one undecodable stretch.
-/

namespace Scaffold

namespace Utf8

/-- What a lead byte of a longer character asks for: the number of continuation
bytes, the range of the first one, and the lead's own share of the code point. -/
structure Lead where
  tails : Nat
  low : Nat
  high : Nat
  share : Nat

/-- The lead bytes of characters of two, three and four bytes. -/
def lead? (b : Nat) : Option Lead :=
  if 0xC2 ≤ b ∧ b ≤ 0xDF then some ⟨1, 0x80, 0xBF, b - 0xC0⟩
  else if b = 0xE0 then some ⟨2, 0xA0, 0xBF, 0⟩
  else if b = 0xED then some ⟨2, 0x80, 0x9F, 0xD⟩
  else if 0xE1 ≤ b ∧ b ≤ 0xEF then some ⟨2, 0x80, 0xBF, b - 0xE0⟩
  else if b = 0xF0 then some ⟨3, 0x90, 0xBF, 0⟩
  else if 0xF1 ≤ b ∧ b ≤ 0xF3 then some ⟨3, 0x80, 0xBF, b - 0xF0⟩
  else if b = 0xF4 then some ⟨3, 0x80, 0x8F, 4⟩
  else none

/-- Read `n` continuation bytes, the first of them between `low` and `high`,
onto the code point read so far. The second component is what was not read. -/
def tails : Nat → Nat → Nat → Nat → List UInt8 → Option Nat × List UInt8
  | 0, _, _, share, rest => (some share, rest)
  | _ + 1, _, _, _, [] => (none, [])
  | n + 1, low, high, share, b :: rest =>
    if low ≤ b.toNat ∧ b.toNat ≤ high then
      tails n 0x80 0xBF (share * 64 + (b.toNat - 0x80)) rest
    else (none, b :: rest)

theorem length_tails_le (n low high share : Nat) (bytes : List UInt8) :
    (tails n low high share bytes).2.length ≤ bytes.length := by
  induction n generalizing low high share bytes with
  | zero => simp [tails]
  | succ n ih =>
    cases bytes with
    | nil => simp [tails]
    | cons b rest =>
      rw [tails]
      split
      · exact Nat.le_succ_of_le (ih _ _ _ _)
      · simp

/-- Read one unit: a character, or `none` for an undecodable stretch. -/
def unit (b : UInt8) (rest : List UInt8) : Option Char × List UInt8 :=
  if b.toNat < 0x80 then (some (Char.ofNat b.toNat), rest)
  else match lead? b.toNat with
    | none => (none, rest)
    | some l =>
      let (code, left) := tails l.tails l.low l.high l.share rest
      (code.map Char.ofNat, left)

theorem length_unit_le (b : UInt8) (rest : List UInt8) :
    (unit b rest).2.length ≤ rest.length := by
  unfold unit
  split
  · simp
  · split
    · simp
    · exact length_tails_le _ _ _ _ _

/-- All units of a string of bytes, in order. -/
def units : List UInt8 → List (Option Char)
  | [] => []
  | b :: rest =>
    have : (unit b rest).2.length < rest.length + 1 := Nat.lt_succ_of_le (length_unit_le b rest)
    (unit b rest).1 :: units (unit b rest).2
termination_by bytes => bytes.length

/-- The text that a string of bytes encodes, if every unit is a character. -/
def decode? (bytes : List UInt8) : Option Text := (units bytes).mapM id

/-- The text with a replacement character for each undecodable stretch. -/
def decodeLossy (bytes : List UInt8) : Text :=
  (units bytes).map fun unit => unit.getD '\uFFFD'

/-- The bytes of a text. -/
def encode (t : Text) : List UInt8 := t.flatMap String.utf8EncodeChar

end Utf8

/-- A string of bytes, kept as text where it is text. -/
inductive Octets where
  /-- Bytes that encode `t`. -/
  | text (t : Text)
  /-- Bytes that encode no text. -/
  | binary (bytes : List UInt8) (undecodable : Utf8.decode? bytes = none)
  deriving DecidableEq

namespace Octets

/-- Take bytes as they are found. -/
def ofBytes (bytes : List UInt8) : Octets :=
  match h : Utf8.decode? bytes with
  | some t => text t
  | none => binary bytes h

/-- The bytes themselves. -/
def bytes : Octets → List UInt8
  | text t => Utf8.encode t
  | binary bytes _ => bytes

/-- The text, when there is one. -/
def text? : Octets → Option Text
  | text t => some t
  | binary .. => none

/-- The text as it can best be shown. -/
def lossy : Octets → Text
  | text t => t
  | binary bytes _ => Utf8.decodeLossy bytes

@[simp] theorem text?_text (t : Text) : (text t).text? = some t := rfl

@[simp] theorem lossy_text (t : Text) : (text t).lossy = t := rfl

@[simp] theorem bytes_text (t : Text) : (text t).bytes = Utf8.encode t := rfl

theorem text?_eq_some_iff {o : Octets} {t : Text} : o.text? = some t ↔ o = text t := by
  cases o <;> simp [text?]

/-- What is there when bytes are written over others from their beginning on: what the
others are longer by stands behind them. -/
def overwrite (old new : Octets) : Octets :=
  if old.bytes.length ≤ new.bytes.length then new
  else ofBytes (new.bytes ++ old.bytes.drop new.bytes.length)

@[simp] theorem overwrite_nothing (new : Octets) : overwrite (text []) new = new := by
  simp [overwrite, Utf8.encode]

/-- The order of the bytes, which for texts is the order of code points. -/
def le (a b : Octets) : Bool := a.bytes ≤ b.bytes

end Octets

end Scaffold
