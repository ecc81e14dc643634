import Mathlib.Algebra.Group.Nat.Defs
import Scaffold.Text.Octets

/-!
# Encoding and decoding

The bytes of a character are read as one unit again, so what a text is encoded as decodes to
that text. Hence a string of bytes is known by its bytes, whether it is text or not. In the
other direction, a slash is read from the byte of a slash alone: no longer character and no
undecodable stretch is shown as one.
-/

namespace Scaffold

namespace Utf8

variable {bytes rest : List UInt8} {n k v low high share code : Nat} {c : Char} {l : Lead}

theorem units_cons (b : UInt8) (rest : List UInt8) :
    units (b :: rest) = (unit b rest).1 :: units (unit b rest).2 := by
  rw [units]

/-! ## What is encoded is decoded -/

private theorem toNat_ofNat_byte (fits : n < 256) : (UInt8.ofNat n).toNat = n := by
  rw [UInt8.toNat_ofNat']
  omega

/-- A continuation byte adds its six bits to the code point. -/
private theorem tails_cons (fits : k < 64) (least : low ≤ k + 128) (most : k + 128 ≤ high) :
    tails (n + 1) low high share (UInt8.ofNat (k + 128) :: rest)
      = tails n 0x80 0xBF (share * 64 + k) rest := by
  rw [tails, toNat_ofNat_byte (by omega), if_pos ⟨least, most⟩, Nat.add_sub_cancel]

private theorem lead?_two (least : 2 ≤ n) (most : n < 32) :
    lead? (n + 192) = some ⟨1, 0x80, 0xBF, n⟩ := by
  rw [lead?, if_pos (by omega), Nat.add_sub_cancel]

/-- The lead of a character of three bytes lets the byte behind it be what it is. -/
private theorem exists_lead_three (least : 0x800 ≤ v) (most : v ≤ 0xFFFF)
    (valid : v < 0xD800 ∨ 0xDFFF < v) : ∃ low high,
      lead? (v / 4096 % 16 + 224) = some ⟨2, low, high, v / 4096 % 16⟩
        ∧ low ≤ v / 64 % 64 + 128 ∧ v / 64 % 64 + 128 ≤ high := by
  by_cases first : v / 4096 % 16 = 0
  · exact ⟨0xA0, 0xBF, by rw [first]; rfl, by omega, by omega⟩
  by_cases surrogate : v / 4096 % 16 = 13
  · exact ⟨0x80, 0x9F, by rw [surrogate]; rfl, by omega, by omega⟩
  · refine ⟨0x80, 0xBF, ?_, by omega, by omega⟩
    rw [lead?, if_neg (by omega), if_neg (by omega), if_neg (by omega), if_pos (by omega),
      Nat.add_sub_cancel]

/-- The lead of a character of four bytes lets the byte behind it be what it is. -/
private theorem exists_lead_four (least : 0x10000 ≤ v) (most : v < 0x110000) : ∃ low high,
    lead? (v / 262144 % 8 + 240) = some ⟨3, low, high, v / 262144 % 8⟩
      ∧ low ≤ v / 4096 % 64 + 128 ∧ v / 4096 % 64 + 128 ≤ high := by
  by_cases first : v / 262144 % 8 = 0
  · exact ⟨0x90, 0xBF, by rw [first]; rfl, by omega, by omega⟩
  by_cases last : v / 262144 % 8 = 4
  · exact ⟨0x80, 0x8F, by rw [last]; rfl, by omega, by omega⟩
  · refine ⟨0x80, 0xBF, ?_, by omega, by omega⟩
    rw [lead?, if_neg (by omega), if_neg (by omega), if_neg (by omega), if_neg (by omega),
      if_neg (by omega), if_pos (by omega), Nat.add_sub_cancel]

/-- The bytes of a character are read as that character, whatever follows. -/
theorem exists_unit (c : Char) : ∃ first others, String.utf8EncodeChar c = first :: others
    ∧ ∀ rest, unit first (others ++ rest) = (some c, rest) := by
  have again : Char.ofNat c.val.toNat = c := Char.ofNat_toNat c
  have valid : c.val.toNat < 0xD800 ∨ 0xDFFF < c.val.toNat ∧ c.val.toNat < 0x110000 := c.valid
  simp only [String.utf8EncodeChar]
  generalize c.val.toNat = v at again valid ⊢
  split
  next one =>
    refine ⟨_, _, rfl, fun rest => ?_⟩
    rw [unit, toNat_ofNat_byte (by omega), if_pos (by omega), again]
    rfl
  next notOne =>
  split
  next two =>
    have whole : v / 64 % 32 * 64 + v % 64 = v := by omega
    refine ⟨_, _, rfl, fun rest => ?_⟩
    rw [unit, toNat_ofNat_byte (by omega), if_neg (by omega), lead?_two (by omega) (by omega)]
    simp only [List.cons_append, List.nil_append]
    rw [tails_cons (by omega) (by omega) (by omega), tails, whole, Option.map_some, again]
  next notTwo =>
  split
  next three =>
    have whole : (v / 4096 % 16 * 64 + v / 64 % 64) * 64 + v % 64 = v := by omega
    obtain ⟨low, high, lead, least, most⟩ :=
      exists_lead_three (by omega) three (valid.imp_right And.left)
    refine ⟨_, _, rfl, fun rest => ?_⟩
    rw [unit, toNat_ofNat_byte (by omega), if_neg (by omega), lead]
    simp only [List.cons_append, List.nil_append]
    rw [tails_cons (by omega) least most, tails_cons (by omega) (by omega) (by omega), tails, whole,
      Option.map_some, again]
  next notThree =>
    have whole : ((v / 262144 % 8 * 64 + v / 4096 % 64) * 64 + v / 64 % 64) * 64 + v % 64 = v := by
      omega
    obtain ⟨low, high, lead, least, most⟩ := exists_lead_four (v := v) (by omega) (by omega)
    refine ⟨_, _, rfl, fun rest => ?_⟩
    rw [unit, toNat_ofNat_byte (by omega), if_neg (by omega), lead]
    simp only [List.cons_append, List.nil_append]
    rw [tails_cons (by omega) least most, tails_cons (by omega) (by omega) (by omega),
      tails_cons (by omega) (by omega) (by omega), tails, whole, Option.map_some, again]

theorem units_encode (t : Text) : units (encode t) = t.map some := by
  induction t with
  | nil => simp [encode, units]
  | cons c t ih =>
    obtain ⟨first, others, bytes, read⟩ := exists_unit c
    have parts : encode (c :: t) = first :: (others ++ encode t) := by simp [encode, bytes]
    rw [parts, units_cons, read, ih, List.map_cons]

/-- What a text is encoded as decodes to the text. -/
theorem decode?_encode (t : Text) : decode? (encode t) = some t := by
  have all (t : Text) : (t.map some).mapM id = some t := by
    induction t with
    | nil => rfl
    | cons c t ih => rw [List.map_cons, List.mapM_cons, ih]; rfl
  rw [decode?, units_encode, all]

/-! ## Where a slash is read -/

/-- Reading on makes a code point no smaller. -/
private theorem le_of_tails (read : (tails n low high share rest).1 = some code) :
    share * 64 ^ n ≤ code := by
  induction n generalizing low high share rest with
  | zero =>
    simp only [tails, Option.some.injEq] at read
    omega
  | succ n ih =>
    cases rest with
    | nil => simp [tails] at read
    | cons b rest =>
      rw [tails] at read
      split at read
      · calc share * 64 ^ (n + 1) = share * 64 * 64 ^ n := by rw [Nat.pow_succ', Nat.mul_assoc]
          _ ≤ (share * 64 + (b.toNat - 0x80)) * 64 ^ n :=
            Nat.mul_le_mul_right _ (Nat.le_add_right _ _)
          _ ≤ code := ih read
      · simp at read

/-- A lead and the least byte that it lets stand behind it are no code point below 128. -/
private theorem le_of_lead (lead : lead? n = some l) :
    ∃ k, l.tails = k + 1 ∧ 0x80 ≤ (l.share * 64 + (l.low - 0x80)) * 64 ^ k := by
  simp only [lead?] at lead
  split at lead
  · obtain rfl := Option.some.inj lead
    exact ⟨0, rfl, by simp only; omega⟩
  split at lead
  · obtain rfl := Option.some.inj lead
    exact ⟨1, rfl, by decide⟩
  split at lead
  · obtain rfl := Option.some.inj lead
    exact ⟨1, rfl, by decide⟩
  split at lead
  · obtain rfl := Option.some.inj lead
    exact ⟨1, rfl, by simp only; omega⟩
  split at lead
  · obtain rfl := Option.some.inj lead
    exact ⟨2, rfl, by decide⟩
  split at lead
  · obtain rfl := Option.some.inj lead
    exact ⟨2, rfl, by simp only; omega⟩
  split at lead
  · obtain rfl := Option.some.inj lead
    exact ⟨2, rfl, by decide⟩
  · simp at lead

/-- A character that is read from more than one byte is not one of the first 128. -/
private theorem le_of_long (lead : lead? n = some l)
    (read : (tails l.tails l.low l.high l.share rest).1 = some code) : 0x80 ≤ code := by
  obtain ⟨k, count, least⟩ := le_of_lead lead
  rw [count] at read
  cases rest with
  | nil => simp [tails] at read
  | cons b rest =>
    rw [tails] at read
    split at read
    next inRange =>
      calc 0x80 ≤ (l.share * 64 + (l.low - 0x80)) * 64 ^ k := least
        _ ≤ (l.share * 64 + (b.toNat - 0x80)) * 64 ^ k :=
          Nat.mul_le_mul_right _ (Nat.add_le_add_left (Nat.sub_le_sub_right inRange.1 _) _)
        _ ≤ code := le_of_tails read
    next => simp at read

private theorem eq_of_ofNat_eq_slash (same : Char.ofNat n = '/') : n = 0x2F := by
  by_cases valid : n.isValidChar
  · have code : (Char.ofNat n).toNat = n := by
      rw [Char.ofNat, dif_pos valid]
      rfl
    exact (same ▸ code).symm
  · rw [Char.ofNat, dif_neg valid] at same
    exact absurd (congrArg Char.val same) (by decide)

/-- A slash is read from its own byte. -/
theorem eq_slash_of_unit {b : UInt8} (read : (unit b rest).1 = some '/') : b = 0x2F := by
  rw [unit] at read
  split at read
  · exact UInt8.toNat_inj.1 (eq_of_ofNat_eq_slash (Option.some.inj read))
  · split at read
    · simp at read
    next lead =>
      obtain ⟨code, found, same⟩ := Option.map_eq_some_iff.1 read
      have least := le_of_long lead found
      rw [eq_of_ofNat_eq_slash same] at least
      omega

private theorem tails_suffix : (tails n low high share bytes).2 <:+ bytes := by
  induction n generalizing low high share bytes with
  | zero => exact List.suffix_rfl
  | succ n ih =>
    cases bytes with
    | nil => exact List.suffix_rfl
    | cons b rest =>
      rw [tails]
      split
      · exact ih.trans (List.suffix_cons b rest)
      · exact List.suffix_rfl

/-- What is not read yet are the last bytes. -/
theorem unit_suffix (b : UInt8) (rest : List UInt8) : (unit b rest).2 <:+ rest := by
  rw [unit]
  split
  · exact List.suffix_rfl
  · split
    · exact List.suffix_rfl
    · exact tails_suffix

theorem slash_mem_of_mem_units (bytes : List UInt8) :
    some '/' ∈ units bytes → 0x2F ∈ bytes := by
  fun_induction units bytes with
  | case1 => simp
  | case2 b rest _ ih =>
    intro mem
    rcases List.mem_cons.1 mem with here | later
    · exact eq_slash_of_unit here.symm ▸ List.mem_cons_self
    · exact List.mem_cons_of_mem b ((unit_suffix b rest).subset (ih later))

/-- Bytes without that of a slash are shown without a slash. -/
theorem slash_not_mem_decodeLossy (none : 0x2F ∉ bytes) : '/' ∉ decodeLossy bytes := by
  intro mem
  obtain ⟨read, there, shown⟩ := List.mem_map.1 mem
  cases read with
  | none => exact absurd shown (by decide)
  | some c =>
    obtain rfl : c = '/' := shown
    exact none (slash_mem_of_mem_units bytes there)

end Utf8

namespace Octets

/-- Strings of bytes are told apart by their bytes. -/
theorem bytes_inj {a b : Octets} (same : a.bytes = b.bytes) : a = b := by
  have known (o : Octets) : o = ofBytes o.bytes := by
    cases o with
    | text t =>
      simp only [ofBytes, bytes_text]
      split
      next u read => rw [Utf8.decode?_encode] at read; rw [Option.some.inj read]
      next failed => simp [Utf8.decode?_encode] at failed
    | binary bytes undecodable =>
      simp only [ofBytes, Octets.bytes]
      split
      next u read => simp [undecodable] at read
      next => rfl
  rw [known a, known b, same]

end Octets

end Scaffold
