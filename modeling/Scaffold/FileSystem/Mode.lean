/-!
# Permission bits

A file or a directory has twelve permission bits: three for each of its owner, its
group and everyone else, and three that make it special. Of a number that is given
as a mode only the twelve lowest bits count.
-/

namespace Scaffold

/-- The twelve permission bits. -/
abbrev Mode := BitVec 12

namespace Mode

/-- The mode of a new file. -/
def newFile : Mode := 0o644

/-- The mode of a new directory, before it takes over a bit of its parent. -/
def newDirectory : Mode := 0o755

/-- The set-group-ID bit. -/
def setGroupId : Mode := 0o2000

/-- The permission bits of a stored number. -/
def ofBits (bits : UInt32) : Mode := BitVec.ofNat 12 bits.toNat

/-- The permission bits as a stored number. -/
def toBits (m : Mode) : UInt32 := UInt32.ofNat m.toNat

/-- Storing permission bits and reading them back changes nothing. -/
@[simp] theorem ofBits_toBits (m : Mode) : ofBits (toBits m) = m := by
  have small : m.toNat < UInt32.size := Nat.lt_trans m.isLt (by decide)
  simp [ofBits, toBits, Nat.mod_eq_of_lt small]

end Mode

end Scaffold
