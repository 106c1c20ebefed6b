import BitTorrent.Lib.Bytes

/-!
# Bitfields

`BitField` wraps `bit_vec::BitVec` (`src/bitfield.rs`).  The vector is the list of its bits; its
byte form is the documented one: the first bit is the high-order bit of the first byte, and bits
past the end are zeros.
-/

namespace Btt
open Bytes

structure BitField where
  inner : List Bool
deriving DecidableEq

namespace BitField

def len (f : BitField) : Nat := f.inner.length

def get (f : BitField) (i : Nat) : Option Bool := f.inner[i]?

/-- `set`; the callers check the index first, out of bounds nothing changes here -/
def set (f : BitField) (i : Nat) (b : Bool) : BitField := ⟨f.inner.set i b⟩

/-- `all`: every bit is set -/
def all (f : BitField) : Bool := f.inner.all id

def truncate (f : BitField) (n : Nat) : BitField := ⟨f.inner.take n⟩

def fromBytes (bytes : List UInt8) : BitField := ⟨unpackBits bytes⟩

def toBytes (f : BitField) : List UInt8 := packBits f.inner

def newAllSet (n : Nat) : BitField := ⟨List.replicate n true⟩

def newAllClear (n : Nat) : BitField := ⟨List.replicate n false⟩

@[simp] theorem len_set (f : BitField) (i : Nat) (b : Bool) : (f.set i b).len = f.len := by
  simp [len, set]

theorem get_set (f : BitField) (i j : Nat) (b : Bool) :
    (f.set i b).get j = if i = j then (if i < f.len then some b else none) else f.get j :=
  List.getElem?_set

/-- truncated to its own length, the byte form reads back -/
theorem truncate_fromBytes_toBytes (f : BitField) : (fromBytes f.toBytes).truncate f.len = f := by
  show BitField.mk ((unpackBits (packBits f.inner)).take f.inner.length) = f
  rw [take_unpackBits_packBits]

end BitField

end Btt
