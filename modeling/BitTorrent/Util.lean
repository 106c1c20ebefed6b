import BitTorrent.Lib.Bytes

/-!
# SHA-1 hashes

`ShaHash` is the 20-byte wrapper of `src/util.rs`.  The hash function itself is a parameter
`sha1 : List UInt8 → ShaHash`; a hasher is the byte string it was fed with, so that `update` is
concatenation and `digest` is the hash of everything fed.
-/

namespace Btt
open Bytes

/-- `SHA_HASH_LEN` -/
def shaHashLen : Nat := 20

structure ShaHash where
  hash : ByteArr 20
deriving DecidableEq

/-- `TryFrom<&[u8]> for ShaHash`: the first twenty bytes of a long enough slice -/
def ShaHash.tryFrom (value : List UInt8) : Option ShaHash :=
  if h : value.length < shaHashLen then none
  else some ⟨⟨value.take shaHashLen, by rw [List.length_take]; exact Nat.min_eq_left (by omega)⟩⟩

/-- `as_ref` -/
def ShaHash.asRef (h : ShaHash) : List UInt8 := h.hash.toList

@[simp] theorem ShaHash.length_asRef (h : ShaHash) : h.asRef.length = 20 := h.hash.len

theorem ShaHash.tryFrom_asRef (h : ShaHash) : ShaHash.tryFrom h.asRef = some h := by
  have hl : ¬ h.asRef.length < shaHashLen := by rw [h.length_asRef]; decide
  rw [ShaHash.tryFrom, dif_neg hl]
  have ht : h.asRef.take shaHashLen = h.asRef := List.take_of_length_le (by rw [h.length_asRef]; rfl)
  congr 1
  exact congrArg ShaHash.mk (ByteArr.ext ht)

/-- a hash made of no more bytes than it takes has all of them -/
theorem ShaHash.asRef_of_tryFrom {value : List UInt8} {h : ShaHash} (hlen : value.length ≤ shaHashLen)
    (hfrom : ShaHash.tryFrom value = some h) : h.asRef = value := by
  unfold ShaHash.tryFrom at hfrom
  split at hfrom
  · cases hfrom
  · cases hfrom
    exact List.take_of_length_le hlen

/-- twenty equal bytes -/
def ShaHash.replicate (byte : UInt8) : ShaHash := ⟨⟨List.replicate 20 byte, rfl⟩⟩

/-- a `sha1::Sha1` hasher: the bytes it was fed with -/
structure Sha1 where
  fed : List UInt8
deriving DecidableEq

/-- `Sha1::from(data)` -/
def Sha1.from (data : List UInt8) : Sha1 := ⟨data⟩

def Sha1.update (h : Sha1) (data : List UInt8) : Sha1 := ⟨h.fed ++ data⟩

/-- `ShaHash::from(hasher)` -/
def Sha1.digest (sha1 : List UInt8 → ShaHash) (h : Sha1) : ShaHash := sha1 h.fed

end Btt
