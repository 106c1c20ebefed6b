import Mathlib.Data.List.Basic
import Mathlib.Tactic.Ring

/-!
# Byte strings: slices, big-endian words, fixed-size arrays

The operations a wire codec uses, with `none` for a panic (index or slice out of bounds, a word read
from too few bytes):

* `slice`, `splitTo`, `advance`   sub-slices and the two ways to drop a consumed front;
* `readU32`, `writeU32`, `readU16`, `writeU16`   big-endian words;
* `ByteArr n`                     an array of exactly `n` bytes;
* `packBits`, `unpackBits`        bits in bytes, most significant bit first, zero padded.
-/

namespace Bytes

section
variable {α : Type*}

/-- `&xs[a..b]` -/
def slice (xs : List α) (a b : Nat) : Option (List α) :=
  if a ≤ b ∧ b ≤ xs.length then some ((xs.take b).drop a) else none

/-- `&xs[a..]` -/
def sliceFrom (xs : List α) (a : Nat) : Option (List α) :=
  if a ≤ xs.length then some (xs.drop a) else none

/-- `xs.split_to(n)`: the first `n` elements, and what is left -/
def splitTo (xs : List α) (n : Nat) : Option (List α × List α) :=
  if n ≤ xs.length then some (xs.take n, xs.drop n) else none

/-- `xs.advance(n)` -/
def advance (xs : List α) (n : Nat) : Option (List α) :=
  if n ≤ xs.length then some (xs.drop n) else none

theorem slice_eq_none {xs : List α} {a b : Nat} (hab : a ≤ b) : slice xs a b = none ↔ xs.length < b := by
  simp [slice, hab]

theorem slice_isSome {xs : List α} {a b : Nat} (hab : a ≤ b) (hb : b ≤ xs.length) :
    slice xs a b = some ((xs.take b).drop a) := if_pos ⟨hab, hb⟩

/-- a slice that lies in the middle of three parts is the middle part -/
theorem slice_mid (a m r : List α) (i j : Nat) (hi : i = a.length) (hj : j = a.length + m.length) :
    slice (a ++ m ++ r) i j = some m := by
  subst hi hj
  rw [slice, if_pos ⟨by omega, by simp⟩, ← List.length_append, List.take_left, List.drop_left]

theorem sliceFrom_append (a m : List α) (i : Nat) (hi : i = a.length) :
    sliceFrom (a ++ m) i = some m := by
  subst hi
  rw [sliceFrom, if_pos (by simp), List.drop_left]

theorem splitTo_append (a r : List α) (n : Nat) (hn : n = a.length) :
    splitTo (a ++ r) n = some (a, r) := by
  subst hn
  rw [splitTo, if_pos (by simp), List.take_left, List.drop_left]

theorem splitTo_eq_some {xs : List α} {n : Nat} (h : n ≤ xs.length) :
    splitTo xs n = some (xs.take n, xs.drop n) := if_pos h

theorem advance_append (a r : List α) (n : Nat) (hn : n = a.length) :
    advance (a ++ r) n = some r := by
  subst hn
  rw [advance, if_pos (by simp), List.drop_left]

/-- what stands before the end of a slice is what stands before it, and the slice -/
theorem take_of_slice {xs s : List α} {a b : Nat} (h : slice xs a b = some s) :
    xs.take b = xs.take a ++ s ∧ s.length = b - a := by
  unfold slice at h
  split at h
  · rename_i hab
    cases h
    constructor
    · have hcut := List.take_append_drop a (xs.take b)
      rwa [List.take_take, Nat.min_eq_left hab.1, eq_comm] at hcut
    · rw [List.length_drop, List.length_take, Nat.min_eq_left hab.2]
  · cases h

end

/-! ## big-endian words -/

def writeU32 (x : UInt32) : List UInt8 :=
  [UInt8.ofNat (x.toNat / 16777216), UInt8.ofNat (x.toNat / 65536), UInt8.ofNat (x.toNat / 256),
    UInt8.ofNat x.toNat]

def writeU16 (x : UInt16) : List UInt8 := [UInt8.ofNat (x.toNat / 256), UInt8.ofNat x.toNat]

/-- `BigEndian::read_u32`, which panics on fewer than four bytes -/
def readU32 : List UInt8 → Option UInt32
  | a :: b :: c :: d :: _ =>
    some (UInt32.ofNat (a.toNat * 16777216 + b.toNat * 65536 + c.toNat * 256 + d.toNat))
  | _ => none

/-- `BigEndian::read_u16`, which panics on fewer than two bytes -/
def readU16 : List UInt8 → Option UInt16
  | a :: b :: _ => some (UInt16.ofNat (a.toNat * 256 + b.toNat))
  | _ => none

@[simp] theorem length_writeU32 (x : UInt32) : (writeU32 x).length = 4 := rfl

theorem readU32_isSome {xs : List UInt8} (h : 4 ≤ xs.length) : ∃ x, readU32 xs = some x := by
  match xs, h with
  | a :: b :: c :: d :: _, _ => exact ⟨_, rfl⟩

theorem readU32_eq_none {xs : List UInt8} : readU32 xs = none ↔ xs.length < 4 := by
  match xs with
  | [] | [_] | [_, _] | [_, _, _] => simp [readU32]
  | a :: b :: c :: d :: r => simp [readU32]

theorem readU16_eq_none {xs : List UInt8} : readU16 xs = none ↔ xs.length < 2 := by
  match xs with
  | [] | [_] => simp [readU16]
  | a :: b :: r => simp [readU16]

theorem readU32_write (x : UInt32) (r : List UInt8) : readU32 (writeU32 x ++ r) = some x := by
  have hx : x.toNat < 4294967296 := x.toNat_lt
  show some (UInt32.ofNat _) = some x
  congr 1
  apply UInt32.toNat_inj.mp
  simp only [UInt8.toNat_ofNat', UInt32.toNat_ofNat']
  omega

theorem readU16_write (x : UInt16) (r : List UInt8) : readU16 (writeU16 x ++ r) = some x := by
  have hx : x.toNat < 65536 := x.toNat_lt
  show some (UInt16.ofNat _) = some x
  congr 1
  apply UInt16.toNat_inj.mp
  simp only [UInt8.toNat_ofNat', UInt16.toNat_ofNat']
  omega

/-- a slice that holds one written word reads back as that word -/
theorem slice_readU32 (a r : List UInt8) (x : UInt32) (i j : Nat) (hi : i = a.length)
    (hj : j = a.length + 4) : (slice (a ++ writeU32 x ++ r) i j).bind readU32 = some x := by
  rw [slice_mid a (writeU32 x) r i j hi hj]
  have h := readU32_write x []
  rw [List.append_nil] at h
  exact h

/-- a word that was read is the one that is written so -/
theorem take_of_readU32 {xs : List UInt8} {x : UInt32} (h : readU32 xs = some x) : xs.take 4 = writeU32 x := by
  rcases xs with _ | ⟨a, _ | ⟨b, _ | ⟨c, _ | ⟨d, r⟩⟩⟩⟩
  · cases h
  · cases h
  · cases h
  · cases h
  · cases h
    have ha : a.toNat < 256 := a.toNat_lt
    have hb : b.toNat < 256 := b.toNat_lt
    have hc : c.toNat < 256 := c.toNat_lt
    have hd : d.toNat < 256 := d.toNat_lt
    have hx : a.toNat * 16777216 + b.toNat * 65536 + c.toNat * 256 + d.toNat < 4294967296 := by omega
    show [a, b, c, d] = writeU32 _
    rw [writeU32, UInt32.toNat_ofNat_of_lt' hx]
    simp only [List.cons.injEq, and_true]
    refine ⟨?_, ?_, ?_, ?_⟩ <;> apply UInt8.toNat_inj.mp <;> rw [UInt8.toNat_ofNat'] <;> omega

theorem take_of_readU16 {xs : List UInt8} {x : UInt16} (h : readU16 xs = some x) : xs.take 2 = writeU16 x := by
  rcases xs with _ | ⟨a, _ | ⟨b, r⟩⟩
  · cases h
  · cases h
  · cases h
    have ha : a.toNat < 256 := a.toNat_lt
    have hb : b.toNat < 256 := b.toNat_lt
    have hx : a.toNat * 256 + b.toNat < 65536 := by omega
    show [a, b] = writeU16 _
    rw [writeU16, UInt16.toNat_ofNat_of_lt' hx]
    simp only [List.cons.injEq, and_true]
    refine ⟨?_, ?_⟩ <;> apply UInt8.toNat_inj.mp <;> rw [UInt8.toNat_ofNat'] <;> omega

theorem take_of_slice_readU32 {xs : List UInt8} {a b : Nat} {x : UInt32} (hab : b = a + 4)
    (h : (slice xs a b).bind readU32 = some x) : xs.take b = xs.take a ++ writeU32 x := by
  obtain ⟨s, hs, hx⟩ := Option.bind_eq_some_iff.mp h
  obtain ⟨htake, hlen⟩ := take_of_slice hs
  have hword := take_of_readU32 hx
  rw [List.take_of_length_le (by omega)] at hword
  rw [htake, hword]

/-- the first byte of a written word -/
theorem head_writeU32 (x : UInt32) (r : List UInt8) :
    (writeU32 x ++ r)[0]? = some (UInt8.ofNat (x.toNat / 16777216)) := rfl

/-! ## fixed-size arrays -/

/-- `[u8; n]` -/
structure ByteArr (n : Nat) where
  toList : List UInt8
  len : toList.length = n
deriving DecidableEq

theorem ByteArr.ext {n : Nat} {a b : ByteArr n} (h : a.toList = b.toList) : a = b := by
  cases a; cases b; cases h; rfl

/-- `&[u8]` to `[u8; n]` by `try_into` -/
def ByteArr.tryFrom (n : Nat) (xs : List UInt8) : Option (ByteArr n) :=
  if h : xs.length = n then some ⟨xs, h⟩ else none

theorem ByteArr.tryFrom_toList {n : Nat} (a : ByteArr n) : ByteArr.tryFrom n a.toList = some a := by
  rw [ByteArr.tryFrom, dif_pos a.len]

theorem ByteArr.toList_of_tryFrom {n : Nat} {xs : List UInt8} {a : ByteArr n} (h : ByteArr.tryFrom n xs = some a) :
    a.toList = xs := by
  unfold ByteArr.tryFrom at h
  split at h
  · cases h
    rfl
  · cases h

/-! ## bits in bytes -/

/-- a byte from its bits, most significant first -/
def byteOfBits (b7 b6 b5 b4 b3 b2 b1 b0 : Bool) : UInt8 :=
  UInt8.ofNat (b7.toNat * 128 + b6.toNat * 64 + b5.toNat * 32 + b4.toNat * 16 + b3.toNat * 8
    + b2.toNat * 4 + b1.toNat * 2 + b0.toNat)

/-- the bits of a byte, most significant first -/
def bitsOfByte (x : UInt8) : List Bool :=
  [x.toNat.testBit 7, x.toNat.testBit 6, x.toNat.testBit 5, x.toNat.testBit 4, x.toNat.testBit 3,
    x.toNat.testBit 2, x.toNat.testBit 1, x.toNat.testBit 0]

/-- bits packed into bytes; the last byte is padded with zeros -/
def packBits : List Bool → List UInt8
  | b7 :: b6 :: b5 :: b4 :: b3 :: b2 :: b1 :: b0 :: r => byteOfBits b7 b6 b5 b4 b3 b2 b1 b0 :: packBits r
  | [] => []
  | [b7] => [byteOfBits b7 false false false false false false false]
  | [b7, b6] => [byteOfBits b7 b6 false false false false false false]
  | [b7, b6, b5] => [byteOfBits b7 b6 b5 false false false false false]
  | [b7, b6, b5, b4] => [byteOfBits b7 b6 b5 b4 false false false false]
  | [b7, b6, b5, b4, b3] => [byteOfBits b7 b6 b5 b4 b3 false false false]
  | [b7, b6, b5, b4, b3, b2] => [byteOfBits b7 b6 b5 b4 b3 b2 false false]
  | [b7, b6, b5, b4, b3, b2, b1] => [byteOfBits b7 b6 b5 b4 b3 b2 b1 false]

def unpackBits (xs : List UInt8) : List Bool := xs.flatMap bitsOfByte

theorem bitsOfByte_byteOfBits (b7 b6 b5 b4 b3 b2 b1 b0 : Bool) :
    bitsOfByte (byteOfBits b7 b6 b5 b4 b3 b2 b1 b0) = [b7, b6, b5, b4, b3, b2, b1, b0] := by
  revert b7 b6 b5 b4 b3 b2 b1 b0
  decide

theorem unpackBits_cons (x : UInt8) (xs : List UInt8) :
    unpackBits (x :: xs) = bitsOfByte x ++ unpackBits xs := rfl

theorem unpackBits_append (xs ys : List UInt8) : unpackBits (xs ++ ys) = unpackBits xs ++ unpackBits ys :=
  List.flatMap_append

theorem length_unpackBits (xs : List UInt8) : (unpackBits xs).length = 8 * xs.length := by
  induction xs with
  | nil => rfl
  | cons x xs ih =>
    rw [unpackBits_cons, List.length_append, ih, List.length_cons, Nat.mul_succ, Nat.add_comm]
    rfl

theorem length_packBits (bs : List Bool) :
    (packBits bs).length = bs.length / 8 + (if bs.length % 8 > 0 then 1 else 0) := by
  fun_induction packBits bs with
  | case1 b7 b6 b5 b4 b3 b2 b1 b0 r ih =>
    simp only [List.length_cons, ih]
    have h1 : (r.length + 1 + 1 + 1 + 1 + 1 + 1 + 1 + 1) / 8 = r.length / 8 + 1 := by omega
    have h2 : (r.length + 1 + 1 + 1 + 1 + 1 + 1 + 1 + 1) % 8 = r.length % 8 := by omega
    simp only [h1, h2]
    omega
  | _ => simp

/-- unpacking what was packed gives the bits back, followed by the padding -/
theorem take_unpackBits_packBits (bs : List Bool) :
    (unpackBits (packBits bs)).take bs.length = bs := by
  fun_induction packBits bs with
  | case1 b7 b6 b5 b4 b3 b2 b1 b0 r ih =>
    rw [unpackBits_cons, bitsOfByte_byteOfBits]
    simpa using ih
  | _ => simp [unpackBits, bitsOfByte_byteOfBits]

end Bytes
