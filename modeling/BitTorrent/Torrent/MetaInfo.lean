import BitTorrent.Util
import BitTorrent.BitField

/-!
# Metainfo

The contents of a torrent file (`src/torrent/mod.rs`).  Here and in all modules `u64` and `usize` arithmetic that an
input can drive out of range is checked, as in a debug build: `none` is the panic of an overflow or underflow.  A build
without these checks goes on with the wrapped value, which is left out, but for `TorrentFile.filesForBlockWrapping`.  Of
the counters of ids, that of torrents has no end and that of substreams wraps.
-/

namespace Btt

/-- `a + b`, `a - b` and `a * b` in `u64` -/
def checkedAdd (a b : Nat) : Option Nat := if a + b < 2 ^ 64 then some (a + b) else none
def checkedSub (a b : Nat) : Option Nat := if b ≤ a then some (a - b) else none
def checkedMul (a b : Nat) : Option Nat := if a * b < 2 ^ 64 then some (a * b) else none
/-- `a % b` in `u64`; a remainder by zero panics -/
def checkedRem (a b : Nat) : Option Nat := if b = 0 then none else some (a % b)

theorem checkedAdd_eq {a b : Nat} (h : a + b < 2 ^ 64) : checkedAdd a b = some (a + b) := if_pos h
theorem checkedSub_eq {a b : Nat} (h : b ≤ a) : checkedSub a b = some (a - b) := if_pos h
theorem checkedMul_eq {a b : Nat} (h : a * b < 2 ^ 64) : checkedMul a b = some (a * b) := if_pos h
theorem checkedRem_eq {a b : Nat} (h : 0 < b) : checkedRem a b = some (a % b) := if_neg (Nat.ne_of_gt h)

theorem of_checkedAdd {a b c : Nat} (h : checkedAdd a b = some c) : a + b < 2 ^ 64 ∧ c = a + b := by
  unfold checkedAdd at h
  split at h
  · rename_i hlt
    cases h
    exact ⟨hlt, rfl⟩
  · cases h

theorem of_checkedSub {a b c : Nat} (h : checkedSub a b = some c) : b ≤ a ∧ c = a - b := by
  unfold checkedSub at h
  split at h
  · rename_i hle
    cases h
    exact ⟨hle, rfl⟩
  · cases h

theorem of_checkedMul {a b c : Nat} (h : checkedMul a b = some c) : c = a * b := by
  unfold checkedMul at h
  split at h
  · cases h
    rfl
  · cases h

structure SubFileInfo where
  length : Nat
  paths : List String
deriving DecidableEq

inductive InfoContent where
  | single (length : Nat)
  | multi (files : List SubFileInfo)
deriving DecidableEq

/-- the overall length of the content, a checked sum for several files -/
def InfoContent.length : InfoContent → Option Nat
  | .single n => some n
  | .multi files => files.foldlM (fun acc f => checkedAdd acc f.length) 0

structure TorrentInfo where
  pieces : List ShaHash
  pieceLength : Nat
  content : InfoContent
  name : String
deriving DecidableEq

/-- `content.length() - (pieces.len() - 1) * piece_length` -/
def TorrentInfo.lastPieceLength (i : TorrentInfo) : Option Nat := do
  let length ← i.content.length
  let full ← checkedSub i.pieces.length 1
  let before ← checkedMul full i.pieceLength
  checkedSub length before

/-- `(content.length() % piece_length) as usize`; a `usize` has 64 bits, so the cast keeps the value -/
def TorrentInfo.lastPieceSize (i : TorrentInfo) : Option Nat := do
  let length ← i.content.length
  checkedRem length i.pieceLength

structure DhtNode where
  host : String
  port : Nat
deriving DecidableEq

structure MetaInfo where
  announce : Option String
  announceList : List String
  encoding : Option String
  comment : Option String
  createdBy : Option String
  creationDate : Option Int
  httpseeds : List String
  webseeds : List String
  info : TorrentInfo
  nodes : List DhtNode
  infoHash : Sha1
deriving DecidableEq

theorem foldlM_checkedAdd (files : List SubFileInfo) (acc : Nat)
    (h : acc + (files.map SubFileInfo.length).sum < 2 ^ 64) :
    files.foldlM (fun acc f => checkedAdd acc f.length) acc
      = some (acc + (files.map SubFileInfo.length).sum) := by
  induction files generalizing acc with
  | nil => simp
  | cons f fs ih =>
    simp only [List.map_cons, List.sum_cons] at h
    rw [List.foldlM_cons, checkedAdd_eq (by omega)]
    show List.foldlM _ (acc + f.length) fs = _
    rw [ih _ (by omega), List.map_cons, List.sum_cons, Nat.add_assoc]

end Btt
