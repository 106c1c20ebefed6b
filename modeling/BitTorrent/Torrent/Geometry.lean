import BitTorrent.Torrent.Identity
import BitTorrent.Peer.Torrent

/-!
# The geometry of an accepted torrent

The number of hashes, the piece length and the lengths of the files are fields of their own in a torrent
file, and nothing compares them.

* `InfoContent.total`           the length of the content, as a plain sum;
* `lastPieceLength_eq_some_iff`   when the length of the last piece is computed without a panic;
* `ConsistentGeometry`          what the rest of the program builds on;
* `consistentGeometry_iff`      the relation between the fields that gives it;
* `lastPieceSize_agrees_iff`    when the remainder is the length of the last piece.
-/

namespace Btt
open Bencode

def InfoContent.total : InfoContent → Nat
  | .single n => n
  | .multi files => (files.map SubFileInfo.length).sum

/-- a checked sum is the sum, and fits -/
theorem of_foldlM_checkedAdd {files : List SubFileInfo} {acc total : Nat}
    (h : files.foldlM (fun acc f => checkedAdd acc f.length) acc = some total) :
    total = acc + (files.map SubFileInfo.length).sum ∧ (acc < 2 ^ 64 → total < 2 ^ 64) := by
  induction files generalizing acc with
  | nil =>
    cases h
    exact ⟨rfl, id⟩
  | cons f fs ih =>
    rw [List.foldlM_cons, Option.bind_eq_bind, Option.bind_eq_some_iff] at h
    obtain ⟨next, hnext, h⟩ := h
    obtain ⟨hlt, rfl⟩ := of_checkedAdd hnext
    obtain ⟨htotal, hbound⟩ := ih h
    rw [List.map_cons, List.sum_cons, ← Nat.add_assoc]
    exact ⟨htotal, fun _ => hbound hlt⟩

/-- the content length is computed exactly if it fits; the length of a single file is not computed -/
theorem InfoContent.length_eq_some_iff {content : InfoContent} (hsingle : ∀ n, content = .single n → n < 2 ^ 64)
    {total : Nat} : content.length = some total ↔ total = content.total ∧ content.total < 2 ^ 64 := by
  cases content with
  | single n =>
    have hn := hsingle n rfl
    show some n = some total ↔ total = n ∧ n < 2 ^ 64
    rw [Option.some.injEq]
    exact ⟨fun h => ⟨h.symm, hn⟩, fun h => h.1.symm⟩
  | multi files =>
    show files.foldlM _ 0 = some total ↔ total = (files.map SubFileInfo.length).sum ∧ _
    constructor
    · intro h
      obtain ⟨htotal, hbound⟩ := of_foldlM_checkedAdd h
      rw [Nat.zero_add] at htotal
      refine ⟨htotal, ?_⟩
      show (files.map SubFileInfo.length).sum < 2 ^ 64
      rw [← htotal]
      exact hbound (by decide)
    · rintro ⟨rfl, hlt⟩
      have hlt : (files.map SubFileInfo.length).sum < 2 ^ 64 := hlt
      rw [foldlM_checkedAdd _ _ (by omega), Nat.zero_add]

/-- the length of the last piece is computed exactly if there is a piece, the content length fits and the
pieces before the last are not longer than the content -/
theorem TorrentInfo.lastPieceLength_eq_some_iff {i : TorrentInfo}
    (hsingle : ∀ n, i.content = .single n → n < 2 ^ 64) {last : Nat} :
    i.lastPieceLength = some last ↔ i.content.total < 2 ^ 64 ∧ 0 < i.pieces.length ∧
      (i.pieces.length - 1) * i.pieceLength + last = i.content.total := by
  unfold TorrentInfo.lastPieceLength
  constructor
  · intro h
    rw [Option.bind_eq_bind, Option.bind_eq_some_iff] at h
    obtain ⟨total, htotal, h⟩ := h
    obtain ⟨full, hfull, h⟩ := Option.bind_eq_some_iff.mp h
    obtain ⟨before, hbefore, hlast⟩ := Option.bind_eq_some_iff.mp h
    obtain ⟨rfl, hlt⟩ := (InfoContent.length_eq_some_iff hsingle).mp htotal
    obtain ⟨hpos, rfl⟩ := of_checkedSub hfull
    obtain rfl := of_checkedMul hbefore
    obtain ⟨hle, rfl⟩ := of_checkedSub hlast
    exact ⟨hlt, hpos, Nat.add_sub_cancel' hle⟩
  · rintro ⟨hlt, hpos, hsum⟩
    have hpos : 1 ≤ i.pieces.length := hpos
    rw [(InfoContent.length_eq_some_iff hsingle).mpr ⟨rfl, hlt⟩, Option.bind_eq_bind, Option.bind_some,
      checkedSub_eq hpos, Option.bind_some, checkedMul_eq (by omega), Option.bind_some, checkedSub_eq (by omega),
      ← hsum, Nat.add_sub_cancel_left]

/-- Both configurations of a metainfo are built, and their pieces tile the content: all have the positive
piece length but the last one, which is shorter or as long, and not empty. -/
def MetaInfo.ConsistentGeometry (sha1 : List UInt8 → ShaHash) (state : TorrentState) (m : MetaInfo) : Prop :=
  ∃ leech seed, TorrentConfig.newLeech sha1 m state = some leech ∧ TorrentConfig.newSeed sha1 m state = some seed ∧
    ∀ config ∈ [leech, seed], config.bitfield.len = m.info.pieces.length ∧ 0 < config.pieceLength ∧
      1 ≤ config.lastPieceLength ∧ config.lastPieceLength ≤ config.pieceLength ∧
      (config.bitfield.len - 1) * config.pieceLength + config.lastPieceLength = m.info.content.total

/-- the fields of the info fit together -/
def TorrentInfo.Fits (i : TorrentInfo) : Prop :=
  0 < i.pieceLength ∧ i.content.total < 2 ^ 64 ∧ (i.pieces.length - 1) * i.pieceLength < i.content.total ∧
    i.content.total ≤ i.pieces.length * i.pieceLength

/-- the last piece is not empty and not too long, seen from the length of all pieces -/
theorem last_between_iff {n pieceLength last total : Nat} (hn : 0 < n)
    (hsum : (n - 1) * pieceLength + last = total) :
    (1 ≤ last ∧ last ≤ pieceLength) ↔ ((n - 1) * pieceLength < total ∧ total ≤ n * pieceLength) := by
  have hmul : n * pieceLength = (n - 1) * pieceLength + pieceLength := by
    rw [← Nat.succ_mul, Nat.succ_eq_add_one, Nat.sub_add_cancel hn]
  omega

/-- **Accepted torrents have consistent geometry** exactly if there are as many hashes as pieces of a positive
length are needed for the content, which is not empty and has a length that fits. -/
theorem MetaInfo.consistentGeometry_iff (B : Bendy) (sha1 : List UInt8 → ShaHash) (state : TorrentState) {data : Bytes}
    {m : MetaInfo} (h : MetaInfo.fromBencode B data = .ok m) : m.ConsistentGeometry sha1 state ↔ m.info.Fits := by
  have hsingle := (MetaInfo.numbers_of_fromBencode h).2
  constructor
  · rintro ⟨leech, seed, hleech, -, hall⟩
    obtain ⟨last, hlast, rfl⟩ := Option.map_eq_some_iff.mp hleech
    obtain ⟨hlt, hpos, hsum⟩ := (TorrentInfo.lastPieceLength_eq_some_iff hsingle).mp hlast
    obtain ⟨-, hpl, hone, hle, -⟩ := hall _ List.mem_cons_self
    exact ⟨hpl, hlt, (last_between_iff hpos hsum).mp ⟨hone, hle⟩⟩
  · rintro ⟨hpl, hlt, hlow, hhigh⟩
    have hpos : 0 < m.info.pieces.length := by
      by_contra h0
      rw [Nat.eq_zero_of_not_pos h0, Nat.zero_mul] at hhigh
      omega
    have hsum : (m.info.pieces.length - 1) * m.info.pieceLength
        + (m.info.content.total - (m.info.pieces.length - 1) * m.info.pieceLength) = m.info.content.total :=
      Nat.add_sub_cancel' (Nat.le_of_lt hlow)
    have hlast := (last_between_iff hpos hsum).mpr ⟨hlow, hhigh⟩
    have hsome := (TorrentInfo.lastPieceLength_eq_some_iff hsingle).mpr ⟨hlt, hpos, hsum⟩
    refine ⟨_, _, by rw [TorrentConfig.newLeech, hsome, Option.map_some],
      by rw [TorrentConfig.newSeed, hsome, Option.map_some], ?_⟩
    have hlen : ∀ b : Bool, (List.replicate m.info.pieces.length b).length = m.info.pieces.length := fun b =>
      List.length_replicate
    intro config hconfig
    rw [List.mem_cons, List.mem_singleton] at hconfig
    rcases hconfig with rfl | rfl
    · refine ⟨hlen false, hpl, hlast.1, hlast.2, ?_⟩
      show ((List.replicate _ false).length - 1) * _ + _ = _
      rw [hlen]
      exact hsum
    · refine ⟨hlen true, hpl, hlast.1, hlast.2, ?_⟩
      show ((List.replicate _ true).length - 1) * _ + _ = _
      rw [hlen]
      exact hsum

theorem MetaInfo.consistentGeometry_file :
    infoOfFile.aloneRead.ConsistentGeometry (fun _ => .replicate 0) .active :=
  (MetaInfo.consistentGeometry_iff bendyOfRead _ _ (TorrentInfo.fromBencode_alone infoOfFile_typed rfl)).mpr
    (by refine ⟨?_, ?_, ?_, ?_⟩ <;> decide)

/-- a file of five bytes without any hash -/
def infoWithoutHashes : TorrentInfo := ⟨[], 16384, .single 5, "a"⟩

/-- it is accepted, and adding it as a torrent panics -/
theorem MetaInfo.no_hashes_panics :
    MetaInfo.fromBencode bendyOfRead infoWithoutHashes.alone = .ok infoWithoutHashes.aloneRead ∧
      TorrentConfig.newLeech (fun _ => .replicate 0) infoWithoutHashes.aloneRead .active = none ∧
      ¬ infoWithoutHashes.aloneRead.ConsistentGeometry (fun _ => .replicate 0) .active := by
  have hnone : TorrentConfig.newLeech (fun _ => .replicate 0) infoWithoutHashes.aloneRead .active = none := rfl
  refine ⟨TorrentInfo.fromBencode_alone ?_ rfl, hnone, ?_⟩
  · exact ⟨by decide, by show 5 < 2 ^ 64; decide⟩
  · rintro ⟨leech, seed, hleech, -⟩
    rw [hnone] at hleech
    cases hleech

/-! ## the size of the last piece, by subtraction and by remainder -/

/-- the pieces before the last leave something of the content for it, and all pieces together are enough -/
theorem ceil_between {n total count : Nat} (hn : 0 < n) (htotal : 0 < total) (hcount : count = (total + n - 1) / n) :
    0 < count ∧ (count - 1) * n < total ∧ total ≤ count * n := by
  have hlow : count * n ≤ total + n - 1 := by
    rw [hcount]
    exact Nat.div_mul_le_self _ _
  have hhigh : total + n - 1 < count * n + n := by
    rw [hcount]
    exact Nat.lt_div_mul_add hn
  have hpos : 0 < count := by
    rw [hcount]
    exact Nat.div_pos (by omega) hn
  have hmul : count * n = (count - 1) * n + n := by
    rw [← Nat.succ_mul, Nat.succ_eq_add_one, Nat.sub_add_cancel hpos]
  exact ⟨hpos, by omega, by omega⟩

/-- `last_piece_size` and `last_piece_length` return the same number, which is the size of a piece -/
def TorrentInfo.LastPieceAgrees (i : TorrentInfo) : Prop :=
  ∃ size, i.lastPieceSize = some size ∧ i.lastPieceLength = some size ∧ 1 ≤ size ∧ size ≤ i.pieceLength

/-- With as many hashes as the content has pieces, the subtraction gives a length between one byte and a
piece; the remainder is the same number if that length is not a whole piece. -/
theorem TorrentInfo.lastPiece_of_count {i : TorrentInfo} {total : Nat} (hlength : i.content.length = some total)
    (hu64 : total < 2 ^ 64) (hpl : 0 < i.pieceLength) (htotal : 0 < total)
    (hcount : i.pieces.length = (total + i.pieceLength - 1) / i.pieceLength) :
    ∃ last, i.lastPieceLength = some last ∧ 1 ≤ last ∧ last ≤ i.pieceLength ∧
      i.lastPieceSize = some (last % i.pieceLength) ∧ total % i.pieceLength = last % i.pieceLength := by
  obtain ⟨hpos, hlow, hhigh⟩ := ceil_between hpl htotal hcount
  have hsum : (i.pieces.length - 1) * i.pieceLength + (total - (i.pieces.length - 1) * i.pieceLength) = total :=
    Nat.add_sub_cancel' (Nat.le_of_lt hlow)
  have hbetween := (last_between_iff hpos hsum).mpr ⟨hlow, hhigh⟩
  have hsub : i.lastPieceLength = some (total - (i.pieces.length - 1) * i.pieceLength) := by
    rw [TorrentInfo.lastPieceLength, hlength, Option.bind_eq_bind, Option.bind_some, checkedSub_eq hpos,
      Option.bind_some, checkedMul_eq (Nat.lt_trans hlow hu64), Option.bind_some, checkedSub_eq (Nat.le_of_lt hlow)]
  have hrem : total % i.pieceLength = (total - (i.pieces.length - 1) * i.pieceLength) % i.pieceLength := by
    conv => lhs; rw [← hsum]
    exact Nat.mul_add_mod' _ _ _
  refine ⟨_, hsub, hbetween.1, hbetween.2, ?_, hrem⟩
  rw [TorrentInfo.lastPieceSize, hlength, Option.bind_eq_bind, Option.bind_some, checkedRem_eq hpl, hrem]

/-- **The two sizes of the last piece agree** exactly if the content is not a whole number of pieces; at the
border the remainder is zero and the last piece a whole one. -/
theorem TorrentInfo.lastPieceSize_agrees_iff {i : TorrentInfo} {total : Nat}
    (hlength : i.content.length = some total) (hu64 : total < 2 ^ 64) (hpl : 0 < i.pieceLength) (htotal : 0 < total)
    (hcount : i.pieces.length = (total + i.pieceLength - 1) / i.pieceLength) :
    i.LastPieceAgrees ↔ ¬ i.pieceLength ∣ total := by
  obtain ⟨last, hsub, hone, hle, hsize, hrem⟩ := TorrentInfo.lastPiece_of_count hlength hu64 hpl htotal hcount
  rw [Nat.dvd_iff_mod_eq_zero, hrem]
  constructor
  · rintro ⟨size, hsize', hsub', hpos, -⟩
    cases hsub.symm.trans hsub'
    have hmod := Option.some.inj (hsize.symm.trans hsize')
    rw [hmod]
    exact Nat.ne_of_gt hpos
  · intro hne
    have hlt : last < i.pieceLength := by
      rcases Nat.lt_or_eq_of_le hle with hlt | heq
      · exact hlt
      · rw [heq, Nat.mod_self] at hne
        exact absurd rfl hne
    rw [Nat.mod_eq_of_lt hlt] at hsize
    exact ⟨last, hsize, hsub, hone, hle⟩

/-- a file of `length` bytes in pieces of 16384 bytes, with `count` hashes -/
def infoOfLength (length count : Nat) : TorrentInfo :=
  ⟨List.replicate count (.replicate 0), 16384, .single length, "a"⟩

theorem TorrentInfo.lastPieceSize_agrees_short : (infoOfLength 20000 2).LastPieceAgrees :=
  (TorrentInfo.lastPieceSize_agrees_iff rfl (by decide) (by decide) (by decide) (by decide)).mpr (by decide)

/-- a file of exactly one piece, with its one hash: the length of the last piece is 16384, its size 0 -/
theorem TorrentInfo.lastPieceSize_whole :
    (infoOfLength 16384 1).content.length = some 16384 ∧
      (infoOfLength 16384 1).pieces.length = (16384 + 16384 - 1) / 16384 ∧
      (infoOfLength 16384 1).lastPieceLength = some 16384 ∧ (infoOfLength 16384 1).lastPieceSize = some 0 ∧
      ¬ (infoOfLength 16384 1).LastPieceAgrees := by
  refine ⟨rfl, rfl, rfl, rfl, ?_⟩
  rintro ⟨size, hsize, -, hone, -⟩
  cases hsize
  cases hone

end Btt
