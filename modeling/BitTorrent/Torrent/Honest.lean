import BitTorrent.Torrent.Builder
import BitTorrent.Peer.Torrent
import BitTorrent.Peer.Reassembly
import BitTorrent.Disk.File

/-!
# An honest download verifies

Four places compute the geometry of the pieces: the builder's hashing across file borders, the length of
the last piece, the handler's length per index and the tiling of a piece.  Here they meet.

* `lastPieceLength_built`   for built metainfos the last piece is what the full ones leave;
* `length_chunk_built`      the handler's length of a piece is the length of the hashed chunk;
* `honest_download_verifies`   if every accepted answer carries the bytes of the content, every finished
                            piece passes the check against its hash.
-/

namespace Btt
open Run Chunks TorrentPieceHandler

/-! ## the metainfo -/

/-- a metainfo of the content: its hashes are those of the chunks, its files have the content's length -/
structure Describes (sha1 : List UInt8 → ShaHash) (M : MetaInfo) (bytes : List UInt8) : Prop where
  pieces : M.info.pieces = (chunks M.info.pieceLength bytes).map sha1
  length : M.info.content.length = some bytes.length

theorem describes_of_build {sha1 : List UInt8 → ShaHash} {bencode : TorrentInfo → Except String (List UInt8)}
    {computed : Except String Nat} {b : TorrentBuilder} {M : MetaInfo}
    (h : b.build sha1 bencode computed = some (.ok M)) (hfiles : ∀ f ∈ b.contentRoot.files, f.Faithful)
    (hn : 0 < M.info.pieceLength) (hlen : b.contentRoot.bytes.length < 2 ^ 64) :
    Describes sha1 M b.contentRoot.bytes := by
  obtain ⟨pieces, hread, hpieces, -⟩ := build_info h
  obtain ⟨content, hread', hcl⟩ := readContent_eq hn b.contentRoot hfiles
  rw [hread] at hread'
  cases hread'
  refine ⟨?_, hcl hlen⟩
  rw [hpieces, List.map_map]
  rfl

section
variable {sha1 : List UInt8 → ShaHash} {M : MetaInfo} {bytes : List UInt8}

/-- the number of pieces: all but the last are full, the last is not empty -/
theorem pieces_bounds (hM : Describes sha1 M bytes) (hn : 0 < M.info.pieceLength) (hne : bytes ≠ []) :
    0 < M.info.pieces.length ∧ (M.info.pieces.length - 1) * M.info.pieceLength < bytes.length ∧
      bytes.length ≤ (M.info.pieces.length - 1) * M.info.pieceLength + M.info.pieceLength := by
  have hpos : 0 < bytes.length := List.length_pos_iff.mpr hne
  have hdiv := Nat.div_add_mod bytes.length M.info.pieceLength
  have hmod := Nat.mod_lt bytes.length hn
  have hlen : M.info.pieces.length
      = bytes.length / M.info.pieceLength + if bytes.length % M.info.pieceLength = 0 then 0 else 1 := by
    rw [hM.pieces, List.length_map, length_chunks]
  rw [Nat.mul_comm] at hdiv
  by_cases h0 : bytes.length % M.info.pieceLength = 0
  · rw [if_pos h0, Nat.add_zero] at hlen
    obtain ⟨q, hq⟩ : ∃ q, bytes.length / M.info.pieceLength = q + 1 := by
      refine Nat.exists_eq_succ_of_ne_zero ?_
      intro e
      rw [e, Nat.zero_mul] at hdiv
      omega
    rw [hlen, hq, Nat.add_sub_cancel]
    rw [hq, Nat.succ_mul] at hdiv
    omega
  · rw [if_neg h0] at hlen
    rw [hlen, Nat.add_sub_cancel]
    refine ⟨Nat.succ_pos _, ?_, ?_⟩ <;> omega

theorem lastPieceLength_built (hM : Describes sha1 M bytes) (hn : 0 < M.info.pieceLength) (hne : bytes ≠ [])
    (hlen : bytes.length < 2 ^ 64) :
    M.info.lastPieceLength
      = some (bytes.length - (M.info.pieces.length - 1) * M.info.pieceLength) := by
  obtain ⟨h1, h2, h3⟩ := pieces_bounds hM hn hne
  unfold TorrentInfo.lastPieceLength
  rw [hM.length]
  show (checkedSub M.info.pieces.length 1).bind _ = _
  rw [checkedSub_eq h1]
  show (checkedMul (M.info.pieces.length - 1) M.info.pieceLength).bind _ = _
  rw [checkedMul_eq (by omega)]
  exact checkedSub_eq (by omega)

/-- the handler's length for a piece is the length of the chunk that was hashed -/
theorem length_chunk_built (hM : Describes sha1 M bytes) (hn : 0 < M.info.pieceLength) (hne : bytes ≠ [])
    {i : Nat} (hi : i < M.info.pieces.length) :
    (chunk M.info.pieceLength bytes i).length
      = if i = M.info.pieces.length - 1 then bytes.length - (M.info.pieces.length - 1) * M.info.pieceLength
        else M.info.pieceLength := by
  obtain ⟨h1, h2, h3⟩ := pieces_bounds hM hn hne
  rw [chunk, List.length_take, List.length_drop]
  split
  · rename_i e
    rw [e]
    omega
  · have hle : (i + 1) * M.info.pieceLength ≤ (M.info.pieces.length - 1) * M.info.pieceLength :=
      Nat.mul_le_mul_right _ (by omega)
    rw [Nat.succ_mul] at hle
    omega

end

/-! ## the download -/

/-- every accepted answer of the run carries the bytes of the content -/
def Honest (bytes : List UInt8) (pieceLength : Nat) (h : TorrentPieceHandler) (ops : List HandlerOp) : Prop :=
  ∀ pre peer piece post, ops = pre ++ .addBlock peer piece :: post →
    (exec step h pre).Accepts peer (Block.ofPiece piece) → ∀ k, k < piece.block.length →
      piece.block[k]? = bytes[piece.index.toNat * pieceLength + piece.begin_.toNat + k]?

/-- a finished piece of an honest run is the slice of the content at its place -/
theorem Honest.finished {bytes : List UInt8} {n : Nat} {h0 : TorrentPieceHandler} {ops : List HandlerOp}
    (hh : Honest bytes n h0 ops) (h0none : h0.pieceBuffer = none) (hs : (exec step h0 ops).Solid) {env : PollEnv}
    {block : Block} (hp : ((exec step h0 ops).poll env).1 = .pieceFinished (.ok block)) :
    ∃ i, block.metadata.pieceIndex = i ∧ i < h0.bitfield.len ∧
      block.blockData.length = h0.pieceLengthAt i ∧
      ∀ k, k < h0.pieceLengthAt i → block.blockData[k]? = bytes[i * n + k]? := by
  have hst := exec_static h0 ops
  have hbits : (exec step h0 ops).bitfield.len = h0.bitfield.len := congrArg (·.2.2.2.2) hst
  obtain ⟨b, data, hb, -, hi, e, hlen, hbytes⟩ := hs.finished hp
  rw [pieceLengthAt_of_static hst] at e hlen hbytes
  rw [hbits] at hi
  cases e
  refine ⟨b.pieceIndex, rfl, hi, hlen, ?_⟩
  intro k hk
  obtain ⟨blk, hblk, h1, h2, h3, h4⟩ := hbytes k hk
  obtain ⟨pre, peer, piece, post, hops, hacc, rfl⟩ := delivered h0none ops b hb blk hblk
  have hbegin : piece.begin_.toNat ≤ k := h2
  have hbyte := hh pre peer piece post hops hacc (k - piece.begin_.toNat) (by
    have : k < piece.begin_.toNat + piece.block.length := h3
    omega)
  have hindex : piece.index.toNat = b.pieceIndex := h1
  show data[k]? = _
  rw [h4]
  show piece.block[k - piece.begin_.toNat]? = _
  rw [hbyte, hindex]
  congr 1
  omega

theorem entries_isSome (id : TorrentId) (root : String) (files : List SubFileInfo) (index offset : Nat)
    (h : offset + (files.map SubFileInfo.length).sum < 2 ^ 64) :
    (TorrentFile.entries id root index offset files).isSome = true := by
  induction files generalizing index offset with
  | nil => rfl
  | cons f fs ih =>
    rw [List.map_cons, List.sum_cons] at h
    obtain ⟨rest, hrest⟩ := Option.isSome_iff_exists.mp (ih (index + 1) (offset + f.length) (by omega))
    rw [TorrentFile.entries, checkedAdd_eq (by omega)]
    show ((TorrentFile.entries id root (index + 1) (offset + f.length) fs).bind _).isSome = true
    rw [hrest]
    rfl

theorem sum_of_foldlM {files : List SubFileInfo} {acc total : Nat}
    (h : files.foldlM (fun acc f => checkedAdd acc f.length) acc = some total) :
    acc + (files.map SubFileInfo.length).sum = total := by
  induction files generalizing acc with
  | nil => exact Option.some.inj h
  | cons f fs ih =>
    rw [List.foldlM_cons, Option.bind_eq_bind, Option.bind_eq_some_iff] at h
    obtain ⟨next, hnext, h⟩ := h
    obtain ⟨-, rfl⟩ := of_checkedAdd hnext
    rw [List.map_cons, List.sum_cons, ← Nat.add_assoc]
    exact ih h

theorem torrentFile_new {M : MetaInfo} {total : Nat} (h : M.info.content.length = some total)
    (hlt : total < 2 ^ 64) (id : TorrentId) : ∃ file, TorrentFile.new id M = some file ∧ file.metaInfo = M := by
  unfold TorrentFile.new
  cases hc : M.info.content with
  | single n => exact ⟨_, rfl, rfl⟩
  | multi files =>
    rw [hc] at h
    have hsum := sum_of_foldlM h
    obtain ⟨fs, hfs⟩ := Option.isSome_iff_exists.mp
      (entries_isSome id M.info.name files 0 0 (by rw [hsum]; exact hlt))
    exact ⟨⟨id, M, fs⟩, by simp only [hfs, Option.map_some], rfl⟩

/-- a block with the bytes of the chunk at its index passes the check -/
theorem isGoodPiece_of_chunk {sha1 : List UInt8 → ShaHash} {M : MetaInfo} {bytes : List UInt8}
    (hM : Describes sha1 M bytes) (hn : 0 < M.info.pieceLength) {file : TorrentFile} (hfile : file.metaInfo = M)
    {block : Block} (hi : block.metadata.pieceIndex < M.info.pieces.length)
    (hdata : block.blockData = chunk M.info.pieceLength bytes block.metadata.pieceIndex) :
    file.isGoodPiece sha1 block = true := by
  have hchunk : block.metadata.pieceIndex < (chunks M.info.pieceLength bytes).length := by
    rwa [hM.pieces, List.length_map] at hi
  unfold TorrentFile.isGoodPiece
  rw [hfile, hM.pieces, List.getElem?_map, getElem_chunks hn bytes hchunk, Option.map_some]
  simp only
  rw [hdata]
  exact decide_eq_true rfl

/-- **An honest download verifies.**  For every content, cut into files in any way, and its built
metainfo: the leech configuration exists, and in every run of its handler whose accepted answers carry
the content's bytes, every finished piece is good. -/
theorem honest_download_verifies (sha1 : List UInt8 → ShaHash)
    (bencode : TorrentInfo → Except String (List UInt8)) (computed : Except String Nat) (b : TorrentBuilder)
    (M : MetaInfo) (hbuild : b.build sha1 bencode computed = some (.ok M))
    (hfiles : ∀ f ∈ b.contentRoot.files, f.Faithful) (hn : 0 < M.info.pieceLength)
    (hne : b.contentRoot.bytes ≠ []) (hlen : b.contentRoot.bytes.length < 2 ^ 64) (state : TorrentState) :
    ∃ config, TorrentConfig.newLeech sha1 M state = some config ∧
      ∀ (id : TorrentId) (sel : PieceSelection) (ops : List HandlerOp) (env : PollEnv) (block : Block),
        Honest b.contentRoot.bytes M.info.pieceLength
          (.new id sel config.bitfield config.pieceLength config.lastPieceLength) ops →
        ((exec step (.new id sel config.bitfield config.pieceLength config.lastPieceLength) ops).poll env).1
          = .pieceFinished (.ok block) →
        ∃ file, TorrentFile.new id M = some file ∧ file.isGoodPiece sha1 block = true := by
  have hM := describes_of_build hbuild hfiles hn hlen
  have hlast := lastPieceLength_built hM hn hne hlen
  refine ⟨_, by rw [TorrentConfig.newLeech, hlast, Option.map_some], ?_⟩
  intro id sel ops env block hh hp
  obtain ⟨file, hnew, hfile⟩ := torrentFile_new hM.length hlen id
  refine ⟨file, hnew, ?_⟩
  obtain ⟨i, hi, hlt, hdl, hbytes⟩ := hh.finished rfl (solid_exec _ _ _ _ _ ops) hp
  have hbits : (BitField.newAllClear M.info.pieces.length).len = M.info.pieces.length := List.length_replicate
  have hlt : i < M.info.pieces.length := hbits ▸ hlt
  -- the handler's length for the index is the length of the hashed chunk
  have hpl : (new id sel (.newAllClear M.info.pieces.length) M.info.pieceLength
      (b.contentRoot.bytes.length - (M.info.pieces.length - 1) * M.info.pieceLength)).pieceLengthAt i
      = (chunk M.info.pieceLength b.contentRoot.bytes i).length := by
    rw [length_chunk_built hM hn hne hlt]
    unfold pieceLengthAt
    simp only [new, hbits]
  rw [hpl] at hdl hbytes
  refine isGoodPiece_of_chunk hM hn hfile (hi ▸ hlt) ?_
  rw [hi]
  apply List.ext_getElem?
  intro k
  by_cases hk : k < (chunk M.info.pieceLength b.contentRoot.bytes i).length
  · rw [hbytes k hk, chunk, List.getElem?_take_of_lt, List.getElem?_drop]
    rw [chunk, List.length_take] at hk
    omega
  · rw [List.getElem?_eq_none (by omega), List.getElem?_eq_none (by omega)]

section
-- the SHA-1 of the letters "a" and "b" and of the info dictionary for a file of both
def shaOfA : ShaHash :=
  ⟨⟨[134, 247, 228, 55, 250, 165, 167, 252, 225, 93, 29, 220, 185, 234, 234, 234, 55, 118, 103, 184], rfl⟩⟩

def shaOfB : ShaHash :=
  ⟨⟨[233, 215, 31, 94, 231, 201, 45, 109, 201, 233, 47, 253, 173, 23, 184, 189, 73, 65, 143, 152], rfl⟩⟩

def shaOfInfo : ShaHash :=
  ⟨⟨[88, 19, 137, 127, 32, 157, 157, 38, 26, 232, 146, 138, 50, 129, 37, 34, 191, 28, 194, 109], rfl⟩⟩

def infoBytes : List UInt8 :=
  [100, 54, 58, 108, 101, 110, 103, 116, 104, 105, 50, 101, 52, 58, 110, 97, 109, 101, 50, 58, 97, 98, 49, 50, 58,
    112, 105, 101, 99, 101, 32, 108, 101, 110, 103, 116, 104, 105, 49, 101, 54, 58, 112, 105, 101, 99, 101, 115,
    52, 48, 58] ++ shaOfA.asRef ++ shaOfB.asRef ++ [101]

def sha1OfExample (data : List UInt8) : ShaHash :=
  if data = [97] then shaOfA else if data = [98] then shaOfB else shaOfInfo

/-- a builder for a file `ab` of two letters, each a piece; a list of files could not be written -/
def lettersBuilder : TorrentBuilder where
  announce := none
  announceList := none
  webseeds := none
  httpseeds := none
  name := none
  encoding := none
  comment := none
  createdBy := none
  creationDate := none
  contentRoot := .file ⟨"ab", .ok [], 2, [97, 98]⟩
  fileName := some "ab"
  pieceLength := some 1
  nodes := none

def lettersInfo : MetaInfo where
  announce := none
  announceList := []
  encoding := none
  comment := none
  createdBy := none
  creationDate := none
  httpseeds := []
  webseeds := []
  info := ⟨[shaOfA, shaOfB], 1, .single 2, "ab"⟩
  nodes := []
  infoHash := ⟨infoBytes⟩

/-- the letters are asked for and delivered, one behind the other -/
def lettersRun : List HandlerOp :=
  seeding ⟨[]⟩ ⟨[true, true]⟩ ++
    [.poll ⟨.same, .same⟩, .addBlock ⟨[]⟩ ⟨0, 0, [97]⟩, .poll ⟨.same, .same⟩, .poll ⟨.same, .same⟩,
      .addBlock ⟨[]⟩ ⟨1, 0, [98]⟩]

theorem honest_download_verifies_letters :
    ∃ file, TorrentFile.new ⟨0⟩ lettersInfo = some file ∧
      file.isGoodPiece sha1OfExample ⟨⟨0, 0, 1⟩, [97]⟩ = true ∧
      file.isGoodPiece sha1OfExample ⟨⟨1, 0, 1⟩, [98]⟩ = true := by
  have hbuild : lettersBuilder.build sha1OfExample (fun _ => .ok infoBytes) (.ok 1) = some (.ok lettersInfo) := rfl
  obtain ⟨config, hconfig, h⟩ := honest_download_verifies sha1OfExample (fun _ => .ok infoBytes) (.ok 1)
    lettersBuilder lettersInfo hbuild (fun f hf => by rw [List.mem_singleton.mp hf]; exact ⟨rfl, rfl⟩)
    (by decide) (by decide) (by decide) .active
  cases hconfig
  have hhonest : ∀ run, run <+: lettersRun → ∀ h, Honest [97, 98] 1 h run := by
    rintro run ⟨rest, hrun⟩ h pre peer piece post hops - k hk
    have hmem : HandlerOp.addBlock peer piece ∈ lettersRun := by
      rw [← hrun, hops]
      simp
    have hpiece : piece = ⟨0, 0, [97]⟩ ∨ piece = ⟨1, 0, [98]⟩ := by
      simp only [lettersRun, seeding, List.cons_append, List.nil_append, List.mem_cons, reduceCtorEq, false_or,
        List.not_mem_nil, or_false, HandlerOp.addBlock.injEq] at hmem
      exact hmem.imp And.right And.right
    rcases hpiece with rfl | rfl <;> (rw [Nat.lt_one_iff.mp hk]; rfl)
  obtain ⟨file, hfile, hgoodA⟩ := h ⟨0⟩ .random (lettersRun.take 6) ⟨.same, .same⟩ ⟨⟨0, 0, 1⟩, [97]⟩
    (hhonest _ (List.take_prefix 6 _) _) rfl
  obtain ⟨file', hfile', hgoodB⟩ := h ⟨0⟩ .random lettersRun ⟨.same, .same⟩ ⟨⟨1, 0, 1⟩, [98]⟩
    (hhonest _ (List.prefix_refl _) _) rfl
  cases hfile.symm.trans hfile'
  exact ⟨file, hfile, hgoodA, hgoodB⟩

end

end Btt
