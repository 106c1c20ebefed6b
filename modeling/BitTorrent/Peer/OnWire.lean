import BitTorrent.Proto.Wire
import BitTorrent.Peer.Reassembly
import BitTorrent.Peer.Selection
import BitTorrent.Torrent.Geometry

/-!
# Requested blocks on the wire

Piece index, offset and length of a block are `u64` and `usize` inside and `u32` on the wire, and the
conversions cast.

* `BlockMetadata.SurvivesWire`   the request that is read, and the block that is answered, have the
                          metadata that was meant; `survivesWire_iff` says which metadata do;
* `poll_requests`         what a poll asks for is a block of a piece of the torrent, and it is outstanding;
* `exists_request`        every piece that is not empty is asked for in some run, its last block first;
* `requests_survive_iff`  the torrents for which all requests survive.
-/

namespace Btt
open Run Bencode PieceBuffer

theorem toNat_ofNat_iff (n : Nat) : (UInt32.ofNat n).toNat = n ↔ n < 2 ^ 32 := by
  rw [UInt32.toNat_ofNat']
  constructor
  · intro h
    rw [← h]
    exact Nat.mod_lt _ (by decide)
  · exact Nat.mod_eq_of_lt

namespace BlockMetadata

/-- what the remote reads of the request is the block, and so is what its answer is taken for -/
structure SurvivesWire (c : PeerWireCodec) (m : BlockMetadata) : Prop where
  request : ∀ rest, ∃ r, c.decode (c.encode (.request m.toRequest) [] ++ rest) = some (.got (.request r) rest) ∧
    ofRequest r = m
  answer : ∀ data, data.length = m.blockLength → (Block.ofPiece (Block.toPiece ⟨m, data⟩)).metadata = m

theorem ofRequest_toRequest_iff (m : BlockMetadata) :
    ofRequest m.toRequest = m ↔ m.pieceIndex < 2 ^ 32 ∧ m.blockOffset < 2 ^ 32 ∧ m.blockLength < 2 ^ 32 := by
  rw [← toNat_ofNat_iff, ← toNat_ofNat_iff, ← toNat_ofNat_iff]
  obtain ⟨i, o, l⟩ := m
  exact BlockMetadata.mk.injEq .. |>.to_iff

theorem survivesWire_iff (c : PeerWireCodec) (m : BlockMetadata) :
    m.SurvivesWire c ↔ m.pieceIndex < 2 ^ 32 ∧ m.blockOffset < 2 ^ 32 ∧ m.blockLength < 2 ^ 32 := by
  have hread : ∀ rest, c.decode (c.encode (.request m.toRequest) [] ++ rest)
      = some (.got (.request m.toRequest) rest) := fun rest =>
    decode_asBytes c (.request m.toRequest) rest rfl rfl
  constructor
  · intro h
    obtain ⟨r, hr, hm⟩ := h.request []
    rw [hread] at hr
    cases hr
    exact (ofRequest_toRequest_iff m).mp hm
  · intro h
    refine ⟨fun rest => ⟨_, hread rest, (ofRequest_toRequest_iff m).mpr h⟩, ?_⟩
    intro data hdata
    obtain ⟨i, o, l⟩ := m
    show (⟨(UInt32.ofNat i).toNat, (UInt32.ofNat o).toNat, data.length⟩ : BlockMetadata) = ⟨i, o, l⟩
    rw [(toNat_ofNat_iff i).mpr h.1, (toNat_ofNat_iff o).mpr h.2.1, hdata]

end BlockMetadata

/-! ## what is asked for -/

namespace TorrentPieceHandler

/-- a poll asks for a block of a piece of the torrent, and waits for it -/
theorem poll_requests {h : TorrentPieceHandler} (hs : h.Solid) {env : PollEnv} {nb : NextBlock}
    (hp : (h.poll env).1 = .leechBlock (some nb)) :
    nb.blockMetadata.pieceIndex < h.bitfield.len ∧
    nb.blockMetadata ∈ blocksOf nb.blockMetadata.pieceIndex (h.pieceLengthAt nb.blockMetadata.pieceIndex) ∧
    ∃ b, (h.poll env).2.pieceBuffer = some b ∧ b.pendingBlocks.lookup nb.peerId = some nb.blockMetadata := by
  have hnext : ∀ b : PieceBuffer, b.Sound → b.pieceLength = h.pieceLengthAt b.pieceIndex →
      b.pieceIndex < h.bitfield.len → b.next.1 = some nb → nb.blockMetadata.pieceIndex < h.bitfield.len ∧
      nb.blockMetadata ∈ blocksOf nb.blockMetadata.pieceIndex (h.pieceLengthAt nb.blockMetadata.pieceIndex) ∧
      b.next.2.pendingBlocks.lookup nb.peerId = some nb.blockMetadata := by
    intro b hsound hlen hlt hnb
    rcases b.next_cases with ⟨peers, peer, missing, block, -, hmissing, e⟩ | e <;> rw [e] at hnb ⊢
    · cases hnb
      have hmem : block ∈ blocksOf b.pieceIndex b.pieceLength := hsound.missing block (by
        rw [hmissing]
        simp)
      have hindex : block.pieceIndex = b.pieceIndex := pieceIndex_of_mem hmem
      rw [hlen] at hmem
      rw [hindex]
      exact ⟨hlt, hmem, AList.lookup_insert _⟩
    · cases hnb
  rcases h.poll_cases env with ⟨_, _, -, -, -, e⟩ | ⟨_, _, -, -, -, e⟩ | ⟨b, hb, -, e⟩ | ⟨b, -, hn, e⟩ |
    ⟨-, st, hst, e⟩ | ⟨-, e⟩ <;> rw [e] at hp ⊢
  · cases hp
  · cases hp
  · obtain ⟨hsound, hlen, -, hlt⟩ := hs b hb
    obtain ⟨h1, h2, h3⟩ := hnext b hsound hlen hlt (HandlerState.leechBlock.inj hp)
    exact ⟨h1, h2, _, rfl, h3⟩
  · obtain ⟨i, peers, hi, -, rfl⟩ := nextPieceBuffer_spec hn
    obtain ⟨h1, h2, h3⟩ := hnext _ (new_sound _ _ _ _) rfl (List.getElem?_eq_some_iff.mp hi).1
      (HandlerState.leechBlock.inj hp)
    exact ⟨h1, h2, _, rfl, h3⟩
  · rcases hst with rfl | rfl <;> cases hp
  · cases hp

/-- an outstanding block that survives the wire is accepted when it is answered -/
theorem addBlock_answer {c : PeerWireCodec} {h : TorrentPieceHandler} {b : PieceBuffer} {peer : PeerId}
    {m : BlockMetadata} (hb : h.pieceBuffer = some b) (hpending : b.pendingBlocks.lookup peer = some m)
    (hm : m.SurvivesWire c) {data : List UInt8} (hdata : data.length = m.blockLength) :
    (h.addBlock peer (Block.ofPiece (Block.toPiece ⟨m, data⟩))).1 = .ok m := by
  have hmeta := hm.answer data hdata
  unfold addBlock PieceBuffer.addBlock
  rw [hb]
  simp only [hpending, if_pos hmeta]

/-! ## every piece is asked for -/

theorem next_of_ne_nil {b : PieceBuffer} (hp : b.peers ≠ []) (hm : b.missingBlocks ≠ []) :
    ∃ nb, b.next.1 = some nb ∧ ∃ missing, b.missingBlocks = missing ++ [nb.blockMetadata] := by
  unfold PieceBuffer.next
  rw [List.getLast?_eq_some_getLast hp, List.getLast?_eq_some_getLast hm]
  exact ⟨_, rfl, _, (List.dropLast_append_getLast hm).symm⟩

section
variable (id : TorrentId) (sel : PieceSelection) (n len last i : Nat)

/-- a new handler to which one peer, with this piece only, has connected -/
def withSeeder : TorrentPieceHandler :=
  exec step (new id sel (.newAllClear n) len last) (seeding ⟨[7]⟩ ((BitField.newAllClear n).set i true))

/-- the record of that peer -/
def seeder : BitTorrentPeer :=
  { BitTorrentPeer.new (.replicate 0) 0 with
    bitfield := some ((BitField.newAllClear n).set i true), clientInterest := .interested, remoteChoke := .unChoked }

theorem withSeeder_entries : (withSeeder id sel n len last i).peers.entries = [⟨⟨[7]⟩, seeder n i⟩] := rfl

theorem withSeeder_static :
    (withSeeder id sel n len last i).pieceBuffer = none ∧
    (withSeeder id sel n len last i).bitfield = .newAllClear n ∧
    (withSeeder id sel n len last i).finished = (BitField.newAllClear n).all := ⟨rfl, rfl, rfl⟩

variable {n i}

theorem get_newAllClear {n j : Nat} (hj : j < n) : (BitField.newAllClear n).get j = some false :=
  List.getElem?_replicate_of_lt hj

/-- everybody can seed the piece, and no other -/
theorem withSeeder_everyCanSeed (hi : i < n) (j : Nat) :
    (withSeeder id sel n len last i).EveryCanSeed j ↔ j = i := by
  have hlen : (BitField.newAllClear n).len = n := List.length_replicate
  have hcan : (seeder n i).remoteCanSeedPiece j = true ↔ j = i := by
    rw [BitTorrentPeer.remoteCanSeedPiece_iff]
    constructor
    · rintro ⟨-, -, f, hf, hget⟩
      cases hf
      by_contra hne
      rw [BitField.get_set, if_neg (fun e => hne e.symm)] at hget
      have hclear := List.mem_replicate.mp (List.mem_of_getElem? hget)
      exact absurd hclear.2 (by decide)
    · rintro rfl
      exact ⟨rfl, rfl, _, rfl, by rw [BitField.get_set, if_pos rfl, hlen, if_pos hi]⟩
  rw [everyCanSeed_iff, ← hcan]
  show (∀ p ∈ [seeder n i], p.remoteCanSeedPiece j = true) ↔ _
  exact List.forall_mem_singleton

/-- the piece is selected, and the peer is asked for it -/
theorem withSeeder_selects (hi : i < n) :
    ∃ peers, (withSeeder id sel n len last i).nextPieceBuffer ⟨.same, .same⟩
        = some ((withSeeder id sel n len last i).bufferFor i peers) ∧ peers ≠ [] := by
  obtain ⟨hbuffer, hbits, -⟩ := withSeeder_static id sel n len last i
  have hseeder : (⟨[7]⟩ : PeerId) ∈ (withSeeder id sel n len last i).peers :=
    AList.mem_of_lookup (AList.mem_entries.mp (by rw [withSeeder_entries]; exact List.mem_singleton_self _))
  have hmissing : i ∈ (withSeeder id sel n len last i).missingPieceIndices := by
    rw [mem_missingPieceIndices_iff hbuffer, hbits]
    exact get_newAllClear hi
  have hsome : ((withSeeder id sel n len last i).nextPieceBuffer ⟨.same, .same⟩).isSome = true :=
    nextPieceBuffer_isSome_iff.mpr
      ⟨fun he => (AList.eq_empty_iff.mp he _ hseeder).elim, i, hmissing,
        (withSeeder_everyCanSeed id sel len last hi i).mpr rfl⟩
  obtain ⟨b, hb⟩ := Option.isSome_iff_exists.mp hsome
  obtain ⟨hevery, hmem⟩ := nextPieceBuffer_candidates hb
  obtain ⟨j, peers, -, -, rfl⟩ := nextPieceBuffer_spec hb
  obtain rfl : j = i := (withSeeder_everyCanSeed id sel len last hi j).mp hevery
  exact ⟨peers, hb, List.ne_nil_of_mem ((hmem ⟨[7]⟩).mpr hseeder)⟩

/-- the last of the blocks of a piece ends where the piece does -/
theorem blocksOf_last {i len : Nat} {missing : List BlockMetadata} {m : BlockMetadata}
    (h : blocksOf i len = missing ++ [m]) : m.blockOffset + m.blockLength = len := by
  have hcontig := blocksOf_contig i len
  rw [h, List.map_append, Tiling.contig_append] at hcontig
  obtain ⟨start, -, hstart, hend⟩ := hcontig
  have hstart : m.blockOffset = start := hstart
  rw [hstart]
  exact hend

/-- **Every piece that is not empty is asked for** in some run, its last block first. -/
theorem exists_request (hi : i < n) (hpos : 0 < (withSeeder id sel n len last i).pieceLengthAt i) :
    ∃ nb, ((withSeeder id sel n len last i).poll ⟨.same, .same⟩).1 = .leechBlock (some nb) ∧
      nb.blockMetadata ∈ blocksOf i ((withSeeder id sel n len last i).pieceLengthAt i) ∧
      nb.blockMetadata.blockOffset + nb.blockMetadata.blockLength
        = (withSeeder id sel n len last i).pieceLengthAt i := by
  obtain ⟨hbuffer, hbits, hfinished⟩ := withSeeder_static id sel n len last i
  have hall : (BitField.newAllClear n).all = false :=
    List.all_eq_false.mpr ⟨false, List.mem_of_getElem? (get_newAllClear hi), by decide⟩
  obtain ⟨peers, hb, hne⟩ := withSeeder_selects id sel len last hi
  have hblocks : blocksOf i ((withSeeder id sel n len last i).pieceLengthAt i) ≠ [] := by
    intro he
    have hcontig := blocksOf_contig i ((withSeeder id sel n len last i).pieceLengthAt i)
    rw [he] at hcontig
    exact absurd hcontig.symm (Nat.pos_iff_ne_zero.mp hpos)
  obtain ⟨nb, hnb, missing, hlast⟩ := next_of_ne_nil
    (b := (withSeeder id sel n len last i).bufferFor i peers) hne hblocks
  have hlast : blocksOf i ((withSeeder id sel n len last i).pieceLengthAt i) = missing ++ [nb.blockMetadata] := hlast
  refine ⟨nb, ?_, ?_, blocksOf_last hlast⟩
  · unfold poll
    simp only [hbuffer, hfinished, hbits, hall, hb, hnb, Bool.false_eq_true, if_false]
  · rw [hlast]
    exact List.mem_append_right _ (List.mem_singleton_self _)

end

end TorrentPieceHandler

/-! ## torrents whose requests survive -/

/-- the handler `add_torrent` makes for the configuration -/
def TorrentConfig.pieceHandler (config : TorrentConfig) (id : TorrentId) (sel : PieceSelection) :
    TorrentPieceHandler := .new id sel config.bitfield config.pieceLength config.lastPieceLength

/-- In every run of the handler, the metadata of every block that is asked for survives the wire; the
request is outstanding then, and as long as it is, a block of the right length is accepted as its answer. -/
def TorrentPieceHandler.RequestsSurvive (c : PeerWireCodec) (h : TorrentPieceHandler) : Prop :=
  ∀ ops env nb, ((exec step h ops).poll env).1 = .leechBlock (some nb) →
    nb.blockMetadata.SurvivesWire c ∧
    (∃ b, ((exec step h ops).poll env).2.pieceBuffer = some b ∧
      b.pendingBlocks.lookup nb.peerId = some nb.blockMetadata) ∧
    ∀ later b data, (exec step ((exec step h ops).poll env).2 later).pieceBuffer = some b →
      b.pendingBlocks.lookup nb.peerId = some nb.blockMetadata → data.length = nb.blockMetadata.blockLength →
      ((exec step ((exec step h ops).poll env).2 later).addBlock nb.peerId
        (Block.ofPiece (Block.toPiece ⟨nb.blockMetadata, data⟩))).1 = .ok nb.blockMetadata

/-- every piece that is not empty has an index below 2^32 and is at most 2^32 bytes long -/
def TorrentConfig.FitsWire (config : TorrentConfig) : Prop :=
  ∀ i < config.bitfield.len,
    0 < (if i = config.bitfield.len - 1 then config.lastPieceLength else config.pieceLength) →
      i < 2 ^ 32 ∧ (if i = config.bitfield.len - 1 then config.lastPieceLength else config.pieceLength) ≤ 2 ^ 32

section
variable (c : PeerWireCodec)

/-- a block of a piece that fits survives, whatever its place -/
theorem survivesWire_of_mem {i len : Nat} {m : BlockMetadata} (hm : m ∈ blocksOf i len) (hi : i < 2 ^ 32)
    (hlen : len ≤ 2 ^ 32) : m.SurvivesWire c := by
  have hindex := pieceIndex_of_mem hm
  have hpos := blockLength_pos hm
  have hle : m.blockLength ≤ 16384 := blockLength_le hm
  have hplace : m.blockOffset + m.blockLength ≤ len :=
    ((blocksOf_contig i len).le_of_mem (List.mem_map_of_mem hm)).2
  rw [BlockMetadata.survivesWire_iff]
  exact ⟨by omega, by omega, by omega⟩

/-- the last block of a piece survives only if the piece fits -/
theorem fits_of_survivesWire {i len : Nat} {m : BlockMetadata} (hm : m ∈ blocksOf i len)
    (hend : m.blockOffset + m.blockLength = len) (h : m.SurvivesWire c) : i < 2 ^ 32 ∧ len ≤ 2 ^ 32 := by
  obtain ⟨hindex, hoffset, -⟩ := (BlockMetadata.survivesWire_iff c m).mp h
  rw [pieceIndex_of_mem hm] at hindex
  have hle : m.blockLength ≤ 16384 := blockLength_le hm
  obtain ⟨k, hk⟩ : 16384 ∣ m.blockOffset := blockSize_dvd_blockOffset hm
  exact ⟨hindex, by omega⟩

end

open TorrentPieceHandler in
/-- **Requested blocks survive the wire conversion** exactly if every piece that is not empty has an index
below 2^32 and at most 2^32 bytes. -/
theorem requests_survive_iff (c : PeerWireCodec) (sha1 : List UInt8 → ShaHash) {m : MetaInfo} {state : TorrentState}
    {config : TorrentConfig} (hconfig : TorrentConfig.newLeech sha1 m state = some config) (id : TorrentId)
    (sel : PieceSelection) : (config.pieceHandler id sel).RequestsSurvive c ↔ config.FitsWire := by
  obtain ⟨last, -, rfl⟩ := Option.map_eq_some_iff.mp hconfig
  have hbits : (BitField.newAllClear m.info.pieces.length).len = m.info.pieces.length := List.length_replicate
  constructor
  · intro hall i hi hpos
    have hi : i < m.info.pieces.length := hbits ▸ hi
    obtain ⟨nb, hnb, hmem, hend⟩ := exists_request id sel m.info.pieceLength last hi hpos
    exact fits_of_survivesWire c hmem hend (hall _ _ nb hnb).1
  · intro hfits ops env nb hnb
    have hsolid := solid_exec id sel (.newAllClear m.info.pieces.length) m.info.pieceLength last ops
    have hstatic := exec_static (new id sel (.newAllClear m.info.pieces.length) m.info.pieceLength last) ops
    obtain ⟨hlt, hmem, hpending⟩ := poll_requests hsolid hnb
    rw [pieceLengthAt_of_static hstatic] at hmem
    have hbits' : (exec step (new id sel (.newAllClear m.info.pieces.length) m.info.pieceLength last) ops).bitfield.len
        = (BitField.newAllClear m.info.pieces.length).len := congrArg (·.2.2.2.2) hstatic
    rw [hbits'] at hlt
    have hlen : 0 < (new id sel (.newAllClear m.info.pieces.length) m.info.pieceLength last).pieceLengthAt
        nb.blockMetadata.pieceIndex := by
      have hpos := blockLength_pos hmem
      have hplace := ((blocksOf_contig _ _).le_of_mem (List.mem_map_of_mem hmem)).2
      have hplace : nb.blockMetadata.blockOffset + nb.blockMetadata.blockLength ≤ _ := hplace
      omega
    obtain ⟨hi, hle⟩ := hfits _ hlt hlen
    have hsurvive := survivesWire_of_mem c hmem hi hle
    exact ⟨hsurvive, hpending, fun later b data hb hlookup hdata => addBlock_answer hb hlookup hsurvive hdata⟩

theorem requests_survive_file :
    ∃ config, TorrentConfig.newLeech (fun _ => .replicate 0) infoOfFile.aloneRead .active = some config ∧
      (config.pieceHandler ⟨0⟩ .rarest).RequestsSurvive .default := by
  obtain ⟨config, hconfig, hlen⟩ : ∃ config,
      TorrentConfig.newLeech (fun _ => .replicate 0) infoOfFile.aloneRead .active = some config ∧
        config.bitfield.len = 1 ∧ config.lastPieceLength = 5 := ⟨_, rfl, rfl, rfl⟩
  refine ⟨config, hconfig, (requests_survive_iff .default _ hconfig ⟨0⟩ .rarest).mpr ?_⟩
  intro i hi _
  rw [hlen.1] at hi ⊢
  obtain rfl : i = 0 := Nat.lt_one_iff.mp hi
  rw [if_pos rfl, hlen.2]
  exact ⟨by decide, by decide⟩

/-- a file of 4 GiB and 16 KiB in one piece -/
def infoOfLongPiece : TorrentInfo := ⟨[.replicate 7], 2 ^ 32 + 16384, .single (2 ^ 32 + 16384), "a"⟩

open TorrentPieceHandler in
/-- it is accepted, and the last block of its piece is asked for under another offset -/
theorem long_piece_cut :
    MetaInfo.fromBencode bendyOfRead infoOfLongPiece.alone = .ok infoOfLongPiece.aloneRead ∧
      ∃ config, TorrentConfig.newLeech (fun _ => .replicate 0) infoOfLongPiece.aloneRead .active = some config ∧
        ¬ (config.pieceHandler ⟨0⟩ .random).RequestsSurvive .default := by
  refine ⟨TorrentInfo.fromBencode_alone ⟨by decide, by show 2 ^ 32 + 16384 < 2 ^ 64; decide⟩ rfl, _, rfl, ?_⟩
  intro hall
  obtain ⟨nb, hnb, hmem, hend⟩ := exists_request ⟨0⟩ .random (2 ^ 32 + 16384) (2 ^ 32 + 16384)
    (show 0 < 1 by decide) (by decide)
  have hfits := fits_of_survivesWire .default hmem hend (hall _ _ nb hnb).1
  exact absurd hfits.2 (by decide)

end Btt
