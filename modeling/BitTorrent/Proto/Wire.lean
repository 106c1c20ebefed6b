import BitTorrent.Proto.Codec

/-!
# What the codec guarantees on the wire

* `decode_asBytes`           one encoded message (no bitfield) is read back, whatever follows it;
* `decode_encode_stream`     so is a whole stream of them;
* `decode_bitfield_iff`      a bitfield is read back exactly when it does not have four bits: its length
                             prefix counts bits, and the prefix 5 belongs to `Have`;
* `decode_returns_iff`       the buffers on which `decode` returns at all.
-/

namespace Btt
open Bytes PeerMessage

/-! ## frames -/

/-- a frame whose length prefix does not start with 19 goes to the dispatch on the prefix -/
theorem decode_frame (c : PeerWireCodec) (x : UInt32) (r : List UInt8)
    (hx : x.toNat < 318767104) :
    c.decode (writeU32 x ++ r) = decodeLength x.toNat (writeU32 x ++ r) := by
  have hlen : ¬ (writeU32 x ++ r).length < 4 := by
    rw [List.length_append, length_writeU32]; omega
  have hb : UInt8.ofNat (x.toNat / 16777216) ≠ handshakeId := by
    intro h
    have h' := congrArg UInt8.toNat h
    have h19 : handshakeId.toNat = 19 := rfl
    rw [h19, UInt8.toNat_ofNat'] at h'
    omega
  have hw : (slice (writeU32 x ++ r) 0 4).bind readU32 = some x := slice_readU32 [] r x 0 4 rfl rfl
  rw [PeerWireCodec.decode, if_neg hlen, head_writeU32]
  show (if UInt8.ofNat (x.toNat / 16777216) = handshakeId then decodeHandshake (writeU32 x ++ r)
    else (slice (writeU32 x ++ r) 0 4).bind readU32 >>= fun length => _) = _
  rw [if_neg hb, hw]
  rfl

theorem getElem_four (x : UInt32) (id : UInt8) (r : List UInt8) :
    (writeU32 x ++ (id :: r))[4]? = some id := rfl

theorem decodeLength_flag (id : UInt8) (m : PeerMessage) (rest : List UInt8)
    (hid : flagOf id = some m) :
    decodeLength 1 (writeU32 1 ++ (id :: rest)) = some (.got m rest) := by
  have hlen : ¬ (writeU32 1 ++ (id :: rest)).length < 5 := by simp; omega
  rw [decodeLength, if_neg (by decide), if_pos rfl, decodeFlag, if_neg hlen, getElem_four]
  simp only [Option.bind_eq_bind, Option.bind_some, hid]
  rw [show writeU32 1 ++ (id :: rest) = (writeU32 1 ++ [id]) ++ rest by simp,
    advance_append _ _ 5 (by simp)]
  rfl

theorem decodeLength_have (index : UInt32) (rest : List UInt8) :
    decodeLength 5 (writeU32 5 ++ (4 :: (writeU32 index ++ rest))) = some (.got (.have_ index) rest) := by
  have hlen : ¬ (writeU32 5 ++ (4 :: (writeU32 index ++ rest))).length < 9 := by simp; omega
  rw [decodeLength, if_neg (by decide), if_neg (by decide), if_pos rfl, decodeHave, if_neg hlen, getElem_four]
  simp only [Option.bind_eq_bind, Option.bind_some]
  rw [if_pos (show (4 : UInt8) = haveId from rfl),
    show writeU32 5 ++ (4 :: (writeU32 index ++ rest)) = (writeU32 5 ++ [4] ++ writeU32 index) ++ rest
      by simp, splitTo_append _ _ 9 (by simp)]
  have h := slice_readU32 (writeU32 5 ++ [4]) [] index 5 9 (by simp) (by simp)
  rw [List.append_nil] at h
  simp only [Option.bind_some, h]

/-- a complete frame with a payload id is cut off whole -/
theorem decodeLength_payload (x : UInt32) (id : UInt8) (p rest : List UInt8)
    (h0 : x.toNat ≠ 0) (h1 : x.toNat ≠ 1) (h5 : x.toNat ≠ 5) (hid : id ≠ bitfieldId)
    (hlen : x.toNat = 1 + p.length) :
    decodeLength x.toNat (writeU32 x ++ (id :: (p ++ rest))) =
      decodePayload x.toNat id (writeU32 x ++ (id :: p) ++ rest) ∧
    ¬ (writeU32 x ++ (id :: p) ++ rest).length < 4 + x.toNat ∧
    splitTo (writeU32 x ++ (id :: p) ++ rest) (4 + x.toNat) = some (writeU32 x ++ (id :: p), rest) := by
  refine ⟨?_, ?_, ?_⟩
  · rw [decodeLength, if_neg h0, if_neg h1, if_neg h5, getElem_four]
    simp only [Option.bind_eq_bind, Option.bind_some]
    rw [if_neg hid]
    simp
  · simp; omega
  · exact splitTo_append _ _ _ (by simp; omega)

theorem readRequest_requestBytes (x : UInt32) (id : UInt8) (r : PeerRequest) :
    readRequest (writeU32 x ++ (id :: requestBytes r)) = some r := by
  have h1 := slice_readU32 (writeU32 x ++ [id]) (writeU32 r.begin_ ++ writeU32 r.length) r.index 5 9
    (by simp) (by simp)
  have h2 := slice_readU32 (writeU32 x ++ [id] ++ writeU32 r.index) (writeU32 r.length) r.begin_ 9 13
    (by simp) (by simp)
  have h3 := slice_readU32 (writeU32 x ++ [id] ++ writeU32 r.index ++ writeU32 r.begin_) [] r.length 13 17
    (by simp) (by simp)
  have e : writeU32 x ++ (id :: requestBytes r) = writeU32 x ++ [id] ++ writeU32 r.index
      ++ writeU32 r.begin_ ++ writeU32 r.length := by simp [requestBytes]
  simp only [List.append_assoc, List.append_nil] at h1 h2 h3 e
  rw [readRequest, e, h1, h2, h3]
  rfl

theorem readPiece_pieceBytes (x : UInt32) (id : UInt8) (p : Piece) :
    readPiece (writeU32 x ++ (id :: (writeU32 p.index ++ writeU32 p.begin_ ++ p.block))) = some p := by
  have h1 := slice_readU32 (writeU32 x ++ [id]) (writeU32 p.begin_ ++ p.block) p.index 5 9
    (by simp) (by simp)
  have h2 := slice_readU32 (writeU32 x ++ [id] ++ writeU32 p.index) p.block p.begin_ 9 13
    (by simp) (by simp)
  have h3 := sliceFrom_append (writeU32 x ++ [id] ++ writeU32 p.index ++ writeU32 p.begin_) p.block 13
    (by simp)
  have e : writeU32 x ++ (id :: (writeU32 p.index ++ writeU32 p.begin_ ++ p.block))
      = writeU32 x ++ [id] ++ writeU32 p.index ++ writeU32 p.begin_ ++ p.block := by simp
  rw [readPiece, e]
  simp only [List.append_assoc] at h1 h2 h3 ⊢
  rw [h1, h2, h3]
  rfl

theorem decode_handshake (c : PeerWireCodec) (h : Handshake) (rest : List UInt8) :
    c.decode ((PeerMessage.handshake h).asBytes ++ rest) = some (.got (.handshake h) rest) := by
  have hb : (PeerMessage.handshake h).asBytes.length = 68 := by
    simp [asBytes, Handshake.bittorrentIdentifier, h.reserved.len]
  have hident : slice ((PeerMessage.handshake h).asBytes ++ rest) 1 20
      = some Handshake.bittorrentIdentifier := by
    have := slice_mid [19] Handshake.bittorrentIdentifier
      (h.reserved.toList ++ h.infoHash.asRef ++ h.peerId.asRef ++ rest) 1 20 rfl rfl
    simpa [asBytes] using this
  have hadv : advance (PeerMessage.handshake h).asBytes 20
      = some (h.reserved.toList ++ h.infoHash.asRef ++ h.peerId.asRef) := by
    have := advance_append ([19] ++ Handshake.bittorrentIdentifier)
      (h.reserved.toList ++ h.infoHash.asRef ++ h.peerId.asRef) 20 rfl
    simpa [asBytes] using this
  have hres : slice (h.reserved.toList ++ h.infoHash.asRef ++ h.peerId.asRef) 0 8
      = some h.reserved.toList := by
    have := slice_mid [] h.reserved.toList (h.infoHash.asRef ++ h.peerId.asRef) 0 8 rfl
      (by simp [h.reserved.len])
    simpa using this
  have hinfo : slice (h.reserved.toList ++ h.infoHash.asRef ++ h.peerId.asRef) 8 28
      = some h.infoHash.asRef :=
    slice_mid _ _ _ 8 28 h.reserved.len.symm (by simp [h.reserved.len])
  have hpeer : slice (h.reserved.toList ++ h.infoHash.asRef ++ h.peerId.asRef) 28 48
      = some h.peerId.asRef := by
    have := slice_mid (h.reserved.toList ++ h.infoHash.asRef) h.peerId.asRef [] 28 48
      (by simp [h.reserved.len]) (by simp [h.reserved.len])
    simpa using this
  have h4 : ¬ ((PeerMessage.handshake h).asBytes ++ rest).length < 4 := by
    rw [List.length_append, hb]; omega
  have h68 : ¬ ((PeerMessage.handshake h).asBytes ++ rest).length < 68 := by
    rw [List.length_append, hb]; omega
  rw [PeerWireCodec.decode, if_neg h4,
    show ((PeerMessage.handshake h).asBytes ++ rest)[0]? = some 19 from rfl]
  simp only [Option.bind_eq_bind, Option.bind_some]
  rw [if_pos (show (19 : UInt8) = handshakeId from rfl), decodeHandshake, if_neg h68, hident]
  simp only [Option.bind_eq_bind, Option.bind_some, ne_eq, not_true_eq_false, if_false]
  rw [splitTo_append _ rest 68 hb.symm]
  simp only [Option.bind_some, hadv, hres, hinfo, hpeer, ByteArr.tryFrom_toList,
    ShaHash.tryFrom_asRef]

/-- **One message is read back**, and the buffer is left with exactly what followed it. -/
theorem decode_asBytes (c : PeerWireCodec) (m : PeerMessage) (rest : List UInt8)
    (hb : m.isBitfield = false) (hf : m.blockFits = true) :
    c.decode (m.asBytes ++ rest) = some (.got m rest) := by
  cases m with
  | keepAlive =>
    rw [asBytes, decode_frame c 0 rest (by decide), decodeLength,
      if_pos (show UInt32.toNat 0 = 0 from rfl),
           advance_append _ _ 4 rfl]
    rfl
  | choke =>
    rw [asBytes, List.append_assoc, decode_frame c 1 _ (by decide)]
    exact decodeLength_flag 0 _ rest rfl
  | unChoke =>
    rw [asBytes, List.append_assoc, decode_frame c 1 _ (by decide)]
    exact decodeLength_flag 1 _ rest rfl
  | interested =>
    rw [asBytes, List.append_assoc, decode_frame c 1 _ (by decide)]
    exact decodeLength_flag 2 _ rest rfl
  | notInterested =>
    rw [asBytes, List.append_assoc, decode_frame c 1 _ (by decide)]
    exact decodeLength_flag 3 _ rest rfl
  | have_ index =>
    rw [asBytes, List.append_assoc, List.append_assoc, decode_frame c 5 _ (by decide)]
    exact decodeLength_have index rest
  | bitfield f => exact absurd hb (by simp [isBitfield])
  | request r =>
    rw [asBytes, List.append_assoc, List.append_assoc, decode_frame c 13 _ (by decide)]
    obtain ⟨h1, h2, h3⟩ := decodeLength_payload 13 6 (requestBytes r) rest (by decide) (by decide)
      (by decide) (by decide) (by simp [requestBytes])
    refine h1.trans ?_
    rw [decodePayload, if_neg h2, if_pos (show (6 : UInt8) = requestId from rfl)]
    simp only [Option.bind_eq_bind, h3, Option.bind_some, readRequest_requestBytes]
  | cancel r =>
    rw [asBytes, List.append_assoc, List.append_assoc, decode_frame c 13 _ (by decide)]
    obtain ⟨h1, h2, h3⟩ := decodeLength_payload 13 8 (requestBytes r) rest (by decide) (by decide)
      (by decide) (by decide) (by simp [requestBytes])
    refine h1.trans ?_
    rw [decodePayload, if_neg h2, if_neg (by decide), if_neg (by decide),
      if_pos (show (8 : UInt8) = cancelId from rfl)]
    simp only [Option.bind_eq_bind, h3, Option.bind_some, readRequest_requestBytes]
  | piece p =>
    have hl : p.block.length ≤ 16777216 := of_decide_eq_true hf
    have hx : (9 + UInt32.ofNat p.block.length).toNat = 9 + p.block.length := by
      rw [UInt32.toNat_add, UInt32.toNat_ofNat']
      show (9 + p.block.length % 4294967296) % 4294967296 = _
      omega
    have e : (PeerMessage.piece p).asBytes ++ rest = writeU32 (9 + UInt32.ofNat p.block.length)
        ++ (7 :: ((writeU32 p.index ++ writeU32 p.begin_ ++ p.block) ++ rest)) := by simp [asBytes]
    obtain ⟨h1, h2, h3⟩ := decodeLength_payload (9 + UInt32.ofNat p.block.length) 7
      (writeU32 p.index ++ writeU32 p.begin_ ++ p.block) rest (by omega) (by omega) (by omega)
      (by decide) (by rw [hx]; simp; omega)
    rw [e, decode_frame c _ _ (by omega)]
    refine h1.trans ?_
    rw [decodePayload, if_neg h2, if_neg (by decide), if_pos (show (7 : UInt8) = pieceId from rfl)]
    simp only [Option.bind_eq_bind, h3, Option.bind_some, readPiece_pieceBytes]
  | handshake h => exact decode_handshake c h rest
  | port p =>
    rw [asBytes, List.append_assoc, List.append_assoc, decode_frame c 3 _ (by decide)]
    obtain ⟨h1, h2, h3⟩ := decodeLength_payload 3 9 (writeU16 p) rest (by decide) (by decide)
      (by decide) (by decide) rfl
    have hp : (sliceFrom (writeU32 3 ++ (9 :: writeU16 p)) 5).bind readU16 = some p := by
      have h := readU16_write p []
      rw [List.append_nil] at h
      rw [show writeU32 3 ++ (9 :: writeU16 p) = (writeU32 3 ++ [9]) ++ writeU16 p by simp,
        sliceFrom_append _ _ 5 (by simp), Option.bind_some, h]
    refine h1.trans ?_
    rw [decodePayload, if_neg h2, if_neg (by decide), if_neg (by decide), if_neg (by decide),
      if_pos (show (9 : UInt8) = portId from rfl)]
    simp only [Option.bind_eq_bind, h3, Option.bind_some, hp]

/-! ## streams -/

theorem encodeAll_eq (c : PeerWireCodec) (ms : List PeerMessage) (dst : List UInt8) :
    c.encodeAll ms dst = dst ++ ms.flatMap asBytes := by
  induction ms generalizing dst with
  | nil => simp [PeerWireCodec.encodeAll]
  | cons m ms ih =>
    show c.encodeAll ms (c.encode m dst) = _
    rw [ih, List.flatMap_cons, ← List.append_assoc]
    rfl

/-- **Decode undoes encode on streams.**  Messages that are no bitfields and whose blocks fit, encoded
one after another and followed by any bytes `rest`, are returned in order by one call of `decode` each,
and `rest` stays in the buffer. -/
theorem decode_encode_stream (c : PeerWireCodec) (ms : List PeerMessage) (rest : List UInt8)
    (hms : ∀ m ∈ ms, m.isBitfield = false ∧ m.blockFits = true) :
    c.decodeTimes ms.length (c.encodeAll ms [] ++ rest)
      = some (ms.map fun m => .ok (some m), rest) := by
  rw [encodeAll_eq, List.nil_append]
  induction ms with
  | nil => rfl
  | cons m ms ih =>
    obtain ⟨hb, hf⟩ := hms m (List.mem_cons_self ..)
    have ih' := ih (fun m' h' => hms m' (List.mem_cons_of_mem _ h'))
    rw [List.flatMap_cons, List.append_assoc, List.length_cons, PeerWireCodec.decodeTimes,
      decode_asBytes c m _ hb hf]
    simp only [Option.bind_eq_bind, Option.bind_some, Decoded.got, ih', List.map_cons]

/-- a request, a keep-alive and a handshake with all its bytes 7, followed by two more bytes -/
theorem decode_encode_stream_three :
    PeerWireCodec.default.decodeTimes 3
      (PeerWireCodec.default.encodeAll
        [.request ⟨1, 2, 16384⟩, .keepAlive,
          .handshake ⟨⟨List.replicate 8 7, rfl⟩, ⟨⟨List.replicate 20 7, rfl⟩⟩,
            ⟨⟨List.replicate 20 7, rfl⟩⟩⟩] [] ++ [5, 6])
      = some ([.ok (some (.request ⟨1, 2, 16384⟩)), .ok (some .keepAlive),
          .ok (some (.handshake ⟨⟨List.replicate 8 7, rfl⟩, ⟨⟨List.replicate 20 7, rfl⟩⟩,
            ⟨⟨List.replicate 20 7, rfl⟩⟩⟩))], [5, 6]) :=
  decode_encode_stream PeerWireCodec.default
    [.request ⟨1, 2, 16384⟩, .keepAlive,
      .handshake ⟨⟨List.replicate 8 7, rfl⟩, ⟨⟨List.replicate 20 7, rfl⟩⟩,
        ⟨⟨List.replicate 20 7, rfl⟩⟩⟩] [5, 6] (by simp [isBitfield, blockFits])

/-! ## bitfields -/

theorem toNat_bitfield_prefix (n : Nat) (hn : n < 318767103) :
    (1 + UInt32.ofNat n).toNat = n + 1 := by
  rw [UInt32.toNat_add, UInt32.toNat_ofNat']
  show (1 + n % 4294967296) % 4294967296 = _
  omega

theorem decodeBitfield_toBytes (x : UInt32) (f : BitField) (rest : List UInt8) (hf : 1 ≤ f.len) :
    decodeBitfield (f.len + 1) (writeU32 x ++ (5 :: f.toBytes) ++ rest)
      = some (.got (.bitfield f) rest) := by
  have hlen : f.toBytes.length = f.len / 8 + (if f.len % 8 > 0 then 1 else 0) := length_packBits f.inner
  have h0 : ¬ f.len + 1 - 1 = 0 := by omega
  have hfit : ¬ (writeU32 x ++ (5 :: f.toBytes) ++ rest).length <
      (f.len + 1 - 1) / 8 + (if (f.len + 1 - 1) % 8 > 0 then 1 else 0) + 5 := by
    simp only [Nat.add_sub_cancel, List.length_append, length_writeU32, List.length_cons, hlen]
    omega
  have hsplit : splitTo (writeU32 x ++ (5 :: f.toBytes) ++ rest)
      ((f.len + 1 - 1) / 8 + (if (f.len + 1 - 1) % 8 > 0 then 1 else 0) + 5)
      = some (writeU32 x ++ (5 :: f.toBytes), rest) := by
    apply splitTo_append
    simp only [Nat.add_sub_cancel, List.length_append, length_writeU32, List.length_cons, hlen]
    omega
  have hfrom : sliceFrom (writeU32 x ++ (5 :: f.toBytes)) 5 = some f.toBytes := by
    have h := sliceFrom_append (writeU32 x ++ [5]) f.toBytes 5 (by simp)
    rw [List.append_assoc] at h
    exact h
  rw [decodeBitfield, if_neg h0, if_neg hfit, hsplit]
  simp only [Option.bind_eq_bind, Option.bind_some, hfrom, Nat.add_sub_cancel,
    BitField.truncate_fromBytes_toBytes]

/-- the frame of a bitfield with four bits starts like a `Have` -/
theorem decodeHave_not_bitfield (x : UInt32) (r : List UInt8) (f : BitField) (rest : List UInt8) :
    decodeHave (writeU32 x ++ (5 :: r)) ≠ some (.got (.bitfield f) rest) := by
  rw [decodeHave, getElem_four]
  split
  · simp [Decoded.needMore, Decoded.got]
  · simp only [Option.bind_eq_bind, Option.bind_some]
    rw [if_neg (show ¬ (5 : UInt8) = haveId by decide)]
    simp [Decoded.bad, Decoded.got]

/-- **Bitfields on the wire.**  A bitfield with `n` bits, `1 ≤ n < 0x12FFFFFF`, followed by any bytes, is
read back exactly when `n ≠ 4`. -/
theorem decode_bitfield_iff (c : PeerWireCodec) (f : BitField) (rest : List UInt8) (h1 : 1 ≤ f.len)
    (h2 : f.len < 0x12FFFFFF) :
    c.decode ((PeerMessage.bitfield f).asBytes ++ rest) = some (.got (.bitfield f) rest)
      ↔ f.len ≠ 4 := by
  have hx := toNat_bitfield_prefix f.len h2
  have e : (PeerMessage.bitfield f).asBytes ++ rest
      = writeU32 (1 + UInt32.ofNat f.len) ++ (5 :: (f.toBytes ++ rest)) := by simp [asBytes]
  rw [e, decode_frame c _ _ (by omega), hx]
  constructor
  · intro h h4
    rw [decodeLength, if_neg (by omega), if_neg (by omega), if_pos (by omega)] at h
    exact decodeHave_not_bitfield _ _ _ _ h
  · intro h4
    rw [decodeLength, if_neg (by omega), if_neg (by omega), if_neg (by omega), getElem_four]
    simp only [Option.bind_eq_bind, Option.bind_some]
    rw [if_pos (show (5 : UInt8) = bitfieldId from rfl)]
    have h := decodeBitfield_toBytes (1 + UInt32.ofNat f.len) f rest h1
    rw [List.append_assoc] at h
    exact h

/-- eleven bits survive -/
theorem decode_bitfield_eleven :
    PeerWireCodec.default.decode
        ((PeerMessage.bitfield ⟨List.replicate 11 true⟩).asBytes ++ [1, 2])
      = some (.got (.bitfield ⟨List.replicate 11 true⟩) [1, 2]) :=
  (decode_bitfield_iff PeerWireCodec.default ⟨List.replicate 11 true⟩ [1, 2] (by decide)
    (by decide)).mpr (by decide)

/-- four bits do not: the decoder waits for the index of a `Have` that never comes, and with three more
bytes in the buffer it reports an error -/
theorem decode_bitfield_four :
    ¬ ∀ (f : BitField) (rest : List UInt8), 1 ≤ f.len → f.len < 0x12FFFFFF →
      PeerWireCodec.default.decode ((PeerMessage.bitfield f).asBytes ++ rest)
        = some (.got (.bitfield f) rest) := by
  intro h
  have h4 := h ⟨[true, false, true, true]⟩ [] (by decide) (by decide)
  exact decodeHave_not_bitfield 5 [0xB0] _ _ h4

/-! ## buffers that crash the decoder -/

/-- The frame is too short for what its id announces: not a handshake, a length prefix other than 0, 1
and 5, and either the buffer ends right after the prefix (the id byte is read without a check), or the
frame is complete but a `Request` or `Cancel` has a prefix below 13, a `Piece` one below 9, a `Port`
one below 3. -/
def TooShort (src : List UInt8) : Prop :=
  src[0]? ≠ some handshakeId ∧ ∃ n, readU32 src = some n ∧ n.toNat ≠ 0 ∧ n.toNat ≠ 1 ∧ n.toNat ≠ 5 ∧
    (src.length = 4 ∨ ∃ id, src[4]? = some id ∧ 4 + n.toNat ≤ src.length ∧
      ((id = requestId ∨ id = cancelId) ∧ n.toNat < 13 ∨ id = pieceId ∧ n.toNat < 9 ∨
        id = portId ∧ n.toNat < 3))

theorem slice_readU32_eq_none (xs : List UInt8) (a : Nat) :
    (slice xs a (a + 4)).bind readU32 = none ↔ xs.length < a + 4 := by
  rw [Option.bind_eq_none_iff]
  constructor
  · intro h
    by_contra hlen
    have hs := slice_isSome (show a ≤ a + 4 by omega) (show a + 4 ≤ xs.length by omega)
    have h4 := readU32_eq_none.mp (h _ hs)
    rw [List.length_drop, List.length_take] at h4
    omega
  · intro h b hb
    rw [(slice_eq_none (show a ≤ a + 4 by omega)).mpr h] at hb
    cases hb

theorem bind_some_eq_none {α β : Type} (x : Option α) (g : α → β) :
    (x.bind fun a => some (g a)) = none ↔ x = none := by
  cases x <;> simp

theorem readRequest_eq_none {msg : List UInt8} : readRequest msg = none ↔ msg.length < 17 := by
  have h1 := slice_readU32_eq_none msg 5
  have h2 := slice_readU32_eq_none msg 9
  have h3 := slice_readU32_eq_none msg 13
  rw [readRequest]
  cases e1 : (slice msg 5 9).bind readU32 with
  | none => exact iff_of_true rfl (lt_trans (h1.mp e1) (by omega))
  | some x =>
    cases e2 : (slice msg 9 13).bind readU32 with
    | none => exact iff_of_true rfl (lt_trans (h2.mp e2) (by omega))
    | some y => exact (bind_some_eq_none _ _).trans h3

theorem readPiece_eq_none {msg : List UInt8} : readPiece msg = none ↔ msg.length < 13 := by
  have h1 := slice_readU32_eq_none msg 5
  have h2 := slice_readU32_eq_none msg 9
  rw [readPiece]
  cases e1 : (slice msg 5 9).bind readU32 with
  | none => exact iff_of_true rfl (lt_trans (h1.mp e1) (by omega))
  | some x =>
    cases e2 : (slice msg 9 13).bind readU32 with
    | none => exact iff_of_true rfl (h2.mp e2)
    | some y =>
      refine (bind_some_eq_none _ _).trans ?_
      rw [sliceFrom]
      split <;> simp <;> omega

theorem readPort_eq_none {msg : List UInt8} :
    (sliceFrom msg 5).bind readU16 = none ↔ msg.length < 7 := by
  rw [sliceFrom]
  split
  · rw [Option.bind_some, readU16_eq_none, List.length_drop]; omega
  · simp; omega

theorem decodeHandshake_returns (src : List UInt8) : decodeHandshake src ≠ none := by
  rw [decodeHandshake]
  split
  · simp
  · rename_i hl
    have h20 : (slice src 1 20) = some ((src.take 20).drop 1) := slice_isSome (by omega) (by omega)
    simp only [Option.bind_eq_bind, h20, Option.bind_some]
    split
    · simp
    · have hm : ((src.take 68).drop 20).length = 48 := by
        rw [List.length_drop, List.length_take]; omega
      have hadv : advance (src.take 68) 20 = some ((src.take 68).drop 20) :=
        if_pos (by rw [List.length_take]; omega)
      rw [splitTo_eq_some (by omega)]
      simp only [Option.bind_some, hadv]
      generalize (src.take 68).drop 20 = msg at hm
      have hr : ((msg.take 8).drop 0).length = 8 := by simp; omega
      have hi : ¬ ((msg.take 28).drop 8).length < shaHashLen := by
        rw [List.length_drop, List.length_take, hm]; decide
      have hp : ¬ ((msg.take 48).drop 28).length < shaHashLen := by
        rw [List.length_drop, List.length_take, hm]; decide
      rw [slice_isSome (by omega) (by omega), slice_isSome (by omega) (by omega),
        slice_isSome (by omega) (by omega)]
      simp only [Option.bind_some, ByteArr.tryFrom, dif_pos hr, ShaHash.tryFrom, dif_neg hi, dif_neg hp]
      simp

theorem decodeFlag_returns (src : List UInt8) : decodeFlag src ≠ none := by
  rw [decodeFlag]
  split
  · simp
  · rename_i hl
    rw [List.getElem?_eq_getElem (by omega)]
    simp only [Option.bind_eq_bind, Option.bind_some]
    split
    · rw [advance, if_pos (by omega)]; simp
    · simp

theorem decodeHave_returns (src : List UInt8) : decodeHave src ≠ none := by
  rw [decodeHave]
  split
  · simp
  · rename_i hl
    rw [List.getElem?_eq_getElem (by omega)]
    simp only [Option.bind_eq_bind, Option.bind_some]
    split
    · rw [splitTo_eq_some (by omega)]
      simp only [Option.bind_some]
      cases e : (slice (src.take 9) 5 9).bind readU32 with
      | none =>
        have h := (slice_readU32_eq_none (src.take 9) 5).mp e
        rw [List.length_take] at h
        omega
      | some x => simp
    · simp

theorem decodeBitfield_returns (length : Nat) (src : List UInt8) : decodeBitfield length src ≠ none := by
  rw [decodeBitfield]
  split
  · simp
  · generalize (length - 1) / 8 + (if (length - 1) % 8 > 0 then 1 else 0) = k
    by_cases hl : src.length < k + 5
    · rw [if_pos hl]
      simp
    · rw [if_neg hl, splitTo_eq_some (by omega)]
      simp only [Option.bind_eq_bind, Option.bind_some]
      rw [sliceFrom, if_pos (by rw [List.length_take]; omega)]
      simp

theorem decodePayload_eq_none {n : Nat} {id : UInt8} {src : List UInt8} :
    decodePayload n id src = none ↔ 4 + n ≤ src.length ∧
      ((id = requestId ∨ id = cancelId) ∧ n < 13 ∨ id = pieceId ∧ n < 9 ∨ id = portId ∧ n < 3) := by
  rw [decodePayload]
  by_cases hl : src.length < 4 + n
  · rw [if_pos hl]
    simp; omega
  have hm : (src.take (4 + n)).length = 4 + n := by rw [List.length_take]; omega
  rw [if_neg hl, splitTo_eq_some (by omega)]
  simp only [Option.bind_eq_bind, Option.bind_some]
  by_cases h6 : id = requestId
  · subst h6
    rw [if_pos rfl, bind_some_eq_none, readRequest_eq_none, hm]
    simp [requestId, cancelId, pieceId, portId]; omega
  rw [if_neg h6]
  by_cases h7 : id = pieceId
  · subst h7
    rw [if_pos rfl, bind_some_eq_none, readPiece_eq_none, hm]
    simp [requestId, cancelId, pieceId, portId]; omega
  rw [if_neg h7]
  by_cases h8 : id = cancelId
  · subst h8
    rw [if_pos rfl, bind_some_eq_none, readRequest_eq_none, hm]
    simp [requestId, cancelId, pieceId, portId]; omega
  rw [if_neg h8]
  by_cases h9 : id = portId
  · subst h9
    rw [if_pos rfl, bind_some_eq_none, readPort_eq_none, hm]
    simp [requestId, cancelId, pieceId, portId]; omega
  rw [if_neg h9]
  simp [h6, h7, h8, h9]

/-- **When the decoder returns.**  On every buffer `decode` answers `Ok(None)`, `Ok(Some(_))` or
`Err(_)` exactly when the buffer is not a frame that is too short for its id. -/
theorem decode_returns_iff (c : PeerWireCodec) (src : List UInt8) :
    (∃ d, c.decode src = some d) ↔ ¬ TooShort src := by
  rw [← Option.ne_none_iff_exists', not_iff_not, PeerWireCodec.decode]
  by_cases h4 : src.length < 4
  · rw [if_pos h4]
    simp only [reduceCtorEq, false_iff]
    rintro ⟨-, n, hn, -⟩
    rw [readU32_eq_none.mpr h4] at hn
    cases hn
  obtain ⟨n, hn⟩ := readU32_isSome (show 4 ≤ src.length by omega)
  have hslice : (slice src 0 4).bind readU32 = some n := by
    match src, hn with
    | a :: b :: c :: d :: r, hn => exact hn
  have h0 : src[0]? = some src[0] := List.getElem?_eq_getElem (by omega)
  rw [if_neg h4, h0]
  simp only [Option.bind_eq_bind, Option.bind_some, hslice]
  by_cases hb : src[0] = handshakeId
  · rw [if_pos hb]
    simp [decodeHandshake_returns, TooShort, h0, hb]
  rw [if_neg hb, decodeLength]
  have hts : TooShort src ↔ n.toNat ≠ 0 ∧ n.toNat ≠ 1 ∧ n.toNat ≠ 5 ∧
      (src.length = 4 ∨ ∃ id, src[4]? = some id ∧ 4 + n.toNat ≤ src.length ∧
        ((id = requestId ∨ id = cancelId) ∧ n.toNat < 13 ∨ id = pieceId ∧ n.toNat < 9 ∨
          id = portId ∧ n.toNat < 3)) := by
    simp [TooShort, h0, hb, hn]
  rw [hts]
  by_cases e0 : n.toNat = 0
  · rw [if_pos e0, advance, if_pos (by omega)]
    simp [e0]
  by_cases e1 : n.toNat = 1
  · rw [if_neg e0, if_pos e1]
    simp [e1, decodeFlag_returns]
  by_cases e5 : n.toNat = 5
  · rw [if_neg e0, if_neg e1, if_pos e5]
    simp [e5, decodeHave_returns]
  rw [if_neg e0, if_neg e1, if_neg e5]
  cases hid : src[4]? with
  | none =>
    have hl : src.length = 4 := by
      have := List.getElem?_eq_none_iff.mp hid
      omega
    simp [e0, e1, e5, hl]
  | some id =>
    have hl : src.length ≠ 4 := by
      intro h
      rw [List.getElem?_eq_none (by omega)] at hid
      cases hid
    simp only [Option.bind_eq_bind, Option.bind_some]
    by_cases hbf : id = bitfieldId
    · rw [if_pos hbf]
      subst hbf
      simp [decodeBitfield_returns, hl, requestId, cancelId, pieceId, portId, bitfieldId]
    · rw [if_neg hbf, decodePayload_eq_none]
      simp [e0, e1, e5, hl]

/-- four bytes from a remote, the prefix 13 of a request, crash the decoder -/
theorem decode_panics_on_prefix :
    ¬ ∀ src : List UInt8, ∃ d, PeerWireCodec.default.decode src = some d := by
  intro h
  obtain ⟨d, hd⟩ := h [0, 0, 0, 13]
  cases hd

end Btt
