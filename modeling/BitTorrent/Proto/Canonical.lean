import BitTorrent.Proto.Framing
import BitTorrent.Proto.Wire

/-!
# Frames the decoder accepts

The converse of the round trip: the bytes `decode` takes for a message are those the message is encoded to.
This holds branch by branch, up to the padding of a bitfield (`SameFrame`), with one exception: a `Request`,
a `Cancel` and a `Port` are read from the front of a frame whose length prefix is not looked at again, so
bytes behind the payload are swallowed with it.  `decode_canonical_iff` says that these frames (`TooLong`) are
the only ones.
-/

namespace Btt
open Bytes PeerMessage

/-- the bytes are those of the message; of a bitfield, up to the bits behind its last one -/
def SameFrame (frame : List UInt8) : PeerMessage → Prop
  | .bitfield f =>
    frame.length = (bitfield f).asBytes.length ∧
      (unpackBits frame).take (40 + f.len) = (unpackBits (bitfield f).asBytes).take (40 + f.len)
  | m => frame = m.asBytes

/-- if the call took a message from the front of the buffer, then by bytes that stand in `Q` to it -/
def Takes (r : Option Decoded) (src : List UInt8) (Q : List UInt8 → PeerMessage → Prop) : Prop :=
  ∀ d m, r = some d → d.result = .ok (some m) → ∃ frame, src = frame ++ d.src ∧ Q frame m

section
variable {src : List UInt8} {Q : List UInt8 → PeerMessage → Prop}

theorem takes_none : Takes none src Q := by
  intro d m h
  cases h

theorem takes_needMore (b : List UInt8) (n : Nat) : Takes (some (.needMore b n)) src Q := by
  intro d m h hm
  cases h
  cases hm

theorem takes_bad (text : String) (b : List UInt8) : Takes (some (.bad text b)) src Q := by
  intro d m h hm
  cases h
  cases hm

theorem takes_got {m : PeerMessage} {n : Nat} (h : Q (src.take n) m) :
    Takes (some (.got m (src.drop n))) src Q := by
  intro d m' hd hm
  cases hd
  cases hm
  exact ⟨src.take n, (List.take_append_drop n src).symm, h⟩

/-- the first five bytes of a frame -/
theorem take_five {x : UInt32} {id : UInt8} (h4 : src.take 4 = writeU32 x) (hid : src[4]? = some id) :
    src.take 5 = writeU32 x ++ [id] := by
  rw [List.take_add_one, h4, hid]
  rfl

end

/-! ## frames of a fixed length -/

section
variable {src : List UInt8}

theorem asBytes_of_flagOf {id : UInt8} {m : PeerMessage} (h : flagOf id = some m) :
    m.asBytes = writeU32 1 ++ [id] := by
  unfold flagOf at h
  split at h
  · subst id
    cases h
    rfl
  split at h
  · subst id
    cases h
    rfl
  split at h
  · subst id
    cases h
    rfl
  split at h
  · subst id
    cases h
    rfl
  · cases h

theorem sameFrame_of_eq {frame : List UInt8} {m : PeerMessage} (h : frame = m.asBytes) : SameFrame frame m := by
  cases m with
  | bitfield f => exact ⟨congrArg List.length h, by rw [h]⟩
  | _ => exact h

theorem takes_decodeFlag (h4 : src.take 4 = writeU32 1) : Takes (decodeFlag src) src SameFrame := by
  unfold decodeFlag
  split
  · exact takes_needMore _ _
  · cases hid : src[4]? with
    | none => exact takes_none
    | some id =>
      rw [Option.bind_eq_bind, Option.bind_some]
      cases hflag : flagOf id with
      | none => exact takes_bad _ _
      | some m =>
        show Takes (advance src 5 >>= fun rest => some (.got m rest)) src SameFrame
        rw [advance, if_pos (by omega)]
        apply takes_got
        apply sameFrame_of_eq
        rw [take_five h4 hid, asBytes_of_flagOf hflag]

theorem takes_decodeHave (h4 : src.take 4 = writeU32 5) : Takes (decodeHave src) src SameFrame := by
  unfold decodeHave
  split
  · exact takes_needMore _ _
  · cases hid : src[4]? with
    | none => exact takes_none
    | some id =>
      show Takes (if id = haveId then _ else _) src SameFrame
      split
      · rename_i hhave
        subst hhave
        rw [splitTo_eq_some (by omega)]
        show Takes ((slice (src.take 9) 5 9).bind readU32 >>= fun index => some (.got (.have_ index) (src.drop 9)))
          src SameFrame
        cases hindex : (slice (src.take 9) 5 9).bind readU32 with
        | none => exact takes_none
        | some index =>
          apply takes_got
          have hword := take_of_slice_readU32 rfl hindex
          rw [List.take_take, List.take_take] at hword
          show src.take 9 = writeU32 5 ++ [haveId] ++ writeU32 index
          rw [← take_five h4 hid]
          exact hword
      · exact takes_bad _ _

/-- the three fields of a handshake fill what is behind its first twenty bytes -/
theorem eq_of_readHandshake {msg : List UInt8} {h : Handshake} (hlen : msg.length = 68)
    (hread : readHandshake msg = some h) :
    msg = msg.take 20 ++ h.reserved.toList ++ h.infoHash.asRef ++ h.peerId.asRef := by
  unfold readHandshake at hread
  rw [advance, if_pos (by omega)] at hread
  obtain ⟨tail, htail, hread⟩ := Option.bind_eq_some_iff.mp hread
  cases htail
  obtain ⟨reserved, hreserved, hread⟩ := Option.bind_eq_some_iff.mp hread
  obtain ⟨infoHash, hinfo, hread⟩ := Option.bind_eq_some_iff.mp hread
  obtain ⟨peerId, hpeer, hread⟩ := Option.bind_eq_some_iff.mp hread
  cases hread
  obtain ⟨s1, hs1, h1⟩ := Option.bind_eq_some_iff.mp hreserved
  obtain ⟨s2, hs2, h2⟩ := Option.bind_eq_some_iff.mp hinfo
  obtain ⟨s3, hs3, h3⟩ := Option.bind_eq_some_iff.mp hpeer
  obtain ⟨ht1, -⟩ := take_of_slice hs1
  obtain ⟨ht2, hl2⟩ := take_of_slice hs2
  obtain ⟨ht3, hl3⟩ := take_of_slice hs3
  rw [List.take_zero, List.nil_append] at ht1
  rw [ht2, ht1, List.take_of_length_le (by rw [List.length_drop]; omega)] at ht3
  rw [ByteArr.toList_of_tryFrom h1, ShaHash.asRef_of_tryFrom hl2.le h2, ShaHash.asRef_of_tryFrom hl3.le h3, List.append_assoc, List.append_assoc,
    ← List.append_assoc s1, ← ht3, List.take_append_drop]

theorem decodeHandshake_eq (hlen : ¬ src.length < 68)
    (hident : (src.take 20).drop 1 = Handshake.bittorrentIdentifier) :
    decodeHandshake src
      = (readHandshake (src.take 68)).bind fun h => some (.got (.handshake h) (src.drop 68)) := by
  rw [decodeHandshake, if_neg hlen, slice_isSome (by omega) (by omega), splitTo_eq_some (by omega)]
  simp only [Option.bind_eq_bind, Option.bind_some, hident, ne_eq, not_true_eq_false, if_false, readHandshake,
    Option.bind_assoc]

theorem takes_decodeHandshake (h0 : src[0]? = some handshakeId) :
    Takes (decodeHandshake src) src SameFrame := by
  by_cases hlen : src.length < 68
  · rw [decodeHandshake, if_pos hlen]
    exact takes_needMore _ _
  by_cases hident : (src.take 20).drop 1 = Handshake.bittorrentIdentifier
  · rw [decodeHandshake_eq hlen hident]
    cases hread : readHandshake (src.take 68) with
    | none => exact takes_none
    | some h =>
      apply takes_got
      have hfields := eq_of_readHandshake (by rw [List.length_take]; omega) hread
      have hfirst : src.take 20 = [handshakeId] ++ Handshake.bittorrentIdentifier := by
        have hcut := List.take_append_drop 1 (src.take 20)
        rw [List.take_take, hident, show min 1 20 = 0 + 1 from rfl, List.take_add_one, h0] at hcut
        exact hcut.symm
      rw [List.take_take, show min 20 68 = 20 from rfl, hfirst] at hfields
      exact hfields
  · rw [decodeHandshake, if_neg hlen, slice_isSome (by omega) (by omega)]
    show Takes (if (src.take 20).drop 1 ≠ Handshake.bittorrentIdentifier then _ else _) src SameFrame
    rw [if_pos hident]
    exact takes_bad _ _

/-! ## bitfields -/

theorem sameFrame_bitfield {x : UInt32} {bytes : List UInt8} (hx : x.toNat ≠ 0)
    (hlen : bytes.length = (x.toNat - 1) / 8 + (if (x.toNat - 1) % 8 > 0 then 1 else 0)) :
    SameFrame (writeU32 x ++ [bitfieldId] ++ bytes)
      (.bitfield ((BitField.fromBytes bytes).truncate (x.toNat - 1))) := by
  generalize hf : (BitField.fromBytes bytes).truncate (x.toNat - 1) = f
  -- the field has the length the prefix says
  have hroom : x.toNat - 1 ≤ 8 * bytes.length := by
    split at hlen <;> omega
  have hinner : f.inner = (unpackBits bytes).take (x.toNat - 1) := by
    rw [← hf]
    rfl
  have hflen : f.len = x.toNat - 1 := by
    rw [BitField.len, hinner, List.length_take, length_unpackBits, Nat.min_eq_left hroom]
  have hprefix : 1 + UInt32.ofNat f.len = x := by
    have hlt : x.toNat < 4294967296 := x.toNat_lt
    apply UInt32.toNat_inj.mp
    rw [UInt32.toNat_add, UInt32.toNat_ofNat', UInt32.toNat_one, hflen]
    omega
  have hasBytes : (bitfield f).asBytes = writeU32 x ++ [bitfieldId] ++ f.toBytes := by
    rw [asBytes, hprefix]
    rfl
  have hfront : (unpackBits (writeU32 x ++ [bitfieldId])).length = 40 := by
    rw [length_unpackBits, List.length_append, length_writeU32]
    rfl
  have hbits : ∀ tail : List UInt8, (unpackBits (writeU32 x ++ [bitfieldId] ++ tail)).take (40 + f.len)
      = unpackBits (writeU32 x ++ [bitfieldId]) ++ (unpackBits tail).take f.len := by
    intro tail
    rw [unpackBits_append, ← hfront, List.take_length_add_append]
  constructor
  · have hpack : f.toBytes.length = bytes.length := by
      rw [BitField.toBytes, length_packBits, show f.inner.length = x.toNat - 1 from hflen, hlen]
    rw [hasBytes]
    simp only [List.length_append, hpack]
  · rw [hasBytes, hbits, hbits, BitField.toBytes]
    have hback : (unpackBits (packBits f.inner)).take f.len = f.inner := take_unpackBits_packBits f.inner
    rw [hback, hflen, hinner]

theorem takes_decodeBitfield {x : UInt32} (h4 : src.take 4 = writeU32 x) (hid : src[4]? = some bitfieldId)
    (hx : x.toNat ≠ 0) : Takes (decodeBitfield x.toNat src) src SameFrame := by
  unfold decodeBitfield
  simp only
  split
  · exact takes_bad _ _
  generalize hbytes : (x.toNat - 1) / 8 + (if (x.toNat - 1) % 8 > 0 then 1 else 0) = k
  split
  · exact takes_needMore _ _
  · rename_i hlen
    have htail : sliceFrom (src.take (k + 5)) 5 = some ((src.take (k + 5)).drop 5) := by
      rw [sliceFrom, if_pos (by rw [List.length_take]; omega)]
    rw [splitTo_eq_some (by omega)]
    simp only [Option.bind_eq_bind, Option.bind_some, htail]
    apply takes_got
    have hframe : src.take (k + 5) = writeU32 x ++ [bitfieldId] ++ (src.take (k + 5)).drop 5 := by
      have hcut := List.take_append_drop 5 (src.take (k + 5))
      rw [List.take_take, Nat.min_eq_left (by omega), take_five h4 hid] at hcut
      exact hcut.symm
    have hk : ((src.take (k + 5)).drop 5).length = k := by
      rw [List.length_drop, List.length_take]
      omega
    have hsame := sameFrame_bitfield hx (hk.trans hbytes.symm)
    rwa [← hframe] at hsame

/-! ## frames with a payload -/

/-- the words of a request fill the frame up to its 17th byte -/
theorem take_of_readRequest {msg : List UInt8} {r : PeerRequest} (h : readRequest msg = some r) :
    msg.take 17 = msg.take 5 ++ requestBytes r := by
  unfold readRequest at h
  obtain ⟨index, h1, h⟩ := Option.bind_eq_some_iff.mp h
  obtain ⟨begin_, h2, h⟩ := Option.bind_eq_some_iff.mp h
  obtain ⟨length, h3, h⟩ := Option.bind_eq_some_iff.mp h
  cases h
  rw [take_of_slice_readU32 rfl h3, take_of_slice_readU32 rfl h2, take_of_slice_readU32 rfl h1, requestBytes,
    List.append_assoc, List.append_assoc, List.append_assoc]

theorem eq_of_readPiece {msg : List UInt8} {p : Piece} (h : readPiece msg = some p) :
    msg = msg.take 5 ++ writeU32 p.index ++ writeU32 p.begin_ ++ p.block ∧ msg.length = 13 + p.block.length := by
  unfold readPiece at h
  obtain ⟨index, h1, h⟩ := Option.bind_eq_some_iff.mp h
  obtain ⟨begin_, h2, h⟩ := Option.bind_eq_some_iff.mp h
  obtain ⟨block, h3, h⟩ := Option.bind_eq_some_iff.mp h
  cases h
  unfold sliceFrom at h3
  split at h3
  · rename_i hlen
    cases h3
    refine ⟨?_, ?_⟩
    · rw [← take_of_slice_readU32 rfl h1, ← take_of_slice_readU32 rfl h2, List.take_append_drop]
    · rw [List.length_drop]
      omega
  · cases h3

theorem take_of_readPort {msg : List UInt8} {p : UInt16} (h : (sliceFrom msg 5).bind readU16 = some p) :
    msg.take 7 = msg.take 5 ++ writeU16 p := by
  obtain ⟨tail, htail, hp⟩ := Option.bind_eq_some_iff.mp h
  unfold sliceFrom at htail
  split at htail
  · cases htail
    rw [← take_of_readU16 hp, ← List.take_add]
  · cases htail

/-- a request in a frame that is not too long fills it -/
theorem request_frame {msg : List UInt8} {x : UInt32} {id : UInt8} {r : PeerRequest}
    (h5 : msg.take 5 = writeU32 x ++ [id]) (hlen : msg.length = 4 + x.toNat) (hle : x.toNat ≤ 13)
    (h : readRequest msg = some r) : msg = writeU32 13 ++ [id] ++ requestBytes r := by
  have hlong : 17 ≤ msg.length := by
    by_contra hshort
    rw [readRequest_eq_none.mpr (Nat.not_le.mp hshort)] at h
    cases h
  have hx : x = 13 := UInt32.toNat_inj.mp (show x.toNat = 13 by omega)
  have htake := take_of_readRequest h
  rwa [List.take_of_length_le (by omega), h5, hx] at htake

theorem port_frame {msg : List UInt8} {x : UInt32} {id : UInt8} {p : UInt16}
    (h5 : msg.take 5 = writeU32 x ++ [id]) (hlen : msg.length = 4 + x.toNat) (hle : x.toNat ≤ 3)
    (h : (sliceFrom msg 5).bind readU16 = some p) : msg = writeU32 3 ++ [id] ++ writeU16 p := by
  have hlong : 7 ≤ msg.length := by
    by_contra hshort
    rw [readPort_eq_none.mpr (Nat.not_le.mp hshort)] at h
    cases h
  have hx : x = 3 := UInt32.toNat_inj.mp (show x.toNat = 3 by omega)
  have htake := take_of_readPort h
  rwa [List.take_of_length_le (by omega), h5, hx] at htake

theorem piece_frame {msg : List UInt8} {x : UInt32} {p : Piece} (h5 : msg.take 5 = writeU32 x ++ [pieceId])
    (hlen : msg.length = 4 + x.toNat) (h : readPiece msg = some p) : msg = (piece p).asBytes := by
  obtain ⟨heq, hblock⟩ := eq_of_readPiece h
  have hx : 9 + UInt32.ofNat p.block.length = x := by
    have hlt : x.toNat < 4294967296 := x.toNat_lt
    apply UInt32.toNat_inj.mp
    rw [UInt32.toNat_add, UInt32.toNat_ofNat', show (9 : UInt32).toNat = 9 from rfl]
    omega
  rw [h5] at heq
  rw [asBytes, hx]
  exact heq

/-- the branch of `decodePayload` for one id: a frame is split off and read -/
theorem takes_frame {β : Type} {n : Nat} (read : List UInt8 → Option β) (mk : β → PeerMessage)
    {Q : List UInt8 → PeerMessage → Prop} (hlen : n ≤ src.length)
    (h : ∀ b, read (src.take n) = some b → Q (src.take n) (mk b)) :
    Takes (splitTo src n >>= fun (msg, rest) => read msg >>= fun b => some (.got (mk b) rest)) src Q := by
  rw [splitTo_eq_some hlen]
  show Takes (read (src.take n) >>= fun b => some (.got (mk b) (src.drop n))) src Q
  cases hread : read (src.take n) with
  | none => exact takes_none
  | some b => exact takes_got (h b hread)

theorem takes_decodePayload {x : UInt32} {id : UInt8} (h4 : src.take 4 = writeU32 x) (hid : src[4]? = some id)
    (hx : x.toNat ≠ 0)
    (hfits : 4 + x.toNat ≤ src.length →
      (id = requestId ∨ id = cancelId → x.toNat ≤ 13) ∧ (id = portId → x.toNat ≤ 3)) :
    Takes (decodePayload x.toNat id src) src SameFrame := by
  unfold decodePayload
  simp only
  split
  · exact takes_needMore _ _
  rename_i hlong
  have hle : 4 + x.toNat ≤ src.length := Nat.not_lt.mp hlong
  obtain ⟨hrequest, hport⟩ := hfits hle
  have hlen : (src.take (4 + x.toNat)).length = 4 + x.toNat := by rw [List.length_take, Nat.min_eq_left hle]
  have h5 : (src.take (4 + x.toNat)).take 5 = writeU32 x ++ [id] := by
    rw [List.take_take, Nat.min_eq_left (by omega), take_five h4 hid]
  split
  · subst id
    exact takes_frame readRequest request hle fun r hr => request_frame h5 hlen (hrequest (Or.inl rfl)) hr
  split
  · subst id
    exact takes_frame readPiece piece hle fun p hp => piece_frame h5 hlen hp
  split
  · subst id
    exact takes_frame readRequest cancel hle fun r hr => request_frame h5 hlen (hrequest (Or.inr rfl)) hr
  split
  · subst id
    exact takes_frame (fun msg => (sliceFrom msg 5).bind readU16) port hle fun p hp =>
      port_frame h5 hlen (hport rfl) hp
  · exact takes_bad _ _

/-! ## the decoder -/

/-- a complete frame of a `Request` or a `Cancel` with a prefix above 13, or of a `Port` with a prefix above 3
(the prefix 5 is left to `Have`) -/
def TooLong (src : List UInt8) : Prop :=
  src[0]? ≠ some handshakeId ∧ ∃ x id, readU32 src = some x ∧ src[4]? = some id ∧ 4 + x.toNat ≤ src.length ∧
    ((id = requestId ∨ id = cancelId) ∧ 13 < x.toNat ∨ id = portId ∧ 3 < x.toNat ∧ x.toNat ≠ 5)

theorem decode_of_starts (c : PeerWireCodec) {x : UInt32} (h0 : src[0]? ≠ some handshakeId)
    (hx : readU32 src = some x) : c.decode src = decodeLength x.toNat src := by
  have hlen : ¬ src.length < 4 := by
    intro hshort
    rw [readU32_eq_none.mpr hshort] at hx
    cases hx
  have hslice : (slice src 0 4).bind readU32 = some x := by
    rcases src with _ | ⟨a, _ | ⟨b, _ | ⟨d, _ | ⟨e, r⟩⟩⟩⟩
    · cases hx
    · cases hx
    · cases hx
    · cases hx
    · exact hx
  have hfirst : src[0]? = some src[0] := List.getElem?_eq_getElem (by omega)
  rw [PeerWireCodec.decode, if_neg hlen, hfirst]
  simp only [Option.bind_eq_bind, Option.bind_some, hslice]
  rw [if_neg]
  intro heq
  exact h0 (hfirst.trans (congrArg some heq))

theorem takes_decodeLength {x : UInt32} (h0 : src[0]? ≠ some handshakeId) (hx : readU32 src = some x)
    (hfits : ¬ TooLong src) : Takes (decodeLength x.toNat src) src SameFrame := by
  have h4 : src.take 4 = writeU32 x := take_of_readU32 hx
  have hlen : 4 ≤ src.length := by
    by_contra hshort
    rw [readU32_eq_none.mpr (Nat.not_le.mp hshort)] at hx
    cases hx
  unfold decodeLength
  split
  · rename_i hzero
    rw [advance, if_pos hlen]
    apply takes_got
    rw [h4, UInt32.toNat_inj.mp (show x.toNat = (0 : UInt32).toNat from hzero)]
    rfl
  split
  · rename_i hone
    rw [UInt32.toNat_inj.mp (show x.toNat = (1 : UInt32).toNat from hone)] at h4
    exact takes_decodeFlag h4
  split
  · rename_i hfive
    rw [UInt32.toNat_inj.mp (show x.toNat = (5 : UInt32).toNat from hfive)] at h4
    exact takes_decodeHave h4
  rename_i hzero hone hfive
  cases hid : src[4]? with
  | none => exact takes_none
  | some id =>
    show Takes (if id = bitfieldId then _ else _) src SameFrame
    split
    · subst id
      exact takes_decodeBitfield h4 hid hzero
    · refine takes_decodePayload h4 hid hzero fun hle => ⟨?_, ?_⟩
      · intro hrequest
        by_contra hlong
        exact hfits ⟨h0, x, id, hx, hid, hle, Or.inl ⟨hrequest, Nat.not_le.mp hlong⟩⟩
      · intro hport
        by_contra hlong
        exact hfits ⟨h0, x, id, hx, hid, hle, Or.inr ⟨hport, Nat.not_le.mp hlong, hfive⟩⟩

/-- a frame that is too long is taken for a message -/
theorem decode_tooLong (c : PeerWireCodec) (h : TooLong src) :
    ∃ n m, n ≤ src.length ∧ c.decode src = some (.got m (src.drop n)) ∧ ¬ m.isBitfield ∧ m.asBytes.length < n := by
  obtain ⟨h0, x, id, hx, hid, hle, hlong⟩ := h
  have hneg : x.toNat ≠ 0 ∧ x.toNat ≠ 1 ∧ x.toNat ≠ 5 := by
    rcases hlong with ⟨-, hlong⟩ | ⟨-, hlong, hne⟩ <;> refine ⟨?_, ?_, ?_⟩ <;> omega
  have hnotField : id ≠ bitfieldId := by
    rcases hlong with ⟨rfl | rfl, -⟩ | ⟨rfl, -⟩ <;> decide
  have hpayload : c.decode src = decodePayload x.toNat id src := by
    rw [decode_of_starts c h0 hx, decodeLength, if_neg hneg.1, if_neg hneg.2.1, if_neg hneg.2.2, hid]
    exact if_neg hnotField
  have hlen : (src.take (4 + x.toNat)).length = 4 + x.toNat := by rw [List.length_take, Nat.min_eq_left hle]
  have hread : ∀ {β : Type} (read : List UInt8 → Option β) (mk : β → PeerMessage) (k : Nat),
      (read (src.take (4 + x.toNat)) = none → 4 + x.toNat < k) → k ≤ 4 + x.toNat →
      ∃ b, (splitTo src (4 + x.toNat) >>= fun (msg, rest) => read msg >>= fun b => some (.got (mk b) rest))
        = some (Decoded.got (mk b) (src.drop (4 + x.toNat))) := by
    intro β read mk k hnone hk
    rw [splitTo_eq_some hle]
    cases hb : read (src.take (4 + x.toNat)) with
    | none => exact absurd (hnone hb) (Nat.not_lt.mpr hk)
    | some b => exact ⟨b, by simp [hb]⟩
  have hcomplete : ¬ src.length < 4 + x.toNat := Nat.not_lt.mpr hle
  rw [hpayload, decodePayload]
  rcases hlong with ⟨rfl | rfl, hlong⟩ | ⟨rfl, hlong, -⟩
  · obtain ⟨r, hr⟩ := hread readRequest request 17 (fun hn => hlen ▸ readRequest_eq_none.mp hn) (by omega)
    refine ⟨_, _, hle, (if_neg hcomplete).trans ((if_pos rfl).trans hr), Bool.false_ne_true, ?_⟩
    show 17 < 4 + x.toNat
    omega
  · obtain ⟨r, hr⟩ := hread readRequest cancel 17 (fun hn => hlen ▸ readRequest_eq_none.mp hn) (by omega)
    refine ⟨_, _, hle, (if_neg hcomplete).trans hr, Bool.false_ne_true, ?_⟩
    show 17 < 4 + x.toNat
    omega
  · obtain ⟨p, hp⟩ := hread (fun msg => (sliceFrom msg 5).bind readU16) port 7
      (fun hn => hlen ▸ readPort_eq_none.mp hn) (by omega)
    refine ⟨_, _, hle, (if_neg hcomplete).trans hp, Bool.false_ne_true, ?_⟩
    show 7 < 4 + x.toNat
    omega

/-- **The decoder accepts canonical frames only, but for the ones that are too long.** -/
theorem decode_canonical_iff (c : PeerWireCodec) (src : List UInt8) :
    (∀ d m, c.decode src = some d → d.result = .ok (some m) → ∃ frame, src = frame ++ d.src ∧ SameFrame frame m) ↔
      ¬ TooLong src := by
  constructor
  · intro h hlong
    obtain ⟨n, m, hn, hdec, hfield, hshort⟩ := decode_tooLong c hlong
    obtain ⟨frame, hsrc, hsame⟩ := h _ m hdec rfl
    have hframe : frame.length = n := by
      have hlen := congrArg List.length hsrc
      rw [List.length_append, show (Decoded.got m (src.drop n)).src = src.drop n from rfl, List.length_drop] at hlen
      omega
    have heq : frame.length = m.asBytes.length := by
      cases m with
      | bitfield f => exact hsame.1
      | _ => exact congrArg List.length hsame
    omega
  · intro hfits
    show Takes (c.decode src) src SameFrame
    by_cases h4 : src.length < 4
    · rw [PeerWireCodec.decode, if_pos h4]
      exact takes_needMore _ _
    have hfirst : src[0]? = some src[0] := List.getElem?_eq_getElem (by omega)
    by_cases h0 : src[0] = handshakeId
    · rw [PeerWireCodec.decode, if_neg h4, hfirst]
      show Takes (if src[0] = handshakeId then _ else _) src SameFrame
      rw [if_pos h0]
      exact takes_decodeHandshake (hfirst.trans (congrArg some h0))
    · have hne : src[0]? ≠ some handshakeId := by
        rw [hfirst]
        exact fun heq => h0 (Option.some.inj heq)
      obtain ⟨x, hx⟩ := readU32_isSome (Nat.not_lt.mp h4)
      rw [decode_of_starts c hne hx]
      exact takes_decodeLength hne hx hfits

/-- a request with one byte more than it needs is taken whole -/
theorem decode_long_request :
    PeerWireCodec.default.decode ([0, 0, 0, 14, 6] ++ [0, 0, 0, 1] ++ [0, 0, 0, 2] ++ [0, 0, 0, 3] ++ [99])
        = some (.got (.request ⟨1, 2, 3⟩) []) ∧
      ¬ ∀ src d m, PeerWireCodec.default.decode src = some d → d.result = .ok (some m) →
        ∃ frame, src = frame ++ d.src ∧ SameFrame frame m := by
  have hdec : PeerWireCodec.default.decode
      ([0, 0, 0, 14, 6] ++ [0, 0, 0, 1] ++ [0, 0, 0, 2] ++ [0, 0, 0, 3] ++ [99])
        = some (.got (.request ⟨1, 2, 3⟩) []) := rfl
  refine ⟨hdec, ?_⟩
  intro h
  obtain ⟨frame, hsrc, hsame⟩ := h _ _ _ hdec rfl
  have hlen := congrArg List.length (hsrc.trans (List.append_nil frame))
  rw [show frame = (request ⟨1, 2, 3⟩).asBytes from hsame] at hlen
  exact absurd hlen (by decide)

end

end Btt
