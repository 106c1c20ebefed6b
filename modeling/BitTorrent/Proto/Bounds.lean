import BitTorrent.Proto.Canonical

/-!
# The limit of the codec

`PeerWireCodec` has a maximum number of bytes per frame, `decode` does not look at it.  The length of a frame
can be told from its first bytes (`declaredFrame`): 68 for a handshake, 4, 5 and 9 for the prefixes 0, 1 and 5,
otherwise by counting bits or bytes, depending on the id.

* `Framed`                what each branch of `decode` does with a frame of `n` bytes;
* `framesBounded_iff`     so the limit is kept on a buffer exactly if the frame is not longer than it, or is
                          complete and refused for another reason.
-/

namespace Btt
open Bytes PeerMessage

/-- The number of bytes of a frame with this length prefix.  In the message of a bitfield the prefix counts
bits; before the id can be read, this is the least the prefix stands for. -/
def declaredLength (length : Nat) (src : List UInt8) : Nat :=
  if length = 0 then 4
  else if length = 1 then 5
  else if length = 5 then 9
  else if src[4]? = none ∨ src[4]? = some bitfieldId then 5 + (length - 1 + 7) / 8
  else 4 + length

/-- the number of bytes of the frame the buffer starts with, as soon as it can be read -/
def declaredFrame (src : List UInt8) : Option Nat :=
  if src[0]? = some handshakeId ∧ 4 ≤ src.length then some 68
  else (readU32 src).map fun length => declaredLength length.toNat src

/-- no message of this length has the id -/
def UnknownId (length : Nat) (id : UInt8) : Prop :=
  if length = 0 then False
  else if length = 1 then id ∉ [chokeId, unchokeId, interestedId, notInterestedId]
  else if length = 5 then id ≠ haveId
  else id ∉ [bitfieldId, requestId, pieceId, cancelId, portId]

/-- the frame is no handshake of the protocol, or has an unknown id -/
def WrongKind (src : List UInt8) : Prop :=
  if src[0]? = some handshakeId then (src.take 20).drop 1 ≠ Handshake.bittorrentIdentifier
  else ∃ length id, readU32 src = some length ∧ src[4]? = some id ∧ UnknownId length.toNat id

/-- the buffer has a complete frame of a wrong kind -/
def Malformed (src : List UInt8) : Prop := WrongKind src ∧ ∃ n, declaredFrame src = some n ∧ n ≤ src.length

/-- the codec keeps its limit on the buffer: no longer frame is returned or waited for, and a longer one is an
error as soon as its length can be read -/
structure PeerWireCodec.FramesBounded (c : PeerWireCodec) (src : List UInt8) : Prop where
  message : ∀ d m, c.decode src = some d → d.result = .ok (some m) → src.length - d.src.length ≤ c.max
  reserve : ∀ d, c.decode src = some d → d.result = .ok none → 0 < d.reserved → src.length + d.reserved ≤ c.max
  declared : ∀ n, declaredFrame src = some n → c.max < n → ∃ d e, c.decode src = some d ∧ d.result = .error e

/-! ## the branches -/

/-- What a branch answers to a frame of `n` bytes: it waits for the rest of the frame, refuses a complete frame
of a wrong kind, or takes the frame for a message, unless it panics. -/
inductive Framed (src : List UInt8) (n : Nat) (wrong : Prop) : Option Decoded → Prop
  | panics (hright : n ≤ src.length → ¬ wrong) : Framed src n wrong none
  | waits {more : Nat} (hlt : src.length < n) (hmore : more = 0 ∨ src.length + more = n) :
      Framed src n wrong (some (.needMore src more))
  | refuses {text : String} (hle : n ≤ src.length) (hwrong : wrong) : Framed src n wrong (some (.bad text src))
  | takes {m : PeerMessage} (hle : n ≤ src.length) (hright : ¬ wrong) :
      Framed src n wrong (some (.got m (src.drop n)))

/-- a frame that is split off and read -/
theorem framed_read {src : List UInt8} {n : Nat} {wrong : Prop} {β : Type} (read : List UInt8 → Option β)
    (mk : β → PeerMessage) (hle : n ≤ src.length) (hright : ¬ wrong) :
    Framed src n wrong (splitTo src n >>= fun (msg, rest) => read msg >>= fun b => some (.got (mk b) rest)) := by
  rw [splitTo_eq_some hle]
  show Framed src n wrong (read (src.take n) >>= fun b => some (.got (mk b) (src.drop n)))
  cases hread : read (src.take n) with
  | none => exact .panics fun _ => hright
  | some b => exact .takes hle hright

section
variable (src : List UInt8)

theorem framed_decodeHandshake :
    Framed src 68 ((src.take 20).drop 1 ≠ Handshake.bittorrentIdentifier) (decodeHandshake src) := by
  by_cases hlen : src.length < 68
  · rw [decodeHandshake, if_pos hlen]
    exact .waits hlen (Or.inr (by omega))
  have hle : 68 ≤ src.length := Nat.not_lt.mp hlen
  by_cases hident : (src.take 20).drop 1 = Handshake.bittorrentIdentifier
  · rw [decodeHandshake_eq hlen hident]
    cases readHandshake (src.take 68) with
    | none => exact .panics fun _ hwrong => hwrong hident
    | some h => exact .takes hle fun hwrong => hwrong hident
  · rw [decodeHandshake, if_neg hlen, slice_isSome (by omega) (by omega)]
    show Framed src 68 _ (if (src.take 20).drop 1 ≠ Handshake.bittorrentIdentifier then _ else _)
    rw [if_pos hident]
    exact .refuses hle hident

theorem flagOf_eq_none {id : UInt8} :
    flagOf id = none ↔ id ∉ [chokeId, unchokeId, interestedId, notInterestedId] := by
  simp only [flagOf, List.mem_cons, List.not_mem_nil, or_false, not_or]
  split
  · simp [*]
  split
  · simp [*]
  split
  · simp [*]
  split
  · simp [*]
  · simp [*]

variable {src}

theorem framed_decodeFlag {wrong : Prop} (hwrong : ∀ id, src[4]? = some id → (wrong ↔ UnknownId 1 id)) :
    Framed src 5 wrong (decodeFlag src) := by
  unfold decodeFlag
  split
  · exact .waits ‹_› (Or.inl rfl)
  · rename_i hlen
    have hid : src[4]? = some src[4] := List.getElem?_eq_getElem (by omega)
    have hunknown : wrong ↔ flagOf src[4] = none := (hwrong _ hid).trans flagOf_eq_none.symm
    rw [hid, Option.bind_eq_bind, Option.bind_some]
    cases hflag : flagOf src[4] with
    | none => exact .refuses (Nat.not_lt.mp hlen) (hunknown.mpr hflag)
    | some m =>
      show Framed src 5 wrong (advance src 5 >>= fun rest => some (.got m rest))
      rw [advance, if_pos (Nat.not_lt.mp hlen)]
      refine .takes (Nat.not_lt.mp hlen) fun h => ?_
      cases hflag.symm.trans (hunknown.mp h)

theorem framed_decodeHave {wrong : Prop} (hwrong : ∀ id, src[4]? = some id → (wrong ↔ UnknownId 5 id)) :
    Framed src 9 wrong (decodeHave src) := by
  unfold decodeHave
  split
  · exact .waits ‹_› (Or.inr (by omega))
  · rename_i hlen
    have hle : 9 ≤ src.length := Nat.not_lt.mp hlen
    have hid : src[4]? = some src[4] := List.getElem?_eq_getElem (by omega)
    have hunknown : wrong ↔ src[4] ≠ haveId := hwrong _ hid
    rw [hid]
    show Framed src 9 wrong (if src[4] = haveId then _ else _)
    split
    · rename_i hhave
      exact framed_read (fun msg => (slice msg 5 9).bind readU32) have_ hle (fun h => hunknown.mp h hhave)
    · exact .refuses hle (hunknown.mpr ‹_›)

theorem framed_decodeBitfield {length : Nat} (h0 : length ≠ 0) (h1 : length ≠ 1) {wrong : Prop} (hright : ¬ wrong) :
    Framed src (5 + (length - 1 + 7) / 8) wrong (decodeBitfield length src) := by
  have hbytes : (length - 1) / 8 + (if (length - 1) % 8 > 0 then 1 else 0) + 5 = 5 + (length - 1 + 7) / 8 := by
    split <;> omega
  unfold decodeBitfield
  simp only [hbytes]
  rw [if_neg (by omega)]
  split
  · exact .waits ‹_› (Or.inr (by omega))
  · exact framed_read (fun msg => sliceFrom msg 5)
      (fun bytes => bitfield ((BitField.fromBytes bytes).truncate (length - 1))) (Nat.not_lt.mp ‹_›) hright

theorem framed_decodePayload {length : Nat} {id : UInt8} {wrong : Prop}
    (hwrong : wrong ↔ id ∉ [requestId, pieceId, cancelId, portId]) :
    Framed src (4 + length) wrong (decodePayload length id src) := by
  unfold decodePayload
  simp only
  split
  · exact .waits ‹_› (Or.inr (by omega))
  rename_i hlen
  have hle : 4 + length ≤ src.length := Nat.not_lt.mp hlen
  -- the four ids are the ones that are read
  have hright : id ∈ [requestId, pieceId, cancelId, portId] → ¬ wrong := fun hmem h => hwrong.mp h hmem
  split
  · exact framed_read readRequest request hle (hright (by simp [*]))
  split
  · exact framed_read readPiece piece hle (hright (by simp [*]))
  split
  · exact framed_read readRequest cancel hle (hright (by simp [*]))
  split
  · exact framed_read (fun msg => (sliceFrom msg 5).bind readU16) port hle (hright (by simp [*]))
  · exact .refuses hle (hwrong.mpr (by simp [*]))

/-- with the id at hand there is only one to look at -/
theorem exists_id_iff {id : UInt8} (hid : src[4]? = some id) {P : UInt8 → Prop} :
    (∃ id, src[4]? = some id ∧ P id) ↔ P id := by
  rw [hid]
  constructor
  · rintro ⟨id', heq, hP⟩
    cases heq
    exact hP
  · exact fun hP => ⟨id, rfl, hP⟩

theorem framed_decodeLength (hlen : 4 ≤ src.length) (length : Nat) :
    Framed src (declaredLength length src) (∃ id, src[4]? = some id ∧ UnknownId length id)
      (decodeLength length src) := by
  unfold decodeLength declaredLength
  split
  · rename_i h0
    subst h0
    rw [advance, if_pos hlen]
    refine .takes hlen ?_
    rintro ⟨id, -, hunknown⟩
    exact hunknown
  split
  · rename_i h1
    subst h1
    exact framed_decodeFlag fun id hid => exists_id_iff hid
  split
  · rename_i h5
    subst h5
    exact framed_decodeHave fun id hid => exists_id_iff hid
  rename_i h0 h1 h5
  have hunknown : ∀ id, UnknownId length id ↔ id ∉ [bitfieldId, requestId, pieceId, cancelId, portId] := by
    intro id
    rw [UnknownId, if_neg h0, if_neg h1, if_neg h5]
  cases hid : src[4]? with
  | none =>
    refine .panics fun _ => ?_
    rintro ⟨id, hsome, -⟩
    cases hsome
  | some id =>
    show Framed src _ _ (if id = bitfieldId then _ else _)
    by_cases hfield : id = bitfieldId
    · rw [if_pos hfield, if_pos (Or.inr (congrArg some hfield))]
      refine framed_decodeBitfield h0 h1 ?_
      rintro ⟨id, hsome, hwrong⟩
      cases hsome
      rw [hfield] at hwrong
      exact (hunknown _).mp hwrong List.mem_cons_self
    · rw [if_neg hfield, if_neg (by simp [hfield])]
      refine framed_decodePayload ?_
      rw [← hid, exists_id_iff hid, hunknown, List.mem_cons, not_or]
      exact and_iff_right hfield

/-- four bytes tell the length of the frame, and `decode` does with it what its branch does -/
theorem framed_decode (c : PeerWireCodec) (hlen : 4 ≤ src.length) :
    ∃ n, declaredFrame src = some n ∧ Framed src n (WrongKind src) (c.decode src) := by
  obtain ⟨length, hlength⟩ := readU32_isSome hlen
  by_cases h0 : src[0]? = some handshakeId
  · refine ⟨68, if_pos ⟨h0, hlen⟩, ?_⟩
    rw [PeerWireCodec.decode, if_neg (Nat.not_lt.mpr hlen), h0, WrongKind, if_pos h0]
    exact framed_decodeHandshake src
  · refine ⟨declaredLength length.toNat src, ?_, ?_⟩
    · rw [declaredFrame, if_neg (fun h => h0 h.1), hlength]
      rfl
    · rw [decode_of_starts c h0 hlength, WrongKind, if_neg h0, hlength]
      have hwrong : (∃ length' id, some length = some length' ∧ src[4]? = some id ∧ UnknownId length'.toNat id)
          ↔ ∃ id, src[4]? = some id ∧ UnknownId length.toNat id := by
        constructor
        · rintro ⟨length', id, heq, hid⟩
          cases heq
          exact ⟨id, hid⟩
        · rintro ⟨id, hid⟩
          exact ⟨length, id, rfl, hid⟩
      rw [hwrong]
      exact framed_decodeLength hlen length.toNat

/-! ## the limit -/

theorem declaredFrame_of_lt (h : src.length < 4) : declaredFrame src = none := by
  rw [declaredFrame, if_neg (fun hc => Nat.not_lt.mpr hc.2 h), readU32_eq_none.mpr h]
  rfl

section
variable {c : PeerWireCodec} {n : Nat} {r : Option Decoded}

/-- a frame longer than the limit is an error only if it is complete and of a wrong kind -/
theorem Framed.of_bounded (h : Framed src n (WrongKind src) r) (hr : c.decode src = r)
    (hn : declaredFrame src = some n) (hb : c.FramesBounded src) : n ≤ c.max ∨ (WrongKind src ∧ n ≤ src.length) := by
  by_cases hmax : n ≤ c.max
  · exact Or.inl hmax
  · obtain ⟨d, e, hd, he⟩ := hb.declared n hn (Nat.not_le.mp hmax)
    have heq := hr.symm.trans hd
    cases h with
    | panics => cases heq
    | waits hlt hmore =>
      cases heq
      cases he
    | refuses hle hwrong => exact Or.inr ⟨hwrong, hle⟩
    | takes hle hright =>
      cases heq
      cases he

/-- of a frame within the limit nothing is returned or waited for beyond it -/
theorem Framed.bounded_of_le (h : Framed src n (WrongKind src) r) (hr : c.decode src = r)
    (hn : declaredFrame src = some n) (hmax : n ≤ c.max) : c.FramesBounded src where
  message d m hd hm := by
    have heq := hr.symm.trans hd
    cases h with
    | panics => cases heq
    | waits hlt hmore =>
      cases heq
      cases hm
    | refuses hle hwrong =>
      cases heq
      cases hm
    | takes hle hright =>
      cases heq
      show src.length - (src.drop n).length ≤ c.max
      rw [List.length_drop]
      omega
  reserve d hd hnone hpos := by
    have heq := hr.symm.trans hd
    cases h with
    | panics => cases heq
    | waits hlt hmore =>
      cases heq
      rcases hmore with rfl | hmore
      · cases hpos
      · exact Nat.le_trans (Nat.le_of_eq hmore) hmax
    | refuses hle hwrong =>
      cases heq
      cases hnone
    | takes hle hright =>
      cases heq
      cases hnone
  declared n' hn' hlong := by
    cases hn.symm.trans hn'
    exact absurd hmax (Nat.not_le.mpr hlong)

/-- a complete frame of a wrong kind is an error, so the limit does not matter -/
theorem Framed.bounded_of_wrong (h : Framed src n (WrongKind src) r) (hr : c.decode src = r)
    (hwrong : WrongKind src) (hle : n ≤ src.length) : c.FramesBounded src := by
  have herror : ∃ text, c.decode src = some (.bad text src) := by
    cases h with
    | panics hright => exact absurd hwrong (hright hle)
    | waits hlt hmore => exact absurd hle (Nat.not_le.mpr hlt)
    | refuses hle hwrong => exact ⟨_, hr⟩
    | takes hle hright => exact absurd hwrong hright
  obtain ⟨text, hd⟩ := herror
  refine ⟨?_, ?_, fun n' _ _ => ⟨_, _, hd, rfl⟩⟩
  · intro d m hd' hm
    cases hd.symm.trans hd'
    cases hm
  · intro d hd' hnone
    cases hd.symm.trans hd'
    cases hnone

end

/-- **Frames are bounded by the maximum of the codec** on exactly the buffers whose frame is not longer than it
anyway, or is complete and of a wrong kind: `decode` refuses no frame for its length. -/
theorem framesBounded_iff (c : PeerWireCodec) (src : List UInt8) :
    c.FramesBounded src ↔ ∀ n, declaredFrame src = some n → n ≤ c.max ∨ Malformed src := by
  by_cases hlen : src.length < 4
  · have hnone := declaredFrame_of_lt hlen
    have hdecode : c.decode src = some (.needMore src 0) := if_pos hlen
    have hall : ∀ n, declaredFrame src ≠ some n := by
      intro n hn
      rw [hnone] at hn
      cases hn
    refine ⟨fun _ n hn => absurd hn (hall n), fun _ => ⟨?_, ?_, fun n hn => absurd hn (hall n)⟩⟩
    · intro d m hd hm
      cases hd.symm.trans hdecode
      cases hm
    · intro d hd _ hpos
      cases hd.symm.trans hdecode
      cases hpos
  · obtain ⟨n, hn, hframed⟩ := framed_decode c (Nat.not_lt.mp hlen)
    constructor
    · intro hb n' hn'
      cases hn.symm.trans hn'
      exact (hframed.of_bounded rfl hn hb).imp_right fun hw => ⟨hw.1, n, hn, hw.2⟩
    · intro h
      rcases h n hn with hmax | ⟨hwrong, n', hn', hle⟩
      · exact hframed.bounded_of_le rfl hn hmax
      · cases hn.symm.trans hn'
        exact hframed.bounded_of_wrong rfl hwrong hle

/-- five bytes from a remote that announce a piece of two gigabytes make the decoder wait for it -/
theorem decode_waits_for_long_piece :
    PeerWireCodec.default.decode [0x7f, 0xff, 0xff, 0xff, 7]
        = some (.needMore [0x7f, 0xff, 0xff, 0xff, 7] 2147483646) ∧
      PeerWireCodec.default.max < 5 + 2147483646 ∧
      ¬ PeerWireCodec.default.FramesBounded [0x7f, 0xff, 0xff, 0xff, 7] := by
  have hdecode : PeerWireCodec.default.decode [0x7f, 0xff, 0xff, 0xff, 7]
      = some (.needMore [0x7f, 0xff, 0xff, 0xff, 7] 2147483646) := rfl
  have hmax : PeerWireCodec.default.max < 5 + 2147483646 := by decide
  refine ⟨hdecode, hmax, ?_⟩
  intro h
  exact absurd (h.reserve _ hdecode rfl (by decide)) (Nat.not_le.mpr hmax)

end

end Btt
