import BitTorrent.Lib.Channel
import BitTorrent.Proto.Framing
import BitTorrent.Proto.Wire

/-!
# Messages over a connection

One side encodes messages, the bytes arrive in pieces of any size, and the other side calls `decode` on what has
arrived, as often as it likes.

* `Survives`          the messages that one `decode` gives back;
* `decode_part`       on a part of such a message `decode` waits, unless exactly the four bytes of the length prefix are
                      there and the id behind it is read without a check;
* `channel_in_order`  so messages come out in the order they went in, each as soon as its bytes are there, and the
                      connection is lost exactly by a call that finds these four bytes.
-/

namespace Btt
open Bytes Run Framing PeerMessage

namespace PeerMessage

/-- one `decode` gives the message back: a block is not too long, and a bitfield does not have four bits -/
def Survives : PeerMessage → Prop
  | .bitfield f => 1 ≤ f.len ∧ f.len < 0x12FFFFFF ∧ f.len ≠ 4
  | .piece p => p.block.length ≤ blockSizeMax
  | _ => True

/-- the length prefix is not 0, 1 or 5: the id behind it is read without a check -/
def idUnchecked : PeerMessage → Bool
  | .bitfield _ => true
  | .request _ => true
  | .piece _ => true
  | .cancel _ => true
  | .port _ => true
  | _ => false

end PeerMessage

variable {c : PeerWireCodec} {m : PeerMessage}

theorem decode_survives (c : PeerWireCodec) (hm : m.Survives) (rest : List UInt8) :
    c.decode (m.asBytes ++ rest) = some (.got m rest) := by
  cases m with
  | bitfield f =>
    obtain ⟨h1, h2, h4⟩ := hm
    have hx := toNat_bitfield_prefix f.len h2
    have hsplit : (PeerMessage.bitfield f).asBytes ++ rest
        = writeU32 (1 + UInt32.ofNat f.len) ++ (5 :: f.toBytes) ++ rest := by simp [asBytes]
    rw [hsplit, List.append_assoc, decode_frame c _ _ (by omega), hx, List.cons_append, decodeLength,
      if_neg (by omega), if_neg (by omega), if_neg (by omega), getElem_four]
    simp only [Option.bind_eq_bind, Option.bind_some]
    rw [if_pos (show (5 : UInt8) = bitfieldId from rfl)]
    have hget := decodeBitfield_toBytes (1 + UInt32.ofNat f.len) f rest h1
    rw [List.append_assoc] at hget
    exact hget
  | piece p => exact decode_asBytes c _ rest rfl (decide_eq_true hm)
  | _ => exact decode_asBytes c _ rest rfl rfl

theorem encodes (c : PeerWireCodec) : Encodes c.wireDecoder asBytes Survives := by
  refine ⟨fun hm rest => ?_⟩
  show (c.decode _).map Decoded.reply = _
  rw [decode_survives c hm]
  rfl

/-! ## parts of a message -/

/-- what precedes an unchecked id, and how long the frame is -/
theorem frame_of_idUnchecked (hm : m.Survives) (hid : m.idUnchecked = true) :
    ∃ (x : UInt32) (id : UInt8) (body : List UInt8),
    m.asBytes = writeU32 x ++ (id :: body) ∧ x.toNat < 318767104 ∧ x.toNat ≠ 0 ∧ x.toNat ≠ 1 ∧ x.toNat ≠ 5 ∧
      (id ≠ bitfieldId → m.asBytes.length = 4 + x.toNat) := by
  cases m with
  | bitfield f =>
    obtain ⟨h1, h2, h4⟩ := hm
    have hx := toNat_bitfield_prefix f.len h2
    exact ⟨1 + UInt32.ofNat f.len, 5, f.toBytes, by simp [asBytes], by omega, by omega, by omega, by omega,
      fun h => (h rfl).elim⟩
  | piece p =>
    have hl : p.block.length ≤ 16777216 := hm
    have hx : (9 + UInt32.ofNat p.block.length).toNat = 9 + p.block.length := by
      rw [UInt32.toNat_add, UInt32.toNat_ofNat']
      show (9 + p.block.length % 4294967296) % 4294967296 = _
      omega
    exact ⟨9 + UInt32.ofNat p.block.length, 7, writeU32 p.index ++ writeU32 p.begin_ ++ p.block, by simp [asBytes],
      by omega, by omega, by omega, by omega, fun _ => by simp [asBytes]; omega⟩
  | request r =>
    exact ⟨13, 6, requestBytes r, by simp [asBytes], by decide, by decide, by decide, by decide,
      fun _ => by simp [asBytes, requestBytes]⟩
  | cancel r =>
    exact ⟨13, 8, requestBytes r, by simp [asBytes], by decide, by decide, by decide, by decide,
      fun _ => by simp [asBytes, requestBytes]⟩
  | port p =>
    exact ⟨3, 9, writeU16 p, by simp [asBytes], by decide, by decide, by decide, by decide,
      fun _ => by simp [asBytes, writeU16]⟩
  | _ => cases hid

/-- a beginning of four bytes or more has the length prefix whole -/
theorem part_of_prefix {x : UInt32} {r b s : List UInt8} (hb : b ++ s = writeU32 x ++ r) (hlen : 4 ≤ b.length) :
    ∃ t, b = writeU32 x ++ t ∧ t ++ s = r := by
  have hx : (writeU32 x).length = 4 := length_writeU32 x
  obtain ⟨t, rfl⟩ : writeU32 x <+: b := List.prefix_of_prefix_length_le ⟨r, hb.symm⟩ ⟨s, rfl⟩ (by omega)
  rw [List.append_assoc] at hb
  exact ⟨t, rfl, List.append_cancel_left hb⟩

/-- **Part of a message.**  `decode` crashes on the bare length prefix of a message with an unchecked id, and on no
other part of a message that survives. -/
theorem decode_part (c : PeerWireCodec) (hm : m.Survives) {b s : List UInt8} (hs : s ≠ []) (hb : b ++ s = m.asBytes) :
    c.decode b = none ↔ b.length = 4 ∧ m.idUnchecked = true := by
  by_cases hshort : b.length < 4
  · have hret : c.decode b = some (.needMore b 0) := if_pos hshort
    rw [hret]
    exact ⟨(by rintro ⟨⟩), fun h => absurd h.1 (Nat.ne_of_lt hshort)⟩
  have hlen : 4 ≤ b.length := Nat.not_lt.mp hshort
  -- the messages with a checked id
  have hchecked : ∀ {x : UInt32} {r : List UInt8}, m.idUnchecked = false → m.asBytes = writeU32 x ++ r →
      x.toNat < 318767104 → (∀ b, decodeLength x.toNat b ≠ none) →
      (c.decode b = none ↔ b.length = 4 ∧ m.idUnchecked = true) := by
    intro x r hid hbytes hx hret
    obtain ⟨t, rfl, -⟩ := part_of_prefix (hb.trans hbytes) hlen
    rw [decode_frame c x t hx, hid]
    exact ⟨fun h => (hret _ h).elim, (by rintro ⟨-, ⟨⟩⟩)⟩
  have hflag : ∀ {id : UInt8}, m.idUnchecked = false → m.asBytes = writeU32 1 ++ [id] →
      (c.decode b = none ↔ b.length = 4 ∧ m.idUnchecked = true) := by
    intro id hid hbytes
    refine hchecked hid hbytes (by decide) fun b h => decodeFlag_returns b ?_
    rwa [decodeLength, if_neg (by decide), if_pos (by decide)] at h
  cases hid : m.idUnchecked with
  | true =>
    obtain ⟨x, id, body, hbytes, hx, h0, h1, h5, hwhole⟩ := frame_of_idUnchecked hm hid
    obtain ⟨t, rfl, ht⟩ := part_of_prefix (hb.trans hbytes) hlen
    rw [decode_frame c x t hx, decodeLength, if_neg h0, if_neg h1, if_neg h5]
    cases t with
    | nil => exact iff_of_true rfl ⟨rfl, rfl⟩
    | cons id' t =>
      obtain ⟨rfl, ht⟩ := List.cons.inj ht
      rw [getElem_four]
      simp only [Option.bind_eq_bind, Option.bind_some]
      refine iff_of_false ?_ (by simp)
      split
      · exact decodeBitfield_returns _ _
      · rename_i hne
        have hpart : (writeU32 x ++ (id' :: t)).length < 4 + x.toNat := by
          have hpos := List.length_pos_of_ne_nil hs
          have htotal := congrArg List.length hb
          rw [List.length_append, hwhole hne] at htotal
          omega
        rw [decodePayload, if_pos hpart]
        rintro ⟨⟩
  | false =>
    rw [← hid]
    cases m with
    | keepAlive =>
      have htotal := congrArg List.length hb
      rw [List.length_append] at htotal
      have hpos := List.length_pos_of_ne_nil hs
      have h4 : (PeerMessage.keepAlive).asBytes.length = 4 := rfl
      omega
    | choke => exact hflag rfl rfl
    | unChoke => exact hflag rfl rfl
    | interested => exact hflag rfl rfl
    | notInterested => exact hflag rfl rfl
    | have_ index =>
      refine hchecked rfl (List.append_assoc ..) (by decide) fun b h => decodeHave_returns b ?_
      rwa [decodeLength, if_neg (by decide), if_neg (by decide), if_pos (by decide)] at h
    | handshake h =>
      cases b with
      | nil => exact absurd hlen (by decide)
      | cons b₀ b =>
        have hfirst : b₀ = handshakeId := by
          have h0 := congrArg List.head? hb
          exact Option.some.inj h0
        have hdec : c.decode (b₀ :: b) = decodeHandshake (b₀ :: b) := by
          rw [PeerWireCodec.decode, if_neg hshort, List.getElem?_cons_zero]
          show (if b₀ = handshakeId then _ else _) = _
          rw [if_pos hfirst]
        rw [hdec]
        exact ⟨fun h => (decodeHandshake_returns _ h).elim, (by rintro ⟨-, ⟨⟩⟩)⟩
    | _ => cases hid

/-! ## the channel -/

abbrev Wire := Channel UInt8 PeerMessage
abbrev WireOp := ChannelOp PeerMessage

namespace PeerWireCodec

/-- a connection with the codec at both ends; `none`: it is lost -/
def wireStep (c : PeerWireCodec) (w : Wire) (op : WireOp) : Option Wire := w.step c.wireDecoder asBytes op

def wireNext (c : PeerWireCodec) (s : Option Wire) (op : WireOp) : Option Wire := s.bind fun w => c.wireStep w op

end PeerWireCodec

/-- the message that comes out next -/
def Wire.coming (w : Wire) : Option PeerMessage := w.sent[w.received.length]?

/-- the four bytes have arrived on which the decoder crashes -/
def Wire.Crashes (w : Wire) : Prop :=
  w.buffer.length = 4 ∧ ((Wire.coming w).any PeerMessage.idUnchecked) = true

/-- what the other end gets, and when -/
structure InOrder (c : PeerWireCodec) (w : Wire) : Prop where
  received : w.received <+: w.sent
  delivers : ∀ m, Wire.coming w = some m → w.Arrived asBytes m → c.wireStep w .receive
    = some { w with buffer := w.buffer.drop m.asBytes.length, received := w.received ++ [m] }
  waits : (∀ m, Wire.coming w = some m → ¬ w.Arrived asBytes m) → ¬ Wire.Crashes w → c.wireStep w .receive = some w
  complete : w.wire = [] → w.buffer = [] → w.received = w.sent

section
variable {w : Wire} {rest : List PeerMessage}

theorem coming_eq (h : w.InTransit asBytes Survives rest) : Wire.coming w = rest.head? := by
  rw [Wire.coming, h.sent, List.getElem?_append_right (Nat.le_refl _), Nat.sub_self, List.head?_eq_getElem?]

/-- the decoder crashes on what has arrived exactly if this is a bare length prefix -/
theorem decode_none_iff (h : w.InTransit asBytes Survives rest)
    (hnone : ∀ m, rest.head? = some m → ¬ w.Arrived asBytes m) : c.wireDecoder.decode w.buffer = none ↔ Wire.Crashes w := by
  have hdecode : c.wireDecoder.decode w.buffer = none ↔ c.decode w.buffer = none := Option.map_eq_none_iff
  rw [hdecode, Wire.Crashes, coming_eq h]
  cases rest with
  | nil =>
    have hnil : w.buffer = [] := (List.append_eq_nil_iff.mp h.bytes).1
    rw [hnil]
    exact iff_of_false (show some _ ≠ none from nofun) (by simp)
  | cons m rest =>
    obtain ⟨s, hs, hb⟩ := h.part_of_not_arrived (hnone m rfl)
    rw [decode_part c (h.good m List.mem_cons_self) hs hb]
    rfl

/-- a crash is all that can go wrong -/
theorem wireStep_none_iff (h : w.InTransit asBytes Survives rest) (op : WireOp) :
    c.wireStep w op = none ↔ op = .receive ∧ Wire.Crashes w := by
  cases op with
  | send m => exact ⟨nofun, fun h => nomatch h.1⟩
  | transfer n => exact ⟨nofun, fun h => nomatch h.1⟩
  | receive =>
    rw [PeerWireCodec.wireStep]
    rcases Channel.step_receive (encodes c) h with ⟨m, rest', rfl, ha, heq⟩ | ⟨hnone, heq⟩
    · -- a message with an unchecked id has more than four bytes
      rw [heq]
      refine ⟨nofun, ?_⟩
      rintro ⟨-, hlen, hid⟩
      rw [coming_eq h] at hid
      obtain ⟨x, id, body, hbytes, -⟩ := frame_of_idUnchecked (h.good m List.mem_cons_self) hid
      have hle : m.asBytes.length ≤ w.buffer.length := ha
      rw [hbytes] at hle
      simp at hle
      omega
    · have hiff := decode_none_iff (c := c) h hnone
      rw [heq]
      split
      · rename_i hcrash
        exact iff_of_true rfl ⟨rfl, hiff.mp hcrash⟩
      · rename_i hsafe
        exact iff_of_false nofun fun h => hsafe (hiff.mpr h.2)

theorem InOrder.of_inTransit (h : w.InTransit asBytes Survives rest) : InOrder c w where
  received := ⟨rest, h.sent.symm⟩
  delivers m hm ha := by
    rw [coming_eq h] at hm
    obtain ⟨rest', rfl⟩ := List.head?_eq_some_iff.mp hm
    exact (h.receive (encodes c) ha).1
  waits hnone hsafe := by
    rw [coming_eq h] at hnone
    rw [PeerWireCodec.wireStep, h.wait (encodes c) hnone, if_neg]
    rw [decode_none_iff h hnone]
    exact hsafe
  complete hwire hbuffer := by
    have hbytes := h.bytes
    rw [hwire, hbuffer] at hbytes
    cases rest with
    | nil => rw [h.sent, List.append_nil]
    | cons m rest =>
      have hnil := (List.append_eq_nil_iff.mp hbytes.symm).1
      exact ((encodes c).ne_nil (h.good m List.mem_cons_self) hnil).elim

end

/-- **A connection is a queue of messages, or is lost.**  Let messages be sent that survive, and their bytes arrive in
pieces of any size.  The connection is lost exactly if `decode` is called when the bare length prefix of a message with
an unchecked id has arrived.  Otherwise the messages come out in the order in which they were sent, each at the first
call after all its bytes have arrived, and none is left when there are no bytes left. -/
theorem channel_in_order (c : PeerWireCodec) (ops : List WireOp) (hops : ∀ m, .send m ∈ ops → m.Survives) :
    ((∃ w, exec c.wireNext (some .new) ops = some w) ↔
      Along c.wireNext (fun s op => ∀ w, s = some w → op = .receive → ¬ Wire.Crashes w) (some .new) ops) ∧
    ∀ w, exec c.wireNext (some .new) ops = some w → InOrder c w := by
  have hinv : ∀ ops, (∀ m, .send m ∈ ops → m.Survives) → ∀ w, exec c.wireNext (some .new) ops = some w →
      ∃ rest, w.InTransit asBytes Survives rest :=
    fun ops hops w hrun => Channel.inTransit_run (encodes c) hops hrun
  refine ⟨?_, fun w hrun => (hinv ops hops w hrun).elim fun rest h => .of_inTransit h⟩
  induction ops using List.reverseRecOn with
  | nil => exact iff_of_true ⟨_, rfl⟩ trivial
  | append_singleton ops op ih =>
    have hops' : ∀ m, .send m ∈ ops → m.Survives := fun m hm => hops m (List.mem_append_left _ hm)
    rw [along_snoc, ← ih hops', exec_snoc]
    cases hw : exec c.wireNext (some .new) ops with
    | none => exact iff_of_false (fun h => nomatch h) fun h => nomatch h.1
    | some w =>
      obtain ⟨rest, h⟩ := hinv ops hops' w hw
      have hnone := wireStep_none_iff (c := c) h op
      show (∃ w', c.wireStep w op = some w') ↔ _
      rw [← Option.ne_none_iff_exists', Ne, hnone]
      constructor
      · intro hne
        refine ⟨⟨w, rfl⟩, ?_⟩
        rintro _ ⟨⟩ rfl hcrash
        exact hne ⟨rfl, hcrash⟩
      · rintro ⟨-, hsafe⟩ ⟨rfl, hcrash⟩
        exact hsafe w rfl rfl hcrash

/-- a request and a keep-alive in two pieces -/
def inPieces (n : Nat) : List WireOp :=
  [.send (.request ⟨0, 0, 1⟩), .send .keepAlive, .transfer n, .receive, .transfer 21, .receive, .receive]

theorem channel_in_order_pieces :
    (∃ w, exec PeerWireCodec.default.wireNext (some .new) (inPieces 5) = some w ∧
      w.received = [.request ⟨0, 0, 1⟩, .keepAlive] ∧ InOrder .default w) ∧
    ¬ ∃ w, exec PeerWireCodec.default.wireNext (some .new) (inPieces 4) = some w := by
  have hgood : ∀ n m, .send m ∈ inPieces n → m.Survives := by
    intro n m hm
    simp [inPieces] at hm
    rcases hm with rfl | rfl <;> trivial
  refine ⟨⟨_, rfl, rfl, (channel_in_order .default (inPieces 5) (hgood 5)).2 _ rfl⟩, ?_⟩
  rw [(channel_in_order .default (inPieces 4) (hgood 4)).1]
  rintro ⟨-, -, -, hsafe, -⟩
  exact hsafe _ rfl rfl ⟨rfl, rfl⟩

end Btt
