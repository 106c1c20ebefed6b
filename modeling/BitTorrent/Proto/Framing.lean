import BitTorrent.Lib.Framing
import BitTorrent.Proto.Codec

/-!
# Framing does not depend on how the stream is cut

The branches of `decode` check on their own whether enough bytes are there and how many they use up.
`Steady` says what all of them have in common, and `decode_steady` that `decode` has it; with that the
codec is a `Framing.Decoder` (`wireDecoder`).

* `decode_ends`        repeated decoding ends;
* `cutting_irrelevant` the laws of single calls, and their consequence for streams.
-/

namespace Btt
open Bytes PeerMessage

/-! ## appending to a buffer -/

section
variable {α : Type*} {xs : List α}

theorem slice_append_right {a b : Nat} (h : b ≤ xs.length) (s : List α) : slice (xs ++ s) a b = slice xs a b := by
  unfold slice
  rw [List.take_append_of_le_length h, List.length_append]
  by_cases hab : a ≤ b
  · rw [if_pos ⟨hab, by omega⟩, if_pos ⟨hab, h⟩]
  · rw [if_neg (fun hc => hab hc.1), if_neg (fun hc => hab hc.1)]

theorem splitTo_append_right {n : Nat} (h : n ≤ xs.length) (s : List α) :
    splitTo (xs ++ s) n = some (xs.take n, xs.drop n ++ s) := by
  rw [splitTo_eq_some (by rw [List.length_append]; omega), List.take_append_of_le_length h,
    List.drop_append_of_le_length h]

theorem advance_append_right {n : Nat} (h : n ≤ xs.length) (s : List α) :
    advance (xs ++ s) n = some (xs.drop n ++ s) := by
  rw [advance, if_pos (by rw [List.length_append]; omega), List.drop_append_of_le_length h]

end

/-! ## one call -/

/-- What the call `f` on the buffer `b` answers stands when `s` is appended: a message leaves `s` behind its
rest, an error stays one; a call that needs more leaves the buffer alone, and a message takes at least four
bytes. -/
def Steady (f : List UInt8 → Option Decoded) (b s : List UInt8) : Prop :=
  ∀ d, f b = some d →
    (d.result = .ok none ∧ d.src = b) ∨
    (∃ m, d = .got m d.src ∧ f (b ++ s) = some (.got m (d.src ++ s)) ∧ d.src.length + 4 ≤ b.length) ∨
    (∃ text, d = .bad text b ∧ f (b ++ s) = some (.bad text (b ++ s)))

section
variable {f : List UInt8 → Option Decoded} {b s : List UInt8}

theorem steady_needMore {n : Nat} (h : f b = some (.needMore b n)) : Steady f b s := by
  intro d hd
  cases h.symm.trans hd
  exact Or.inl ⟨rfl, rfl⟩

theorem steady_got {m : PeerMessage} {n : Nat} (hn : 4 ≤ n) (hlen : n ≤ b.length)
    (h : f b = some (.got m (b.drop n))) (hs : f (b ++ s) = some (.got m (b.drop n ++ s))) : Steady f b s := by
  intro d hd
  cases h.symm.trans hd
  refine Or.inr (Or.inl ⟨m, rfl, hs, ?_⟩)
  show (b.drop n).length + 4 ≤ b.length
  rw [List.length_drop]
  omega

theorem steady_bad {text : String} (h : f b = some (.bad text b)) (hs : f (b ++ s) = some (.bad text (b ++ s))) :
    Steady f b s := by
  intro d hd
  cases h.symm.trans hd
  exact Or.inr (Or.inr ⟨text, rfl, hs⟩)

theorem steady_none (h : f b = none) : Steady f b s := by
  intro d hd
  cases h.symm.trans hd

/-- a function that agrees with a steady one on both buffers is steady -/
theorem Steady.congr {g : List UInt8 → Option Decoded} (hg : Steady g b s) (h : f b = g b)
    (hs : f (b ++ s) = g (b ++ s)) : Steady f b s := by
  intro d hd
  rw [hs]
  exact hg d (h ▸ hd)

end

/-- a frame of `n` bytes whose message is read off the frame -/
theorem steady_frame {f : List UInt8 → Option Decoded} {b s : List UInt8} {n : Nat} (hn : 4 ≤ n)
    (hlen : n ≤ b.length) {α : Type} (read : List UInt8 → Option α) (msg : α → PeerMessage)
    (h : f b = (splitTo b n).bind fun p => (read p.1).bind fun a => some (.got (msg a) p.2))
    (hs : f (b ++ s) = (splitTo (b ++ s) n).bind fun p => (read p.1).bind fun a => some (.got (msg a) p.2)) :
    Steady f b s := by
  rw [splitTo_eq_some hlen, Option.bind_some] at h
  rw [splitTo_append_right hlen, Option.bind_some] at hs
  cases hr : read (b.take n) with
  | none =>
    rw [hr] at h
    exact steady_none h
  | some a =>
    rw [hr] at h hs
    exact steady_got hn hlen h hs

section
variable (b s : List UInt8)

theorem steady_decodeFlag : Steady decodeFlag b s := by
  by_cases hlen : b.length < 5
  · exact steady_needMore (if_pos hlen)
  · have hlen' : ¬ (b ++ s).length < 5 := by
      rw [List.length_append]
      omega
    have hid : b[4]? = some b[4] := List.getElem?_eq_getElem (by omega)
    have hid' : (b ++ s)[4]? = some b[4] := (List.getElem?_append_left (by omega)).trans hid
    have hf : decodeFlag b = _ := if_neg hlen
    have hf' : decodeFlag (b ++ s) = _ := if_neg hlen'
    rw [hid] at hf
    rw [hid'] at hf'
    simp only [Option.bind_eq_bind, Option.bind_some] at hf hf'
    cases hm : flagOf b[4] with
    | none =>
      rw [hm] at hf hf'
      exact steady_bad hf hf'
    | some m =>
      rw [hm] at hf hf'
      rw [advance, if_pos (by omega)] at hf
      rw [advance_append_right (by omega)] at hf'
      exact steady_got (by omega) (by omega) hf hf'

theorem steady_decodeHave : Steady decodeHave b s := by
  by_cases hlen : b.length < 9
  · exact steady_needMore (if_pos hlen)
  · have hlen' : ¬ (b ++ s).length < 9 := by
      rw [List.length_append]
      omega
    have hid : b[4]? = some b[4] := List.getElem?_eq_getElem (by omega)
    have hid' : (b ++ s)[4]? = some b[4] := (List.getElem?_append_left (by omega)).trans hid
    have hf : decodeHave b = _ := if_neg hlen
    have hf' : decodeHave (b ++ s) = _ := if_neg hlen'
    rw [hid] at hf
    rw [hid'] at hf'
    simp only [Option.bind_eq_bind, Option.bind_some] at hf hf'
    by_cases hh : b[4] = haveId
    · rw [if_pos hh] at hf hf'
      exact steady_frame (by omega) (by omega) (fun msg => (slice msg 5 9).bind readU32) have_ hf hf'
    · rw [if_neg hh] at hf hf'
      exact steady_bad hf hf'

theorem steady_decodeBitfield (length : Nat) : Steady (decodeBitfield length) b s := by
  by_cases h0 : length - 1 = 0
  · exact steady_bad (if_pos h0) (if_pos h0)
  · have hf : decodeBitfield length b = _ := if_neg h0
    have hf' : decodeBitfield length (b ++ s) = _ := if_neg h0
    by_cases hlen : b.length < (length - 1) / 8 + (if (length - 1) % 8 > 0 then 1 else 0) + 5
    · rw [if_pos hlen] at hf
      exact steady_needMore hf
    · rw [if_neg hlen] at hf
      rw [if_neg (by rw [List.length_append]; omega)] at hf'
      exact steady_frame (by omega) (by omega) (fun msg => sliceFrom msg 5)
        (fun bytes => .bitfield ((BitField.fromBytes bytes).truncate (length - 1))) hf hf'

theorem steady_decodePayload (length : Nat) (id : UInt8) : Steady (decodePayload length id) b s := by
  by_cases hlen : b.length < 4 + length
  · exact steady_needMore (if_pos hlen)
  · have hf : decodePayload length id b = _ := if_neg hlen
    have hf' : decodePayload length id (b ++ s) = _ := if_neg (by rw [List.length_append]; omega)
    by_cases h6 : id = requestId
    · rw [if_pos h6] at hf hf'
      exact steady_frame (by omega) (by omega) readRequest request hf hf'
    rw [if_neg h6] at hf hf'
    by_cases h7 : id = pieceId
    · rw [if_pos h7] at hf hf'
      exact steady_frame (by omega) (by omega) readPiece piece hf hf'
    rw [if_neg h7] at hf hf'
    by_cases h8 : id = cancelId
    · rw [if_pos h8] at hf hf'
      exact steady_frame (by omega) (by omega) readRequest cancel hf hf'
    rw [if_neg h8] at hf hf'
    by_cases h9 : id = portId
    · rw [if_pos h9] at hf hf'
      exact steady_frame (by omega) (by omega) (fun msg => (sliceFrom msg 5).bind readU16) port hf hf'
    rw [if_neg h9] at hf hf'
    exact steady_bad hf hf'

/-- the fields of a handshake frame -/
def readHandshake (msg : List UInt8) : Option Handshake := do
  let msg ← advance msg 20
  let reserved ← (slice msg 0 8).bind (ByteArr.tryFrom 8)
  let infoHash ← (slice msg 8 28).bind ShaHash.tryFrom
  let peerId ← (slice msg 28 48).bind ShaHash.tryFrom
  some ⟨reserved, infoHash, peerId⟩

theorem steady_decodeHandshake : Steady decodeHandshake b s := by
  by_cases hlen : b.length < 68
  · exact steady_needMore (if_pos hlen)
  · have hlen' : ¬ (b ++ s).length < 68 := by
      rw [List.length_append]
      omega
    have hf : decodeHandshake b = _ := if_neg hlen
    have hf' : decodeHandshake (b ++ s) = _ := if_neg hlen'
    rw [slice_append_right (by omega)] at hf'
    rw [slice_isSome (by omega) (by omega)] at hf hf'
    simp only [Option.bind_eq_bind, Option.bind_some] at hf hf'
    by_cases hid : (b.take 20).drop 1 ≠ Handshake.bittorrentIdentifier
    · rw [if_pos hid] at hf hf'
      exact steady_bad hf hf'
    · rw [if_neg hid] at hf hf'
      refine steady_frame (n := 68) (by omega) (by omega) readHandshake handshake (hf.trans ?_) (hf'.trans ?_)
      all_goals simp only [readHandshake, Option.bind_eq_bind, Option.bind_assoc, Option.bind_some]

theorem steady_decodeLength (length : Nat) (hlen : 4 ≤ b.length) : Steady (decodeLength length) b s := by
  by_cases h0 : length = 0
  · have hf : decodeLength length b = _ := if_pos h0
    have hf' : decodeLength length (b ++ s) = _ := if_pos h0
    rw [advance, if_pos hlen] at hf
    rw [advance_append_right hlen] at hf'
    exact steady_got (Nat.le_refl 4) hlen hf hf'
  have hdrop : ∀ src, decodeLength length src = _ := fun src => if_neg h0
  by_cases h1 : length = 1
  · exact (steady_decodeFlag b s).congr ((hdrop _).trans (if_pos h1)) ((hdrop _).trans (if_pos h1))
  by_cases h5 : length = 5
  · exact (steady_decodeHave b s).congr ((hdrop _).trans ((if_neg h1).trans (if_pos h5)))
      ((hdrop _).trans ((if_neg h1).trans (if_pos h5)))
  have hf : decodeLength length b = _ := (hdrop _).trans ((if_neg h1).trans (if_neg h5))
  have hf' : decodeLength length (b ++ s) = _ := (hdrop _).trans ((if_neg h1).trans (if_neg h5))
  cases hid : b[4]? with
  | none =>
    rw [hid] at hf
    exact steady_none hf
  | some id =>
    have hid' : (b ++ s)[4]? = some id := by
      rw [List.getElem?_append_left (List.getElem?_eq_some_iff.mp hid).1, hid]
    rw [hid] at hf
    rw [hid'] at hf'
    simp only [Option.bind_eq_bind, Option.bind_some] at hf hf'
    by_cases hb : id = bitfieldId
    · rw [if_pos hb] at hf hf'
      exact (steady_decodeBitfield b s length).congr hf hf'
    · rw [if_neg hb] at hf hf'
      exact (steady_decodePayload b s length id).congr hf hf'

/-- every branch of `decode` is steady, and which branch is taken is decided by the first five bytes -/
theorem decode_steady (c : PeerWireCodec) : Steady c.decode b s := by
  by_cases hlen : b.length < 4
  · exact steady_needMore (if_pos hlen)
  have hf : c.decode b = _ := if_neg hlen
  have hf' : c.decode (b ++ s) = _ := if_neg (by rw [List.length_append]; omega)
  have h0 : b[0]? = some b[0] := List.getElem?_eq_getElem (by omega)
  rw [h0] at hf
  rw [List.getElem?_append_left (by omega), h0] at hf'
  simp only [Option.bind_eq_bind, Option.bind_some] at hf hf'
  by_cases hh : b[0] = handshakeId
  · rw [if_pos hh] at hf hf'
    exact (steady_decodeHandshake b s).congr hf hf'
  · rw [if_neg hh] at hf hf'
    rw [slice_append_right (by omega)] at hf'
    cases hn : (slice b 0 4).bind readU32 with
    | none =>
      rw [hn] at hf
      exact steady_none hf
    | some n =>
      rw [hn, Option.bind_some] at hf hf'
      exact (steady_decodeLength b s n.toNat (by omega)).congr hf hf'

end

/-! ## streams -/

def Decoded.reply (d : Decoded) : Framing.Reply UInt8 PeerMessage IoError :=
  match d.result with
  | .ok none => .more
  | .ok (some m) => .item m d.src
  | .error e => .bad e

section
variable {c : PeerWireCodec} {b s : List UInt8}

theorem decode_got {d : Decoded} {m : PeerMessage} (h : c.decode b = some d) (hm : d.result = .ok (some m)) :
    c.decode (b ++ s) = some (.got m (d.src ++ s)) ∧ d.src.length + 4 ≤ b.length := by
  rcases decode_steady b s c d h with ⟨hr, -⟩ | ⟨m', hd, hs, hlen⟩ | ⟨text, hd, -⟩
  · cases hr.symm.trans hm
  · rw [hd] at hm
    cases hm
    exact ⟨hs, hlen⟩
  · rw [hd] at hm
    cases hm

theorem decode_bad {d : Decoded} {e : IoError} (h : c.decode b = some d) (he : d.result = .error e) :
    ∃ d', c.decode (b ++ s) = some d' ∧ d'.result = .error e := by
  rcases decode_steady b s c d h with ⟨hr, -⟩ | ⟨m, hd, -, -⟩ | ⟨text, hd, hs⟩
  · cases hr.symm.trans he
  · rw [hd] at he
    cases he
  · rw [hd] at he
    exact ⟨_, hs, he⟩

theorem decode_more {d : Decoded} (h : c.decode b = some d) (hm : d.result = .ok none) : d.src = b := by
  rcases decode_steady b [] c d h with ⟨-, hsrc⟩ | ⟨m, hd, -, -⟩ | ⟨text, hd, -⟩
  · exact hsrc
  · rw [hd] at hm
    cases hm
  · rw [hd] at hm
    cases hm

theorem reply_eq_item {d : Decoded} {m : PeerMessage} {rest : List UInt8} (h : d.reply = .item m rest) :
    d.result = .ok (some m) ∧ d.src = rest := by
  unfold Decoded.reply at h
  split at h <;> rename_i hr <;> cases h
  exact ⟨hr, rfl⟩

theorem reply_eq_bad {d : Decoded} {e : IoError} (h : d.reply = .bad e) : d.result = .error e := by
  unfold Decoded.reply at h
  split at h <;> rename_i hr <;> cases h
  exact hr

end

namespace PeerWireCodec

/-- the codec as a decoder of a stream -/
def wireDecoder (c : PeerWireCodec) : Framing.Decoder UInt8 PeerMessage IoError where
  decode b := (c.decode b).map Decoded.reply
  start := rfl
  shrinks h := by
    obtain ⟨d, hd, hr⟩ := Option.map_eq_some_iff.mp h
    obtain ⟨hm, rfl⟩ := reply_eq_item hr
    have hlen := (decode_got (s := []) hd hm).2
    omega
  item_append s h := by
    obtain ⟨d, hd, hr⟩ := Option.map_eq_some_iff.mp h
    obtain ⟨hm, rfl⟩ := reply_eq_item hr
    rw [(decode_got (s := s) hd hm).1]
    rfl
  bad_append s h := by
    obtain ⟨d, hd, hr⟩ := Option.map_eq_some_iff.mp h
    obtain ⟨d', hd', he⟩ := decode_bad (s := s) hd (reply_eq_bad hr)
    rw [hd', Option.map_some, Decoded.reply, he]

/-- the chunks of a stream arrive one after the other, and after each one messages are decoded until the
buffer gives no further one; `none` if a call panics -/
def feedAll (c : PeerWireCodec) (chunks : List (List UInt8)) :
    Option (List PeerMessage × Except IoError (List UInt8)) :=
  c.wireDecoder.feedAll chunks

/-- decoding over and over, after at most a quarter as many messages as there are bytes a call returns no
further one -/
def DecodingEnds (c : PeerWireCodec) (b : List UInt8) : Prop :=
  ∃ (ms : List PeerMessage) (r : List UInt8),
    c.decodeTimes ms.length b = some (ms.map fun m => .ok (some m), r) ∧ 4 * ms.length ≤ b.length ∧
    ∀ d, c.decode r = some d → ∀ m, d.result ≠ .ok (some m)

theorem decode_ends (c : PeerWireCodec) (b : List UInt8) : c.DecodingEnds b := by
  induction hn : b.length using Nat.strongRecOn generalizing b with
  | ind n ih =>
    by_cases hmsg : ∃ d m, c.decode b = some d ∧ d.result = .ok (some m)
    · obtain ⟨d, m, hd, hm⟩ := hmsg
      have hlen := (decode_got (s := []) hd hm).2
      obtain ⟨ms, r, hms, hbound, hend⟩ := ih d.src.length (by omega) d.src rfl
      refine ⟨m :: ms, r, ?_, ?_, hend⟩
      · rw [List.length_cons, decodeTimes, hd]
        simp only [Option.bind_eq_bind, Option.bind_some, hms, hm, List.map_cons]
      · rw [List.length_cons]
        omega
    · refine ⟨[], b, rfl, Nat.zero_le _, ?_⟩
      intro d hd m hm
      exact hmsg ⟨d, m, hd, hm⟩

end PeerWireCodec

/-- **Framing does not depend on how the stream is cut.**  What a call of `decode` answers stands when bytes
are appended, `Ok(None)` leaves the buffer alone, and a message takes at least four bytes; so repeated
decoding ends, and two ways to cut a stream into chunks, no call panicking, give the same messages and the
same error or rest. -/
theorem cutting_irrelevant (c : PeerWireCodec) :
    (∀ b s d, c.decode b = some d →
      (∀ m, d.result = .ok (some m) →
        c.decode (b ++ s) = some (.got m (d.src ++ s)) ∧ d.src.length + 4 ≤ b.length) ∧
      (∀ e, d.result = .error e → ∃ d', c.decode (b ++ s) = some d' ∧ d'.result = .error e) ∧
      (d.result = .ok none → d.src = b)) ∧
    (∀ b, c.DecodingEnds b) ∧
    (∀ chunks chunks' y y', chunks.flatten = chunks'.flatten → c.feedAll chunks = some y →
      c.feedAll chunks' = some y' → y = y') := by
  refine ⟨?_, c.decode_ends, ?_⟩
  · intro b s d hd
    exact ⟨fun m hm => decode_got hd hm, fun e he => decode_bad hd he, decode_more hd⟩
  · intro chunks chunks' y y' hflat h h'
    have hy := Framing.Decoder.feedAll_flatten h
    have hy' := Framing.Decoder.feedAll_flatten h'
    rw [hflat] at hy
    exact Option.some.inj (hy.symm.trans hy')

end Btt
