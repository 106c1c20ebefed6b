import BitTorrent.Bendy
import BitTorrent.Peer.Peer

/-!
# Tracker requests

`TrackerRequest` of `src/tracker.rs`, its builder, and its `ToBencode` and `FromBencode`.  How the id of a
peer is read from text and how the standard library words a `Utf8Error` are parameters.

The three lists of the fields do not agree.  The encoder emits `event` last, behind keys greater than it,
which no encoding has (`toBencode_refused`; the results of the other pairs are dropped, that of the last
one is returned); its `peer_id` and `event` are unknown to the decoder, which asks for `bittorrent_peer_id`
(`decode_encode`); and the builder takes `left` from `downloaded` (`left_of_decode`).
-/

namespace Btt
open Bencode

inductive PeerEvent where
  | started
  | completed
  | stopped
deriving DecidableEq

def PeerEvent.asStr : PeerEvent → String
  | .started => "started"
  | .completed => "completed"
  | .stopped => "stopped"

structure TrackerRequest where
  infoHash : ShaHash
  bittorrentPeerId : ShaHash
  libp2pPeerId : PeerId
  uploaded : Nat
  downloaded : Nat
  left : Nat
  event : Option PeerEvent
deriving DecidableEq

def TrackerRequest.new (infoHash bittorrentPeerId : ShaHash) (libp2pPeerId : PeerId) (left : Nat) :
    TrackerRequest :=
  ⟨infoHash, bittorrentPeerId, libp2pPeerId, 0, 0, left, none⟩

structure TrackerRequestBuilder where
  infoHash : Option ShaHash
  bittorrentPeerId : Option ShaHash
  libp2pPeerId : Option PeerId
  uploaded : Option Nat
  downloaded : Option Nat
  left : Option Nat
  event : Option PeerEvent

def TrackerRequestBuilder.default : TrackerRequestBuilder := ⟨none, none, none, none, none, none, none⟩

/-- `o.ok_or_else(|| text)` -/
def okOrElse {α : Type} (text : String) : Option α → Except String α
  | some a => .ok a
  | none => .error text

/-- `left` is taken from `downloaded` -/
def TrackerRequestBuilder.build (b : TrackerRequestBuilder) : Except String TrackerRequest := do
  let infoHash ← okOrElse "info_hash must be initialized." b.infoHash
  let bittorrentPeerId ← okOrElse "bittorrent_peer_id must be initialized." b.bittorrentPeerId
  let libp2pPeerId ← okOrElse "libp2p_peer_id must be initialized." b.libp2pPeerId
  let uploaded ← okOrElse "uploaded must be initialized." b.uploaded
  let downloaded ← okOrElse "downloaded must be initialized." b.downloaded
  let left ← okOrElse "left must be initialized." b.downloaded
  .ok ⟨infoHash, bittorrentPeerId, libp2pPeerId, uploaded, downloaded, left, b.event⟩

/-! ## encoding -/

/-- the pairs in the order in which they are emitted; the id of the peer is its bytes, not its text -/
def TrackerRequest.pairs (r : TrackerRequest) : List (Bytes × Value) :=
  [(utf8 "info_hash", .bytes r.infoHash.asRef),
    (utf8 "peer_id", .bytes r.bittorrentPeerId.asRef),
    (utf8 "libp2p_peer_ip", .bytes r.libp2pPeerId.multihash),
    (utf8 "uploaded", .int r.uploaded),
    (utf8 "downloaded", .int r.downloaded),
    (utf8 "left", .int r.downloaded),
    (utf8 "event", encodeString (r.event.elim "empty" PeerEvent.asStr))]

def TrackerRequest.encode (r : TrackerRequest) : Value := .dict r.pairs

/-- `MAX_DEPTH` and `EXPECTED_RECURSION_DEPTH` -/
def TrackerRequest.maxDepth : Nat := 1

def TrackerRequest.toBencode (B : Bendy) (r : TrackerRequest) : Except String Bytes :=
  B.encode TrackerRequest.maxDepth r.encode

/-! ## decoding -/

section
variable (parse : String → Except String PeerId) (utf8Error : Bytes → String)

/-- twenty bytes; the error names the info hash in both places where it is used -/
def decodeTrackerHash (object : Value) : Decoding ShaHash := do
  let data ← tryIntoBytes object
  match ShaHash.tryFrom data with
  | some hash => .ok hash
  | none => .error (unexpectedField (utf8 "malformed info_hash"))

/-- one turn of the loop over the pairs -/
def TrackerRequest.field (b : TrackerRequestBuilder) (pair : Bytes × Value) : Decoding TrackerRequestBuilder :=
  if pair.1 = utf8 "info_hash" then do
    let infoHash ← decodeTrackerHash pair.2
    .ok { b with infoHash := some infoHash }
  else if pair.1 = utf8 "bittorrent_peer_id" then do
    let bittorrentPeerId ← decodeTrackerHash pair.2
    .ok { b with bittorrentPeerId := some bittorrentPeerId }
  else if pair.1 = utf8 "libp2p_peer_ip" then do
    let text ← withContext "libp2p_peer_ip" (decodeString pair.2)
    match parse text with
    | .ok peerId => .ok { b with libp2pPeerId := some peerId }
    | .error e => .error (missingField e)
  else if pair.1 = utf8 "uploaded" then do
    let uploaded ← withContext "uploaded" (decodeU64 pair.2)
    .ok { b with uploaded := some uploaded }
  else if pair.1 = utf8 "downloaded" then do
    let downloaded ← withContext "downloaded" (decodeU64 pair.2)
    .ok { b with downloaded := some downloaded }
  else if pair.1 = utf8 "left" then do
    let left ← withContext "left" (decodeU64 pair.2)
    .ok { b with left := some left }
  else
    match fromUtf8 pair.1 with
    | some _ => .error (unexpectedField pair.1)
    | none => .error (unexpectedField (utf8 (utf8Error pair.1)))

def TrackerRequest.decode (object : Value) : Decoding TrackerRequest := do
  let dict ← tryIntoDictionary object
  let b ← dict.foldlM (TrackerRequest.field parse utf8Error) .default
  b.build.mapError missingField

def TrackerRequest.fromBencode (B : Bendy) (data : Bytes) : Decoding TrackerRequest := do
  let object ← B.decode TrackerRequest.maxDepth data
  TrackerRequest.decode parse utf8Error object

end

/-! ## what becomes of a request -/

namespace TrackerRequest
variable {B : Bendy} {parse : String → Except String PeerId} {utf8Error : Bytes → String}

/-- the last key, `event`, is smaller than the first one -/
theorem not_keysIncrease_pairs (r : TrackerRequest) : ¬ keysIncrease r.pairs := by
  intro h
  have hfirst : utf8 "info_hash" < utf8 "event" := (List.pairwise_cons.mp h).1 (utf8 "event") (by simp)
  exact absurd hfirst (by decide)

/-- no request is written -/
theorem toBencode_refused (hB : B.Lawful) (r : TrackerRequest) (data : Bytes) : r.toBencode B ≠ .ok data := by
  intro h
  have hadm := (hB.encode_ok maxDepth r.encode).mp ⟨data, h⟩
  rw [encode, show maxDepth = 0 + 1 from rfl, admissible_dict] at hadm
  exact not_keysIncrease_pairs r hadm.1

theorem field_peer_id (b : TrackerRequestBuilder) (value : Value) :
    field parse utf8Error b (utf8 "peer_id", value) = .error (unexpectedField (utf8 "peer_id")) := by
  have hkey : ∀ {s}, "peer_id" ≠ s → utf8 "peer_id" ≠ utf8 s := fun hs h => hs (utf8_inj.mp h)
  rw [field, if_neg (hkey (by decide)), if_neg (hkey (by decide)), if_neg (hkey (by decide)),
    if_neg (hkey (by decide)), if_neg (hkey (by decide)), if_neg (hkey (by decide)), fromUtf8_utf8]

/-- what the encoder emits is not understood by the decoder, even without an encoding in between -/
theorem decode_encode (r : TrackerRequest) :
    decode parse utf8Error r.encode = .error (unexpectedField (utf8 "peer_id")) := by
  have hhash : decodeTrackerHash (.bytes r.infoHash.asRef) = .ok r.infoHash := by
    show (match ShaHash.tryFrom r.infoHash.asRef with | some hash => _ | none => _) = _
    rw [ShaHash.tryFrom_asRef]
  have hfirst : field parse utf8Error .default (utf8 "info_hash", .bytes r.infoHash.asRef)
      = .ok { TrackerRequestBuilder.default with infoHash := some r.infoHash } := by
    rw [field, if_pos rfl, hhash]
    rfl
  show ((r.pairs.foldlM (field parse utf8Error) .default) >>= _) = _
  rw [pairs, List.foldlM_cons, hfirst, ok_bind, List.foldlM_cons, field_peer_id]
  rfl

theorem okOrElse_eq_ok {α : Type} {text : String} {o : Option α} {a : α} (h : okOrElse text o = .ok a) :
    o = some a := by
  cases o with
  | none => cases h
  | some b =>
    cases h
    rfl

/-- the count of the bytes left that was read is lost -/
theorem left_of_decode {object : Value} {r : TrackerRequest} (h : decode parse utf8Error object = .ok r) :
    r.left = r.downloaded := by
  obtain ⟨dict, -, h⟩ := bind_eq_ok h
  obtain ⟨b, -, h⟩ := bind_eq_ok h
  have hbuild : b.build = .ok r := by
    cases hb : b.build with
    | error e =>
      rw [hb] at h
      cases h
    | ok r' =>
      rw [hb] at h
      cases h
      rfl
  obtain ⟨infoHash, -, hbuild⟩ := bind_eq_ok hbuild
  obtain ⟨bittorrentPeerId, -, hbuild⟩ := bind_eq_ok hbuild
  obtain ⟨libp2pPeerId, -, hbuild⟩ := bind_eq_ok hbuild
  obtain ⟨uploaded, -, hbuild⟩ := bind_eq_ok hbuild
  obtain ⟨downloaded, hdownloaded, hbuild⟩ := bind_eq_ok hbuild
  obtain ⟨left, hleft, hbuild⟩ := bind_eq_ok hbuild
  cases hbuild
  exact Option.some.inj ((okOrElse_eq_ok hleft).symm.trans (okOrElse_eq_ok hdownloaded))

/-- the request is written, and read back as it was -/
def RoundTrips (B : Bendy) (parse : String → Except String PeerId) (utf8Error : Bytes → String)
    (r : TrackerRequest) : Prop :=
  ∃ data, r.toBencode B = .ok data ∧ fromBencode parse utf8Error B data = .ok r

/-- **No tracker request makes the round trip.**  None is written, whatever its fields. -/
theorem not_roundTrips (hB : B.Lawful) (r : TrackerRequest) : ¬ r.RoundTrips B parse utf8Error := by
  rintro ⟨data, hdata, -⟩
  exact toBencode_refused hB r data hdata

/-- a request of a downloader that begins with five bytes to go; the id is a SHA2-256 multihash -/
def fiveLeft : TrackerRequest := .new (.replicate 1) (.replicate 2) ⟨0x12 :: 0x20 :: List.replicate 32 7⟩ 5

/-- a stand-in for the text form of a peer's id: its bytes are its UTF-8 bytes -/
def parseUtf8 (text : String) : Except String PeerId := .ok ⟨utf8 text⟩

theorem not_roundTrips_fiveLeft :
    fiveLeft.toBencode bendyOfRead = .error "StructureError" ∧
      ¬ fiveLeft.RoundTrips bendyOfRead parseUtf8 fun _ => "" :=
  ⟨rfl, not_roundTrips bendyOfRead_lawful fiveLeft⟩

theorem fiveLeft_refused :
    (∀ data, fiveLeft.toBencode bendyOfRead ≠ .ok data) ∧
      ¬ ∀ r : TrackerRequest, r.RoundTrips bendyOfRead parseUtf8 fun _ => "" := by
  have hrefused : ∀ data, fiveLeft.toBencode bendyOfRead ≠ .ok data := by
    intro data h
    cases h
  refine ⟨hrefused, ?_⟩
  intro h
  obtain ⟨data, hdata, -⟩ := h fiveLeft
  exact hrefused data hdata

end TrackerRequest

end Btt
