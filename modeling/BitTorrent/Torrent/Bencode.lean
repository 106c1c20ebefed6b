import BitTorrent.Bendy
import BitTorrent.Lib.Chunks
import BitTorrent.Torrent.Builder

/-!
# Torrent files

`ToBencode` and `FromBencode` of the metainfo (`src/torrent/mod.rs`).  An encoder is the value it
emits, with the pairs of a dictionary in the order in which they are emitted.  The local variables a
decoder fills while it walks over the pairs are a structure, and `field` is one turn of its loop.

The encoders and the decoders agree on the info dictionary whatever its content
(`TorrentInfo.decode_encode`), but its nesting exceeds the limit as soon as there is a file in a list
of files.  The two tables of the metainfo do not agree: `announce list` is read as `announce_list`,
`created by` is not written, and `info` is written behind `nodes` and `url-list`.
-/

namespace Btt
open Bencode Chunks

/-! ## encoding -/

/-- `ToBencode` for `Vec` -/
def encodeVec {α : Type} (encode : α → Value) (xs : List α) : Value := .list (xs.map encode)

def DhtNode.encode (node : DhtNode) : Value := .list [encodeString node.host, .int node.port]

def SubFileInfo.encode (f : SubFileInfo) : Value :=
  .dict [(utf8 "length", .int f.length), (utf8 "path", encodeVec encodeString f.paths)]

def InfoContent.pair : InfoContent → Bytes × Value
  | .single length => (utf8 "length", .int length)
  | .multi files => (utf8 "files", encodeVec SubFileInfo.encode files)

def TorrentInfo.encode (i : TorrentInfo) : Value :=
  .dict
    [i.content.pair,
      (utf8 "name", encodeString i.name),
      (utf8 "piece length", .int i.pieceLength),
      (utf8 "pieces", .bytes (i.pieces.flatMap ShaHash.asRef))]

/-- a pair emitted if the field is set -/
def emitSome {α : Type} (key : String) (encode : α → Value) (o : Option α) : List (Bytes × Value) :=
  o.toList.map fun a => (utf8 key, encode a)

/-- a pair emitted if the list is not empty -/
def emitNonEmpty {α : Type} (key : String) (encode : α → Value) (xs : List α) : List (Bytes × Value) :=
  if xs.isEmpty then [] else [(utf8 key, encodeVec encode xs)]

def MetaInfo.pairs (m : MetaInfo) : List (Bytes × Value) :=
  emitSome "announce" encodeString m.announce
    ++ emitNonEmpty "announce list" encodeString m.announceList
    ++ emitSome "comment" encodeString m.comment
    ++ emitSome "creation date" Value.int m.creationDate
    ++ emitSome "encoding" encodeString m.encoding
    ++ emitNonEmpty "httpseeds" encodeString m.httpseeds
    ++ emitNonEmpty "nodes" DhtNode.encode m.nodes
    ++ emitNonEmpty "url-list" encodeString m.webseeds
    ++ [(utf8 "info", m.info.encode)]

def MetaInfo.encode (m : MetaInfo) : Value := .dict m.pairs

/-- `MAX_DEPTH` -/
def TorrentInfo.maxDepth : Nat := 3
def MetaInfo.maxDepth : Nat := 3

def TorrentInfo.toBencode (B : Bendy) (i : TorrentInfo) : Except String Bytes :=
  B.encode TorrentInfo.maxDepth i.encode

def MetaInfo.toBencode (B : Bendy) (m : MetaInfo) : Except String Bytes := B.encode MetaInfo.maxDepth m.encode

/-- `sha1_hash` -/
def TorrentInfo.sha1Hash (B : Bendy) (i : TorrentInfo) : Except String Sha1 := (i.toBencode B).map Sha1.from

/-! ## decoding -/

/-- a loop over `next_object` that decodes and pushes every item -/
def decodeVec {α : Type} (decode : Value → Decoding α) (object : Value) : Decoding (List α) := do
  let list ← tryIntoList object
  list.mapM decode

def DhtNode.decode (object : Value) : Decoding DhtNode := do
  let list ← tryIntoList object
  let host ← okOrMissing "host" list[0]?
  let host ← decodeString host
  let port ← okOrMissing "port" list[1]?
  let port ← decodeU32 port
  .ok ⟨host, port⟩

structure SubFileInfo.Fields where
  length : Option Nat
  paths : Option (List String)

def SubFileInfo.field (f : SubFileInfo.Fields) (pair : Bytes × Value) : Decoding SubFileInfo.Fields :=
  if pair.1 = utf8 "length" then do
    let length ← withContext "length" (decodeU64 pair.2)
    .ok { f with length := some length }
  else if pair.1 = utf8 "path" then do
    let paths ← decodeVec decodeString pair.2
    .ok { f with paths := some paths }
  else .error (unexpectedField pair.1)

def SubFileInfo.decode (object : Value) : Decoding SubFileInfo := do
  let dict ← tryIntoDictionary object
  let f ← dict.foldlM SubFileInfo.field ⟨none, none⟩
  let length ← okOrMissing "length" f.length
  let paths ← okOrMissing "paths" f.paths
  .ok ⟨length, paths⟩

structure TorrentInfo.Fields where
  name : Option String
  pieces : Option (List ShaHash)
  pieceLength : Option Nat
  files : Option (List SubFileInfo)
  length : Option Nat

/-- the packed hashes of the pieces -/
def decodePieces (data : Bytes) : Decoding (List ShaHash) :=
  match (chunks shaHashLen data).mapM ShaHash.tryFrom with
  | some pieces => .ok pieces
  | none => .error (unexpectedField (utf8 "malformed pieces chunks"))

def TorrentInfo.field (f : TorrentInfo.Fields) (pair : Bytes × Value) : Decoding TorrentInfo.Fields :=
  if pair.1 = utf8 "name" ∨ pair.1 = utf8 "name.utf-8" then do
    let name ← withContext "name" (decodeString pair.2)
    .ok { f with name := some name }
  else if pair.1 = utf8 "piece length" then do
    let pieceLength ← withContext "piece length" (decodeU64 pair.2)
    .ok { f with pieceLength := some pieceLength }
  else if pair.1 = utf8 "pieces" then do
    let data ← tryIntoBytes pair.2
    let pieces ← decodePieces data
    .ok { f with pieces := some pieces }
  else if pair.1 = utf8 "files" then
    if f.length.isSome then .error (unexpectedField (utf8 "files"))
    else do
      let files ← decodeVec SubFileInfo.decode pair.2
      .ok { f with files := some files }
  else if pair.1 = utf8 "length" then
    if f.files.isSome then .error (unexpectedField (utf8 "length"))
    else do
      let length ← withContext "length" (decodeU64 pair.2)
      .ok { f with length := some length }
  else .ok f

def TorrentInfo.Fields.content (f : TorrentInfo.Fields) : Option InfoContent :=
  match f.length with
  | some length => some (.single length)
  | none => f.files.map InfoContent.multi

def TorrentInfo.decode (object : Value) : Decoding TorrentInfo := do
  let dict ← tryIntoDictionary object
  let f ← dict.foldlM TorrentInfo.field ⟨none, none, none, none, none⟩
  let name ← okOrMissing "name" f.name
  let pieceLength ← okOrMissing "pieces length" f.pieceLength
  let pieces ← okOrMissing "pieces" f.pieces
  let content ← okOrMissing "length or files" f.content
  .ok ⟨pieces, pieceLength, content, name⟩

/-- `EXPECTED_RECURSION_DEPTH` -/
def TorrentInfo.expectedRecursionDepth : Nat := 3

def TorrentInfo.fromBencode (B : Bendy) (data : Bytes) : Decoding TorrentInfo := do
  let object ← B.decode TorrentInfo.expectedRecursionDepth data
  TorrentInfo.decode object

structure MetaInfo.Fields where
  announce : Option String
  announceList : List String
  webseeds : List String
  httpseeds : List String
  encoding : Option String
  comment : Option String
  createdBy : Option String
  creationDate : Option Int
  info : Option TorrentInfo
  infoHash : Option Sha1
  nodes : List DhtNode

def MetaInfo.field (B : Bendy) (f : MetaInfo.Fields) (pair : Bytes × Value) : Decoding MetaInfo.Fields :=
  if pair.1 = utf8 "announce" then do
    let announce ← withContext "announce" (decodeString pair.2)
    .ok { f with announce := some announce }
  else if pair.1 = utf8 "announce_list" then do
    let urls ← decodeVec decodeString pair.2
    .ok { f with announceList := f.announceList ++ urls }
  else if pair.1 = utf8 "url-list" then do
    let urls ← decodeVec decodeString pair.2
    .ok { f with webseeds := f.webseeds ++ urls }
  else if pair.1 = utf8 "httpseeds" then do
    let urls ← decodeVec decodeString pair.2
    .ok { f with httpseeds := f.httpseeds ++ urls }
  else if pair.1 = utf8 "nodes" then do
    let nodes ← decodeVec DhtNode.decode pair.2
    .ok { f with nodes := f.nodes ++ nodes }
  else if pair.1 = utf8 "comment" ∨ pair.1 = utf8 "comment.utf-8" then do
    let comment ← withContext "comment" (decodeString pair.2)
    .ok { f with comment := some comment }
  else if pair.1 = utf8 "creation date" then do
    let creationDate ← withContext "creation date" (decodeI64 pair.2)
    .ok { f with creationDate := some creationDate }
  else if pair.1 = utf8 "encoding" then do
    let encoding ← withContext "encoding" (decodeString pair.2)
    .ok { f with encoding := some encoding }
  else if pair.1 = utf8 "created by" ∨ pair.1 = utf8 "created by.utf-8" then do
    let createdBy ← withContext "created by" (decodeString pair.2)
    .ok { f with createdBy := some createdBy }
  else if pair.1 = utf8 "info" then do
    let _ ← tryIntoDictionary pair.2
    let data := B.intoRaw pair.2
    let info ← withContext "info" (TorrentInfo.fromBencode B data)
    .ok { f with infoHash := some (Sha1.from data), info := some info }
  else .ok f

def MetaInfo.decode (B : Bendy) (object : Value) : Decoding MetaInfo := do
  let dict ← tryIntoDictionary object
  let f ← dict.foldlM (MetaInfo.field B) ⟨none, [], [], [], none, none, none, none, none, none, []⟩
  let info ← okOrMissing "info" f.info
  let infoHash ← okOrMissing "info" f.infoHash
  .ok ⟨f.announce, f.announceList, f.encoding, f.comment, f.createdBy, f.creationDate, f.httpseeds, f.webseeds,
    info, f.nodes, infoHash⟩

def MetaInfo.fromBencode (B : Bendy) (data : Bytes) : Decoding MetaInfo := do
  let object ← B.decode B.defaultDepth data
  MetaInfo.decode B object

/-! ## the numbers fit their types -/

def InfoContent.Typed : InfoContent → Prop
  | .single length => length < 2 ^ 64
  | .multi files => ∀ f ∈ files, f.length < 2 ^ 64

def TorrentInfo.Typed (i : TorrentInfo) : Prop := i.pieceLength < 2 ^ 64 ∧ i.content.Typed

structure MetaInfo.Typed (m : MetaInfo) : Prop where
  info : m.info.Typed
  creationDate : ∀ t, m.creationDate = some t → -2 ^ 63 ≤ t ∧ t < 2 ^ 63
  nodes : ∀ node ∈ m.nodes, node.port < 2 ^ 32

/-! ## the info dictionary -/

theorem decodeVec_encode {α : Type} {decode : Value → Decoding α} {encode : α → Value} {xs : List α}
    (h : ∀ x ∈ xs, decode (encode x) = .ok x) : decodeVec decode (encodeVec encode xs) = .ok xs := mapM_map_ok h

theorem decodeVec_strings (xs : List String) : decodeVec decodeString (encodeVec encodeString xs) = .ok xs :=
  decodeVec_encode fun s _ => decodeString_encode s

theorem decodePieces_encode (pieces : List ShaHash) :
    decodePieces (pieces.flatMap ShaHash.asRef) = .ok pieces := by
  have hchunks := chunks_flatMap (by decide) ShaHash.length_asRef pieces
  have hall : (pieces.map ShaHash.asRef).mapM ShaHash.tryFrom = some pieces := by
    induction pieces with
    | nil => rfl
    | cons h hs ih =>
      rw [List.map_cons, List.mapM_cons, ShaHash.tryFrom_asRef, ih (chunks_flatMap (by decide) ShaHash.length_asRef hs)]
      rfl
  simp only [decodePieces, shaHashLen, hchunks, hall]

section
variable {f : SubFileInfo.Fields} {n : Nat}

theorem SubFileInfo.field_length (h : n < 2 ^ 64) :
    SubFileInfo.field f (utf8 "length", .int n) = .ok { f with length := some n } := by
  rw [SubFileInfo.field, if_pos rfl, decodeU64_int h, withContext_ok, ok_bind]

theorem SubFileInfo.field_path (paths : List String) :
    SubFileInfo.field f (utf8 "path", encodeVec encodeString paths) = .ok { f with paths := some paths } := by
  rw [SubFileInfo.field, if_neg (by simp), if_pos rfl, decodeVec_strings, ok_bind]

end

theorem SubFileInfo.decode_encode (f : SubFileInfo) (h : f.length < 2 ^ 64) :
    SubFileInfo.decode f.encode = .ok f := by
  have hfold : [(utf8 "length", Value.int f.length), (utf8 "path", encodeVec encodeString f.paths)].foldlM
      SubFileInfo.field ⟨none, none⟩ = .ok ⟨some f.length, some f.paths⟩ := by
    rw [List.foldlM_cons, SubFileInfo.field_length h, ok_bind, List.foldlM_cons, SubFileInfo.field_path, ok_bind,
      List.foldlM_nil]
    rfl
  rw [SubFileInfo.decode, SubFileInfo.encode, tryIntoDictionary, ok_bind, hfold, ok_bind, okOrMissing_some, ok_bind,
    okOrMissing_some, ok_bind]

section
variable {f : TorrentInfo.Fields} {n : Nat}

theorem TorrentInfo.field_content {content : InfoContent} (h : content.Typed) :
    ∃ f', TorrentInfo.field ⟨none, none, none, none, none⟩ content.pair = .ok f' ∧
      f'.content = some content := by
  cases content with
  | single length =>
    refine ⟨⟨none, none, none, none, some length⟩, ?_, rfl⟩
    rw [InfoContent.pair, TorrentInfo.field, if_neg (by simp), if_neg (by simp), if_neg (by simp), if_neg (by simp),
      if_pos rfl, if_neg (by simp), decodeU64_int h, withContext_ok, ok_bind]
  | multi files =>
    refine ⟨⟨none, none, none, some files, none⟩, ?_, rfl⟩
    have hfiles := decodeVec_encode fun f hf => SubFileInfo.decode_encode f (h f hf)
    rw [InfoContent.pair, TorrentInfo.field, if_neg (by simp), if_neg (by simp), if_neg (by simp), if_pos rfl,
      if_neg (by simp), hfiles, ok_bind]

theorem TorrentInfo.field_name (name : String) :
    TorrentInfo.field f (utf8 "name", encodeString name) = .ok { f with name := some name } := by
  rw [TorrentInfo.field, if_pos (Or.inl rfl), decodeString_encode, withContext_ok, ok_bind]

theorem TorrentInfo.field_pieceLength (h : n < 2 ^ 64) :
    TorrentInfo.field f (utf8 "piece length", .int n) = .ok { f with pieceLength := some n } := by
  rw [TorrentInfo.field, if_neg (by simp), if_pos rfl, decodeU64_int h, withContext_ok, ok_bind]

theorem TorrentInfo.field_pieces_eq (data : Bytes) :
    TorrentInfo.field f (utf8 "pieces", .bytes data)
      = (decodePieces data).bind fun pieces => .ok { f with pieces := some pieces } := by
  rw [TorrentInfo.field, if_neg (by simp), if_neg (by simp), if_pos rfl, tryIntoBytes, ok_bind]
  rfl

theorem TorrentInfo.field_pieces (pieces : List ShaHash) :
    TorrentInfo.field f (utf8 "pieces", .bytes (pieces.flatMap ShaHash.asRef))
      = .ok { f with pieces := some pieces } := by
  rw [TorrentInfo.field_pieces_eq, decodePieces_encode]
  rfl

end

/-- the encoder and the decoder of the info dictionary agree on keys and shapes -/
theorem TorrentInfo.decode_encode (i : TorrentInfo) (hi : i.Typed) : TorrentInfo.decode i.encode = .ok i := by
  obtain ⟨f, hf, hcontent⟩ := TorrentInfo.field_content hi.2
  have hfold : List.foldlM TorrentInfo.field ⟨none, none, none, none, none⟩
      [i.content.pair, (utf8 "name", encodeString i.name), (utf8 "piece length", .int i.pieceLength),
        (utf8 "pieces", .bytes (i.pieces.flatMap ShaHash.asRef))]
      = .ok { f with name := some i.name, pieceLength := some i.pieceLength, pieces := some i.pieces } := by
    rw [List.foldlM_cons, hf, ok_bind, List.foldlM_cons, TorrentInfo.field_name, ok_bind, List.foldlM_cons,
      TorrentInfo.field_pieceLength hi.1, ok_bind, List.foldlM_cons, TorrentInfo.field_pieces, ok_bind]
    rfl
  have hcontent' : TorrentInfo.Fields.content
      { f with name := some i.name, pieceLength := some i.pieceLength, pieces := some i.pieces } = some i.content :=
    hcontent
  simp only [TorrentInfo.decode, TorrentInfo.encode, tryIntoDictionary, ok_bind, hfold, okOrMissing_some, hcontent']

/-! ## nesting and order of the info dictionary -/

theorem admissible_strings (d : Nat) (xs : List String) : (encodeVec encodeString xs).admissible (d + 1) = true := by
  refine admissible_list.mpr fun v hv => ?_
  obtain ⟨s, -, rfl⟩ := List.mem_map.mp hv
  exact admissible_bytes d (utf8 s)

/-- the path list of a file is on its second level -/
theorem SubFileInfo.not_admissible (f : SubFileInfo) : f.encode.admissible 1 = false := by
  by_contra h
  have hpath := (admissible_dict.mp (Bool.of_not_eq_false h)).2 (utf8 "path", encodeVec encodeString f.paths) (by simp)
  cases hpath

theorem InfoContent.pair_admissible {content : InfoContent}
    (h : (∃ n, content = .single n) ∨ content = .multi []) (d : Nat) : content.pair.2.admissible (d + 1) = true := by
  obtain ⟨n, rfl⟩ | rfl := h
  · exact admissible_int (d + 1) n
  · exact admissible_list.mpr (by simp)

theorem TorrentInfo.keysIncrease (i : TorrentInfo) :
    [i.content.pair.1, utf8 "name", utf8 "piece length", utf8 "pieces"].Pairwise (· < ·) := by
  cases i.content with
  | single length =>
    show [utf8 "length", utf8 "name", utf8 "piece length", utf8 "pieces"].Pairwise (· < ·)
    decide
  | multi files =>
    show [utf8 "files", utf8 "name", utf8 "piece length", utf8 "pieces"].Pairwise (· < ·)
    decide

theorem TorrentInfo.admissible (i : TorrentInfo) (h : (∃ n, i.content = .single n) ∨ i.content = .multi []) (d : Nat) :
    i.encode.admissible (d + 2) = true := by
  refine admissible_dict.mpr ⟨i.keysIncrease, fun p hp => ?_⟩
  simp only [List.mem_cons, List.not_mem_nil, or_false] at hp
  obtain rfl | rfl | rfl | rfl := hp
  · exact InfoContent.pair_admissible h d
  · exact admissible_bytes (d + 1) _
  · exact admissible_int (d + 1) _
  · exact admissible_bytes (d + 1) _

theorem TorrentInfo.content_of_admissible {i : TorrentInfo} (h : i.encode.admissible TorrentInfo.maxDepth = true) :
    (∃ n, i.content = .single n) ∨ i.content = .multi [] := by
  have hpair := (admissible_dict.mp h).2 i.content.pair List.mem_cons_self
  cases hc : i.content with
  | single n => exact Or.inl ⟨n, rfl⟩
  | multi files =>
    cases files with
    | nil => exact Or.inr rfl
    | cons f fs =>
      rw [hc] at hpair
      have hf := admissible_list.mp hpair f.encode (List.mem_map.mpr ⟨f, List.mem_cons_self, rfl⟩)
      rw [f.not_admissible] at hf
      cases hf

/-- an info dictionary that can be written is read back -/
theorem TorrentInfo.fromBencode_toBencode {B : Bendy} (hB : B.Lawful) {i : TorrentInfo} (hi : i.Typed) {data : Bytes}
    (hdata : i.toBencode B = .ok data) : TorrentInfo.fromBencode B data = .ok i := by
  have hadm : i.encode.admissible TorrentInfo.expectedRecursionDepth = true := (hB.encode_ok _ _).mp ⟨data, hdata⟩
  rw [TorrentInfo.fromBencode, hB.decode_encode hdata hadm, ok_bind, i.decode_encode hi]

/-- An info dictionary survives being written and read again exactly if it has no list of files, or
an empty one: dictionary, list of files, file and path are four levels, and the limit is three. -/
theorem TorrentInfo.info_roundTrip_iff (B : Bendy) (hB : B.Lawful) (i : TorrentInfo) (hi : i.Typed) :
    (∃ data, i.toBencode B = .ok data ∧ TorrentInfo.fromBencode B data = .ok i) ↔
      (∃ n, i.content = .single n) ∨ i.content = .multi [] := by
  constructor
  · rintro ⟨data, hdata, -⟩
    exact TorrentInfo.content_of_admissible ((hB.encode_ok _ _).mp ⟨data, hdata⟩)
  · intro h
    obtain ⟨data, hdata⟩ := (hB.encode_ok TorrentInfo.maxDepth i.encode).mpr (i.admissible h 1)
    exact ⟨data, hdata, TorrentInfo.fromBencode_toBencode hB hi hdata⟩

def infoOfFile : TorrentInfo := ⟨[ShaHash.replicate 7], 16384, .single 5, "a"⟩

theorem infoOfFile_typed : infoOfFile.Typed := by
  refine ⟨by decide, ?_⟩
  show 5 < 2 ^ 64
  decide

theorem TorrentInfo.roundTrip_file :
    ∃ data, infoOfFile.toBencode bendyOfRead = .ok data ∧ TorrentInfo.fromBencode bendyOfRead data = .ok infoOfFile :=
  (TorrentInfo.info_roundTrip_iff bendyOfRead bendyOfRead_lawful infoOfFile infoOfFile_typed).mpr (Or.inl ⟨5, rfl⟩)

def infoOfDir : TorrentInfo := ⟨[ShaHash.replicate 7], 16384, .multi [⟨5, ["a"]⟩], "d"⟩

/-- a directory with one file cannot be written -/
theorem TorrentInfo.lost_dir :
    bendyOfRead.Lawful ∧ infoOfDir.Typed ∧
      ¬ ∃ data, infoOfDir.toBencode bendyOfRead = .ok data ∧
        TorrentInfo.fromBencode bendyOfRead data = .ok infoOfDir := by
  refine ⟨bendyOfRead_lawful, ⟨by decide, ?_⟩, ?_⟩
  · intro f hf
    obtain rfl := List.mem_singleton.mp hf
    decide
  · rintro ⟨data, hdata, -⟩
    obtain ⟨n, h⟩ | h := TorrentInfo.content_of_admissible (bendyOfRead_encode hdata).1
    · cases h
    · cases h

/-! ## the pairs of the metainfo -/

section
variable {α : Type} {key : String} {encode : α → Value}

theorem emitSome_keys (o : Option α) : ((emitSome key encode o).map Prod.fst).Sublist [utf8 key] := by
  cases o with
  | none => exact List.nil_sublist _
  | some a => exact List.Sublist.refl _

theorem emitNonEmpty_keys (xs : List α) : ((emitNonEmpty key encode xs).map Prod.fst).Sublist [utf8 key] := by
  cases xs with
  | nil => exact List.nil_sublist _
  | cons x xs => exact List.Sublist.refl _

theorem mem_emitNonEmpty {xs : List α} (h : xs ≠ []) : utf8 key ∈ (emitNonEmpty key encode xs).map Prod.fst := by
  cases xs with
  | nil => exact absurd rfl h
  | cons x xs => exact List.mem_cons_self

theorem emitSome_admissible {d : Nat} (h : ∀ a, (encode a).admissible d = true) (o : Option α) :
    ∀ p ∈ emitSome key encode o, p.2.admissible d = true := by
  intro p hp
  obtain ⟨a, -, rfl⟩ := List.mem_map.mp hp
  exact h a

theorem emitNonEmpty_strings_admissible (d : Nat) (xs : List String) :
    ∀ p ∈ emitNonEmpty key encodeString xs, p.2.admissible (d + 1) = true := by
  intro p hp
  cases xs with
  | nil => cases hp
  | cons x xs =>
    obtain rfl := List.mem_singleton.mp hp
    exact admissible_strings d (x :: xs)

variable {F : Type} {step : F → Bytes × Value → Decoding F} {f : F}

/-- a loop over a pair that may be missing -/
theorem foldlM_emitSome (g : Option α → F) {o : Option α} (hnone : g none = f)
    (hsome : ∀ a, o = some a → step f (utf8 key, encode a) = .ok (g (some a))) :
    (emitSome key encode o).foldlM step f = .ok (g o) := by
  cases o with
  | none =>
    rw [hnone]
    rfl
  | some a =>
    show [(utf8 key, encode a)].foldlM step f = _
    rw [List.foldlM_cons, hsome a rfl, ok_bind]
    rfl

theorem foldlM_emitNonEmpty (g : List α → F) {xs : List α} (hnil : g [] = f)
    (hcons : step f (utf8 key, encodeVec encode xs) = .ok (g xs)) :
    (emitNonEmpty key encode xs).foldlM step f = .ok (g xs) := by
  cases xs with
  | nil =>
    rw [hnil]
    rfl
  | cons x xs =>
    show [(utf8 key, encodeVec encode (x :: xs))].foldlM step f = _
    rw [List.foldlM_cons, hcons, ok_bind]
    rfl

end

/-- the order of the keys is right as long as nothing stands between `httpseeds` and `info` -/
theorem MetaInfo.keysIncrease_iff (m : MetaInfo) :
    Bencode.keysIncrease m.pairs ↔ m.nodes = [] ∧ m.webseeds = [] := by
  constructor
  · intro h
    simp only [Bencode.keysIncrease, MetaInfo.pairs, List.map_append] at h
    obtain ⟨-, -, hbefore⟩ := List.pairwise_append.mp h
    refine ⟨?_, ?_⟩
    · by_contra hn
      have hlt : utf8 "nodes" < utf8 "info" := hbefore _
        (List.mem_append_left _ (List.mem_append_right _ (mem_emitNonEmpty hn))) _ List.mem_cons_self
      exact absurd hlt (by decide)
    · by_contra hw
      have hlt : utf8 "url-list" < utf8 "info" := hbefore _
        (List.mem_append_right _ (mem_emitNonEmpty hw)) _ List.mem_cons_self
      exact absurd hlt (by decide)
  · rintro ⟨hn, hw⟩
    have hall : [utf8 "announce", utf8 "announce list", utf8 "comment", utf8 "creation date", utf8 "encoding",
        utf8 "httpseeds", utf8 "info"].Pairwise (· < ·) := by decide
    refine hall.sublist ?_
    rw [MetaInfo.pairs, hn, hw]
    simp only [List.map_append]
    exact (((((((emitSome_keys m.announce).append (emitNonEmpty_keys m.announceList)).append
      (emitSome_keys m.comment)).append (emitSome_keys m.creationDate)).append (emitSome_keys m.encoding)).append
      (emitNonEmpty_keys m.httpseeds)).append (List.nil_sublist [])).append (List.nil_sublist []) |>.append
      (List.Sublist.refl [utf8 "info"])

theorem MetaInfo.pairs_admissible {m : MetaInfo} {n : Nat} (hsingle : m.info.content = .single n)
    (hn : m.nodes = []) (hw : m.webseeds = []) : ∀ p ∈ m.pairs, p.2.admissible 2 = true := by
  rw [MetaInfo.pairs, hn, hw]
  simp only [List.forall_mem_append]
  refine ⟨⟨⟨⟨⟨⟨⟨⟨?_, ?_⟩, ?_⟩, ?_⟩, ?_⟩, ?_⟩, ?_⟩, ?_⟩, ?_⟩
  · exact emitSome_admissible (fun s => admissible_bytes 2 (utf8 s)) m.announce
  · exact emitNonEmpty_strings_admissible 1 m.announceList
  · exact emitSome_admissible (fun s => admissible_bytes 2 (utf8 s)) m.comment
  · exact emitSome_admissible (admissible_int 2) m.creationDate
  · exact emitSome_admissible (fun s => admissible_bytes 2 (utf8 s)) m.encoding
  · exact emitNonEmpty_strings_admissible 1 m.httpseeds
  · intro p hp
    cases hp
  · intro p hp
    cases hp
  · intro p hp
    obtain rfl := List.mem_singleton.mp hp
    exact m.info.admissible (Or.inl ⟨n, hsingle⟩) 0

theorem MetaInfo.admissible_iff {m : MetaInfo} {n : Nat} (hsingle : m.info.content = .single n) :
    m.encode.admissible MetaInfo.maxDepth = true ↔ m.nodes = [] ∧ m.webseeds = [] := by
  refine admissible_dict.trans ⟨fun h => m.keysIncrease_iff.mp h.1, fun h => ⟨m.keysIncrease_iff.mpr h, ?_⟩⟩
  exact MetaInfo.pairs_admissible hsingle h.1 h.2

/-! ## reading the metainfo back -/

section
variable {B : Bendy} {f : MetaInfo.Fields}

theorem MetaInfo.field_announce (s : String) :
    MetaInfo.field B f (utf8 "announce", encodeString s) = .ok { f with announce := some s } := by
  rw [MetaInfo.field, if_pos rfl, decodeString_encode, withContext_ok, ok_bind]

theorem MetaInfo.field_httpseeds (xs : List String) :
    MetaInfo.field B f (utf8 "httpseeds", encodeVec encodeString xs) = .ok { f with httpseeds := f.httpseeds ++ xs } := by
  rw [MetaInfo.field, if_neg (by simp), if_neg (by simp), if_neg (by simp), if_pos rfl, decodeVec_strings, ok_bind]

theorem MetaInfo.field_comment (s : String) :
    MetaInfo.field B f (utf8 "comment", encodeString s) = .ok { f with comment := some s } := by
  rw [MetaInfo.field, if_neg (by simp), if_neg (by simp), if_neg (by simp), if_neg (by simp), if_neg (by simp),
    if_pos (Or.inl rfl), decodeString_encode, withContext_ok, ok_bind]

theorem MetaInfo.field_creationDate {t : Int} (h : -2 ^ 63 ≤ t ∧ t < 2 ^ 63) :
    MetaInfo.field B f (utf8 "creation date", .int t) = .ok { f with creationDate := some t } := by
  rw [MetaInfo.field, if_neg (by simp), if_neg (by simp), if_neg (by simp), if_neg (by simp), if_neg (by simp),
    if_neg (by simp), if_pos rfl, decodeI64_int h, withContext_ok, ok_bind]

theorem MetaInfo.field_encoding (s : String) :
    MetaInfo.field B f (utf8 "encoding", encodeString s) = .ok { f with encoding := some s } := by
  rw [MetaInfo.field, if_neg (by simp), if_neg (by simp), if_neg (by simp), if_neg (by simp), if_neg (by simp),
    if_neg (by simp), if_neg (by simp), if_pos rfl, decodeString_encode, withContext_ok, ok_bind]

/-- the key the encoder uses for the list of trackers is unknown to the decoder -/
theorem MetaInfo.field_announceList (v : Value) : MetaInfo.field B f (utf8 "announce list", v) = .ok f := by
  rw [MetaInfo.field, if_neg (by simp), if_neg (by simp), if_neg (by simp), if_neg (by simp), if_neg (by simp),
    if_neg (by simp), if_neg (by simp), if_neg (by simp), if_neg (by simp), if_neg (by simp)]

theorem MetaInfo.field_info {i : TorrentInfo} {data : Bytes} (hraw : B.intoRaw i.encode = data)
    (hread : TorrentInfo.fromBencode B data = .ok i) :
    MetaInfo.field B f (utf8 "info", i.encode)
      = .ok { f with infoHash := some (Sha1.from data), info := some i } := by
  have hdict : ∃ pairs, tryIntoDictionary i.encode = .ok pairs := ⟨_, rfl⟩
  obtain ⟨pairs, hpairs⟩ := hdict
  rw [MetaInfo.field, if_neg (by simp), if_neg (by simp), if_neg (by simp), if_neg (by simp), if_neg (by simp),
    if_neg (by simp), if_neg (by simp), if_neg (by simp), if_neg (by simp), if_pos rfl, hpairs, ok_bind]
  simp only [hraw, hread, withContext_ok, ok_bind]

theorem MetaInfo.foldlM_announce (o : Option String) (h : f.announce = none) :
    (emitSome "announce" encodeString o).foldlM (MetaInfo.field B) f = .ok { f with announce := o } :=
  foldlM_emitSome (fun o => { f with announce := o }) (by rw [← h]) fun s _ => MetaInfo.field_announce s

theorem MetaInfo.foldlM_announceList (xs : List String) :
    (emitNonEmpty "announce list" encodeString xs).foldlM (MetaInfo.field B) f = .ok f :=
  foldlM_emitNonEmpty (fun _ => f) rfl (MetaInfo.field_announceList _)

theorem MetaInfo.foldlM_comment (o : Option String) (h : f.comment = none) :
    (emitSome "comment" encodeString o).foldlM (MetaInfo.field B) f = .ok { f with comment := o } :=
  foldlM_emitSome (fun o => { f with comment := o }) (by rw [← h]) fun s _ => MetaInfo.field_comment s

theorem MetaInfo.foldlM_creationDate (o : Option Int) (ho : ∀ t, o = some t → -2 ^ 63 ≤ t ∧ t < 2 ^ 63)
    (h : f.creationDate = none) :
    (emitSome "creation date" Value.int o).foldlM (MetaInfo.field B) f = .ok { f with creationDate := o } :=
  foldlM_emitSome (fun o => { f with creationDate := o }) (by rw [← h]) fun t ht => MetaInfo.field_creationDate (ho t ht)

theorem MetaInfo.foldlM_encoding (o : Option String) (h : f.encoding = none) :
    (emitSome "encoding" encodeString o).foldlM (MetaInfo.field B) f = .ok { f with encoding := o } :=
  foldlM_emitSome (fun o => { f with encoding := o }) (by rw [← h]) fun s _ => MetaInfo.field_encoding s

theorem MetaInfo.foldlM_httpseeds (xs : List String) :
    (emitNonEmpty "httpseeds" encodeString xs).foldlM (MetaInfo.field B) f
      = .ok { f with httpseeds := f.httpseeds ++ xs } :=
  foldlM_emitNonEmpty (fun xs => { f with httpseeds := f.httpseeds ++ xs }) (by rw [List.append_nil])
    (MetaInfo.field_httpseeds xs)

/-- What is written is read back without the list of trackers and without the creator. -/
theorem MetaInfo.decode_encode {m : MetaInfo} (hm : m.Typed) (hn : m.nodes = []) (hw : m.webseeds = []) {data : Bytes}
    (hraw : B.intoRaw m.info.encode = data) (hread : TorrentInfo.fromBencode B data = .ok m.info)
    (hhash : m.infoHash = Sha1.from data) :
    MetaInfo.decode B m.encode = .ok { m with announceList := [], createdBy := none } := by
  have hfold : m.pairs.foldlM (MetaInfo.field B) ⟨none, [], [], [], none, none, none, none, none, none, []⟩
      = .ok ⟨m.announce, [], [], m.httpseeds, m.encoding, m.comment, none, m.creationDate, some m.info,
        some (Sha1.from data), []⟩ := by
    have hnodes : emitNonEmpty "nodes" DhtNode.encode m.nodes = [] := by rw [hn]; rfl
    have hseeds : emitNonEmpty "url-list" encodeString m.webseeds = [] := by rw [hw]; rfl
    simp only [MetaInfo.pairs, hnodes, hseeds, List.append_nil, List.foldlM_append]
    rw [MetaInfo.foldlM_announce m.announce rfl, ok_bind, MetaInfo.foldlM_announceList, ok_bind,
      MetaInfo.foldlM_comment m.comment rfl, ok_bind, MetaInfo.foldlM_creationDate m.creationDate hm.creationDate rfl,
      ok_bind, MetaInfo.foldlM_encoding m.encoding rfl, ok_bind, MetaInfo.foldlM_httpseeds, ok_bind,
      List.foldlM_cons, MetaInfo.field_info hraw hread, ok_bind, List.foldlM_nil]
    rfl
  rw [MetaInfo.decode, MetaInfo.encode, tryIntoDictionary, ok_bind, hfold, ok_bind, okOrMissing_some, ok_bind,
    okOrMissing_some, ok_bind, hn, hw, hhash]

end

theorem TorrentInfo.sha1Hash_eq {B : Bendy} {i : TorrentInfo} {hash : Sha1} (h : i.sha1Hash B = .ok hash) :
    ∃ raw, i.toBencode B = .ok raw ∧ hash = Sha1.from raw := by
  cases hraw : i.toBencode B with
  | error e =>
    rw [TorrentInfo.sha1Hash, hraw] at h
    cases h
  | ok raw =>
    rw [TorrentInfo.sha1Hash, hraw] at h
    exact ⟨raw, rfl, (Except.ok.inj h).symm⟩

theorem MetaInfo.fromBencode_toBencode {B : Bendy} (hB : B.Lawful) {m : MetaInfo} (hm : m.Typed)
    (hhash : m.info.sha1Hash B = .ok m.infoHash) {data : Bytes} (hdata : m.toBencode B = .ok data) :
    MetaInfo.fromBencode B data = .ok { m with announceList := [], createdBy := none } := by
  obtain ⟨raw, hraw, hfrom⟩ := TorrentInfo.sha1Hash_eq hhash
  have hread : TorrentInfo.fromBencode B raw = .ok m.info := TorrentInfo.fromBencode_toBencode hB hm.info hraw
  have hadm : m.encode.admissible MetaInfo.maxDepth = true := (hB.encode_ok _ _).mp ⟨data, hdata⟩
  obtain ⟨hn, hw⟩ := m.keysIncrease_iff.mp (admissible_dict.mp hadm).1
  have hdepth : MetaInfo.maxDepth ≤ B.defaultDepth := by
    rw [hB.defaultDepth_eq]
    decide
  rw [MetaInfo.fromBencode, hB.decode_encode hdata (admissible_mono hdepth hadm), ok_bind,
    MetaInfo.decode_encode hm hn hw (hB.intoRaw_encode hraw) hread hfrom]

/-- A torrent file of a single file survives being written and read again exactly if it names no
list of trackers, no creator, no nodes and no web seeds.  The list of trackers is written under a key
that is not read, the creator is not written, and behind nodes or web seeds the key `info` is out of
order. -/
theorem MetaInfo.metaInfo_roundTrip_iff (B : Bendy) (hB : B.Lawful) (m : MetaInfo) (hm : m.Typed) (n : Nat)
    (hsingle : m.info.content = .single n) (hhash : m.info.sha1Hash B = .ok m.infoHash) :
    (∃ data, m.toBencode B = .ok data ∧ MetaInfo.fromBencode B data = .ok m) ↔
      m.announceList = [] ∧ m.createdBy = none ∧ m.nodes = [] ∧ m.webseeds = [] := by
  constructor
  · rintro ⟨data, hdata, hback⟩
    rw [MetaInfo.fromBencode_toBencode hB hm hhash hdata] at hback
    have heq := Except.ok.inj hback
    have hlist : [] = m.announceList := congrArg MetaInfo.announceList heq
    have hcreated : none = m.createdBy := congrArg MetaInfo.createdBy heq
    exact ⟨hlist.symm, hcreated.symm, (MetaInfo.admissible_iff hsingle).mp ((hB.encode_ok _ _).mp ⟨data, hdata⟩)⟩
  · rintro ⟨hlist, hcreated, hrest⟩
    obtain ⟨data, hdata⟩ := (hB.encode_ok MetaInfo.maxDepth m.encode).mpr ((MetaInfo.admissible_iff hsingle).mpr hrest)
    refine ⟨data, hdata, ?_⟩
    rw [MetaInfo.fromBencode_toBencode hB hm hhash hdata, ← hlist, ← hcreated]

/-- a torrent file with the given trackers, web seeds and creator -/
def metaOfFile (trackers webseeds : List String) (creator : Option String) : MetaInfo where
  announce := some "http://a"
  announceList := trackers
  encoding := none
  comment := some "c"
  createdBy := creator
  creationDate := some 1
  httpseeds := ["http://h"]
  webseeds := webseeds
  info := infoOfFile
  nodes := []
  infoHash := Sha1.from infoOfFile.encode.encode

theorem metaOfFile_typed (trackers webseeds : List String) (creator : Option String) :
    (metaOfFile trackers webseeds creator).Typed := by
  refine ⟨infoOfFile_typed, ?_, ?_⟩
  · intro t ht
    obtain rfl := Option.some.inj ht
    decide
  · intro node hnode
    cases hnode

theorem TorrentInfo.toBencode_single {i : TorrentInfo} {n : Nat} (h : i.content = .single n) :
    i.toBencode bendyOfRead = .ok i.encode.encode := by
  have hadm : i.encode.admissible TorrentInfo.maxDepth = true := i.admissible (Or.inl ⟨n, h⟩) 1
  rw [TorrentInfo.toBencode]
  simp only [bendyOfRead, if_pos hadm]

theorem TorrentInfo.sha1Hash_single {i : TorrentInfo} {n : Nat} (h : i.content = .single n) :
    i.sha1Hash bendyOfRead = .ok (Sha1.from i.encode.encode) := by
  rw [TorrentInfo.sha1Hash, TorrentInfo.toBencode_single h]
  rfl

theorem sha1Hash_infoOfFile : infoOfFile.sha1Hash bendyOfRead = .ok (Sha1.from infoOfFile.encode.encode) :=
  TorrentInfo.sha1Hash_single rfl

/-- a torrent file that holds an info and nothing else -/
def TorrentInfo.alone (i : TorrentInfo) : Bytes := (Value.dict [(utf8 "info", i.encode)]).encode

/-- what is read from it -/
def TorrentInfo.aloneRead (i : TorrentInfo) : MetaInfo where
  announce := none
  announceList := []
  encoding := none
  comment := none
  createdBy := none
  creationDate := none
  httpseeds := []
  webseeds := []
  info := i
  nodes := []
  infoHash := Sha1.from i.encode.encode

theorem TorrentInfo.fromBencode_alone {i : TorrentInfo} (hi : i.Typed) {n : Nat} (h : i.content = .single n) :
    MetaInfo.fromBencode bendyOfRead i.alone = .ok i.aloneRead := by
  have hadm : i.aloneRead.encode.admissible MetaInfo.maxDepth = true := (MetaInfo.admissible_iff h).mpr ⟨rfl, rfl⟩
  have hwritten : i.aloneRead.toBencode bendyOfRead = .ok i.alone := by
    rw [MetaInfo.toBencode]
    simp only [bendyOfRead, if_pos hadm]
    rfl
  have htyped : i.aloneRead.Typed := by
    refine ⟨hi, ?_, ?_⟩ <;> intro x hx <;> cases hx
  exact MetaInfo.fromBencode_toBencode bendyOfRead_lawful htyped (TorrentInfo.sha1Hash_single h) hwritten

theorem MetaInfo.roundTrip_plain :
    ∃ data, (metaOfFile [] [] none).toBencode bendyOfRead = .ok data ∧
      MetaInfo.fromBencode bendyOfRead data = .ok (metaOfFile [] [] none) :=
  (MetaInfo.metaInfo_roundTrip_iff bendyOfRead bendyOfRead_lawful (metaOfFile [] [] none) (metaOfFile_typed _ _ _) 5
    rfl sha1Hash_infoOfFile).mpr ⟨rfl, rfl, rfl, rfl⟩

/-- the list of trackers is lost, and web seeds cannot be written at all -/
theorem MetaInfo.lost_trackers :
    (metaOfFile ["http://b"] [] none).info.sha1Hash bendyOfRead
        = .ok (metaOfFile ["http://b"] [] none).infoHash ∧
      (¬ ∃ data, (metaOfFile ["http://b"] [] none).toBencode bendyOfRead = .ok data ∧
        MetaInfo.fromBencode bendyOfRead data = .ok (metaOfFile ["http://b"] [] none)) ∧
      ¬ ∃ data, (metaOfFile [] ["http://w"] none).toBencode bendyOfRead = .ok data := by
  refine ⟨sha1Hash_infoOfFile, ?_, ?_⟩
  · rintro ⟨data, hdata, hback⟩
    rw [MetaInfo.fromBencode_toBencode bendyOfRead_lawful (metaOfFile_typed _ _ _) sha1Hash_infoOfFile hdata] at hback
    have hlist : [] = ["http://b"] := congrArg MetaInfo.announceList (Except.ok.inj hback)
    cases hlist
  · rintro ⟨data, hdata⟩
    obtain ⟨-, hw⟩ := (MetaInfo.admissible_iff rfl).mp (bendyOfRead_encode hdata).1
    cases hw

end Btt
