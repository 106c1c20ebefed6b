import BitTorrent.Torrent.Bencode

/-!
# The identity of a torrent file

`MetaInfo.fromBencode` takes the hash of a torrent from the bytes of its info dictionary, and keeps of the
dictionary the fields it knows.  So the hash is that of the kept info exactly if the dictionary has no other
fields: `TorrentInfo.encode_eq_iff` compares a dictionary with what is written for what was read from it, and
`MetaInfo.keeps_identity_iff` carries that over to the hashes.  The packed hashes of the pieces are compared
first (`TorrentInfo.pieces_bijection`).
-/

namespace Btt
open Bencode Chunks

/-! ## packed hashes -/

theorem asRef_of_mapM {cs : List Bytes} {hashes : List ShaHash} (h : cs.mapM ShaHash.tryFrom = some hashes)
    (hlen : ∀ c ∈ cs, c.length ≤ shaHashLen) : hashes.map ShaHash.asRef = cs := by
  induction cs generalizing hashes with
  | nil =>
    cases h
    rfl
  | cons c cs ih =>
    rw [List.mapM_cons] at h
    obtain ⟨x, hx, h⟩ := Option.bind_eq_some_iff.mp h
    obtain ⟨xs, hxs, h⟩ := Option.bind_eq_some_iff.mp h
    cases h
    obtain ⟨hc, hcs⟩ := List.forall_mem_cons.mp hlen
    rw [List.map_cons, ih hxs hcs, ShaHash.asRef_of_tryFrom hc hx]

theorem flatMap_of_decodePieces {data : Bytes} {pieces : List ShaHash} (h : decodePieces data = .ok pieces) :
    pieces.flatMap ShaHash.asRef = data := by
  unfold decodePieces at h
  cases hp : (chunks shaHashLen data).mapM ShaHash.tryFrom with
  | none =>
    rw [hp] at h
    cases h
  | some ps =>
    rw [hp] at h
    cases h
    rw [List.flatMap_def, asRef_of_mapM hp fun c hc => length_le_of_mem_chunks (by decide) hc]
    exact flatten_chunks (by decide) data

theorem length_flatMap_asRef (pieces : List ShaHash) :
    (pieces.flatMap ShaHash.asRef).length = 20 * pieces.length := by
  induction pieces with
  | nil => rfl
  | cons h hs ih =>
    rw [List.flatMap_cons, List.length_append, ShaHash.length_asRef, ih, List.length_cons, Nat.mul_succ, Nat.add_comm]

/-- a string of full hashes is the packing of a list of hashes -/
theorem exists_flatMap_asRef {count : Nat} {data : Bytes} (h : data.length = 20 * count) :
    ∃ pieces : List ShaHash, pieces.flatMap ShaHash.asRef = data := by
  induction count generalizing data with
  | zero =>
    rw [List.eq_nil_of_length_eq_zero h]
    exact ⟨[], rfl⟩
  | succ count ih =>
    rw [Nat.mul_succ] at h
    have htake : (data.take 20).length = 20 := by
      rw [List.length_take, h]
      exact Nat.min_eq_left (Nat.le_add_left _ _)
    have hdrop : (data.drop 20).length = 20 * count := by
      rw [List.length_drop, h]
      exact Nat.add_sub_cancel _ _
    obtain ⟨pieces, hpieces⟩ := ih hdrop
    refine ⟨⟨⟨data.take 20, htake⟩⟩ :: pieces, ?_⟩
    rw [List.flatMap_cons, hpieces]
    exact List.take_append_drop 20 data

theorem exists_decodePieces_iff {data : Bytes} :
    (∃ pieces, decodePieces data = .ok pieces) ↔ 20 ∣ data.length := by
  constructor
  · rintro ⟨pieces, h⟩
    rw [← flatMap_of_decodePieces h, length_flatMap_asRef]
    exact Nat.dvd_mul_right _ _
  · rintro ⟨count, h⟩
    obtain ⟨pieces, rfl⟩ := exists_flatMap_asRef h
    exact ⟨pieces, decodePieces_encode pieces⟩

/-- **The packed hash string is a bijection.**  Whatever was read of an info dictionary before, a string of
`pieces` is decoded exactly if it is made of full hashes, to the list that is packed to it; every list is decoded
from its packing, which is what the encoder emits. -/
theorem TorrentInfo.pieces_bijection (f : TorrentInfo.Fields) :
    (∀ data : Bytes, (∃ f', TorrentInfo.field f (utf8 "pieces", .bytes data) = .ok f') ↔ 20 ∣ data.length) ∧
    (∀ (data : Bytes) (f' : TorrentInfo.Fields), TorrentInfo.field f (utf8 "pieces", .bytes data) = .ok f' →
      ∃ pieces, f' = { f with pieces := some pieces } ∧ pieces.flatMap ShaHash.asRef = data) ∧
    (∀ pieces : List ShaHash, TorrentInfo.field f (utf8 "pieces", .bytes (pieces.flatMap ShaHash.asRef))
      = .ok { f with pieces := some pieces }) ∧
    ∀ i : TorrentInfo, ∃ pairs, i.encode = .dict pairs ∧
      (utf8 "pieces", .bytes (i.pieces.flatMap ShaHash.asRef)) ∈ pairs := by
  refine ⟨?_, ?_, fun pieces => TorrentInfo.field_pieces pieces, ?_⟩
  · intro data
    rw [← exists_decodePieces_iff, TorrentInfo.field_pieces_eq]
    constructor
    · rintro ⟨f', h⟩
      obtain ⟨pieces, hpieces, -⟩ := bind_eq_ok h
      exact ⟨pieces, hpieces⟩
    · rintro ⟨pieces, hpieces⟩
      rw [hpieces]
      exact ⟨_, rfl⟩
  · intro data f' h
    rw [TorrentInfo.field_pieces_eq] at h
    obtain ⟨pieces, hpieces, h⟩ := bind_eq_ok h
    cases h
    exact ⟨pieces, rfl, flatMap_of_decodePieces hpieces⟩
  · intro i
    refine ⟨_, rfl, ?_⟩
    exact List.mem_cons_of_mem _ (List.mem_cons_of_mem _ (List.mem_cons_of_mem _ List.mem_cons_self))

/-! ## what is read from an info dictionary -/

/-- a file takes two levels: the dictionary, and the list of its path -/
theorem SubFileInfo.not_admissible_of_decode {v : Value} {s : SubFileInfo} (h : SubFileInfo.decode v = .ok s) :
    v.admissible 1 = false := by
  obtain ⟨pairs, hpairs, h⟩ := bind_eq_ok h
  obtain ⟨f, hfold, h⟩ := bind_eq_ok h
  obtain ⟨length, -, h⟩ := bind_eq_ok h
  obtain ⟨paths, hpaths, -⟩ := bind_eq_ok h
  -- the paths that were found are a list
  have hlist : f.paths.isSome → ∃ k items, (k, Value.list items) ∈ pairs := by
    refine foldlM_keeps (I := fun f : SubFileInfo.Fields => f.paths.isSome → ∃ k items, (k, Value.list items) ∈ pairs)
      ?_ (fun h => by cases h) hfold
    intro p hp f f' hf hstep
    unfold SubFileInfo.field at hstep
    split at hstep
    · obtain ⟨n, -, hstep⟩ := bind_eq_ok hstep
      cases hstep
      exact hf
    split at hstep
    · obtain ⟨paths, hdecode, hstep⟩ := bind_eq_ok hstep
      obtain ⟨items, hitems, -⟩ := bind_eq_ok hdecode
      intro _
      refine ⟨p.1, items, ?_⟩
      rw [← tryIntoList_eq_ok hitems]
      exact hp
    · cases hstep
  have hsome : f.paths.isSome := by
    cases hf : f.paths with
    | none =>
      rw [hf] at hpaths
      cases hpaths
    | some x => rfl
  obtain ⟨k, items, hmem⟩ := hlist hsome
  rw [tryIntoDictionary_eq_ok hpairs]
  by_contra hadm
  have hdeep := (admissible_dict.mp (Bool.of_not_eq_false hadm)).2 _ hmem
  cases hdeep

namespace TorrentInfo

/-- what one turn of the loop can do -/
theorem field_cases {f f' : Fields} {p : Bytes × Value} (h : field f p = .ok f') :
    ((p.1 = utf8 "name" ∨ p.1 = utf8 "name.utf-8") ∧ ∃ s, p.2 = encodeString s ∧ f' = { f with name := some s }) ∨
    (p.1 = utf8 "piece length" ∧ ∃ n : Nat, p.2 = .int n ∧ n < 2 ^ 64 ∧ f' = { f with pieceLength := some n }) ∨
    (p.1 = utf8 "pieces" ∧ ∃ hashes : List ShaHash, p.2 = .bytes (hashes.flatMap ShaHash.asRef) ∧
      f' = { f with pieces := some hashes }) ∨
    (p.1 = utf8 "files" ∧ f.length = none ∧ ∃ files, decodeVec SubFileInfo.decode p.2 = .ok files ∧
      f' = { f with files := some files }) ∨
    (p.1 = utf8 "length" ∧ f.files = none ∧ ∃ n : Nat, p.2 = .int n ∧ n < 2 ^ 64 ∧ f' = { f with length := some n }) ∨
    (p.1 ≠ utf8 "files" ∧ p.1 ≠ utf8 "length" ∧ f' = f) := by
  unfold field at h
  split at h
  · rename_i hkey
    obtain ⟨s, hs, h⟩ := bind_eq_ok h
    cases h
    exact Or.inl ⟨hkey, s, encodeString_of_decodeString (withContext_eq_ok hs), rfl⟩
  right
  split at h
  · rename_i hkey
    obtain ⟨n, hn, h⟩ := bind_eq_ok h
    cases h
    obtain ⟨hint, hlt⟩ := int_of_decodeU64 (withContext_eq_ok hn)
    exact Or.inl ⟨hkey, n, hint, hlt, rfl⟩
  right
  split at h
  · rename_i hkey
    obtain ⟨data, hdata, h⟩ := bind_eq_ok h
    obtain ⟨hashes, hhashes, h⟩ := bind_eq_ok h
    cases h
    refine Or.inl ⟨hkey, hashes, ?_, rfl⟩
    rw [flatMap_of_decodePieces hhashes]
    exact tryIntoBytes_eq_ok hdata
  right
  split at h
  · rename_i hkey
    left
    split at h
    · cases h
    · rename_i hlength
      obtain ⟨files, hfiles, h⟩ := bind_eq_ok h
      cases h
      exact ⟨hkey, by simpa using hlength, files, hfiles, rfl⟩
  right
  split at h
  · rename_i hkey
    left
    split at h
    · cases h
    · rename_i hfiles
      obtain ⟨n, hn, h⟩ := bind_eq_ok h
      cases h
      obtain ⟨hint, hlt⟩ := int_of_decodeU64 (withContext_eq_ok hn)
      exact ⟨hkey, by simpa using hfiles, n, hint, hlt, rfl⟩
  · rename_i hfiles hlength
    cases h
    exact Or.inr ⟨hfiles, hlength, rfl⟩

/-- the fields found so far stand in the pairs -/
structure Found (ps : List (Bytes × Value)) (f : Fields) : Prop where
  name : ∀ s, f.name = some s → (utf8 "name", encodeString s) ∈ ps ∨ (utf8 "name.utf-8", encodeString s) ∈ ps
  pieceLength : ∀ n, f.pieceLength = some n → (utf8 "piece length", .int n) ∈ ps ∧ n < 2 ^ 64
  pieces : ∀ hashes, f.pieces = some hashes → (utf8 "pieces", .bytes (hashes.flatMap ShaHash.asRef)) ∈ ps
  files : ∀ files, f.files = some files →
    f.length = none ∧ ∃ v, (utf8 "files", v) ∈ ps ∧ decodeVec SubFileInfo.decode v = .ok files
  length : ∀ n, f.length = some n → f.files = none ∧ (utf8 "length", .int n) ∈ ps ∧ n < 2 ^ 64

theorem Found.field {ps : List (Bytes × Value)} {f f' : Fields} (hf : Found ps f) {p : Bytes × Value} (hp : p ∈ ps)
    (h : field f p = .ok f') : Found ps f' := by
  obtain ⟨k, v⟩ := p
  rcases field_cases h with ⟨hkey, s, rfl, rfl⟩ | ⟨hkey, n, rfl, hn, rfl⟩ | ⟨hkey, hashes, rfl, rfl⟩ |
    ⟨hkey, hlength, files, hfiles, rfl⟩ | ⟨hkey, hfiles, n, rfl, hn, rfl⟩ | ⟨-, -, rfl⟩
  · refine { hf with name := ?_ }
    intro t ht
    cases ht
    rcases hkey with rfl | rfl
    · exact Or.inl hp
    · exact Or.inr hp
  · refine { hf with pieceLength := ?_ }
    intro k hk
    cases hk
    exact ⟨hkey ▸ hp, hn⟩
  · refine { hf with pieces := ?_ }
    intro xs hxs
    cases hxs
    exact hkey ▸ hp
  · refine { hf with files := ?_, length := ?_ }
    · intro fs hfs
      cases hfs
      exact ⟨hlength, v, hkey ▸ hp, hfiles⟩
    · intro n hn
      rw [show f.length = some n from hn] at hlength
      cases hlength
  · refine { hf with files := ?_, length := ?_ }
    · intro fs hfs
      rw [show f.files = some fs from hfs] at hfiles
      cases hfiles
    · intro k hk
      cases hk
      exact ⟨hfiles, hkey ▸ hp, hn⟩
  · exact hf

/-- what a dictionary that is read must have -/
theorem decode_found {ps : List (Bytes × Value)} {i : TorrentInfo} (h : decode (.dict ps) = .ok i) :
    ∃ f, Found ps f ∧ ps.foldlM TorrentInfo.field ⟨none, none, none, none, none⟩ = .ok f ∧ f.name = some i.name ∧
      f.pieceLength = some i.pieceLength ∧ f.pieces = some i.pieces ∧ f.content = some i.content := by
  obtain ⟨pairs, hpairs, h⟩ := bind_eq_ok h
  cases hpairs
  obtain ⟨f, hfold, h⟩ := bind_eq_ok h
  obtain ⟨name, hname, h⟩ := bind_eq_ok h
  obtain ⟨pieceLength, hpieceLength, h⟩ := bind_eq_ok h
  obtain ⟨pieces, hpieces, h⟩ := bind_eq_ok h
  obtain ⟨content, hcontent, h⟩ := bind_eq_ok h
  cases h
  have hstart : Found ps ⟨none, none, none, none, none⟩ := by
    constructor <;> intro x hx <;> cases hx
  exact ⟨f, foldlM_keeps (fun p hp s s' hs hstep => hs.field hp hstep) hstart hfold, hfold,
    okOrMissing_eq_ok hname, okOrMissing_eq_ok hpieceLength, okOrMissing_eq_ok hpieces, okOrMissing_eq_ok hcontent⟩

/-- the content is a file or no files at all: a file in a list of files is too deep -/
theorem content_of_decode {ps : List (Bytes × Value)} {i : TorrentInfo} (h : decode (.dict ps) = .ok i)
    (hadm : (Value.dict ps).admissible expectedRecursionDepth = true) :
    (∃ n, i.content = .single n) ∨ i.content = .multi [] := by
  obtain ⟨f, hfound, -, -, -, -, hcontent⟩ := decode_found h
  unfold Fields.content at hcontent
  split at hcontent
  · exact Or.inl ⟨_, (Option.some.inj hcontent).symm⟩
  · obtain ⟨files, hfiles, heq⟩ := Option.map_eq_some_iff.mp hcontent
    rw [← heq]
    right
    obtain ⟨-, v, hv, hdecode⟩ := hfound.files files hfiles
    have hvadm := (admissible_dict.mp hadm).2 _ hv
    obtain ⟨items, hitems, hmap⟩ := bind_eq_ok hdecode
    cases files with
    | nil => rfl
    | cons s files =>
      obtain ⟨w, hw, hs⟩ := mem_of_mapM hmap List.mem_cons_self
      rw [tryIntoList_eq_ok hitems] at hvadm
      have hwadm := admissible_list.mp hvadm w hw
      rw [SubFileInfo.not_admissible_of_decode hs] at hwadm
      cases hwadm

/-- the numbers of an info fit their type -/
theorem numbers_of_decode {v : Value} {i : TorrentInfo} (h : decode v = .ok i) :
    i.pieceLength < 2 ^ 64 ∧ ∀ n, i.content = .single n → n < 2 ^ 64 := by
  obtain ⟨ps, hps, -⟩ := bind_eq_ok h
  obtain rfl : v = .dict ps := tryIntoDictionary_eq_ok hps
  obtain ⟨f, hfound, -, -, hpieceLength, -, hcontent⟩ := decode_found h
  refine ⟨(hfound.pieceLength _ hpieceLength).2, ?_⟩
  intro n hn
  rw [hn] at hcontent
  unfold Fields.content at hcontent
  split at hcontent
  · rename_i k hk
    cases hcontent
    exact (hfound.length _ hk).2.2
  · obtain ⟨files, -, heq⟩ := Option.map_eq_some_iff.mp hcontent
    cases heq

theorem typed_of_decode {ps : List (Bytes × Value)} {i : TorrentInfo} (h : decode (.dict ps) = .ok i)
    (hadm : (Value.dict ps).admissible expectedRecursionDepth = true) : i.Typed := by
  obtain ⟨hpieceLength, hsingle⟩ := numbers_of_decode h
  refine ⟨hpieceLength, ?_⟩
  rcases content_of_decode h hadm with ⟨n, hn⟩ | hnil
  · rw [hn]
    exact hsingle n hn
  · rw [hnil]
    intro g hg
    cases hg

/-- pairs that are skipped may stand behind the others -/
theorem decode_append {ps extra : List (Bytes × Value)} (hskip : ∀ f, extra.foldlM TorrentInfo.field f = .ok f) :
    decode (.dict (ps ++ extra)) = decode (.dict ps) := by
  simp only [decode, tryIntoDictionary, ok_bind, List.foldlM_append, hskip]
  cases ps.foldlM TorrentInfo.field ⟨none, none, none, none, none⟩ with
  | error e => rfl
  | ok f => rfl

/-! ## a dictionary and what is written for it -/

/-- the keys that are written -/
def keys : List Bytes := [utf8 "files", utf8 "length", utf8 "name", utf8 "piece length", utf8 "pieces"]

/-- the pairs that are written -/
def pairs (i : TorrentInfo) : List (Bytes × Value) :=
  [i.content.pair, (utf8 "name", encodeString i.name), (utf8 "piece length", .int i.pieceLength),
    (utf8 "pieces", .bytes (i.pieces.flatMap ShaHash.asRef))]

theorem key_of_mem_pairs {i : TorrentInfo} {p : Bytes × Value} (hp : p ∈ i.pairs) : p.1 ∈ keys := by
  simp only [pairs, List.mem_cons, List.not_mem_nil, or_false] at hp
  obtain rfl | rfl | rfl | rfl := hp
  · cases i.content with
    | single n => simp [keys, InfoContent.pair]
    | multi files => simp [keys, InfoContent.pair]
  · simp [keys]
  · simp [keys]
  · simp [keys]

/-- if a dictionary has a pair for the length or the files, it was not passed over -/
theorem content_found {ps : List (Bytes × Value)} {f : Fields} {v : Value}
    (h : ps.foldlM TorrentInfo.field ⟨none, none, none, none, none⟩ = .ok f) :
    ((utf8 "length", v) ∈ ps → f.length.isSome) ∧ ((utf8 "files", v) ∈ ps → f.files.isSome) := by
  have hkeep : ∀ (q : Bytes × Value) (s s' : Fields), field s q = .ok s' →
      (s.length.isSome → s'.length.isSome) ∧ (s.files.isSome → s'.files.isSome) := by
    intro q s s' hstep
    rcases field_cases hstep with ⟨-, x, -, rfl⟩ | ⟨-, n, -, -, rfl⟩ | ⟨-, hashes, -, rfl⟩ | ⟨-, -, files, -, rfl⟩ |
      ⟨-, -, n, -, -, rfl⟩ | ⟨-, -, rfl⟩
    · exact ⟨id, id⟩
    · exact ⟨id, id⟩
    · exact ⟨id, id⟩
    · exact ⟨id, fun _ => rfl⟩
    · exact ⟨fun _ => rfl, id⟩
    · exact ⟨id, id⟩
  constructor
  · intro hmem
    refine foldlM_sets (J := fun f : Fields => f.length.isSome) ?_ (fun q s s' hs hstep => (hkeep q s s' hstep).1 hs)
      hmem h
    intro s s' hstep
    rcases field_cases hstep with ⟨hkey, -⟩ | ⟨hkey, -⟩ | ⟨hkey, -⟩ | ⟨hkey, -⟩ | ⟨-, -, n, -, -, rfl⟩ | ⟨-, hkey, -⟩
    · simp at hkey
    · simp at hkey
    · simp at hkey
    · simp at hkey
    · rfl
    · exact absurd rfl hkey
  · intro hmem
    refine foldlM_sets (J := fun f : Fields => f.files.isSome) ?_ (fun q s s' hs hstep => (hkeep q s s' hstep).2 hs)
      hmem h
    intro s s' hstep
    rcases field_cases hstep with ⟨hkey, -⟩ | ⟨hkey, -⟩ | ⟨hkey, -⟩ | ⟨-, -, files, -, rfl⟩ | ⟨hkey, -⟩ | ⟨hkey, -⟩
    · simp at hkey
    · simp at hkey
    · simp at hkey
    · rfl
    · simp at hkey
    · exact absurd rfl hkey

/-- the pair of the content stands in the dictionary -/
theorem Found.content_pair {ps : List (Bytes × Value)} {f : Fields} (hf : Found ps f) {content : InfoContent}
    (h : f.content = some content) (hflat : (∃ n, content = .single n) ∨ content = .multi []) :
    content.pair ∈ ps := by
  unfold Fields.content at h
  split at h
  · rename_i n hn
    cases h
    exact (hf.length n hn).2.1
  · obtain ⟨files, hfiles, rfl⟩ := Option.map_eq_some_iff.mp h
    obtain rfl : files = [] := by
      rcases hflat with ⟨n, hn⟩ | hnil
      · cases hn
      · cases hnil
        rfl
    obtain ⟨-, v, hv, hdecode⟩ := hf.files [] hfiles
    obtain ⟨items, hitems, hmap⟩ := bind_eq_ok hdecode
    rw [tryIntoList_eq_ok hitems, mapM_eq_nil hmap] at hv
    exact hv

theorem Found.content_key {ps : List (Bytes × Value)} {f : Fields} (hf : Found ps f) {content : InfoContent}
    (h : f.content = some content) :
    (f.length.isSome → content.pair.1 = utf8 "length") ∧ (f.files.isSome → content.pair.1 = utf8 "files") := by
  unfold Fields.content at h
  split at h
  · rename_i n hn
    cases h
    refine ⟨fun _ => rfl, fun hfiles => ?_⟩
    rw [(hf.length n hn).1] at hfiles
    cases hfiles
  · rename_i hnone
    obtain ⟨files, hfiles, rfl⟩ := Option.map_eq_some_iff.mp h
    refine ⟨fun hlength => ?_, fun _ => rfl⟩
    rw [hnone] at hlength
    cases hlength

/-- **A dictionary is what is written for the info read from it if it has no other keys.** -/
theorem encode_eq_iff {ps : List (Bytes × Value)} {i : TorrentInfo} (h : decode (.dict ps) = .ok i)
    (hadm : (Value.dict ps).admissible expectedRecursionDepth = true) :
    Value.dict ps = i.encode ↔ ∀ p ∈ ps, p.1 ∈ keys := by
  have hkeys : Bencode.keysIncrease ps := (admissible_dict.mp hadm).1
  constructor
  · intro heq p hp
    have hpairs : ps = i.pairs := Value.dict.inj heq
    rw [hpairs] at hp
    exact key_of_mem_pairs hp
  · intro hknown
    obtain ⟨f, hfound, hfold, hname, hpieceLength, hpieces, hcontent⟩ := decode_found h
    have hcontentPair := hfound.content_pair hcontent (content_of_decode h hadm)
    have hnamePair : (utf8 "name", encodeString i.name) ∈ ps := by
      rcases hfound.name _ hname with hmem | hmem
      · exact hmem
      · have hkey : utf8 "name.utf-8" ∈ keys := hknown _ hmem
        simp [keys] at hkey
    have hpieceLengthPair := (hfound.pieceLength _ hpieceLength).1
    have hpiecesPair := hfound.pieces _ hpieces
    refine congrArg Value.dict (hkeys.ext i.keysIncrease fun p => ⟨?_, ?_⟩)
    · -- the key of a pair tells which one of the written pairs it is
      intro hp
      obtain ⟨k, v⟩ := p
      have hsame : ∀ q ∈ ps, q.1 = k → q = (k, v) := by
        rintro ⟨k', w⟩ hq rfl
        rw [hkeys.unique hq hp]
      have hkey : k ∈ keys := hknown _ hp
      obtain ⟨hlength, hfiles⟩ := content_found hfold
      obtain ⟨hlengthKey, hfilesKey⟩ := hfound.content_key hcontent
      show (k, v) ∈ i.pairs
      simp only [keys, List.mem_cons, List.not_mem_nil, or_false] at hkey
      simp only [pairs, List.mem_cons, List.not_mem_nil, or_false]
      obtain rfl | rfl | rfl | rfl | rfl := hkey
      · exact Or.inl (hsame _ hcontentPair (hfilesKey (hfiles hp))).symm
      · exact Or.inl (hsame _ hcontentPair (hlengthKey (hlength hp))).symm
      · exact Or.inr (Or.inl (hsame _ hnamePair rfl).symm)
      · exact Or.inr (Or.inr (Or.inl (hsame _ hpieceLengthPair rfl).symm))
      · exact Or.inr (Or.inr (Or.inr (hsame _ hpiecesPair rfl).symm))
    · intro hp
      have hp' : p ∈ i.pairs := hp
      simp only [pairs, List.mem_cons, List.not_mem_nil, or_false] at hp'
      obtain rfl | rfl | rfl | rfl := hp'
      · exact hcontentPair
      · exact hnamePair
      · exact hpieceLengthPair
      · exact hpiecesPair

end TorrentInfo

/-! ## what is read from a torrent file -/

theorem DhtNode.port_of_decode {v : Value} {node : DhtNode} (h : DhtNode.decode v = .ok node) :
    node.port < 2 ^ 32 := by
  obtain ⟨list, -, h⟩ := bind_eq_ok h
  obtain ⟨host, -, h⟩ := bind_eq_ok h
  obtain ⟨hostText, -, h⟩ := bind_eq_ok h
  obtain ⟨port, -, h⟩ := bind_eq_ok h
  obtain ⟨n, hn, h⟩ := bind_eq_ok h
  cases h
  unfold decodeU32 at hn
  cases hd : decodeInteger 0 (2 ^ 32) port with
  | error e =>
    rw [hd] at hn
    cases hn
  | ok k =>
    rw [hd] at hn
    cases hn
    obtain ⟨-, h0, hlt⟩ := int_of_decodeInteger hd
    show k.toNat < 2 ^ 32
    omega

namespace MetaInfo

/-- the info and its hash come from one pair, and the numbers found so far fit their types -/
structure Found (B : Bendy) (pairs : List (Bytes × Value)) (f : Fields) : Prop where
  info : ∀ i, f.info = some i → ∃ ps, (utf8 "info", .dict ps) ∈ pairs ∧
    f.infoHash = some (Sha1.from (B.intoRaw (.dict ps))) ∧ TorrentInfo.fromBencode B (B.intoRaw (.dict ps)) = .ok i
  creationDate : ∀ t, f.creationDate = some t → -2 ^ 63 ≤ t ∧ t < 2 ^ 63
  nodes : ∀ node ∈ f.nodes, node.port < 2 ^ 32

/-- what one pair of a torrent file changes of the info, its hash and the numbers -/
theorem field_cases {B : Bendy} {f f' : Fields} {p : Bytes × Value} (h : field B f p = .ok f') :
    (f'.info = f.info ∧ f'.infoHash = f.infoHash ∧ f'.creationDate = f.creationDate ∧ f'.nodes = f.nodes) ∨
      (∃ nodes, decodeVec DhtNode.decode p.2 = .ok nodes ∧ f' = { f with nodes := f.nodes ++ nodes }) ∨
      (∃ t, decodeI64 p.2 = .ok t ∧ f' = { f with creationDate := some t }) ∨
      ∃ ps i, p = (utf8 "info", .dict ps) ∧ TorrentInfo.fromBencode B (B.intoRaw (.dict ps)) = .ok i ∧
        f' = { f with infoHash := some (Sha1.from (B.intoRaw (.dict ps))), info := some i } := by
  have hother : ∀ {α : Type} {x : Decoding α} {g : α → Fields}, (x >>= fun a => .ok (g a)) = .ok f' →
      (∀ a, (g a).info = f.info ∧ (g a).infoHash = f.infoHash ∧ (g a).creationDate = f.creationDate ∧
        (g a).nodes = f.nodes) →
      f'.info = f.info ∧ f'.infoHash = f.infoHash ∧ f'.creationDate = f.creationDate ∧ f'.nodes = f.nodes := by
    intro α x g hx hg
    obtain ⟨a, -, ha⟩ := bind_eq_ok hx
    cases ha
    exact hg a
  unfold MetaInfo.field at h
  rcases ite_eq_iff.mp h with ⟨-, h⟩ | ⟨-, h⟩
  · exact Or.inl (hother h fun _ => ⟨rfl, rfl, rfl, rfl⟩)
  rcases ite_eq_iff.mp h with ⟨-, h⟩ | ⟨-, h⟩
  · exact Or.inl (hother h fun _ => ⟨rfl, rfl, rfl, rfl⟩)
  rcases ite_eq_iff.mp h with ⟨-, h⟩ | ⟨-, h⟩
  · exact Or.inl (hother h fun _ => ⟨rfl, rfl, rfl, rfl⟩)
  rcases ite_eq_iff.mp h with ⟨-, h⟩ | ⟨-, h⟩
  · exact Or.inl (hother h fun _ => ⟨rfl, rfl, rfl, rfl⟩)
  rcases ite_eq_iff.mp h with ⟨-, h⟩ | ⟨-, h⟩
  · obtain ⟨nodes, hread, h⟩ := bind_eq_ok h
    cases h
    exact Or.inr (Or.inl ⟨nodes, hread, rfl⟩)
  rcases ite_eq_iff.mp h with ⟨-, h⟩ | ⟨-, h⟩
  · exact Or.inl (hother h fun _ => ⟨rfl, rfl, rfl, rfl⟩)
  rcases ite_eq_iff.mp h with ⟨-, h⟩ | ⟨-, h⟩
  · obtain ⟨t, hread, h⟩ := bind_eq_ok h
    cases h
    exact Or.inr (Or.inr (Or.inl ⟨t, withContext_eq_ok hread, rfl⟩))
  rcases ite_eq_iff.mp h with ⟨-, h⟩ | ⟨-, h⟩
  · exact Or.inl (hother h fun _ => ⟨rfl, rfl, rfl, rfl⟩)
  rcases ite_eq_iff.mp h with ⟨-, h⟩ | ⟨-, h⟩
  · exact Or.inl (hother h fun _ => ⟨rfl, rfl, rfl, rfl⟩)
  rcases ite_eq_iff.mp h with ⟨hinfo, h⟩ | ⟨-, h⟩
  · obtain ⟨ps, hps, h⟩ := bind_eq_ok h
    obtain ⟨i, hi, h⟩ := bind_eq_ok h
    cases h
    obtain ⟨k, v⟩ := p
    obtain rfl : k = utf8 "info" := hinfo
    obtain rfl : v = .dict ps := tryIntoDictionary_eq_ok hps
    exact Or.inr (Or.inr (Or.inr ⟨ps, i, rfl, withContext_eq_ok hi, rfl⟩))
  · cases h
    exact Or.inl ⟨rfl, rfl, rfl, rfl⟩

theorem Found.field {B : Bendy} {pairs : List (Bytes × Value)} {f f' : Fields} (hf : Found B pairs f)
    {p : Bytes × Value} (hp : p ∈ pairs) (h : field B f p = .ok f') : Found B pairs f' := by
  obtain ⟨hinfo, hhash, hdate, hnodes⟩ | ⟨nodes, hread, rfl⟩ | ⟨t, ht, rfl⟩ | ⟨ps, i, rfl, hi, rfl⟩ := field_cases h
  · refine ⟨?_, ?_, ?_⟩
    · rw [hinfo, hhash]
      exact hf.info
    · rw [hdate]
      exact hf.creationDate
    · rw [hnodes]
      exact hf.nodes
  · refine { hf with nodes := ?_ }
    intro node hmem
    rcases List.mem_append.mp hmem with hmem | hmem
    · exact hf.nodes node hmem
    · obtain ⟨items, -, hmap⟩ := bind_eq_ok hread
      obtain ⟨v, -, hv⟩ := mem_of_mapM hmap hmem
      exact DhtNode.port_of_decode hv
  · refine { hf with creationDate := ?_ }
    intro t' ht'
    cases ht'
    exact (int_of_decodeInteger ht).2
  · refine { hf with info := ?_ }
    intro i' hi'
    cases hi'
    exact ⟨ps, hp, rfl, hi⟩

/-- the info dictionary of an accepted file, with what was kept of it -/
theorem fromBencode_found {B : Bendy} {data : Bytes} {m : MetaInfo} (h : fromBencode B data = .ok m) :
    ∃ pairs ps, B.decode B.defaultDepth data = .ok (.dict pairs) ∧ (utf8 "info", .dict ps) ∈ pairs ∧
      m.infoHash = Sha1.from (B.intoRaw (.dict ps)) ∧
      TorrentInfo.fromBencode B (B.intoRaw (.dict ps)) = .ok m.info ∧
      (∀ t, m.creationDate = some t → -2 ^ 63 ≤ t ∧ t < 2 ^ 63) ∧ ∀ node ∈ m.nodes, node.port < 2 ^ 32 := by
  obtain ⟨object, hobject, h⟩ := bind_eq_ok h
  obtain ⟨pairs, hpairs, h⟩ := bind_eq_ok h
  obtain ⟨f, hfold, h⟩ := bind_eq_ok h
  obtain ⟨info, hinfo, h⟩ := bind_eq_ok h
  obtain ⟨infoHash, hhash, h⟩ := bind_eq_ok h
  cases h
  have hstart : Found B pairs ⟨none, [], [], [], none, none, none, none, none, none, []⟩ := by
    constructor <;> intro x hx <;> cases hx
  have hfound : Found B pairs f := foldlM_keeps (fun p hp s s' hs hstep => hs.field hp hstep) hstart hfold
  obtain ⟨ps, hmem, hraw, hread⟩ := hfound.info info (okOrMissing_eq_ok hinfo)
  rw [tryIntoDictionary_eq_ok hpairs] at hobject
  rw [okOrMissing_eq_ok hhash] at hraw
  exact ⟨pairs, ps, hobject, hmem, Option.some.inj hraw, hread, hfound.creationDate, hfound.nodes⟩

/-- the numbers of an accepted info fit their type -/
theorem numbers_of_fromBencode {B : Bendy} {data : Bytes} {m : MetaInfo} (h : fromBencode B data = .ok m) :
    m.info.pieceLength < 2 ^ 64 ∧ ∀ n, m.info.content = .single n → n < 2 ^ 64 := by
  obtain ⟨_, ps, -, -, -, hread, -⟩ := fromBencode_found h
  obtain ⟨v, -, hdecode⟩ := bind_eq_ok hread
  exact TorrentInfo.numbers_of_decode hdecode

/-! ## the hash -/

/-- the info dictionary of the file has no key that is not written -/
def PlainInfo (B : Bendy) (data : Bytes) : Prop :=
  ∀ pairs ps, B.decode B.defaultDepth data = .ok (.dict pairs) → (utf8 "info", .dict ps) ∈ pairs →
    ∀ p ∈ ps, p.1 ∈ TorrentInfo.keys

/-- the hash of the file is that of the info that was kept, and a file written for it bears it again -/
def KeepsIdentity (B : Bendy) (m : MetaInfo) : Prop :=
  m.info.sha1Hash B = .ok m.infoHash ∧
    ∀ written, m.toBencode B = .ok written → ∃ m', fromBencode B written = .ok m' ∧ m'.infoHash = m.infoHash

section
variable {B : Bendy}

/-- the raw bytes of a dictionary that was read within the limit of an info are read as that dictionary -/
theorem decode_intoRaw (hB : B.Lawful) (hR : B.LawfulReads) {d : Nat} {v : Value} {i : TorrentInfo}
    (hdepth : TorrentInfo.expectedRecursionDepth ≤ d) (hv : v.admissible d = true)
    (h : TorrentInfo.fromBencode B (B.intoRaw v) = .ok i) :
    v.admissible TorrentInfo.expectedRecursionDepth = true ∧ TorrentInfo.decode v = .ok i := by
  obtain ⟨w, hw, hi⟩ := bind_eq_ok h
  obtain ⟨raw, hraw⟩ := (hB.encode_ok d v).mpr hv
  rw [hB.intoRaw_encode hraw] at hw
  have hread := hR.decode_mono hdepth hw
  rw [hB.decode_encode hraw hv] at hread
  cases hread
  exact ⟨hR.decode_admissible hw, hi⟩

/-- encodings tell values apart -/
theorem eq_of_encode_eq (hB : B.Lawful) {d e : Nat} (hde : d ≤ e) {v w : Value} {raw : Bytes}
    (hv : B.encode d v = .ok raw) (hw : B.encode e w = .ok raw) : v = w := by
  have hadm : v.admissible e = true := admissible_mono hde ((hB.encode_ok d v).mp ⟨raw, hv⟩)
  have hreadv := hB.decode_encode hv hadm
  rw [hB.decode_encode hw ((hB.encode_ok e w).mp ⟨raw, hw⟩)] at hreadv
  exact (Except.ok.inj hreadv).symm

/-- the hashes agree exactly if the dictionary is the one that is written -/
theorem sha1Hash_eq_iff (hB : B.Lawful) {d : Nat} (hdepth : TorrentInfo.maxDepth ≤ d) {ps : List (Bytes × Value)}
    (hadm : (Value.dict ps).admissible d = true) {i : TorrentInfo}
    (hflat : (∃ n, i.content = .single n) ∨ i.content = .multi []) :
    i.sha1Hash B = .ok (Sha1.from (B.intoRaw (.dict ps))) ↔ Value.dict ps = i.encode := by
  obtain ⟨raw, hraw⟩ := (hB.encode_ok d (.dict ps)).mpr hadm
  obtain ⟨own, hown⟩ := (hB.encode_ok TorrentInfo.maxDepth i.encode).mpr (i.admissible hflat 1)
  rw [hB.intoRaw_encode hraw]
  constructor
  · intro h
    obtain ⟨own', hown', hfed⟩ := TorrentInfo.sha1Hash_eq h
    cases hfed
    exact (eq_of_encode_eq hB hdepth hown' hraw).symm
  · intro heq
    have hsame : raw = own := by
      rw [← hB.intoRaw_encode hraw, heq, hB.intoRaw_encode hown]
    rw [TorrentInfo.sha1Hash, TorrentInfo.toBencode, hown, hsame]
    rfl

/-- **Rewriting keeps the identity of plain torrent files only.**  Two hashes are the same here if the bytes that were fed
to them are. -/
theorem keeps_identity_iff (hB : B.Lawful) (hR : B.LawfulReads) (data : Bytes) (m : MetaInfo)
    (h : fromBencode B data = .ok m) : KeepsIdentity B m ↔ PlainInfo B data := by
  obtain ⟨pairs, ps, hdata, hmem, hhash, hread, hdate, hnodes⟩ := fromBencode_found h
  rw [hB.defaultDepth_eq] at hdata
  obtain ⟨hkeys, hall⟩ := admissible_dict.mp (hR.decode_admissible hdata)
  have hdeep : (Value.dict ps).admissible 2047 = true := hall _ hmem
  obtain ⟨hadm, hinfo⟩ := decode_intoRaw hB hR (by decide) hdeep hread
  have hiff := sha1Hash_eq_iff hB (by decide) hdeep (TorrentInfo.content_of_decode hinfo hadm)
  rw [← hhash] at hiff
  have hplain : PlainInfo B data ↔ ∀ p ∈ ps, p.1 ∈ TorrentInfo.keys := by
    constructor
    · intro hp
      exact hp pairs ps (by rw [hB.defaultDepth_eq, hdata]) hmem
    · intro hp pairs' ps' hdata' hmem'
      rw [hB.defaultDepth_eq, hdata] at hdata'
      cases hdata'
      cases hkeys.unique hmem hmem'
      exact hp
  rw [hplain, ← TorrentInfo.encode_eq_iff hinfo hadm, ← hiff]
  constructor
  · exact fun hkeeps => hkeeps.1
  · intro hsha
    refine ⟨hsha, fun written hwritten => ?_⟩
    have htyped : m.Typed := ⟨TorrentInfo.typed_of_decode hinfo hadm, hdate, hnodes⟩
    exact ⟨_, fromBencode_toBencode hB htyped hsha hwritten, rfl⟩

end

/-- a torrent file with these pairs behind those of the info of a single file -/
def fileWith (extra : List (Bytes × Value)) : Bytes :=
  (Value.dict [(utf8 "info", .dict (infoOfFile.pairs ++ extra))]).encode

/-- what is read from it -/
def readWith (extra : List (Bytes × Value)) : MetaInfo :=
  ⟨none, [], none, none, none, none, [], [], infoOfFile, [], Sha1.from (Value.dict (infoOfFile.pairs ++ extra)).encode⟩

/-- the torrent file is read as it was put together -/
theorem decode_fileWith {extra : List (Bytes × Value)}
    (hadm : (Value.dict (infoOfFile.pairs ++ extra)).admissible TorrentInfo.expectedRecursionDepth = true) :
    bendyOfRead.decode bendyOfRead.defaultDepth (fileWith extra)
      = .ok (.dict [(utf8 "info", .dict (infoOfFile.pairs ++ extra))]) := by
  have hfile : (Value.dict [(utf8 "info", .dict (infoOfFile.pairs ++ extra))]).admissible 2048 = true := by
    refine admissible_dict.mpr ⟨List.pairwise_singleton _ _, ?_⟩
    intro p hp
    obtain rfl := List.mem_singleton.mp hp
    exact admissible_mono (by decide) hadm
  have hread := read_encode 2048 _ hfile []
  rw [List.append_nil] at hread
  exact bendyOfRead_decode.mpr ⟨[], hread⟩

theorem fromBencode_fileWith {extra : List (Bytes × Value)}
    (hadm : (Value.dict (infoOfFile.pairs ++ extra)).admissible TorrentInfo.expectedRecursionDepth = true)
    (hskip : ∀ f, extra.foldlM TorrentInfo.field f = .ok f) :
    fromBencode bendyOfRead (fileWith extra) = .ok (readWith extra) := by
  have hread := read_encode TorrentInfo.expectedRecursionDepth _ hadm []
  rw [List.append_nil] at hread
  have hinfo : TorrentInfo.fromBencode bendyOfRead (bendyOfRead.intoRaw (.dict (infoOfFile.pairs ++ extra)))
      = .ok infoOfFile := by
    show (bendyOfRead.decode TorrentInfo.expectedRecursionDepth (Value.dict (infoOfFile.pairs ++ extra)).encode
      >>= TorrentInfo.decode) = _
    rw [bendyOfRead_decode.mpr ⟨[], hread⟩, ok_bind, TorrentInfo.decode_append hskip]
    exact infoOfFile.decode_encode infoOfFile_typed
  have hfield : ∀ f, field bendyOfRead f (utf8 "info", .dict (infoOfFile.pairs ++ extra)) = .ok { f with
      infoHash := some (Sha1.from (Value.dict (infoOfFile.pairs ++ extra)).encode), info := some infoOfFile } := by
    intro f
    rw [MetaInfo.field, if_neg (by simp), if_neg (by simp), if_neg (by simp), if_neg (by simp), if_neg (by simp),
      if_neg (by simp), if_neg (by simp), if_neg (by simp), if_neg (by simp), if_pos rfl, tryIntoDictionary, ok_bind]
    simp only [hinfo, withContext_ok, ok_bind]
    rfl
  rw [fromBencode, decode_fileWith hadm, ok_bind, decode, tryIntoDictionary, ok_bind, List.foldlM_cons, hfield,
    ok_bind, List.foldlM_nil]
  rfl

theorem infoOfFile_admissible :
    (Value.dict (infoOfFile.pairs ++ [])).admissible TorrentInfo.expectedRecursionDepth = true := by
  rw [List.append_nil]
  exact infoOfFile.admissible (Or.inl ⟨5, rfl⟩) 1

theorem keeps_identity_file : KeepsIdentity bendyOfRead (readWith []) := by
  have hread := fromBencode_fileWith infoOfFile_admissible fun f => rfl
  refine (keeps_identity_iff bendyOfRead_lawful bendyOfRead_lawfulReads (fileWith []) (readWith []) hread).mpr ?_
  intro pairs ps hdata hmem p hp
  rw [decode_fileWith infoOfFile_admissible] at hdata
  cases hdata
  cases List.mem_singleton.mp hmem
  rw [List.append_nil] at hp
  exact TorrentInfo.key_of_mem_pairs hp

/-- the mark of a private torrent -/
def privateMark : List (Bytes × Value) := [(utf8 "private", .int 1)]

theorem privateMark_admissible :
    (Value.dict (infoOfFile.pairs ++ privateMark)).admissible TorrentInfo.expectedRecursionDepth = true := by
  refine admissible_dict.mpr ⟨?_, ?_⟩
  · show [utf8 "length", utf8 "name", utf8 "piece length", utf8 "pieces", utf8 "private"].Pairwise (· < ·)
    decide
  · intro p hp
    rcases List.mem_append.mp hp with hp | hp
    · exact (admissible_dict.mp (infoOfFile.admissible (Or.inl ⟨5, rfl⟩) 1)).2 p hp
    · obtain rfl := List.mem_singleton.mp hp
      exact admissible_int 2 1

theorem privateMark_skipped (f : TorrentInfo.Fields) : privateMark.foldlM TorrentInfo.field f = .ok f := by
  rw [privateMark, List.foldlM_cons, TorrentInfo.field, if_neg (by simp), if_neg (by simp), if_neg (by simp),
    if_neg (by simp), if_neg (by simp), ok_bind]
  rfl

/-- A file that is marked as private is read, but the mark is neither kept nor written, and the
written file is another torrent. -/
theorem private_loses_identity :
    bendyOfRead.Lawful ∧ bendyOfRead.LawfulReads ∧
      fromBencode bendyOfRead (fileWith privateMark) = .ok (readWith privateMark) ∧
      (readWith privateMark).info.sha1Hash bendyOfRead ≠ .ok (readWith privateMark).infoHash ∧
      ∃ written m', (readWith privateMark).toBencode bendyOfRead = .ok written ∧
        fromBencode bendyOfRead written = .ok m' ∧ m'.infoHash ≠ (readWith privateMark).infoHash := by
  have hother : infoOfFile.sha1Hash bendyOfRead ≠ .ok (readWith privateMark).infoHash := by
    intro h
    have heq := (sha1Hash_eq_iff bendyOfRead_lawful (by decide) privateMark_admissible (Or.inl ⟨5, rfl⟩)).mp h
    have hlength : 5 = 4 := congrArg List.length (Value.dict.inj heq)
    cases hlength
  refine ⟨bendyOfRead_lawful, bendyOfRead_lawfulReads,
    fromBencode_fileWith privateMark_admissible privateMark_skipped, hother, ?_⟩
  have htyped : (readWith []).Typed := by
    refine ⟨infoOfFile_typed, ?_, ?_⟩ <;> intro x hx <;> cases hx
  obtain ⟨written, hwritten⟩ := (bendyOfRead_lawful.encode_ok MetaInfo.maxDepth (readWith []).encode).mpr
    ((admissible_iff rfl).mpr ⟨rfl, rfl⟩)
  -- the hash is not written, so the file without the mark is written the same way
  refine ⟨written, _, hwritten, fromBencode_toBencode bendyOfRead_lawful htyped sha1Hash_infoOfFile hwritten, ?_⟩
  intro heq
  exact hother (sha1Hash_infoOfFile.trans (congrArg Except.ok heq))

end MetaInfo

end Btt
