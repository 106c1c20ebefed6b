import BitTorrent.Torrent.MetaInfo
import BitTorrent.Lib.Chunks

/-!
# Building a metainfo from content

`TorrentBuilder::read_file`, `read_dir`, `read_content` and `build` of `src/torrent/builder.rs`.  What
comes from outside is an argument: the files the directory walk visits, with the length their metadata
gives and the bytes reading them delivers; the computed piece length; the bencoding of the info
dictionary.  An I/O error is its text; `none` is a panic (the capacity `length / piece_length` of a piece
length zero).

`readContent_eq`: the hashers hold the chunks of the concatenated content, whatever the file borders.
-/

namespace Btt
open Chunks

/-- a file as the builder meets it -/
structure SourceFile where
  display : String
  paths : Except String (List String)
  length : Nat
  data : List UInt8

inductive ContentRoot where
  | file (f : SourceFile)
  | dir (visited : List SourceFile)

/-- `read_exact` into a buffer of `n` bytes: the bytes read and those left -/
def readExact (n : Nat) (data : List UInt8) : Except String (List UInt8 × List UInt8) :=
  if n ≤ data.length then .ok (data.take n, data.drop n) else .error "failed to fill whole buffer"

/-- an unfinished piece: how much of it was read, and its hasher -/
abbrev Overlap := Option (Nat × Sha1)

/-- the loop of `read_file`: `left` bytes of the file are still to be read.  The first argument is only
there for termination, `left + 1` rounds are more than enough. -/
def readPieces (pieceLength : Nat) : Nat → Nat → List UInt8 → Except String (List Sha1 × Overlap)
  | 0, _, _ => .ok ([], none)
  | rounds + 1, left, data =>
    if left = 0 then .ok ([], none)
    else if pieceLength > left then do
      let (buf, _) ← readExact left data
      .ok ([], some (left, Sha1.from buf))
    else do
      let (buf, data) ← readExact pieceLength data
      let (pieces, overlap) ← readPieces pieceLength rounds (left - pieceLength) data
      .ok (Sha1.from buf :: pieces, overlap)

/-- the hashed pieces of a file and the unfinished part -/
def readFile (pieceLength : Nat) (overlap : Overlap) (f : SourceFile) :
    Option (Except String (SubFileInfo × List Sha1 × Overlap)) :=
  match f.paths with
  | .error e => some (.error e)
  | .ok paths =>
    let info : SubFileInfo := ⟨f.length, paths⟩
    if pieceLength = 0 then none
    else
      match overlap with
      | some (previousRead, hasher) =>
        (checkedSub pieceLength previousRead).map fun left =>
          if left ≤ f.length then do
            let (buf, data) ← readExact left f.data
            let (pieces, overlap) ← readPieces pieceLength (f.length - left + 1) (f.length - left) data
            .ok (info, hasher.update buf :: pieces, overlap)
          else if f.data.length ≠ f.length then
            -- the number of bytes that were read stands where the file is named, and the file where the number is
            .error ("Expected to read " ++ toString f.length ++ " from file " ++ toString f.data.length
              ++ ", but got " ++ f.display)
          else .ok (info, [], some (previousRead + f.data.length, hasher.update f.data))
      | none =>
        some do
          let (pieces, overlap) ← readPieces pieceLength (f.length + 1) f.length f.data
          .ok (info, pieces, overlap)

/-- one file after the other, the unfinished part carried over -/
def readDirFrom (pieceLength : Nat) : Overlap → List SourceFile →
    Option (Except String (List SubFileInfo × List Sha1))
  | overlap, [] =>
    some (.ok ([], match overlap with
      | some (_, hash) => [hash]
      | none => []))
  | overlap, f :: fs =>
    match readFile pieceLength overlap f with
    | none => none
    | some (.error e) => some (.error e)
    | some (.ok (file, fileHashes, fileOverlap)) =>
      (readDirFrom pieceLength fileOverlap fs).map fun r =>
        r.map fun (files, hashes) => (file :: files, fileHashes ++ hashes)

def readDir (pieceLength : Nat) (visited : List SourceFile) := readDirFrom pieceLength none visited

def readContent (pieceLength : Nat) : ContentRoot → Option (Except String (InfoContent × List Sha1))
  | .dir visited =>
    (readDir pieceLength visited).map fun r => r.map fun (files, pieces) => (.multi files, pieces)
  | .file f =>
    (readFile pieceLength none f).map fun r => r.map fun (info, pieces, overlap) =>
      (.single info.length, match overlap with
        | some (_, hash) => pieces ++ [hash]
        | none => pieces)

structure TorrentBuilder where
  announce : Option String
  announceList : Option (List String)
  webseeds : Option (List String)
  httpseeds : Option (List String)
  name : Option String
  encoding : Option String
  comment : Option String
  createdBy : Option String
  creationDate : Option Int
  contentRoot : ContentRoot
  fileName : Option String
  pieceLength : Option Nat
  nodes : Option (List DhtNode)

/-- `computed` is the answer of `compute_piece_length`, `bencode` the encoder of the info dictionary -/
def TorrentBuilder.build (sha1 : List UInt8 → ShaHash) (bencode : TorrentInfo → Except String (List UInt8))
    (computed : Except String Nat) (b : TorrentBuilder) : Option (Except String MetaInfo) :=
  match computed with
  | .error e => some (.error e)
  | .ok computed =>
    let pieceLength := b.pieceLength.getD computed
    match readContent pieceLength b.contentRoot with
    | none => none
    | some (.error e) => some (.error e)
    | some (.ok (content, pieces)) =>
      -- the default name is evaluated even if a name is set
      match b.fileName with
      | none => some (.error "Invalid target filename")
      | some fileName =>
        let info : TorrentInfo := ⟨pieces.map (Sha1.digest sha1), pieceLength, content, b.name.getD fileName⟩
        some ((bencode info).map fun bytes =>
          { announce := b.announce
            announceList := b.announceList.getD []
            encoding := b.encoding
            comment := b.comment
            createdBy := b.createdBy
            creationDate := b.creationDate
            webseeds := b.webseeds.getD []
            httpseeds := b.httpseeds.getD []
            nodes := b.nodes.getD []
            infoHash := Sha1.from bytes
            info := info })

/-- what a built metainfo is made of -/
theorem build_info {sha1 : List UInt8 → ShaHash} {bencode : TorrentInfo → Except String (List UInt8)}
    {computed : Except String Nat} {b : TorrentBuilder} {M : MetaInfo}
    (h : b.build sha1 bencode computed = some (.ok M)) :
    ∃ pieces, readContent M.info.pieceLength b.contentRoot = some (.ok (M.info.content, pieces)) ∧
      M.info.pieces = pieces.map (Sha1.digest sha1) ∧
      ∃ bytes, bencode M.info = .ok bytes ∧ M.infoHash = Sha1.from bytes := by
  unfold TorrentBuilder.build at h
  split at h
  · cases h
  · simp only at h
    split at h
    · cases h
    · cases h
    · rename_i content pieces hread
      split at h
      · cases h
      · cases hb : bencode ⟨pieces.map (Sha1.digest sha1), _, content, _⟩ with
        | error e =>
          rw [hb] at h
          cases h
        | ok bytes =>
          rw [hb] at h
          cases h
          exact ⟨pieces, hread, rfl, bytes, hb, rfl⟩

/-! ## the hashers hold the chunks of the content -/

/-- reading the file delivers what its metadata says, and its path is valid -/
def SourceFile.Faithful (f : SourceFile) : Prop := f.length = f.data.length ∧ f.paths.isOk

/-- the files in the order in which they are read -/
def ContentRoot.files : ContentRoot → List SourceFile
  | .file f => [f]
  | .dir visited => visited

/-- the content: the files one behind the other -/
def ContentRoot.bytes (root : ContentRoot) : List UInt8 := root.files.flatMap SourceFile.data

def SourceFile.info (f : SourceFile) : SubFileInfo := ⟨f.length, f.paths.toOption.getD []⟩

/-- what is carried over behind the bytes `l` -/
def overlapOf (n : Nat) (l : List UInt8) : Overlap :=
  if rest n l = [] then none else some ((rest n l).length, Sha1.from (rest n l))

theorem readPieces_eq {n : Nat} (hn : 0 < n) (rounds : Nat) (data : List UInt8) (h : data.length < rounds) :
    readPieces n rounds data.length data = .ok ((full n data).map Sha1.from, overlapOf n data) := by
  induction rounds generalizing data with
  | zero => omega
  | succ rounds ih =>
    unfold readPieces
    by_cases h0 : data.length = 0
    · rw [if_pos h0, List.length_eq_zero_iff.mp h0]
      simp [full, overlapOf, rest]
    · rw [if_neg h0]
      by_cases hlt : n > data.length
      · rw [if_pos hlt, readExact, if_pos (Nat.le_refl _), List.take_length, full_of_lt hlt, overlapOf,
          rest_of_lt hlt, if_neg (fun e => h0 (by rw [e]; rfl))]
        rfl
      · have hle : n ≤ data.length := Nat.le_of_not_lt hlt
        have ih' := ih (data.drop n) (by rw [List.length_drop]; omega)
        rw [List.length_drop] at ih'
        rw [if_neg hlt, readExact, if_pos hle]
        show (readPieces n rounds (data.length - n) (data.drop n)).bind _ = _
        rw [ih', full_cons hn hle, overlapOf, overlapOf, rest_drop hn hle]
        rfl

/-- a file is hashed as if the unfinished piece before it stood in front of it -/
theorem readFile_eq {n : Nat} (hn : 0 < n) (seen : List UInt8) {f : SourceFile} (hf : f.Faithful) :
    readFile n (overlapOf n seen) f = some (.ok (f.info, (full n (rest n seen ++ f.data)).map Sha1.from,
      overlapOf n (seen ++ f.data))) := by
  obtain ⟨hlen, hok⟩ := hf
  obtain ⟨paths, hp⟩ : ∃ paths, f.paths = .ok paths := by
    cases hp : f.paths with
    | ok paths => exact ⟨paths, rfl⟩
    | error e =>
      rw [hp] at hok
      cases hok
  have hinfo : f.info = ⟨f.length, paths⟩ := by rw [SourceFile.info, hp]; rfl
  have hover : overlapOf n (seen ++ f.data) = overlapOf n (rest n seen ++ f.data) := by
    rw [overlapOf, overlapOf, (full_append hn seen f.data).2]
  have hn0 : n ≠ 0 := Nat.pos_iff_ne_zero.mp hn
  rw [hinfo, hover]
  unfold readFile
  rw [hp]
  simp only [if_neg hn0]
  by_cases hr : rest n seen = []
  · rw [overlapOf, if_pos hr, hr, List.nil_append]
    simp only [hlen]
    rw [readPieces_eq hn _ _ (Nat.lt_succ_self _)]
    rfl
  · rw [overlapOf, if_neg hr]
    have hlt : (rest n seen).length < n := by
      rw [length_rest]
      exact Nat.mod_lt _ hn
    simp only [checkedSub_eq (Nat.le_of_lt hlt), Option.map_some]
    congr 1
    by_cases hle : n - (rest n seen).length ≤ f.length
    · -- the file completes the piece
      have hle' : n ≤ (rest n seen ++ f.data).length := by
        rw [List.length_append]
        omega
      have htake : (rest n seen ++ f.data).take n = rest n seen ++ f.data.take (n - (rest n seen).length) := by
        rw [List.take_append, List.take_of_length_le (Nat.le_of_lt hlt)]
      have hdrop : (rest n seen ++ f.data).drop n = f.data.drop (n - (rest n seen).length) := by
        rw [List.drop_append, List.drop_eq_nil_of_le (Nat.le_of_lt hlt), List.nil_append]
      rw [if_pos hle, readExact, if_pos (by omega)]
      have hread := readPieces_eq hn (f.length - (n - (rest n seen).length) + 1)
        (f.data.drop (n - (rest n seen).length)) (by rw [List.length_drop]; omega)
      rw [List.length_drop, ← hlen] at hread
      show (readPieces n _ _ _).bind _ = _
      rw [hread, full_cons hn hle', overlapOf, overlapOf, rest_drop hn hle', htake, hdrop]
      rfl
    · have hlt' : (rest n seen ++ f.data).length < n := by
        rw [List.length_append]
        omega
      rw [if_neg hle, if_neg (fun h => h hlen.symm), full_of_lt hlt', overlapOf, rest_of_lt hlt',
        if_neg (fun e => hr (List.append_eq_nil_iff.mp e).1), List.length_append]
      rfl

/-- the loop of `read_dir`: the files read so far, and what is carried over behind the last of them -/
def readFiles (pieceLength : Nat) : Overlap → List SourceFile →
    Option (Except String (List SubFileInfo × List Sha1 × Overlap))
  | overlap, [] => some (.ok ([], [], overlap))
  | overlap, f :: fs =>
    match readFile pieceLength overlap f with
    | none => none
    | some (.error e) => some (.error e)
    | some (.ok (file, fileHashes, fileOverlap)) =>
      (readFiles pieceLength fileOverlap fs).map fun r =>
        r.map fun (files, hashes, last) => (file :: files, fileHashes ++ hashes, last)

/-- the hasher of the last unfinished piece comes behind the loop -/
theorem readDirFrom_eq_readFiles (n : Nat) (overlap : Overlap) (fs : List SourceFile) :
    readDirFrom n overlap fs = (readFiles n overlap fs).map fun r =>
      r.map fun x => (x.1, x.2.1 ++ (x.2.2.map Prod.snd).toList) := by
  induction fs generalizing overlap with
  | nil => cases overlap <;> rfl
  | cons f fs ih =>
    unfold readDirFrom readFiles
    cases readFile n overlap f with
    | none => rfl
    | some r =>
      cases r with
      | error e => rfl
      | ok x =>
        simp only [ih x.2.2, Option.map_map]
        congr 1
        funext r
        cases r with
        | error e => rfl
        | ok y => simp [Except.map]

theorem readFile_error {n : Nat} {overlap : Overlap} {f : SourceFile} {e : String} (h : f.paths = .error e) :
    readFile n overlap f = some (.error e) := by
  unfold readFile
  rw [h]

/-- the files are hashed as if the unfinished piece before them stood in front; a path that is no text
ends the loop -/
theorem readFiles_eq {n : Nat} (hn : 0 < n) (fs : List SourceFile) (hfs : ∀ f ∈ fs, f.length = f.data.length)
    (seen : List UInt8) :
    readFiles n (overlapOf n seen) fs = some ((fs.mapM SourceFile.paths).map fun _ =>
      (fs.map SourceFile.info, (full n (rest n seen ++ fs.flatMap SourceFile.data)).map Sha1.from,
        overlapOf n (seen ++ fs.flatMap SourceFile.data))) := by
  induction fs generalizing seen with
  | nil =>
    have hlt : (rest n seen).length < n := by
      rw [length_rest]
      exact Nat.mod_lt _ hn
    rw [List.flatMap_nil, List.append_nil, List.append_nil, full_of_lt hlt]
    rfl
  | cons f fs ih =>
    unfold readFiles
    rw [List.mapM_cons]
    cases hp : f.paths with
    | error e =>
      rw [readFile_error hp]
      rfl
    | ok paths =>
      have hrest : rest n (seen ++ f.data) = rest n (rest n seen ++ f.data) := (full_append hn seen f.data).2
      have hf : f.Faithful := ⟨hfs f List.mem_cons_self, by rw [hp]; rfl⟩
      have hfull : full n (rest n seen ++ (f.data ++ fs.flatMap SourceFile.data))
          = full n (rest n seen ++ f.data)
            ++ full n (rest n (rest n seen ++ f.data) ++ fs.flatMap SourceFile.data) := by
        rw [← List.append_assoc]
        exact (full_append hn _ _).1
      rw [readFile_eq hn seen hf]
      simp only [ih (fun x hx => hfs x (List.mem_cons_of_mem _ hx)) (seen ++ f.data), Option.map_some]
      rw [List.flatMap_cons, ← List.append_assoc seen, hfull, List.map_append, hrest]
      cases fs.mapM SourceFile.paths with
      | error e => rfl
      | ok ps => rfl

theorem full_append_overlapOf (n : Nat) (l : List UInt8) :
    (full n l).map Sha1.from ++ ((overlapOf n l).map Prod.snd).toList = (chunks n l).map Sha1.from := by
  rw [chunks, overlapOf, List.map_append]
  split <;> rfl

/-- a part of a piece, never nothing and never all of it -/
theorem overlapOf_bounds {n : Nat} (hn : 0 < n) {l : List UInt8} {count : Nat} {hasher : Sha1}
    (h : overlapOf n l = some (count, hasher)) : 1 ≤ count ∧ count ≤ n - 1 := by
  unfold overlapOf at h
  split at h
  · cases h
  · rename_i hne
    cases h
    have hlt : (rest n l).length < n := by
      rw [length_rest]
      exact Nat.mod_lt _ hn
    exact ⟨List.length_pos_iff.mpr hne, Nat.le_sub_one_of_lt hlt⟩

theorem overlapOf_nil (n : Nat) : overlapOf n [] = none := by simp [overlapOf, rest]

theorem rest_nil (n : Nat) : rest n ([] : List UInt8) = [] := by simp [rest]

theorem readDir_eq {n : Nat} (hn : 0 < n) (fs : List SourceFile) (hfs : ∀ f ∈ fs, f.length = f.data.length) :
    readDir n fs = some ((fs.mapM SourceFile.paths).map fun _ =>
      (fs.map SourceFile.info, (chunks n (fs.flatMap SourceFile.data)).map Sha1.from)) := by
  have hread := readFiles_eq hn fs hfs []
  rw [overlapOf_nil, rest_nil, List.nil_append] at hread
  rw [readDir, readDirFrom_eq_readFiles, hread, ← full_append_overlapOf]
  cases fs.mapM SourceFile.paths with
  | error e => rfl
  | ok ps => rfl

theorem readContent_file {n : Nat} (hn : 0 < n) {f : SourceFile} (hf : f.length = f.data.length) :
    readContent n (.file f) = some (f.paths.map fun _ =>
      (.single f.data.length, (chunks n f.data).map Sha1.from)) := by
  show (readFile n none f).map _ = _
  cases hp : f.paths with
  | error e =>
    rw [readFile_error hp]
    rfl
  | ok paths =>
    have hread := readFile_eq hn [] (show f.Faithful from ⟨hf, by rw [hp]; rfl⟩)
    rw [overlapOf_nil, rest_nil, List.nil_append] at hread
    rw [hread, ← full_append_overlapOf, ← hf]
    cases overlapOf n f.data with
    | none =>
      simp only [Option.map_some, Option.map_none, Option.toList_none, List.append_nil]
      rfl
    | some x => rfl

/-- **The builder hashes the concatenation.**  Whatever the file borders, `read_dir` and `read_content`
hash the consecutive pieces of the content and record the files' lengths in their order; only a path that
is no text makes them fail.  What is carried from file to file is a proper part of a piece. -/
theorem builder_hashes_concatenation {n : Nat} (hn : 0 < n) (visited : List SourceFile)
    (hlen : ∀ f ∈ visited, f.length = f.data.length) :
    readDir n visited = some ((visited.mapM SourceFile.paths).map fun _ =>
      (visited.map SourceFile.info, (chunks n (visited.flatMap SourceFile.data)).map Sha1.from)) ∧
    (visited.map SourceFile.info).map SubFileInfo.length = visited.map (fun f => f.data.length) ∧
    (∀ f ∈ visited, readContent n (.file f) = some (f.paths.map fun _ =>
      (.single f.data.length, (chunks n f.data).map Sha1.from))) ∧
    ∀ files, files <+: visited → ∀ infos hashes count hasher,
      readFiles n none files = some (.ok (infos, hashes, some (count, hasher))) → 1 ≤ count ∧ count ≤ n - 1 := by
  refine ⟨readDir_eq hn visited hlen, ?_, fun f hf => readContent_file hn (hlen f hf), ?_⟩
  · rw [List.map_map]
    exact List.map_congr_left hlen
  · intro files hpre infos hashes count hasher hread
    have hspec := readFiles_eq hn files (fun f hf => hlen f (hpre.subset hf)) []
    rw [overlapOf_nil, hread, List.nil_append] at hspec
    cases hm : files.mapM SourceFile.paths with
    | error e =>
      rw [hm] at hspec
      cases hspec
    | ok ps =>
      rw [hm] at hspec
      have hover := congrArg (fun x => x.2.2) (Except.ok.inj (Option.some.inj hspec))
      exact overlapOf_bounds hn hover.symm

/-- the content lies in three files, one of them empty, cut into pieces of two bytes -/
theorem builder_hashes_three_files :
    readDir 2 [⟨"a", .ok ["a"], 3, [1, 2, 3]⟩, ⟨"b", .ok ["b"], 0, []⟩, ⟨"c", .ok ["c"], 2, [4, 5]⟩]
      = some (.ok ([⟨3, ["a"]⟩, ⟨0, ["b"]⟩, ⟨2, ["c"]⟩], [⟨[1, 2]⟩, ⟨[3, 4]⟩, ⟨[5]⟩])) :=
  (builder_hashes_concatenation (by decide)
    [⟨"a", .ok ["a"], 3, [1, 2, 3]⟩, ⟨"b", .ok ["b"], 0, []⟩, ⟨"c", .ok ["c"], 2, [4, 5]⟩] (by decide)).1

theorem mapM_paths_of_faithful (fs : List SourceFile) (hfs : ∀ f ∈ fs, f.Faithful) :
    ∃ ps, fs.mapM SourceFile.paths = .ok ps := by
  induction fs with
  | nil => exact ⟨[], rfl⟩
  | cons f fs ih =>
    obtain ⟨ps, hps⟩ := ih fun x hx => hfs x (List.mem_cons_of_mem _ hx)
    rw [List.mapM_cons, hps]
    cases hp : f.paths with
    | ok paths => exact ⟨paths :: ps, rfl⟩
    | error e =>
      have hok := (hfs f List.mem_cons_self).2
      rw [hp] at hok
      cases hok

/-- **The builder hashes the chunks of the concatenated content.** -/
theorem readContent_eq {n : Nat} (hn : 0 < n) (root : ContentRoot) (hroot : ∀ f ∈ root.files, f.Faithful) :
    ∃ content, readContent n root = some (.ok (content, (chunks n root.bytes).map Sha1.from)) ∧
      (root.bytes.length < 2 ^ 64 → content.length = some root.bytes.length) := by
  cases root with
  | dir visited =>
    refine ⟨.multi (visited.map SourceFile.info), ?_, ?_⟩
    · obtain ⟨ps, hps⟩ := mapM_paths_of_faithful visited hroot
      show (readDir n visited).map _ = _
      rw [readDir_eq hn visited fun f hf => (hroot f hf).1, hps]
      rfl
    · intro hlt
      have hsum : ((visited.map SourceFile.info).map SubFileInfo.length).sum
          = (ContentRoot.dir visited).bytes.length := by
        show _ = (visited.flatMap SourceFile.data).length
        rw [List.length_flatMap, List.map_map]
        congr 1
        apply List.map_congr_left
        intro f hf
        exact (hroot f hf).1
      show (visited.map SourceFile.info).foldlM _ 0 = _
      rw [foldlM_checkedAdd _ _ (by rw [hsum, Nat.zero_add]; exact hlt), hsum, Nat.zero_add]
  | file f =>
    have hf : f.Faithful := hroot f (List.mem_singleton_self f)
    have hbytes : (ContentRoot.file f).bytes = f.data := by
      show [f].flatMap SourceFile.data = f.data
      rw [List.flatMap_cons, List.flatMap_nil, List.append_nil]
    refine ⟨.single f.length, ?_, ?_⟩
    · rw [readContent_file hn hf.1, hbytes, hf.1]
      cases hp : f.paths with
      | ok paths => rfl
      | error e =>
        have hok := hf.2
        rw [hp] at hok
        cases hok
    · intro _
      rw [hbytes, ← hf.1]
      rfl

end Btt
