import BitTorrent.Disk.Verified

/-!
# The parts of a job

A block that lies in several files is cut into parts when it is written and put together from parts when a
job is finalized.  Both loops look right for one file and miss for more:

* `finalizesExactly_iff`   finalization flips the bits of a count before it compares it, so a job for
                           several files is always turned down, also when it is complete;
* `cutsExactly_iff`        the slice for a window ends at the LENGTH of the window, so only windows behind
                           empty ones get their bytes.
-/

namespace Btt

section
variable {File : Type}

/-- a part of a job as finalization sees it -/
structure JobPart where
  /-- the bytes that were read or written -/
  moved : Nat
  /-- the length a job for several files compares that with -/
  expected : Nat
  /-- the length of the window -/
  window : Nat
  bytes : List UInt8

def BlockFileRead.part (b : BlockFileRead File) : JobPart :=
  ⟨b.block.length, b.fileWindow.length, b.fileWindow.length, b.block⟩

def BlockFileWrite.part (b : BlockFileWrite File) : JobPart :=
  ⟨b.written, b.block.length, b.fileWindow.length, b.block⟩

def BlockJob.parts : BlockJob File → List JobPart
  | .read (.single _ block) => [block.part]
  | .read (.overlap _ _ blocks) => blocks.map BlockFileRead.part
  | .write (.single _ block) => [block.part]
  | .write (.overlap _ _ blocks) => blocks.map BlockFileWrite.part

def BlockResult.files : BlockResult File → List (BlockFile File)
  | .read _ files _ => files
  | .write _ files _ => files

def BlockResult.result : BlockResult File → Except BlockMetadata Block
  | .read _ _ result => result
  | .write _ _ result => result

/-! ## finalization -/

/-- finalization succeeds for complete jobs only and for all of them, with the parts in order, and gives
every file back -/
structure BlockJob.FinalizesExactly (job : BlockJob File) : Prop where
  ok_iff : (∃ block, job.finalize.result = .ok block) ↔ ∀ p ∈ job.parts, p.moved = p.window
  data : ∀ block, job.finalize.result = .ok block → block.blockData = (job.parts.map JobPart.bytes).flatten
  files : job.finalize.files = job.files

/-- a job for one file, for no file, or one in which some part is not complete -/
def BlockJob.SparedByFlip : BlockJob File → Prop
  | .read (.single _ _) => True
  | .write (.single _ _) => True
  | job => job.parts = [] ∨ ∃ p ∈ job.parts, p.moved ≠ p.window

/-- a job for several files succeeds if the flipped count of every part meets its length -/
structure BlockJob.FinalizesFlipped (job : BlockJob File) : Prop where
  ok_iff : (∃ block, job.finalize.result = .ok block) ↔ ∀ p ∈ job.parts, bitNot p.moved = p.expected
  data : ∀ block, job.finalize.result = .ok block → block.blockData = (job.parts.map JobPart.bytes).flatten
  files : job.finalize.files = job.files

theorem ok_ite_iff {ε α : Type} {c : Prop} [Decidable c] {a : α} {e : ε} :
    (∃ x, (if c then Except.ok a else Except.error e) = .ok x) ↔ c := by
  split
  · rename_i h
    exact ⟨fun _ => h, fun _ => ⟨a, rfl⟩⟩
  · rename_i h
    refine ⟨?_, fun hc => absurd hc h⟩
    rintro ⟨x, hx⟩
    cases hx

theorem ok_of_ite {ε α : Type} {c : Prop} [Decidable c] {a x : α} {e : ε}
    (h : (if c then Except.ok a else Except.error e) = .ok x) : c ∧ x = a := by
  split at h
  · rename_i hc
    cases h
    exact ⟨hc, rfl⟩
  · cases h

/-- the loop over the parts of a job, in terms of the parts -/
theorem collectParts_parts (parts : List JobPart) :
    ((collectParts (parts.map fun p => (p.moved, p.expected, p.bytes)) true []).1 = true ↔
      ∀ p ∈ parts, bitNot p.moved = p.expected) ∧
    ((∀ p ∈ parts, bitNot p.moved = p.expected) →
      (collectParts (parts.map fun p => (p.moved, p.expected, p.bytes)) true []).2
        = (parts.map JobPart.bytes).flatten) := by
  constructor
  · rw [collectParts_fst, Bool.true_and, List.all_map, List.all_eq_true]
    simp only [Function.comp_apply, decide_eq_true_eq]
  · intro h
    rw [collectParts_snd, List.nil_append, List.map_map]
    · rfl
    · intro part hpart
      obtain ⟨p, hp, rfl⟩ := List.mem_map.mp hpart
      exact h p hp

theorem BlockRead.finalizesFlipped (t : TorrentId) (m : BlockMetadata) (blocks : List (BlockFileRead File)) :
    (BlockJob.read (.overlap t m blocks)).FinalizesFlipped := by
  have hloop := collectParts_parts (blocks.map BlockFileRead.part)
  rw [List.map_map] at hloop
  constructor
  · exact ok_ite_iff.trans hloop.1
  · intro block h
    obtain ⟨hvalid, rfl⟩ := ok_of_ite h
    exact hloop.2 (hloop.1.mp hvalid)
  · rfl

theorem BlockWrite.finalizesFlipped (t : TorrentId) (m : BlockMetadata) (blocks : List (BlockFileWrite File)) :
    (BlockJob.write (.overlap t m blocks)).FinalizesFlipped := by
  have hloop := collectParts_parts (blocks.map BlockFileWrite.part)
  rw [List.map_map] at hloop
  constructor
  · exact ok_ite_iff.trans hloop.1
  · intro block h
    obtain ⟨hvalid, rfl⟩ := ok_of_ite h
    exact hloop.2 (hloop.1.mp hvalid)
  · rfl

theorem BlockRead.finalizesExactly_single (m : BlockMetadata) (b : BlockFileRead File) :
    (BlockJob.read (.single m b)).FinalizesExactly := by
  constructor
  · rw [show (BlockJob.read (.single m b)).parts = [b.part] from rfl]
    simp only [List.mem_singleton, forall_eq]
    exact ok_ite_iff
  · intro block h
    obtain ⟨-, rfl⟩ := ok_of_ite h
    exact (List.append_nil _).symm
  · rfl

theorem BlockWrite.finalizesExactly_single (m : BlockMetadata) (b : BlockFileWrite File) :
    (BlockJob.write (.single m b)).FinalizesExactly := by
  constructor
  · rw [show (BlockJob.write (.single m b)).parts = [b.part] from rfl]
    simp only [List.mem_singleton, forall_eq]
    exact ok_ite_iff
  · intro block h
    obtain ⟨-, rfl⟩ := ok_of_ite h
    exact (List.append_nil _).symm
  · rfl

/-- a count and a length that fit into memory never flip into one another, so a job for several files fails -/
theorem BlockJob.FinalizesFlipped.not_ok {job : BlockJob File} (h : job.FinalizesFlipped)
    (hfit : ∀ p ∈ job.parts, p.moved < memoryBound ∧ p.expected < memoryBound) (hne : job.parts ≠ []) :
    ¬ ∃ block, job.finalize.result = .ok block := by
  obtain ⟨p, hp⟩ := List.exists_mem_of_ne_nil job.parts hne
  intro hok
  have hflip := h.ok_iff.mp hok p hp
  obtain ⟨hmoved, hexpected⟩ := hfit p hp
  unfold bitNot at hflip
  unfold memoryBound at hmoved hexpected
  omega

/-- where the flipped count decides, it decides rightly if there is nothing to decide or something is missing -/
theorem BlockJob.FinalizesFlipped.exactly_iff {job : BlockJob File} (h : job.FinalizesFlipped)
    (hfit : ∀ p ∈ job.parts, p.moved < memoryBound ∧ p.expected < memoryBound) :
    job.FinalizesExactly ↔ job.parts = [] ∨ ∃ p ∈ job.parts, p.moved ≠ p.window := by
  constructor
  · intro he
    by_cases hne : job.parts = []
    · exact Or.inl hne
    · have hmissing : ¬ ∀ p ∈ job.parts, p.moved = p.window := fun hc => h.not_ok hfit hne (he.ok_iff.mpr hc)
      push Not at hmissing
      exact Or.inr hmissing
  · rintro (hnil | ⟨p, hp, hmissing⟩)
    · have hnone : ∀ {P : JobPart → Prop}, ∀ p ∈ job.parts, P p := by
        intro P p hp
        rw [hnil] at hp
        cases hp
      exact ⟨h.ok_iff.trans (iff_of_true hnone hnone), h.data, h.files⟩
    · refine ⟨iff_of_false (h.not_ok hfit (List.ne_nil_of_mem hp)) fun hc => hmissing (hc p hp), h.data, h.files⟩

/-- **Finalization is exact for the jobs the flipped comparison spares.**  Counts and lengths fit into memory. -/
theorem BlockJob.finalizesExactly_iff (job : BlockJob File)
    (hfit : ∀ p ∈ job.parts, p.moved < memoryBound ∧ p.expected < memoryBound) :
    job.FinalizesExactly ↔ job.SparedByFlip := by
  rcases job with (⟨m, b⟩ | ⟨t, m, bs⟩) | (⟨m, b⟩ | ⟨t, m, bs⟩)
  · exact ⟨fun _ => trivial, fun _ => BlockRead.finalizesExactly_single m b⟩
  · exact (BlockRead.finalizesFlipped t m bs).exactly_iff hfit
  · exact ⟨fun _ => trivial, fun _ => BlockWrite.finalizesExactly_single m b⟩
  · exact (BlockWrite.finalizesFlipped t m bs).exactly_iff hfit

/-- a read of two bytes from two files, the second byte not there yet -/
def readHalf : BlockJob Unit :=
  .read (.overlap ⟨0⟩ ⟨0, 0, 2⟩ [⟨⟨⟨⟨0⟩, ⟨0⟩⟩, ()⟩, [1], ⟨0, 1⟩, 1, .ready⟩, ⟨⟨⟨⟨0⟩, ⟨1⟩⟩, ()⟩, [], ⟨0, 1⟩, 0, .seek⟩])

theorem finalizesExactly_readHalf : readHalf.finalize.result = .error ⟨0, 0, 2⟩ ∧ readHalf.FinalizesExactly := by
  refine ⟨rfl, (BlockJob.finalizesExactly_iff readHalf ?_).mpr ?_⟩
  · intro p hp
    simp only [readHalf, BlockJob.parts, BlockFileRead.part, List.map_cons, List.map_nil, List.mem_cons,
      List.not_mem_nil, or_false] at hp
    rcases hp with rfl | rfl <;> decide
  · exact Or.inr ⟨_, List.mem_cons_of_mem _ List.mem_cons_self, by decide⟩

/-- a read of two bytes from two files, both of them there -/
def readAcross : BlockJob Unit :=
  .read (.overlap ⟨0⟩ ⟨0, 0, 2⟩ [⟨⟨⟨⟨0⟩, ⟨0⟩⟩, ()⟩, [1], ⟨0, 1⟩, 1, .ready⟩, ⟨⟨⟨⟨0⟩, ⟨1⟩⟩, ()⟩, [2], ⟨0, 1⟩, 1, .ready⟩])

theorem readAcross_turned_down :
    (∀ p ∈ readAcross.parts, p.moved = p.window) ∧ readAcross.finalize.result = .error ⟨0, 0, 2⟩ ∧
      ¬ readAcross.FinalizesExactly := by
  have hcomplete : ∀ p ∈ readAcross.parts, p.moved = p.window := by
    intro p hp
    simp only [readAcross, BlockJob.parts, BlockFileRead.part, List.map_cons, List.map_nil, List.mem_cons,
      List.not_mem_nil, or_false] at hp
    rcases hp with rfl | rfl <;> rfl
  refine ⟨hcomplete, rfl, ?_⟩
  intro h
  obtain ⟨block, hok⟩ := h.ok_iff.mpr hcomplete
  cases hok

end

/-! ## cutting a block -/

namespace DiskManager
variable {File World Err : Type}

/-- behind bytes that were already given out no window gets as many bytes as it is long -/
theorem fragments_lengths {block : List UInt8} {files : List (FileWindow × BlockFile File)} {offset : Nat}
    {parts : List (BlockFileWrite File)} (h : fragments block offset files = some parts)
    (hlen : parts.map (fun p => p.block.length) = files.map fun f => f.1.length) :
    (files ≠ [] → offset = 0) ∧ ∀ f ∈ files.dropLast, f.1.length = 0 := by
  induction files generalizing offset parts with
  | nil => exact ⟨fun h => absurd rfl h, fun f hf => by cases hf⟩
  | cons f files ih =>
    obtain ⟨window, file⟩ := f
    unfold fragments at h
    split at h
    · rename_i hbounds
      obtain ⟨rest, hrest, rfl⟩ := Option.map_eq_some_iff.mp h
      rw [List.map_cons, List.map_cons, List.cons.injEq] at hlen
      obtain ⟨hfirst, hothers⟩ := hlen
      have hzero : offset = 0 := by
        simp only [BlockFileWrite.new, List.length_drop, List.length_take] at hfirst
        omega
      obtain ⟨hnext, hempty⟩ := ih hrest hothers
      refine ⟨fun _ => hzero, ?_⟩
      cases files with
      | nil =>
        intro g hg
        cases hg
      | cons g files =>
        have hwindow : offset + window.length = 0 := hnext (List.cons_ne_nil g files)
        intro x hx
        rw [List.dropLast_cons_cons] at hx
        rcases List.mem_cons.mp hx with rfl | hx
        · show window.length = 0
          omega
        · exact hempty x hx
    · cases h

/-- if every window but the last is empty, the last one gets the whole block -/
theorem fragments_of_empty {block : List UInt8} {files : List (FileWindow × BlockFile File)} (hne : files ≠ [])
    (hempty : ∀ f ∈ files.dropLast, f.1.length = 0)
    (hsum : (files.map fun f => f.1.length).sum = block.length) :
    ∃ parts, fragments block 0 files = some parts ∧
      parts.map (fun p => p.block.length) = files.map (fun f => f.1.length) ∧
      (parts.map BlockFileWrite.block).flatten = block := by
  induction files with
  | nil => exact absurd rfl hne
  | cons f files ih =>
    obtain ⟨window, file⟩ := f
    cases files with
    | nil =>
      simp only [List.map_cons, List.map_nil, List.sum_cons, List.sum_nil, Nat.add_zero] at hsum
      refine ⟨[BlockFileWrite.new file ((block.take window.length).drop 0) window], ?_, ?_, ?_⟩
      · rw [fragments, if_pos ⟨Nat.zero_le _, Nat.le_of_eq hsum⟩]
        rfl
      · simp [BlockFileWrite.new, hsum]
      · simp [BlockFileWrite.new, hsum]
    | cons g files =>
      rw [List.dropLast_cons_cons] at hempty
      have hwindow : window.length = 0 := hempty (window, file) List.mem_cons_self
      rw [List.map_cons, List.sum_cons, hwindow, Nat.zero_add] at hsum
      obtain ⟨rest, hrest, hlengths, hdata⟩ :=
        ih (List.cons_ne_nil g files) (fun x hx => hempty x (List.mem_cons_of_mem _ hx)) hsum
      refine ⟨BlockFileWrite.new file ((block.take window.length).drop 0) window :: rest, ?_, ?_, ?_⟩
      · rw [fragments, if_pos ⟨Nat.zero_le _, by omega⟩, hwindow, hrest]
        rfl
      · refine List.cons_eq_cons.mpr ⟨?_, hlengths⟩
        simp [BlockFileWrite.new, hwindow]
      · simp [BlockFileWrite.new, hwindow, hdata]

section
variable (fs : FileSystem File World Err)

theorem pollCreateBlockWrite_files {sha1 : List UInt8 → ShaHash} {order : Arrangement FileEntry}
    {dm dm' : DiskManager File World} {id : TorrentId} {block : Block}
    {files : List (FileWindow × BlockFile File)} (hgood : dm.isGoodPiece sha1 id block = true)
    (hfiles : pollFiles fs order dm id block.metadata = some (.ready (.ok files), dm'))
    (htwo : 2 ≤ files.length) :
    pollCreateBlockWrite fs sha1 order dm id block
      = (fragments block.blockData 0 files).map fun blocks =>
          (.ready (.ok (.write (.overlap id block.metadata blocks))), dm') := by
  rw [pollCreateBlockWrite, if_pos hgood, hfiles]
  rcases files with _ | ⟨f, _ | ⟨g, files⟩⟩
  · cases htwo
  · exact absurd htwo (Nat.not_succ_le_self 1)
  · rfl

/-- the job for a block in several files has a fragment as long as its window for each of them, and the
fragments in order are the block -/
def CutsExactly (sha1 : List UInt8 → ShaHash) (order : Arrangement FileEntry) (dm dm' : DiskManager File World)
    (id : TorrentId) (block : Block) (files : List (FileWindow × BlockFile File)) : Prop :=
  ∃ parts, pollCreateBlockWrite fs sha1 order dm id block
      = some (.ready (.ok (.write (.overlap id block.metadata parts))), dm') ∧
    parts.map (fun p => p.block.length) = files.map (fun f => f.1.length) ∧
    (parts.map BlockFileWrite.block).flatten = block.blockData

/-- **A block is cut without loss if all of it goes to the last file.** -/
theorem cutsExactly_iff (sha1 : List UInt8 → ShaHash) (order : Arrangement FileEntry)
    (dm dm' : DiskManager File World) (id : TorrentId) (block : Block)
    (files : List (FileWindow × BlockFile File)) (hgood : dm.isGoodPiece sha1 id block = true)
    (hfiles : pollFiles fs order dm id block.metadata = some (.ready (.ok files), dm'))
    (htwo : 2 ≤ files.length) (hsum : (files.map fun f => f.1.length).sum = block.blockData.length) :
    CutsExactly fs sha1 order dm dm' id block files ↔ ∀ f ∈ files.dropLast, f.1.length = 0 := by
  unfold CutsExactly
  rw [pollCreateBlockWrite_files fs hgood hfiles htwo]
  constructor
  · rintro ⟨parts, hjob, hlen, -⟩
    obtain ⟨parts', hparts, heq⟩ := Option.map_eq_some_iff.mp hjob
    cases heq
    exact (fragments_lengths hparts hlen).2
  · intro hempty
    have hne : files ≠ [] := by
      rintro rfl
      exact Nat.not_succ_le_zero 1 htwo
    obtain ⟨parts, hparts, hlen, hdata⟩ := fragments_of_empty hne hempty hsum
    refine ⟨parts, ?_, hlen, hdata⟩
    rw [hparts]
    rfl

end

/-- one piece of two bytes in two files of one byte each -/
def twoFiles : MetaInfo :=
  ⟨none, [], none, none, none, none, [], [],
    ⟨[firstByte [1]], 2, .multi [⟨1, ["a"]⟩, ⟨1, ["b"]⟩], "two"⟩, [], .from []⟩

/-- a manager with that torrent -/
def twoFilesManager : DiskManager Unit Unit :=
  { withCapacity () 100 with
    torrents := (∅ : AList fun _ : TorrentId => TorrentFile).insert ⟨0⟩ ⟨⟨0⟩, twoFiles,
      [⟨["two", "a"], ⟨⟨0⟩, ⟨0⟩⟩, 0, 1⟩, ⟨["two", "b"], ⟨⟨0⟩, ⟨1⟩⟩, 1, 1⟩]⟩ }

def twoBytes : Block := ⟨⟨0, 0, 2⟩, [1, 2]⟩

/-- in the order of the metainfo the windows are an empty one and one of two bytes -/
theorem cutsExactly_twoBytes :
    ∃ dm', pollFiles instantDisk .same twoFilesManager ⟨0⟩ twoBytes.metadata
        = some (.ready (.ok [(⟨0, 0⟩, ⟨⟨⟨0⟩, ⟨0⟩⟩, ()⟩), (⟨0, 2⟩, ⟨⟨⟨0⟩, ⟨1⟩⟩, ()⟩)]), dm') ∧
      CutsExactly instantDisk firstByte .same twoFilesManager dm' ⟨0⟩ twoBytes
        [(⟨0, 0⟩, ⟨⟨⟨0⟩, ⟨0⟩⟩, ()⟩), (⟨0, 2⟩, ⟨⟨⟨0⟩, ⟨1⟩⟩, ()⟩)] := by
  refine ⟨_, rfl, ?_⟩
  refine (cutsExactly_iff instantDisk firstByte .same twoFilesManager _ ⟨0⟩ twoBytes _ ?_ rfl (by decide)
    (by decide)).mpr ?_
  · decide
  · intro f hf
    obtain rfl := List.mem_singleton.mp hf
    rfl

/-- in the other order the second slice is `[2..0]` -/
theorem twoBytes_panics :
    ∃ dm' files, twoFilesManager.isGoodPiece firstByte ⟨0⟩ twoBytes = true ∧
      pollFiles instantDisk ⟨List.reverse, List.reverse_perm⟩ twoFilesManager ⟨0⟩ twoBytes.metadata
        = some (.ready (.ok files), dm') ∧
      2 ≤ files.length ∧ (files.map fun f => f.1.length).sum = twoBytes.blockData.length ∧
      pollCreateBlockWrite instantDisk firstByte ⟨List.reverse, List.reverse_perm⟩ twoFilesManager ⟨0⟩ twoBytes
        = none ∧
      ¬ CutsExactly instantDisk firstByte ⟨List.reverse, List.reverse_perm⟩ twoFilesManager dm' ⟨0⟩ twoBytes
        files := by
  have hpanic : pollCreateBlockWrite instantDisk firstByte ⟨List.reverse, List.reverse_perm⟩ twoFilesManager ⟨0⟩
      twoBytes = none := rfl
  refine ⟨_, _, by decide, rfl, by decide, by decide, hpanic, ?_⟩
  rintro ⟨parts, hjob, -⟩
  rw [hpanic] at hjob
  cases hjob

end DiskManager

end Btt
