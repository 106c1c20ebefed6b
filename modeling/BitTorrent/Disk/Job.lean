import BitTorrent.Disk.File

/-!
# Reading and writing a block

The jobs of `src/disk/block.rs`: a job holds one file window or several and is polled until all of them
are done.  The file system is outside: `FileSystem` has an operation for each method of the trait the
manager uses, a state `World` that they read and change, and errors `Err` of its own.  `none` is the
panic of a slice out of range.
-/

namespace Btt

inductive Poll (α : Type) where
  | ready (a : α)
  | pending
deriving DecidableEq

def Poll.isReady {α : Type} : Poll α → Bool
  | .ready _ => true
  | .pending => false

def Poll.toList {α : Type} : Poll α → List α
  | .ready a => [a]
  | .pending => []

/-- the trait `FileSystem` (`src/disk/fs.rs`); a read is given the room its buffer has, which is what is left of its
window, and returns the bytes it put there.  (A real buffer without room reserves some, 64 bytes at first, so a read of a
window of length zero can give bytes; here it is the file system that may give more than there is room for.) -/
structure FileSystem (File World Err : Type) where
  pollOpenFile : List String → World → Poll (Except Err File) × World
  pollSeek : File → Nat → World → Poll (Except Err Nat) × File × World
  pollReadBlock : File → Nat → World → Poll (Except Err (List UInt8)) × File × World
  pollWriteBlock : File → List UInt8 → World → Poll (Except Err Nat) × File × World

structure BlockFile (File : Type) where
  id : TorrentFileId
  inner : File

inductive BlockState where
  | seek
  | process
  | ready
deriving DecidableEq

structure BlockFileWrite (File : Type) where
  file : BlockFile File
  written : Nat
  block : List UInt8
  fileWindow : FileWindow
  state : BlockState

structure BlockFileRead (File : Type) where
  file : BlockFile File
  block : List UInt8
  fileWindow : FileWindow
  read : Nat
  state : BlockState

section
variable {File World Err : Type} (fs : FileSystem File World Err)

namespace BlockFileWrite

def new (file : BlockFile File) (block : List UInt8) (fileWindow : FileWindow) : BlockFileWrite File :=
  ⟨file, 0, block, fileWindow, .seek⟩

/-- hand the rest of the window to the file system; a partial write leaves the state as it is -/
def write (b : BlockFileWrite File) (w : World) :
    Option (Poll (Except Err Unit) × BlockFileWrite File × World) :=
  if b.written ≤ b.fileWindow.length ∧ b.fileWindow.length ≤ b.block.length then
    match fs.pollWriteBlock b.file.inner ((b.block.take b.fileWindow.length).drop b.written) w with
    | (.ready (.ok written), inner, w) =>
      let b := { b with file := { b.file with inner := inner }, written := b.written + written }
      if b.written < b.fileWindow.length then some (.pending, b, w)
      else some (.ready (.ok ()), { b with state := .ready }, w)
    | (.ready (.error e), inner, w) =>
      some (.ready (.error e), { b with file := { b.file with inner := inner } }, w)
    | (.pending, inner, w) =>
      some (.pending, { b with file := { b.file with inner := inner }, state := .process }, w)
  else none

def poll (b : BlockFileWrite File) (w : World) :
    Option (Poll (Except Err Unit) × BlockFileWrite File × World) :=
  match b.state with
  | .ready => some (.ready (.ok ()), b, w)
  | .process => b.write fs w
  | .seek =>
    match fs.pollSeek b.file.inner b.fileWindow.offset w with
    | (.ready (.ok _), inner, w) => { b with file := { b.file with inner := inner } }.write fs w
    | (.ready (.error e), inner, w) =>
      some (.ready (.error e), { b with file := { b.file with inner := inner } }, w)
    | (.pending, inner, w) => some (.pending, { b with file := { b.file with inner := inner } }, w)

end BlockFileWrite

namespace BlockFileRead

def new (file : BlockFile File) (fileWindow : FileWindow) : BlockFileRead File := ⟨file, [], fileWindow, 0, .seek⟩

/-- ask for as much as the buffer has room for, for nothing if the window has length zero; a partial read leaves the
state as it is -/
def fill (b : BlockFileRead File) (w : World) : Poll (Except Err Unit) × BlockFileRead File × World :=
  match fs.pollReadBlock b.file.inner (b.fileWindow.length - b.block.length) w with
  | (.ready (.ok bytes), inner, w) =>
    let b :=
      { b with
        file := { b.file with inner := inner }
        block := b.block ++ bytes
        read := b.read + bytes.length }
    if b.read < b.fileWindow.length then (.pending, b, w)
    else (.ready (.ok ()), { b with state := .ready }, w)
  | (.ready (.error e), inner, w) => (.ready (.error e), { b with file := { b.file with inner := inner } }, w)
  | (.pending, inner, w) => (.pending, { b with file := { b.file with inner := inner }, state := .process }, w)

/-- here an error of the seek is not looked at -/
def poll (b : BlockFileRead File) (w : World) : Poll (Except Err Unit) × BlockFileRead File × World :=
  match b.state with
  | .ready => (.ready (.ok ()), b, w)
  | .process => b.fill fs w
  | .seek =>
    match fs.pollSeek b.file.inner b.fileWindow.offset w with
    | (.ready _, inner, w) => { b with file := { b.file with inner := inner } }.fill fs w
    | (.pending, inner, w) => (.pending, { b with file := { b.file with inner := inner } }, w)

end BlockFileRead

/-! ## jobs -/

inductive BlockRead (File : Type) where
  | single (metadata : BlockMetadata) (block : BlockFileRead File)
  | overlap (torrent : TorrentId) (metadata : BlockMetadata) (blocks : List (BlockFileRead File))

inductive BlockWrite (File : Type) where
  | single (metadata : BlockMetadata) (block : BlockFileWrite File)
  | overlap (torrent : TorrentId) (metadata : BlockMetadata) (blocks : List (BlockFileWrite File))

inductive BlockJob (File : Type) where
  | read (r : BlockRead File)
  | write (r : BlockWrite File)

inductive BlockResult (File : Type) where
  | read (torrent : TorrentId) (files : List (BlockFile File)) (result : Except BlockMetadata Block)
  | write (torrent : TorrentId) (files : List (BlockFile File)) (result : Except BlockMetadata Block)

/-- poll every part; ready if none of them is pending -/
def pollReads : List (BlockFileRead File) → World → Bool × List (BlockFileRead File) × World
  | [], w => (true, [], w)
  | b :: bs, w =>
    let (p, b, w) := b.poll fs w
    let (ready, bs, w) := pollReads bs w
    (p.isReady && ready, b :: bs, w)

def pollWrites : List (BlockFileWrite File) → World → Option (Bool × List (BlockFileWrite File) × World)
  | [], w => some (true, [], w)
  | b :: bs, w => do
    let (p, b, w) ← b.poll fs w
    let (ready, bs, w) ← pollWrites bs w
    some (p.isReady && ready, b :: bs, w)

/-- the answer `Poll::Ready(Ok(()))` of an overlap job; errors of its parts are not looked at -/
def readyIf (b : Bool) : Poll (Except Err Unit) := if b then .ready (.ok ()) else .pending

namespace BlockJob

def poll (job : BlockJob File) (w : World) : Option (Poll (Except Err Unit) × BlockJob File × World) :=
  match job with
  | .read (.single metadata block) =>
    let (p, block, w) := block.poll fs w
    some (p, .read (.single metadata block), w)
  | .read (.overlap torrent metadata blocks) =>
    let (ready, blocks, w) := pollReads fs blocks w
    some (readyIf ready, .read (.overlap torrent metadata blocks), w)
  | .write (.single metadata block) => do
    let (p, block, w) ← block.poll fs w
    some (p, .write (.single metadata block), w)
  | .write (.overlap torrent metadata blocks) => do
    let (ready, blocks, w) ← pollWrites fs blocks w
    some (readyIf ready, .write (.overlap torrent metadata blocks), w)

end BlockJob

end

section
variable {File : Type}

/-- `!n` on a `usize`: the bits are flipped -/
def bitNot (n : Nat) : Nat := 2 ^ 64 - 1 - n

/-- the loop of an overlap job: a part is valid if the FLIPPED count equals the length expected, and
data is collected as long as all parts were valid -/
def collectParts : List (Nat × Nat × List UInt8) → Bool → List UInt8 → Bool × List UInt8
  | [], valid, data => (valid, data)
  | (count, expected, bytes) :: parts, valid, data =>
    let valid := valid && bitNot count = expected
    collectParts parts valid (if valid then data ++ bytes else data)

theorem collectParts_fst (parts : List (Nat × Nat × List UInt8)) (valid : Bool) (data : List UInt8) :
    (collectParts parts valid data).1 = (valid && parts.all fun part => bitNot part.1 = part.2.1) := by
  induction parts generalizing valid data with
  | nil => rw [collectParts, List.all_nil, Bool.and_true]
  | cons part parts ih =>
    obtain ⟨count, expected, bytes⟩ := part
    rw [collectParts, ih, List.all_cons, Bool.and_assoc]

/-- parts that are all valid are collected in order -/
theorem collectParts_snd {parts : List (Nat × Nat × List UInt8)}
    (h : ∀ part ∈ parts, bitNot part.1 = part.2.1) (data : List UInt8) :
    (collectParts parts true data).2 = data ++ (parts.map fun part => part.2.2).flatten := by
  induction parts generalizing data with
  | nil => rw [collectParts, List.map_nil, List.flatten_nil, List.append_nil]
  | cons part parts ih =>
    obtain ⟨count, expected, bytes⟩ := part
    have hvalid : bitNot count = expected := h _ List.mem_cons_self
    have hrest : ∀ part ∈ parts, bitNot part.1 = part.2.1 := fun p hp => h p (List.mem_cons_of_mem _ hp)
    rw [collectParts, hvalid, decide_eq_true rfl, Bool.and_true, if_pos rfl, ih hrest, List.map_cons,
      List.flatten_cons, List.append_assoc]

def BlockRead.finalize : BlockRead File → BlockResult File
  | .single metadata block =>
    .read block.file.id.torrent [block.file]
      (if block.block.length = block.fileWindow.length then .ok ⟨metadata, block.block⟩ else .error metadata)
  | .overlap torrent metadata blocks =>
    let r := collectParts (blocks.map fun b => (b.block.length, b.fileWindow.length, b.block)) true []
    .read torrent (blocks.map BlockFileRead.file) (if r.1 then .ok ⟨metadata, r.2⟩ else .error metadata)

def BlockWrite.finalize : BlockWrite File → BlockResult File
  | .single metadata block =>
    .write block.file.id.torrent [block.file]
      (if block.written = block.fileWindow.length then .ok ⟨metadata, block.block⟩ else .error metadata)
  | .overlap torrent metadata blocks =>
    let r := collectParts (blocks.map fun b => (b.written, b.block.length, b.block)) true []
    .write torrent (blocks.map BlockFileWrite.file) (if r.1 then .ok ⟨metadata, r.2⟩ else .error metadata)

def BlockJob.finalize : BlockJob File → BlockResult File
  | .read r => r.finalize
  | .write r => r.finalize

end

/-! ## what a job is for -/

section
variable {File : Type}

/-- the torrent a read is for, as its result will say -/
def BlockRead.torrent : BlockRead File → TorrentId
  | .single _ block => block.file.id.torrent
  | .overlap torrent _ _ => torrent

def BlockRead.metadata : BlockRead File → BlockMetadata
  | .single metadata _ => metadata
  | .overlap _ metadata _ => metadata

def BlockRead.files : BlockRead File → List (BlockFile File)
  | .single _ block => [block.file]
  | .overlap _ _ blocks => blocks.map BlockFileRead.file

/-- the torrent a write is for, as its result will say -/
def BlockWrite.torrent : BlockWrite File → TorrentId
  | .single _ block => block.file.id.torrent
  | .overlap torrent _ _ => torrent

def BlockWrite.metadata : BlockWrite File → BlockMetadata
  | .single metadata _ => metadata
  | .overlap _ metadata _ => metadata

def BlockWrite.files : BlockWrite File → List (BlockFile File)
  | .single _ block => [block.file]
  | .overlap _ _ blocks => blocks.map BlockFileWrite.file

def BlockJob.files : BlockJob File → List (BlockFile File)
  | .read r => r.files
  | .write r => r.files

/-- the files a job holds -/
def BlockJob.fileIds (job : BlockJob File) : List TorrentFileId := job.files.map BlockFile.id

/-- a read ends with the block it is for, or with an error that names it -/
theorem BlockRead.finalize_eq (r : BlockRead File) :
    (∃ data, r.finalize = .read r.torrent r.files (.ok ⟨r.metadata, data⟩)) ∨
      r.finalize = .read r.torrent r.files (.error r.metadata) := by
  cases r with
  | single m b =>
    unfold finalize
    simp only
    split
    · exact Or.inl ⟨_, rfl⟩
    · exact Or.inr rfl
  | overlap t m bs =>
    unfold finalize
    simp only
    split
    · exact Or.inl ⟨_, rfl⟩
    · exact Or.inr rfl

theorem BlockWrite.finalize_eq (r : BlockWrite File) :
    (∃ data, r.finalize = .write r.torrent r.files (.ok ⟨r.metadata, data⟩)) ∨
      r.finalize = .write r.torrent r.files (.error r.metadata) := by
  cases r with
  | single m b =>
    unfold finalize
    simp only
    split
    · exact Or.inl ⟨_, rfl⟩
    · exact Or.inr rfl
  | overlap t m bs =>
    unfold finalize
    simp only
    split
    · exact Or.inl ⟨_, rfl⟩
    · exact Or.inr rfl

end

/-! ## what a poll leaves alone -/

section
variable {File World Err : Type} {fs : FileSystem File World Err}

/-- the same part of a read, some bytes later -/
structure BlockFileRead.Continues (b b' : BlockFileRead File) : Prop where
  id : b'.file.id = b.file.id
  fileWindow : b'.fileWindow = b.fileWindow

/-- the same part of a write, some bytes later -/
structure BlockFileWrite.Continues (b b' : BlockFileWrite File) : Prop where
  id : b'.file.id = b.file.id
  block : b'.block = b.block
  fileWindow : b'.fileWindow = b.fileWindow

/-- the same job, some bytes later -/
inductive BlockJob.Continues : BlockJob File → BlockJob File → Prop
  | readSingle {m b b'} (h : BlockFileRead.Continues b b') :
      Continues (.read (.single m b)) (.read (.single m b'))
  | readOverlap {t m bs bs'} (h : List.Forall₂ BlockFileRead.Continues bs bs') :
      Continues (.read (.overlap t m bs)) (.read (.overlap t m bs'))
  | writeSingle {m b b'} (h : BlockFileWrite.Continues b b') :
      Continues (.write (.single m b)) (.write (.single m b'))
  | writeOverlap {t m bs bs'} (h : List.Forall₂ BlockFileWrite.Continues bs bs') :
      Continues (.write (.overlap t m bs)) (.write (.overlap t m bs'))

theorem BlockFileRead.continues_fill (b : BlockFileRead File) (w : World) :
    b.Continues (b.fill fs w).2.1 := by
  unfold fill
  split
  · simp only
    split <;> exact ⟨rfl, rfl⟩
  · exact ⟨rfl, rfl⟩
  · exact ⟨rfl, rfl⟩

theorem BlockFileRead.continues_poll (b : BlockFileRead File) (w : World) :
    b.Continues (b.poll fs w).2.1 := by
  unfold poll
  split
  · exact ⟨rfl, rfl⟩
  · exact continues_fill b w
  · split
    · rename_i inner w1 _
      let b1 : BlockFileRead File := { b with file := { b.file with inner := inner } }
      have h : b1.Continues (b1.fill fs w1).2.1 := b1.continues_fill w1
      exact ⟨h.id, h.fileWindow⟩
    · exact ⟨rfl, rfl⟩

theorem BlockFileWrite.continues_write {b b' : BlockFileWrite File} {w w' : World}
    {p : Poll (Except Err Unit)} (h : b.write fs w = some (p, b', w')) : b.Continues b' := by
  unfold write at h
  split at h
  · split at h
    · simp only at h
      split at h <;> cases h <;> exact ⟨rfl, rfl, rfl⟩
    · cases h
      exact ⟨rfl, rfl, rfl⟩
    · cases h
      exact ⟨rfl, rfl, rfl⟩
  · cases h

theorem BlockFileWrite.continues_poll {b b' : BlockFileWrite File} {w w' : World}
    {p : Poll (Except Err Unit)} (h : b.poll fs w = some (p, b', w')) : b.Continues b' := by
  unfold poll at h
  split at h
  · cases h
    exact ⟨rfl, rfl, rfl⟩
  · exact continues_write h
  · split at h
    · have hc := continues_write h
      exact ⟨hc.id, hc.block, hc.fileWindow⟩
    · cases h
      exact ⟨rfl, rfl, rfl⟩
    · cases h
      exact ⟨rfl, rfl, rfl⟩

theorem continues_pollReads (bs : List (BlockFileRead File)) (w : World) :
    List.Forall₂ BlockFileRead.Continues bs (pollReads fs bs w).2.1 := by
  induction bs generalizing w with
  | nil => exact List.Forall₂.nil
  | cons b bs ih => exact List.Forall₂.cons (b.continues_poll w) (ih _)

theorem continues_pollWrites {bs bs' : List (BlockFileWrite File)} {w w' : World} {ready : Bool}
    (h : pollWrites fs bs w = some (ready, bs', w')) : List.Forall₂ BlockFileWrite.Continues bs bs' := by
  induction bs generalizing w ready bs' with
  | nil =>
    cases h
    exact List.Forall₂.nil
  | cons b bs ih =>
    obtain ⟨⟨p, b1, w1⟩, hb, h⟩ := Option.bind_eq_some_iff.mp h
    obtain ⟨⟨ready1, bs1, w2⟩, hbs, h⟩ := Option.bind_eq_some_iff.mp h
    cases h
    exact List.Forall₂.cons (BlockFileWrite.continues_poll hb) (ih hbs)

/-- **A polled job is the same job.** -/
theorem BlockJob.continues_poll {job job' : BlockJob File} {w w' : World} {p : Poll (Except Err Unit)}
    (h : job.poll fs w = some (p, job', w')) : job.Continues job' := by
  unfold poll at h
  split at h
  · rename_i m b
    cases h
    exact .readSingle (b.continues_poll w)
  · rename_i t m bs
    cases h
    exact .readOverlap (continues_pollReads bs w)
  · obtain ⟨⟨p1, b', w1⟩, hb, h⟩ := Option.bind_eq_some_iff.mp h
    cases h
    exact .writeSingle (BlockFileWrite.continues_poll hb)
  · obtain ⟨⟨ready, bs', w1⟩, hb, h⟩ := Option.bind_eq_some_iff.mp h
    cases h
    exact .writeOverlap (continues_pollWrites hb)

namespace BlockJob.Continues
variable {job job' : BlockJob File}

theorem fileIds (h : job.Continues job') : job'.fileIds = job.fileIds := by
  have hreads : ∀ {bs bs' : List (BlockFileRead File)}, List.Forall₂ BlockFileRead.Continues bs bs' →
      (bs'.map BlockFileRead.file).map BlockFile.id = (bs.map BlockFileRead.file).map BlockFile.id := by
    intro bs bs' hf
    induction hf with
    | nil => rfl
    | cons hb _ ih => rw [List.map_cons, List.map_cons, List.map_cons, List.map_cons, hb.id, ih]
  have hwrites : ∀ {bs bs' : List (BlockFileWrite File)}, List.Forall₂ BlockFileWrite.Continues bs bs' →
      (bs'.map BlockFileWrite.file).map BlockFile.id = (bs.map BlockFileWrite.file).map BlockFile.id := by
    intro bs bs' hf
    induction hf with
    | nil => rfl
    | cons hb _ ih => rw [List.map_cons, List.map_cons, List.map_cons, List.map_cons, hb.id, ih]
  cases h with
  | readSingle h => exact congrArg (fun i => [i]) h.id
  | readOverlap h => exact hreads h
  | writeSingle h => exact congrArg (fun i => [i]) h.id
  | writeOverlap h => exact hwrites h

/-- a read stays a read, for the same torrent and block -/
theorem read {r' : BlockRead File} (h : job.Continues (.read r')) :
    ∃ r, job = .read r ∧ r'.torrent = r.torrent ∧ r'.metadata = r.metadata := by
  cases h with
  | readSingle h => exact ⟨_, rfl, congrArg TorrentFileId.torrent h.id, rfl⟩
  | readOverlap h => exact ⟨_, rfl, rfl, rfl⟩

/-- a write stays a write, for the same torrent and block -/
theorem write {r' : BlockWrite File} (h : job.Continues (.write r')) :
    ∃ r, job = .write r ∧ r'.torrent = r.torrent ∧ r'.metadata = r.metadata := by
  cases h with
  | writeSingle h => exact ⟨_, rfl, congrArg TorrentFileId.torrent h.id, rfl⟩
  | writeOverlap h => exact ⟨_, rfl, rfl, rfl⟩

end BlockJob.Continues

end

end Btt
