import BitTorrent.Lib.Overwrite
import BitTorrent.Disk.Reading
import BitTorrent.Disk.Windows

/-!
# Jobs on a disk that keeps its bytes

A disk that stores the bytes of a file at its place (`Faithful`): an open file is a position in what its place holds, a
write that is done has put all its bytes there, a read that is done has taken as many as there are, and any call may be
pending or fail.  No call is answered in part: a disk that takes some bytes of a write only is not one of these, and behind
a seek that is made again it would get a piece wrong.

* `BlockFileWrite.Waiting.poll`   a write in front of its window writes all of it or nothing;
* `BlockFileRead.Waiting.poll`    a read in front of a window that is on the disk takes all of it or nothing;
* `BlockJob.held_poll`, `BlockJob.store_poll`   a job keeps its files, and changes none but them.
-/

namespace Btt
open Run Overwrite

section
variable {File World Place Err : Type}

/-- what the disk holds at a place, the place a path leads to, and the place and the position of an open file -/
structure DiskView (File World Place : Type) where
  locate : List String → Place
  store : Place → World → List UInt8
  place : File → Place
  position : File → Nat

/-- the answers of a disk that moves all the bytes of a call, or none of them; no answer is partial -/
structure FileSystem.Faithful (fs : FileSystem File World Err) (v : DiskView File World Place) : Prop where
  open_store : ∀ {p w r w'}, fs.pollOpenFile p w = (r, w') → ∀ q, v.store q w' = v.store q w
  open_place : ∀ {p w f w'}, fs.pollOpenFile p w = (.ready (.ok f), w') → v.place f = v.locate p
  seek_place : ∀ {f o w r f' w'}, fs.pollSeek f o w = (r, f', w') → v.place f' = v.place f
  seek_store : ∀ {f o w r f' w'}, fs.pollSeek f o w = (r, f', w') → ∀ q, v.store q w' = v.store q w
  seek_ready : ∀ {f o w r f' w'}, fs.pollSeek f o w = (.ready r, f', w') → v.position f' = o
  write_place : ∀ {f bytes w r f' w'}, fs.pollWriteBlock f bytes w = (r, f', w') → v.place f' = v.place f
  write_ok : ∀ {f bytes w n f' w'}, fs.pollWriteBlock f bytes w = (.ready (.ok n), f', w') → n = bytes.length ∧
    v.store (v.place f) w' = overwrite 0 (v.store (v.place f) w) (v.position f) bytes
  write_frame : ∀ {f bytes w r f' w'}, fs.pollWriteBlock f bytes w = (r, f', w') → ∀ q, v.place f ≠ q →
    v.store q w' = v.store q w
  write_error : ∀ {f bytes w e f' w'}, fs.pollWriteBlock f bytes w = (.ready (.error e), f', w') →
    ∀ q, v.store q w' = v.store q w
  write_pending : ∀ {f bytes w f' w'}, fs.pollWriteBlock f bytes w = (.pending, f', w') →
    v.position f' = v.position f ∧ ∀ q, v.store q w' = v.store q w
  read_place : ∀ {f room w r f' w'}, fs.pollReadBlock f room w = (r, f', w') → v.place f' = v.place f
  read_store : ∀ {f room w r f' w'}, fs.pollReadBlock f room w = (r, f', w') → ∀ q, v.store q w' = v.store q w
  read_ok : ∀ {f room w bytes f' w'}, fs.pollReadBlock f room w = (.ready (.ok bytes), f', w') →
    bytes = ((v.store (v.place f) w).drop (v.position f)).take room
  read_pending : ∀ {f room w f' w'}, fs.pollReadBlock f room w = (.pending, f', w') → v.position f' = v.position f

variable {fs : FileSystem File World Err} {v : DiskView File World Place}

/-! ## the parts of a job -/

namespace BlockFileWrite
variable {b b' : BlockFileWrite File} {w w' : World} {p : Poll (Except Err Unit)}

/-- nothing is written yet, and a part that does not seek any more stands at the start of its window -/
structure Waiting (v : DiskView File World Place) (b : BlockFileWrite File) : Prop where
  none : b.written = 0
  at_start : b.state = .seek ∨ b.state = .process ∧ v.position b.file.inner = b.fileWindow.offset

/-- the whole window was written -/
structure Done (v : DiskView File World Place) (b b' : BlockFileWrite File) (w w' : World) : Prop where
  written : b'.written = b.fileWindow.length
  store : v.store (v.place b.file.inner) w' =
    overwrite 0 (v.store (v.place b.file.inner) w) b.fileWindow.offset (b.block.take b.fileWindow.length)

/-- a part that was polled before it has written anything waits on, has failed, or is done -/
inductive Polled (v : DiskView File World Place) (b b' : BlockFileWrite File) (w w' : World) : Poll (Except Err Unit) → Prop
  | pending (h : b'.Waiting v) (hstore : ∀ q, v.store q w' = v.store q w) : Polled v b b' w w' .pending
  | failed {e} (h : b'.written = 0) (hstore : ∀ q, v.store q w' = v.store q w) : Polled v b b' w w' (.ready (.error e))
  | done (h : Done v b b' w w') : Polled v b b' w w' (.ready (.ok ()))

theorem place_write (hfs : fs.Faithful v) (h : b.write fs w = some (p, b', w')) :
    v.place b'.file.inner = v.place b.file.inner := by
  unfold write at h
  split at h
  · split at h <;> rename_i hwrite
    · simp only at h
      split at h <;> cases h <;> exact hfs.write_place hwrite
    · cases h
      exact hfs.write_place hwrite
    · cases h
      exact hfs.write_place hwrite
  · cases h

theorem place_poll (hfs : fs.Faithful v) (h : b.poll fs w = some (p, b', w')) :
    v.place b'.file.inner = v.place b.file.inner := by
  unfold poll at h
  split at h
  · cases h
    rfl
  · exact place_write hfs h
  · split at h <;> rename_i hseek
    · exact (place_write hfs h).trans (hfs.seek_place hseek)
    · cases h
      exact hfs.seek_place hseek
    · cases h
      exact hfs.seek_place hseek

/-- what is stored at other places is not touched -/
theorem store_write (hfs : fs.Faithful v) (h : b.write fs w = some (p, b', w')) {q : Place}
    (hq : v.place b.file.inner ≠ q) : v.store q w' = v.store q w := by
  unfold write at h
  split at h
  · split at h <;> rename_i hwrite
    · simp only at h
      split at h <;> cases h <;> exact hfs.write_frame hwrite q hq
    · cases h
      exact hfs.write_frame hwrite q hq
    · cases h
      exact hfs.write_frame hwrite q hq
  · cases h

theorem store_poll (hfs : fs.Faithful v) (h : b.poll fs w = some (p, b', w')) {q : Place}
    (hq : v.place b.file.inner ≠ q) : v.store q w' = v.store q w := by
  unfold poll at h
  split at h
  · cases h
    rfl
  · exact store_write hfs h hq
  · split at h <;> rename_i hseek
    · refine (store_write hfs h ?_).trans (hfs.seek_store hseek q)
      exact fun heq => hq ((hfs.seek_place hseek).symm.trans heq)
    · cases h
      exact hfs.seek_store hseek q
    · cases h
      exact hfs.seek_store hseek q

/-- a part in front of its window writes all of it or nothing -/
theorem Waiting.write (hfs : fs.Faithful v) (hnone : b.written = 0) (hpos : v.position b.file.inner = b.fileWindow.offset)
    (h : b.write fs w = some (p, b', w')) : Polled v b b' w w' p := by
  obtain ⟨file, written, block, window, state⟩ := b
  subst hnone
  unfold BlockFileWrite.write at h
  simp only [List.drop_zero, Nat.zero_le, true_and, Nat.zero_add] at h
  split at h
  · rename_i hfits
    split at h <;> rename_i hwrite
    · obtain ⟨rfl, hstore⟩ := hfs.write_ok hwrite
      rw [List.length_take, Nat.min_eq_left hfits, if_neg (Nat.lt_irrefl _)] at h
      cases h
      rw [hpos] at hstore
      exact .done ⟨rfl, hstore⟩
    · cases h
      exact .failed rfl (hfs.write_error hwrite)
    · obtain ⟨hstay, hstore⟩ := hfs.write_pending hwrite
      cases h
      exact .pending ⟨rfl, Or.inr ⟨rfl, hstay.trans hpos⟩⟩ hstore
  · cases h

theorem Waiting.poll (hfs : fs.Faithful v) (hb : b.Waiting v) (h : b.poll fs w = some (p, b', w')) :
    Polled v b b' w w' p := by
  unfold BlockFileWrite.poll at h
  split at h
  · rename_i hready
    rcases hb.at_start with hstate | ⟨hstate, -⟩ <;> cases hready.symm.trans hstate
  · rename_i hprocess
    rcases hb.at_start with hstate | ⟨-, hpos⟩
    · cases hprocess.symm.trans hstate
    · exact Waiting.write hfs hb.none hpos h
  · rename_i hseeking
    split at h
    · -- the seek is done, and the write behind it starts at the window
      rename_i pos inner w1 hseek
      have hplace := hfs.seek_place hseek
      have hsame := hfs.seek_store hseek
      have hpos : v.position inner = b.fileWindow.offset := hfs.seek_ready hseek
      cases Waiting.write (b := { b with file := { b.file with inner := inner } }) hfs hb.none hpos h with
      | pending hw hstore => exact .pending hw fun q => (hstore q).trans (hsame q)
      | failed hw hstore => exact .failed hw fun q => (hstore q).trans (hsame q)
      | done hdone =>
        have hstore : v.store (v.place inner) w' =
            overwrite 0 (v.store (v.place inner) w1) b.fileWindow.offset (b.block.take b.fileWindow.length) := hdone.store
        rw [hplace, hsame] at hstore
        exact .done ⟨hdone.written, hstore⟩
    · rename_i hseek
      cases h
      exact .failed hb.none (hfs.seek_store hseek)
    · rename_i hseek
      cases h
      exact .pending ⟨hb.none, Or.inl hseeking⟩ (hfs.seek_store hseek)

end BlockFileWrite

namespace BlockFileRead
variable {b b' : BlockFileRead File} {w w' : World} {p : Poll (Except Err Unit)}

structure Waiting (v : DiskView File World Place) (b : BlockFileRead File) : Prop where
  none : b.block = [] ∧ b.read = 0
  at_start : b.state = .seek ∨ b.state = .process ∧ v.position b.file.inner = b.fileWindow.offset

/-- the bytes of the window, as the disk holds them -/
def stored (v : DiskView File World Place) (b : BlockFileRead File) (w : World) : List UInt8 :=
  ((v.store (v.place b.file.inner) w).drop b.fileWindow.offset).take b.fileWindow.length

theorem place_fill (hfs : fs.Faithful v) (h : b.fill fs w = (p, b', w')) : v.place b'.file.inner = v.place b.file.inner := by
  unfold fill at h
  split at h <;> rename_i hread
  · simp only at h
    split at h <;> cases h <;> exact hfs.read_place hread
  · cases h
    exact hfs.read_place hread
  · cases h
    exact hfs.read_place hread

theorem place_poll (hfs : fs.Faithful v) (h : b.poll fs w = (p, b', w')) : v.place b'.file.inner = v.place b.file.inner := by
  unfold poll at h
  split at h
  · cases h
    rfl
  · exact place_fill hfs h
  · split at h <;> rename_i hseek
    · exact (place_fill hfs h).trans (hfs.seek_place hseek)
    · cases h
      exact hfs.seek_place hseek

/-- reading changes nothing on the disk -/
theorem store_fill (hfs : fs.Faithful v) (h : b.fill fs w = (p, b', w')) (q : Place) :
    v.store q w' = v.store q w := by
  unfold fill at h
  split at h <;> rename_i hread
  · simp only at h
    split at h <;> cases h <;> exact hfs.read_store hread q
  · cases h
    exact hfs.read_store hread q
  · cases h
    exact hfs.read_store hread q

theorem store_poll (hfs : fs.Faithful v) (h : b.poll fs w = (p, b', w')) (q : Place) :
    v.store q w' = v.store q w := by
  unfold poll at h
  split at h
  · cases h
    rfl
  · exact store_fill hfs h q
  · split at h <;> rename_i hseek
    · exact (store_fill hfs h q).trans (hfs.seek_store hseek q)
    · cases h
      exact hfs.seek_store hseek q

/-- a read in front of a window that is on the disk takes all of it or nothing -/
inductive Polled (v : DiskView File World Place) (b b' : BlockFileRead File) (w : World) : Poll (Except Err Unit) → Prop
  | pending (h : b'.Waiting v) : Polled v b b' w .pending
  | failed {e} (h : b'.block = []) : Polled v b b' w (.ready (.error e))
  | done (h : b'.block = b.stored v w) : Polled v b b' w (.ready (.ok ()))

theorem Waiting.fill (hfs : fs.Faithful v) (hnone : b.block = [] ∧ b.read = 0)
    (hpos : v.position b.file.inner = b.fileWindow.offset) (hfull : (b.stored v w).length = b.fileWindow.length)
    (h : b.fill fs w = (p, b', w')) : Polled v b b' w p := by
  obtain ⟨file, block, window, read, state⟩ := b
  obtain ⟨hblock, hread⟩ := hnone
  subst hblock hread
  unfold BlockFileRead.fill at h
  simp only [List.length_nil, Nat.sub_zero, List.nil_append, Nat.zero_add] at h
  split at h
  · rename_i bytes inner w1 hread
    have hbytes : bytes = BlockFileRead.stored v ⟨file, [], window, 0, state⟩ w := by
      rw [hfs.read_ok hread, hpos]
      rfl
    rw [hbytes, hfull, if_neg (Nat.lt_irrefl _)] at h
    cases h
    exact .done rfl
  · cases h
    exact .failed rfl
  · rename_i hread
    cases h
    exact .pending ⟨⟨rfl, rfl⟩, Or.inr ⟨rfl, (hfs.read_pending hread).trans hpos⟩⟩

theorem Waiting.poll (hfs : fs.Faithful v) (hb : b.Waiting v) (hfull : (b.stored v w).length = b.fileWindow.length)
    (h : b.poll fs w = (p, b', w')) : Polled v b b' w p := by
  unfold BlockFileRead.poll at h
  split at h
  · rename_i hready
    rcases hb.at_start with hstate | ⟨hstate, -⟩ <;> cases hready.symm.trans hstate
  · rename_i hprocess
    rcases hb.at_start with hstate | ⟨-, hpos⟩
    · cases hprocess.symm.trans hstate
    · exact Waiting.fill hfs hb.none hpos hfull h
  · rename_i hseeking
    split at h
    · rename_i r inner w1 hseek
      have hsame : BlockFileRead.stored v { b with file := { b.file with inner := inner } } w1 = b.stored v w := by
        unfold stored
        rw [hfs.seek_store hseek]
        exact congrArg (fun q => ((v.store q w).drop b.fileWindow.offset).take b.fileWindow.length) (hfs.seek_place hseek)
      rw [← hsame] at hfull
      cases Waiting.fill (b := { b with file := { b.file with inner := inner } }) hfs hb.none (hfs.seek_ready hseek) hfull
        h with
      | pending hw => exact .pending hw
      | failed hw => exact .failed hw
      | done hdone => exact .done (hdone.trans hsame)
    · rename_i hseek
      cases h
      exact .pending ⟨hb.none, Or.inl hseeking⟩

end BlockFileRead

/-! ## jobs -/

/-- the id of an open file and its place -/
def BlockFile.held (v : DiskView File World Place) (f : BlockFile File) : TorrentFileId × Place := (f.id, v.place f.inner)

theorem held_pollReads (hfs : fs.Faithful v) (bs : List (BlockFileRead File)) (w : World) :
    (pollReads fs bs w).2.1.map (fun b => b.file.held v) = bs.map fun b => b.file.held v := by
  induction bs generalizing w with
  | nil => rfl
  | cons b bs ih =>
    have hid : (b.poll fs w).2.1.file.id = b.file.id := (b.continues_poll w).id
    have hplace : v.place (b.poll fs w).2.1.file.inner = v.place b.file.inner := BlockFileRead.place_poll hfs rfl
    exact congrArg₂ List.cons (congrArg₂ Prod.mk hid hplace) (ih _)

theorem held_pollWrites (hfs : fs.Faithful v) {bs bs' : List (BlockFileWrite File)} {w w' : World} {ready : Bool}
    (h : pollWrites fs bs w = some (ready, bs', w')) :
    bs'.map (fun b => b.file.held v) = bs.map fun b => b.file.held v := by
  induction bs generalizing w ready bs' with
  | nil =>
    cases h
    rfl
  | cons b bs ih =>
    obtain ⟨⟨p, b1, w1⟩, hb, h⟩ := Option.bind_eq_some_iff.mp h
    obtain ⟨⟨ready1, bs1, w2⟩, hrest, h⟩ := Option.bind_eq_some_iff.mp h
    cases h
    have hid : b1.file.id = b.file.id := (BlockFileWrite.continues_poll hb).id
    exact congrArg₂ List.cons (congrArg₂ Prod.mk hid (BlockFileWrite.place_poll hfs hb)) (ih hrest)

theorem store_pollReads (hfs : fs.Faithful v) (bs : List (BlockFileRead File)) (w : World) (q : Place) :
    v.store q (pollReads fs bs w).2.2 = v.store q w := by
  induction bs generalizing w with
  | nil => rfl
  | cons b bs ih => exact (ih _).trans (BlockFileRead.store_poll hfs rfl q)

theorem store_pollWrites (hfs : fs.Faithful v) {bs bs' : List (BlockFileWrite File)} {w w' : World} {ready : Bool}
    (h : pollWrites fs bs w = some (ready, bs', w')) {q : Place} (hq : ∀ b ∈ bs, v.place b.file.inner ≠ q) :
    v.store q w' = v.store q w := by
  induction bs generalizing w ready bs' with
  | nil =>
    cases h
    rfl
  | cons b bs ih =>
    obtain ⟨⟨p, b1, w1⟩, hb, h⟩ := Option.bind_eq_some_iff.mp h
    obtain ⟨⟨ready1, bs1, w2⟩, hrest, h⟩ := Option.bind_eq_some_iff.mp h
    cases h
    have hfirst := BlockFileWrite.store_poll hfs hb (hq b List.mem_cons_self)
    exact (ih hrest fun c hc => hq c (List.mem_cons_of_mem _ hc)).trans hfirst

namespace BlockJob
variable {job job' : BlockJob File} {w w' : World} {p : Poll (Except Err Unit)}

/-- a job keeps its files -/
theorem held_poll (hfs : fs.Faithful v) (h : job.poll fs w = some (p, job', w')) :
    job'.files.map (BlockFile.held v) = job.files.map (BlockFile.held v) := by
  unfold poll at h
  split at h
  · rename_i m b
    cases h
    have hid : (b.poll fs w).2.1.file.id = b.file.id := (b.continues_poll w).id
    have hplace : v.place (b.poll fs w).2.1.file.inner = v.place b.file.inner := BlockFileRead.place_poll hfs rfl
    exact congrArg (fun x => [x]) (congrArg₂ Prod.mk hid hplace)
  · rename_i t m bs
    cases h
    show (List.map _ _).map _ = (List.map _ _).map _
    rw [List.map_map, List.map_map]
    exact held_pollReads hfs bs w
  · obtain ⟨⟨p1, b', w1⟩, hb, h⟩ := Option.bind_eq_some_iff.mp h
    cases h
    have hid := (BlockFileWrite.continues_poll hb).id
    exact congrArg (fun x => [x]) (congrArg₂ Prod.mk hid (BlockFileWrite.place_poll hfs hb))
  · obtain ⟨⟨ready, bs', w1⟩, hb, h⟩ := Option.bind_eq_some_iff.mp h
    cases h
    show (List.map _ _).map _ = (List.map _ _).map _
    rw [List.map_map, List.map_map]
    exact held_pollWrites hfs hb

/-- a read changes nothing on the disk -/
theorem store_read (hfs : fs.Faithful v) {r : BlockRead File} (h : (read r).poll fs w = some (p, job', w'))
    (q : Place) : v.store q w' = v.store q w := by
  cases r with
  | single m b =>
    cases h
    exact BlockFileRead.store_poll hfs rfl q
  | overlap t m bs =>
    cases h
    exact store_pollReads hfs bs w q

/-- a write changes its files only -/
theorem store_poll (hfs : fs.Faithful v) (h : job.poll fs w = some (p, job', w')) {q : Place}
    (hq : ∀ f ∈ job.files, v.place f.inner ≠ q) : v.store q w' = v.store q w := by
  match job with
  | .read r => exact store_read hfs h q
  | .write (.single m b) =>
    obtain ⟨⟨p1, b', w1⟩, hb, h⟩ := Option.bind_eq_some_iff.mp h
    cases h
    exact BlockFileWrite.store_poll hfs hb (hq b.file List.mem_cons_self)
  | .write (.overlap t m bs) =>
    obtain ⟨⟨ready, bs', w1⟩, hb, h⟩ := Option.bind_eq_some_iff.mp h
    cases h
    exact store_pollWrites hfs hb fun b hb => hq b.file (List.mem_map_of_mem hb)

end BlockJob

end

end Btt
