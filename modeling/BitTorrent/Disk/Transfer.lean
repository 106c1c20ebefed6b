import BitTorrent.Disk.Job
import BitTorrent.Lib.Overwrite

/-!
# Moving the bytes of a window

A part of a job is polled until it has moved the bytes of its window.  Here the files of the file system
have a content and a position (`FileView`), and its answers are those of a file that is read and written at
the position, which then advances (`Positioned`); any call may be pending, and any read or write short.

A part polled in the state `Process` goes on where the file stands.  One polled in the state `Seek` goes
back to the start of the window, and it stays in that state if the write or read behind the seek was short:
from then on it is behind by the bytes it has moved already.

* `BlockFileWrite.finished_write`   a write without a short answer behind a seek puts every byte in its
                                    place, one with such an answer never writes the last byte;
* `BlockFileRead.finished_read`     a read without a short answer behind a seek returns the window, one with
                                    such an answer ends with the copy of an earlier byte.
-/

namespace Btt
open Overwrite

/-! ## polling again and again -/

section
variable {σ World Err : Type} (poll : σ → World → Option (Poll (Except Err Unit) × σ × World))

/-- poll as long as the answer is `Pending`, at most `n` times -/
def repeatPoll : Nat → σ → World → Option (Poll (Except Err Unit) × σ × World)
  | 0, s, w => some (.pending, s, w)
  | n + 1, s, w =>
    match poll s w with
    | some (.pending, s, w) => repeatPoll n s w
    | r => r

/-- `P` holds before each of the polls -/
def EveryPoll (P : σ → World → Prop) : Nat → σ → World → Prop
  | 0, _, _ => True
  | n + 1, s, w => P s w ∧ ∀ s' w', poll s w = some (.pending, s', w') → EveryPoll P n s' w'

variable {poll} {I P J Q R : σ → World → Prop}

theorem pending_ne_error (e : Err) : (.pending : Poll (Except Err Unit)) ≠ .ready (.error e) := by
  intro h
  cases h

theorem ok_ne_error (e : Err) : (.ready (.ok ()) : Poll (Except Err Unit)) ≠ .ready (.error e) := by
  intro h
  cases h

theorem repeatPoll_succ {n : Nat} {s s' : σ} {w w' : World} {r : Poll (Except Err Unit)}
    (h : repeatPoll poll (n + 1) s w = some (r, s', w')) :
    (∃ s1 w1, poll s w = some (.pending, s1, w1) ∧ repeatPoll poll n s1 w1 = some (r, s', w')) ∨
      poll s w = some (r, s', w') := by
  rw [repeatPoll] at h
  split at h
  · exact Or.inl ⟨_, _, by assumption, h⟩
  · exact Or.inr h

/-- what every pending poll keeps leads to what a ready one makes of it -/
theorem repeatPoll_ready (hstep : ∀ s w s' w', J s w → poll s w = some (.pending, s', w') → J s' w')
    (hready : ∀ s w s' w', J s w → poll s w = some (.ready (.ok ()), s', w') → R s' w')
    {n : Nat} {s s' : σ} {w w' : World} (hJ : J s w)
    (h : repeatPoll poll n s w = some (.ready (.ok ()), s', w')) : R s' w' := by
  induction n generalizing s w with
  | zero => cases h
  | succ n ih =>
    rcases repeatPoll_succ h with ⟨s1, w1, hpoll, hrest⟩ | hpoll
    · exact ih (hstep s w s1 w1 hJ hpoll) hrest
    · exact hready s w s' w' hJ hpoll

/-- a run that keeps `I` by polls with `P` and falls into `J` by the first one without -/
theorem repeatPoll_falls
    (hstep : ∀ s w s' w', I s w → P s w → poll s w = some (.pending, s', w') → I s' w')
    (hready : ∀ s w s' w', I s w → P s w → poll s w = some (.ready (.ok ()), s', w') → Q s' w')
    (hfall : ∀ s w r s' w', I s w → ¬ P s w → poll s w = some (r, s', w') → r = .pending ∧ J s' w')
    (hlag : ∀ s w s' w', J s w → poll s w = some (.pending, s', w') → J s' w')
    (hlate : ∀ s w s' w', J s w → poll s w = some (.ready (.ok ()), s', w') → R s' w')
    {n : Nat} {s s' : σ} {w w' : World} (hI : I s w)
    (h : repeatPoll poll n s w = some (.ready (.ok ()), s', w')) :
    (EveryPoll poll P n s w → Q s' w') ∧ (¬ EveryPoll poll P n s w → R s' w') := by
  induction n generalizing s w with
  | zero => cases h
  | succ n ih =>
    by_cases hP : P s w
    · rcases repeatPoll_succ h with ⟨s1, w1, hpoll, hrest⟩ | hpoll
      · obtain ⟨hgood, hbad⟩ := ih (hstep s w s1 w1 hI hP hpoll) hrest
        refine ⟨fun hall => hgood (hall.2 s1 w1 hpoll), fun hnot => hbad fun hall => hnot ⟨hP, ?_⟩⟩
        intro s2 w2 h2
        rw [hpoll] at h2
        cases h2
        exact hall
      · refine ⟨fun _ => hready s w s' w' hI hP hpoll, fun hnot => absurd ⟨hP, ?_⟩ hnot⟩
        intro s2 w2 h2
        rw [hpoll] at h2
        cases h2
    · refine ⟨fun hall => absurd hall.1 hP, fun _ => ?_⟩
      rcases repeatPoll_succ h with ⟨s1, w1, hpoll, hrest⟩ | hpoll
      · exact repeatPoll_ready hlag hlate (hfall s w _ s1 w1 hI hP hpoll).2 hrest
      · cases (hfall s w _ s' w' hI hP hpoll).1

end

/-! ## files with a position -/

section
variable {File World Err : Type}

/-- what an open file holds, and where it stands -/
structure FileView (File World : Type) where
  content : File → World → List UInt8
  position : File → World → Nat

/-- the answers of a file system whose files are read and written at their position.  A seek goes where it
was asked to; a write takes some of the bytes it was offered, and a read gives some bytes for which there is
room, at least one if there is one. -/
structure FileSystem.Positioned (fs : FileSystem File World Err) (v : FileView File World) : Prop where
  seek_pending : ∀ {f o w f' w'}, fs.pollSeek f o w = (.pending, f', w') → v.content f' w' = v.content f w
  seek_ready : ∀ {f o w r f' w'}, fs.pollSeek f o w = (.ready r, f', w') →
    (∃ pos, r = .ok pos) ∧ v.content f' w' = v.content f w ∧ v.position f' w' = o
  write_pending : ∀ {f bytes w f' w'}, fs.pollWriteBlock f bytes w = (.pending, f', w') →
    v.content f' w' = v.content f w ∧ v.position f' w' = v.position f w
  write_ok : ∀ {f bytes w n f' w'}, fs.pollWriteBlock f bytes w = (.ready (.ok n), f', w') →
    n ≤ bytes.length ∧ (bytes ≠ [] → 1 ≤ n) ∧ v.position f' w' = v.position f w + n ∧
    v.content f' w' = overwrite 0 (v.content f w) (v.position f w) (bytes.take n)
  read_pending : ∀ {f room w f' w'}, fs.pollReadBlock f room w = (.pending, f', w') →
    v.content f' w' = v.content f w ∧ v.position f' w' = v.position f w
  read_ok : ∀ {f room w bytes f' w'}, fs.pollReadBlock f room w = (.ready (.ok bytes), f', w') →
    bytes.length ≤ room ∧ (0 < room → v.position f w < (v.content f w).length → bytes ≠ []) ∧
    bytes = ((v.content f w).drop (v.position f w)).take bytes.length ∧
    v.position f' w' = v.position f w + bytes.length ∧ v.content f' w' = v.content f w

/-! ## writing -/

namespace BlockFileWrite
variable {fs : FileSystem File World Err} {v : FileView File World} {b b' : BlockFileWrite File} {w w' : World}
  {p : Poll (Except Err Unit)}

/-- the bytes of the window still to be written -/
def offered (b : BlockFileWrite File) : List UInt8 := (b.block.take b.fileWindow.length).drop b.written

theorem length_offered (h : b.fileWindow.length ≤ b.block.length) :
    b.offered.length = b.fileWindow.length - b.written := by
  rw [offered, List.length_drop, List.length_take, Nat.min_eq_left h]

/-- what a write that does not fail can do -/
theorem write_cases (h : b.write fs w = some (p, b', w')) (hp : ∀ e, p ≠ .ready (.error e)) :
    (∃ n, fs.pollWriteBlock b.file.inner b.offered w = (.ready (.ok n), b'.file.inner, w') ∧
      b'.written = b.written + n ∧
      (b.written + n < b.fileWindow.length ∧ p = .pending ∧ b'.state = b.state ∨
        b.fileWindow.length ≤ b.written + n ∧ p = .ready (.ok ()) ∧ b'.state = .ready)) ∨
    fs.pollWriteBlock b.file.inner b.offered w = (.pending, b'.file.inner, w') ∧
      b'.written = b.written ∧ p = .pending ∧ b'.state = .process := by
  unfold write at h
  split at h
  · split at h
    · rename_i n inner w1 hwrite
      left
      simp only at h
      split at h
      · cases h
        exact ⟨n, hwrite, rfl, Or.inl ⟨by assumption, rfl, rfl⟩⟩
      · cases h
        exact ⟨n, hwrite, rfl, Or.inr ⟨Nat.not_lt.mp (by assumption), rfl, rfl⟩⟩
    · cases h
      exact absurd rfl (hp _)
    · rename_i inner w1 hwrite
      cases h
      exact Or.inr ⟨hwrite, rfl, rfl, rfl⟩
  · cases h

theorem state_of_write (h : b.write fs w = some (.pending, b', w')) : b'.state = b.state ∨ b'.state = .process := by
  rcases write_cases h pending_ne_error with ⟨n, -, -, ⟨-, -, hsame⟩ | ⟨-, hready, -⟩⟩ | ⟨-, -, -, hprocess⟩
  · exact Or.inl hsame
  · cases hready
  · exact Or.inr hprocess

theorem full_of_write (h : b.write fs w = some (.ready (.ok ()), b', w')) : b.fileWindow.length ≤ b'.written := by
  rcases write_cases h ok_ne_error with ⟨n, -, hwritten, ⟨-, hpend, -⟩ | ⟨hfull, -, -⟩⟩ | ⟨-, -, hpend, -⟩
  · cases hpend
  · rw [hwritten]
    exact hfull
  · cases hpend

/-- what a poll behind a pending one can do -/
theorem poll_cases (h : b.poll fs w = some (p, b', w')) (hp : ∀ e, p ≠ .ready (.error e)) :
    b.state = .ready ∧ p = .ready (.ok ()) ∨
    b.state = .process ∧ b.write fs w = some (p, b', w') ∨
    b.state = .seek ∧
      ((∃ inner, fs.pollSeek b.file.inner b.fileWindow.offset w = (.pending, inner, w') ∧ p = .pending ∧
          b' = { b with file := { b.file with inner := inner } }) ∨
        ∃ pos inner w1, fs.pollSeek b.file.inner b.fileWindow.offset w = (.ready (.ok pos), inner, w1) ∧
          { b with file := { b.file with inner := inner } }.write fs w1 = some (p, b', w')) := by
  unfold poll at h
  split at h
  · rename_i hstate
    cases h
    exact Or.inl ⟨hstate, rfl⟩
  · rename_i hstate
    exact Or.inr (Or.inl ⟨hstate, h⟩)
  · rename_i hstate
    refine Or.inr (Or.inr ⟨hstate, ?_⟩)
    split at h
    · rename_i pos inner w1 hseek
      exact Or.inr ⟨pos, inner, w1, hseek, h⟩
    · cases h
      exact absurd rfl (hp _)
    · rename_i inner w1 hseek
      cases h
      exact Or.inl ⟨inner, hseek, rfl, rfl⟩

theorem Continues.trans {a : BlockFileWrite File} (h : a.Continues b) (h' : b.Continues b') : a.Continues b' :=
  ⟨h'.id.trans h.id, h'.block.trans h.block, h'.fileWindow.trans h.fileWindow⟩

/-- the bytes written so far are in their places in the file that held `c`, and the file stands behind them -/
structure InPlace (v : FileView File World) (c : List UInt8) (b : BlockFileWrite File) (w : World) : Prop where
  fits : b.fileWindow.length ≤ b.block.length
  written : b.written ≤ b.fileWindow.length
  content : v.content b.file.inner w = overwrite 0 c b.fileWindow.offset (b.block.take b.written)
  position : v.position b.file.inner w = b.fileWindow.offset + b.written

theorem take_offered {n : Nat} (hn : b.written + n ≤ b.fileWindow.length) :
    b.block.take b.written ++ b.offered.take n = b.block.take (b.written + n) := by
  rw [offered, List.drop_take, List.take_take, Nat.min_eq_left (by omega), List.take_add]

theorem InPlace.write {c : List UInt8} (hfs : fs.Positioned v) (hb : b.InPlace v c w)
    (h : b.write fs w = some (p, b', w')) (hp : ∀ e, p ≠ .ready (.error e)) : b'.InPlace v c w' := by
  have hc := continues_write h
  have hlen : b.offered.length = b.fileWindow.length - b.written := length_offered hb.fits
  have hbound := hb.written
  rcases write_cases h hp with ⟨n, hwrite, hwritten, -⟩ | ⟨hwrite, hwritten, -, -⟩
  · obtain ⟨hn, -, hpos, hcontent⟩ := hfs.write_ok hwrite
    have hle : b.written + n ≤ b.fileWindow.length := by omega
    have hmoved : (b.block.take b.written).length = b.written := by
      rw [List.length_take]
      exact Nat.min_eq_left (hb.written.trans hb.fits)
    refine ⟨?_, ?_, ?_, ?_⟩
    · rw [hc.block, hc.fileWindow]
      exact hb.fits
    · rw [hwritten, hc.fileWindow]
      exact hle
    · -- the bytes accepted now lie right behind the ones accepted before
      rw [hcontent, hb.content, hb.position, hc.block, hc.fileWindow, hwritten, ← take_offered hle,
        ← overwrite_append, hmoved]
    · rw [hpos, hb.position, hc.fileWindow, hwritten, Nat.add_assoc]
  · obtain ⟨hcontent, hpos⟩ := hfs.write_pending hwrite
    refine ⟨?_, ?_, ?_, ?_⟩
    · rw [hc.block, hc.fileWindow]
      exact hb.fits
    · rw [hwritten, hc.fileWindow]
      exact hb.written
    · rw [hcontent, hb.content, hc.block, hc.fileWindow, hwritten]
    · rw [hpos, hb.position, hc.fileWindow, hwritten]

/-- some bytes are written and the last byte of the window is still the one of the file that held `old` -/
structure Behind (v : FileView File World) (old : List UInt8) (b : BlockFileWrite File) (w : World) : Prop where
  fits : b.fileWindow.length ≤ b.block.length
  moved : 1 ≤ b.written
  written : b.written ≤ b.fileWindow.length
  last : (v.content b.file.inner w)[b.fileWindow.offset + b.fileWindow.length - 1]?
    = old[b.fileWindow.offset + b.fileWindow.length - 1]?

theorem Behind.write {c : List UInt8} (hfs : fs.Positioned v) (hb : b.Behind v c w)
    (hat : v.position b.file.inner w + 1 ≤ b.fileWindow.offset + b.written)
    (h : b.write fs w = some (p, b', w')) (hp : ∀ e, p ≠ .ready (.error e)) :
    b'.Behind v c w' ∧ v.position b'.file.inner w' + 1 ≤ b'.fileWindow.offset + b'.written := by
  have hc := continues_write h
  have hlen : b.offered.length = b.fileWindow.length - b.written := length_offered hb.fits
  have hbound := hb.written
  have hmoved := hb.moved
  rcases write_cases h hp with ⟨n, hwrite, hwritten, -⟩ | ⟨hwrite, hwritten, -, -⟩
  · obtain ⟨hn, -, hpos, hcontent⟩ := hfs.write_ok hwrite
    refine ⟨⟨?_, by omega, ?_, ?_⟩, ?_⟩
    · rw [hc.block, hc.fileWindow]
      exact hb.fits
    · rw [hwritten, hc.fileWindow]
      omega
    · -- the file is written up to a place before the last byte
      have hshort : v.position b.file.inner w + (b.offered.take n).length
          ≤ b.fileWindow.offset + b.fileWindow.length - 1 := by
        rw [List.length_take]
        omega
      rw [hcontent, hc.fileWindow, getElem?_overwrite_ge _ hshort]
      exact hb.last
    · rw [hpos, hc.fileWindow, hwritten]
      omega
  · obtain ⟨hcontent, hpos⟩ := hfs.write_pending hwrite
    refine ⟨⟨?_, by omega, ?_, ?_⟩, ?_⟩
    · rw [hc.block, hc.fileWindow]
      exact hb.fits
    · rw [hwritten, hc.fileWindow]
      exact hb.written
    · rw [hcontent, hc.fileWindow]
      exact hb.last
    · rw [hpos, hc.fileWindow, hwritten]
      exact hat

/-- the poll seeks, and the write behind the seek takes less than what is left -/
def ShortAfterSeek (fs : FileSystem File World Err) (b : BlockFileWrite File) (w : World) : Prop :=
  b.state = .seek ∧ ∃ pos inner w1 n inner' w2,
    fs.pollSeek b.file.inner b.fileWindow.offset w = (.ready (.ok pos), inner, w1) ∧
    fs.pollWriteBlock inner b.offered w1 = (.ready (.ok n), inner', w2) ∧ b.written + n < b.fileWindow.length

/-- a write between two polls, as long as no answer was short behind a seek -/
def Running (v : FileView File World) (c : List UInt8) (b a : BlockFileWrite File) (w : World) : Prop :=
  a.Continues b ∧ b.fileWindow.length ≤ b.block.length ∧
    (b.state = .seek ∧ b.written = 0 ∧ v.content b.file.inner w = c ∨ b.state = .process ∧ b.InPlace v c w)

/-- and from then on -/
def Lagging (v : FileView File World) (c : List UInt8) (b a : BlockFileWrite File) (w : World) : Prop :=
  a.Continues b ∧ b.Behind v c w ∧
    (b.state = .seek ∨
      b.state = .process ∧ v.position b.file.inner w + 1 ≤ b.fileWindow.offset + b.written)

/-- a seek that is done puts the bytes written so far, none, in their places -/
theorem inPlace_seek {c : List UInt8} {o : Nat} {inner : File} {r : Except Err Nat} (hfs : fs.Positioned v)
    (hfits : b.fileWindow.length ≤ b.block.length) (hzero : b.written = 0)
    (hcontent : v.content b.file.inner w = c) (ho : o = b.fileWindow.offset)
    (hseek : fs.pollSeek b.file.inner o w = (.ready r, inner, w')) :
    InPlace v c { b with file := { b.file with inner := inner } } w' := by
  obtain ⟨-, hsame, hpos⟩ := hfs.seek_ready hseek
  refine ⟨hfits, ?_, ?_, ?_⟩
  · show b.written ≤ _
    rw [hzero]
    exact Nat.zero_le _
  · show v.content inner w' = overwrite 0 c b.fileWindow.offset (b.block.take b.written)
    rw [hsame, hcontent, hzero, List.take_zero, overwrite_nil]
  · show v.position inner w' = b.fileWindow.offset + b.written
    rw [hpos, ho, hzero, Nat.add_zero]

theorem Running.poll {a : BlockFileWrite File} {c : List UInt8} (hfs : fs.Positioned v)
    (hr : b.Running v c a w) (hshort : ¬ b.ShortAfterSeek fs w) (h : b.poll fs w = some (p, b', w'))
    (hp : ∀ e, p ≠ .ready (.error e)) :
    (p = .pending → b'.Running v c a w') ∧
      (p = .ready (.ok ()) → a.Continues b' ∧ b'.InPlace v c w' ∧ b'.written = b'.fileWindow.length) := by
  obtain ⟨hcont, hfits, hstate⟩ := hr
  have hcont' : a.Continues b' := hcont.trans (continues_poll h)
  -- what a write in place makes of the part, unless it is short behind a seek
  have hwrite : ∀ {d : BlockFileWrite File} {w1 : World}, d.InPlace v c w1 → d.write fs w1 = some (p, b', w') →
      (p = .pending → b'.state = .process) →
      (p = .pending → b'.Running v c a w') ∧
        (p = .ready (.ok ()) → a.Continues b' ∧ b'.InPlace v c w' ∧ b'.written = b'.fileWindow.length) := by
    intro d w1 hd hdw hprocess
    have hin := hd.write hfs hdw hp
    refine ⟨fun hpend => ⟨hcont', hin.fits, Or.inr ⟨hprocess hpend, hin⟩⟩, fun hready => ⟨hcont', hin, ?_⟩⟩
    rw [hready] at hdw
    have hle := hin.written
    have hfull := full_of_write hdw
    rw [(continues_write hdw).fileWindow] at hle ⊢
    omega
  rcases poll_cases h hp with ⟨hst, -⟩ | ⟨hst, hw⟩ | ⟨hst, ⟨inner, hseek, rfl, rfl⟩ | ⟨pos, inner, w1, hseek, hw⟩⟩
  · rcases hstate with ⟨hst', -⟩ | ⟨hst', -⟩ <;> rw [hst] at hst' <;> cases hst'
  · rcases hstate with ⟨hst', -⟩ | ⟨-, hin⟩
    · rw [hst] at hst'
      cases hst'
    · refine hwrite hin hw fun hpend => ?_
      rw [hpend] at hw
      rcases state_of_write hw with hsame | hprocess
      · exact hsame.trans hst
      · exact hprocess
  · rcases hstate with ⟨-, hzero, hcontent⟩ | ⟨hst', -⟩
    · refine ⟨fun _ => ⟨hcont', hfits, Or.inl ⟨hst, hzero, ?_⟩⟩, fun hready => by cases hready⟩
      rw [← hcontent]
      exact hfs.seek_pending hseek
    · rw [hst] at hst'
      cases hst'
  · rcases hstate with ⟨-, hzero, hcontent⟩ | ⟨hst', -⟩
    · refine hwrite (inPlace_seek hfs hfits hzero hcontent rfl hseek) hw fun hpend => ?_
      rcases write_cases hw hp with ⟨n, hans, -, ⟨hlt, -, -⟩ | ⟨-, hready, -⟩⟩ | ⟨-, -, -, hprocess⟩
      · exact absurd ⟨hst, pos, inner, w1, n, _, _, hseek, hans, hlt⟩ hshort
      · rw [hready] at hpend
        cases hpend
      · exact hprocess
    · rw [hst] at hst'
      cases hst'

/-- the poll with a short write behind a seek -/
theorem poll_short {pos n : Nat} {inner inner' : File} {w1 w2 : World} (hstate : b.state = .seek)
    (hfits : b.fileWindow.length ≤ b.block.length)
    (hseek : fs.pollSeek b.file.inner b.fileWindow.offset w = (.ready (.ok pos), inner, w1))
    (hwrite : fs.pollWriteBlock inner b.offered w1 = (.ready (.ok n), inner', w2))
    (hlt : b.written + n < b.fileWindow.length) :
    b.poll fs w
      = some (.pending, { b with file := { b.file with inner := inner' }, written := b.written + n }, w2) := by
  unfold offered at hwrite
  rw [poll, hstate]
  simp only [hseek, write]
  rw [if_pos ⟨by omega, hfits⟩, hwrite]
  simp only
  rw [if_pos hlt]

/-- the first short write behind a seek leaves the part behind -/
theorem Running.falls {a : BlockFileWrite File} {c : List UInt8} (hfs : fs.Positioned v)
    (hr : b.Running v c a w) (hshort : b.ShortAfterSeek fs w) (h : b.poll fs w = some (p, b', w')) :
    p = .pending ∧ b'.Lagging v c a w' := by
  obtain ⟨hcont, hfits, hstates⟩ := hr
  obtain ⟨hstate, pos, inner, w1, n, inner', w2, hseek, hwrite, hlt⟩ := hshort
  have hcont' : a.Continues b' := hcont.trans (continues_poll h)
  rw [poll_short hstate hfits hseek hwrite hlt] at h
  cases h
  rcases hstates with ⟨-, hzero, hcontent⟩ | ⟨hst, -⟩
  · have hin := inPlace_seek hfs hfits hzero hcontent rfl hseek
    obtain ⟨hn, hpos, -, hnew⟩ := hfs.write_ok hwrite
    have hlen := length_offered hfits
    have hone : 1 ≤ n := by
      apply hpos
      intro hnil
      rw [hnil, List.length_nil] at hlen
      omega
    refine ⟨rfl, hcont', ⟨hfits, ?_, ?_, ?_⟩, Or.inl hstate⟩
    · show 1 ≤ b.written + n
      omega
    · show b.written + n ≤ b.fileWindow.length
      omega
    · have hold : v.content inner w1 = c := (hfs.seek_ready hseek).2.1.trans hcontent
      have hshort : v.position inner w1 + (b.offered.take n).length
          ≤ b.fileWindow.offset + b.fileWindow.length - 1 := by
        rw [(hfs.seek_ready hseek).2.2, List.length_take]
        omega
      show (v.content inner' w')[b.fileWindow.offset + b.fileWindow.length - 1]? = _
      rw [hnew, getElem?_overwrite_ge _ hshort, hold]
  · rw [hstate] at hst
    cases hst

theorem Lagging.poll {a : BlockFileWrite File} {c : List UInt8} (hfs : fs.Positioned v)
    (hl : b.Lagging v c a w) (h : b.poll fs w = some (p, b', w')) (hp : ∀ e, p ≠ .ready (.error e)) :
    (p = .pending → b'.Lagging v c a w') ∧ (p = .ready (.ok ()) → a.Continues b' ∧ b'.Behind v c w') := by
  obtain ⟨hcont, hb, hstate⟩ := hl
  have hcont' : a.Continues b' := hcont.trans (continues_poll h)
  have hwrite : ∀ {d : BlockFileWrite File} {w1 : World}, d.Behind v c w1 →
      v.position d.file.inner w1 + 1 ≤ d.fileWindow.offset + d.written → (d.state = .seek ∨ d.state = .process) →
      d.write fs w1 = some (p, b', w') →
      (p = .pending → b'.Lagging v c a w') ∧ (p = .ready (.ok ()) → a.Continues b' ∧ b'.Behind v c w') := by
    intro d w1 hd hat hdst hdw
    obtain ⟨hd', hat'⟩ := hd.write hfs hat hdw hp
    refine ⟨fun hpend => ⟨hcont', hd', ?_⟩, fun _ => ⟨hcont', hd'⟩⟩
    rw [hpend] at hdw
    rcases state_of_write hdw with hsame | hprocess
    · rcases hdst with hdst | hdst
      · exact Or.inl (hsame.trans hdst)
      · exact Or.inr ⟨hsame.trans hdst, hat'⟩
    · exact Or.inr ⟨hprocess, hat'⟩
  rcases poll_cases h hp with ⟨hst, -⟩ | ⟨hst, hw⟩ | ⟨hst, ⟨inner, hseek, rfl, rfl⟩ | ⟨pos, inner, w1, hseek, hw⟩⟩
  · rcases hstate with hst' | ⟨hst', -⟩ <;> rw [hst] at hst' <;> cases hst'
  · rcases hstate with hst' | ⟨-, hat⟩
    · rw [hst] at hst'
      cases hst'
    · exact hwrite hb hat (Or.inr hst) hw
  · refine ⟨fun _ => ⟨hcont', ⟨hb.fits, hb.moved, hb.written, ?_⟩, Or.inl hst⟩, fun hready => by cases hready⟩
    show (v.content inner w')[b.fileWindow.offset + b.fileWindow.length - 1]? = _
    rw [hfs.seek_pending hseek]
    exact hb.last
  · -- the seek goes back to the start of the window, behind which some bytes were written already
    obtain ⟨-, hsame, hpos⟩ := hfs.seek_ready hseek
    have hmoved := hb.moved
    refine hwrite (d := { b with file := { b.file with inner := inner } })
      ⟨hb.fits, hb.moved, hb.written, ?_⟩ ?_ (Or.inl hst) hw
    · show (v.content inner w1)[b.fileWindow.offset + b.fileWindow.length - 1]? = _
      rw [hsame]
      exact hb.last
    · show v.position inner w1 + 1 ≤ b.fileWindow.offset + b.written
      omega

/-- the file that held `old` now holds the block in the window and is unchanged outside of it -/
structure WindowWritten (old new block : List UInt8) (window : FileWindow) : Prop where
  inside : (new.drop window.offset).take window.length = block.take window.length
  before : ∀ i, i < window.offset → i < old.length → new[i]? = old[i]?
  behind : ∀ i, window.offset + window.length ≤ i → new[i]? = old[i]?

/-- **A finished write.**  If no write was short behind a seek, every byte of the window is in its place and
nothing else has changed; otherwise the last byte of the window was never written. -/
theorem finished_write (fs : FileSystem File World Err) (v : FileView File World) (hfs : fs.Positioned v)
    (file : BlockFile File) (block : List UInt8) (window : FileWindow) (hlen : window.length ≤ block.length)
    (w w' : World) (n : Nat) (b' : BlockFileWrite File)
    (h : repeatPoll (poll fs) n (new file block window) w = some (.ready (.ok ()), b', w')) :
    (EveryPoll (poll fs) (fun b w => ¬ b.ShortAfterSeek fs w) n (new file block window) w →
      WindowWritten (v.content file.inner w) (v.content b'.file.inner w') block window) ∧
    (¬ EveryPoll (poll fs) (fun b w => ¬ b.ShortAfterSeek fs w) n (new file block window) w →
      (v.content b'.file.inner w')[window.offset + window.length - 1]?
        = (v.content file.inner w)[window.offset + window.length - 1]?) := by
  have hstart : (new file block window).Running v (v.content file.inner w) (new file block window) w :=
    ⟨⟨rfl, rfl, rfl⟩, hlen, Or.inl ⟨rfl, rfl, rfl⟩⟩
  obtain ⟨hgood, hbad⟩ := repeatPoll_falls
    (I := fun s => s.Running v (v.content file.inner w) (new file block window))
    (J := fun s => s.Lagging v (v.content file.inner w) (new file block window))
    (fun s w s' w' hI hP hpoll => (hI.poll hfs hP hpoll pending_ne_error).1 rfl)
    (fun s w s' w' hI hP hpoll => (hI.poll hfs hP hpoll ok_ne_error).2 rfl)
    (fun s w r s' w' hI hP hpoll => hI.falls hfs (not_not.mp hP) hpoll)
    (fun s w s' w' hJ hpoll => (hJ.poll hfs hpoll pending_ne_error).1 rfl)
    (fun s w s' w' hJ hpoll => (hJ.poll hfs hpoll ok_ne_error).2 rfl) hstart h
  constructor
  · intro hall
    obtain ⟨hcont, hin, hfull⟩ := hgood hall
    have hcontent : v.content b'.file.inner w'
        = overwrite 0 (v.content file.inner w) window.offset (block.take window.length) := by
      rw [hin.content, hfull, hcont.fileWindow, hcont.block]
      rfl
    have htake : (block.take window.length).length = window.length := by
      rw [List.length_take]
      exact Nat.min_eq_left hlen
    rw [hcontent]
    refine ⟨?_, ?_, ?_⟩
    · have hback : ((overwrite 0 (v.content file.inner w) window.offset (block.take window.length)).drop
          window.offset).take (block.take window.length).length = block.take window.length := take_drop_overwrite _
      rwa [htake] at hback
    · intro i hi hl
      exact getElem?_overwrite_lt _ hi hl
    · intro i hi
      exact getElem?_overwrite_ge _ (by rw [htake]; exact hi)
  · intro hnot
    obtain ⟨hcont, hb⟩ := hbad hnot
    have hlast := hb.last
    rw [hcont.fileWindow] at hlast
    exact hlast

end BlockFileWrite

/-! ## reading -/

namespace BlockFileRead
variable {fs : FileSystem File World Err} {v : FileView File World} {b : BlockFileRead File} {w : World}

theorem Continues.trans {a b' : BlockFileRead File} (h : a.Continues b) (h' : b.Continues b') : a.Continues b' :=
  ⟨h'.id.trans h.id, h'.fileWindow.trans h.fileWindow⟩

variable {b' : BlockFileRead File} {w' : World} {p : Poll (Except Err Unit)}

/-- the room left in the buffer -/
def room (b : BlockFileRead File) : Nat := b.fileWindow.length - b.block.length

/-- what a read that does not fail can do -/
theorem fill_cases (h : b.fill fs w = (p, b', w')) (hp : ∀ e, p ≠ .ready (.error e)) :
    (∃ bytes, fs.pollReadBlock b.file.inner b.room w = (.ready (.ok bytes), b'.file.inner, w') ∧
      b'.block = b.block ++ bytes ∧ b'.read = b.read + bytes.length ∧
      (b.read + bytes.length < b.fileWindow.length ∧ p = .pending ∧ b'.state = b.state ∨
        b.fileWindow.length ≤ b.read + bytes.length ∧ p = .ready (.ok ()) ∧ b'.state = .ready)) ∨
    fs.pollReadBlock b.file.inner b.room w = (.pending, b'.file.inner, w') ∧
      b'.block = b.block ∧ b'.read = b.read ∧ p = .pending ∧ b'.state = .process := by
  unfold fill at h
  split at h
  · rename_i bytes inner w1 hread
    left
    simp only at h
    split at h
    · cases h
      exact ⟨bytes, hread, rfl, rfl, Or.inl ⟨by assumption, rfl, rfl⟩⟩
    · cases h
      exact ⟨bytes, hread, rfl, rfl, Or.inr ⟨Nat.not_lt.mp (by assumption), rfl, rfl⟩⟩
  · cases h
    exact absurd rfl (hp _)
  · rename_i inner w1 hread
    cases h
    exact Or.inr ⟨hread, rfl, rfl, rfl, rfl⟩

theorem state_of_fill (h : b.fill fs w = (.pending, b', w')) : b'.state = b.state ∨ b'.state = .process := by
  rcases fill_cases h pending_ne_error with ⟨bytes, -, -, -, ⟨-, -, hsame⟩ | ⟨-, hready, -⟩⟩ | ⟨-, -, -, -, hprocess⟩
  · exact Or.inl hsame
  · cases hready
  · exact Or.inr hprocess

theorem full_of_fill (h : b.fill fs w = (.ready (.ok ()), b', w')) : b.fileWindow.length ≤ b'.read := by
  rcases fill_cases h ok_ne_error with ⟨bytes, -, -, hread, ⟨-, hpend, -⟩ | ⟨hfull, -, -⟩⟩ | ⟨-, -, -, hpend, -⟩
  · cases hpend
  · rw [hread]
    exact hfull
  · cases hpend

/-- what a poll behind a pending one can do -/
theorem poll_cases (h : b.poll fs w = (p, b', w')) :
    b.state = .ready ∧ p = .ready (.ok ()) ∨
    b.state = .process ∧ b.fill fs w = (p, b', w') ∨
    b.state = .seek ∧
      ((∃ inner, fs.pollSeek b.file.inner b.fileWindow.offset w = (.pending, inner, w') ∧ p = .pending ∧
          b' = { b with file := { b.file with inner := inner } }) ∨
        ∃ r inner w1, fs.pollSeek b.file.inner b.fileWindow.offset w = (.ready r, inner, w1) ∧
          { b with file := { b.file with inner := inner } }.fill fs w1 = (p, b', w')) := by
  unfold poll at h
  split at h
  · rename_i hstate
    cases h
    exact Or.inl ⟨hstate, rfl⟩
  · rename_i hstate
    exact Or.inr (Or.inl ⟨hstate, h⟩)
  · rename_i hstate
    refine Or.inr (Or.inr ⟨hstate, ?_⟩)
    split at h
    · rename_i r inner w1 hseek
      exact Or.inr ⟨r, inner, w1, hseek, h⟩
    · rename_i inner w1 hseek
      cases h
      exact Or.inl ⟨inner, hseek, rfl, rfl⟩

/-- the bytes read so far are the first ones of the window of a file that holds `c`, and the file stands
behind them -/
structure InPlace (v : FileView File World) (c : List UInt8) (b : BlockFileRead File) (w : World) : Prop where
  content : v.content b.file.inner w = c
  read : b.read = b.block.length
  bound : b.block.length ≤ b.fileWindow.length
  block : b.block = (c.drop b.fileWindow.offset).take b.block.length
  position : v.position b.file.inner w = b.fileWindow.offset + b.block.length

theorem InPlace.fill {c : List UInt8} (hfs : fs.Positioned v) (hb : b.InPlace v c w)
    (h : b.fill fs w = (p, b', w')) (hp : ∀ e, p ≠ .ready (.error e)) : b'.InPlace v c w' := by
  have hwindow : b'.fileWindow = b.fileWindow := by
    have hc := (continues_fill b w : b.Continues (b.fill fs w).2.1).fileWindow
    rwa [h] at hc
  have hbound := hb.bound
  rcases fill_cases h hp with ⟨bytes, hread, hblock, hcount, -⟩ | ⟨hread, hblock, hcount, -, -⟩
  · obtain ⟨hroom, -, hbytes, hpos, hcontent⟩ := hfs.read_ok hread
    unfold room at hroom
    have hlen : b'.block.length = b.block.length + bytes.length := by rw [hblock, List.length_append]
    refine ⟨hcontent.trans hb.content, ?_, ?_, ?_, ?_⟩
    · rw [hcount, hb.read, hlen]
    · rw [hwindow]
      omega
    · -- the bytes read now are the next ones of the window
      rw [hb.content, hb.position, ← List.drop_drop] at hbytes
      rw [hlen, hwindow, List.take_add, ← hb.block, ← hbytes, hblock]
    · rw [hpos, hb.position, hwindow, hlen, Nat.add_assoc]
  · obtain ⟨hcontent, hpos⟩ := hfs.read_pending hread
    refine ⟨hcontent.trans hb.content, ?_, ?_, ?_, ?_⟩
    · rw [hcount, hb.read, hblock]
    · rw [hwindow, hblock]
      exact hb.bound
    · rw [hwindow, hblock]
      exact hb.block
    · rw [hpos, hb.position, hwindow, hblock]

/-- some but not all bytes are read from a file that holds `c` -/
structure Behind (v : FileView File World) (c : List UInt8) (b : BlockFileRead File) (w : World) : Prop where
  content : v.content b.file.inner w = c
  read : b.read = b.block.length
  moved : 1 ≤ b.block.length
  bound : b.block.length < b.fileWindow.length

/-- the file stands in the window, before the place of the next byte of the buffer -/
def Trails (v : FileView File World) (b : BlockFileRead File) (w : World) : Prop :=
  b.fileWindow.offset ≤ v.position b.file.inner w ∧
    v.position b.file.inner w + 1 ≤ b.fileWindow.offset + b.block.length

/-- the last byte of the buffer is the copy of a byte before the last one of the window -/
def RepeatsByte (held : List UInt8) (b : BlockFileRead File) : Prop :=
  ∃ k, b.fileWindow.offset ≤ k ∧ k + 1 < b.fileWindow.offset + b.fileWindow.length ∧
    b.block[b.fileWindow.length - 1]? = held[k]?

theorem Behind.fill {c : List UInt8} (hfs : fs.Positioned v) (hb : b.Behind v c w) (hat : b.Trails v w)
    (h : b.fill fs w = (p, b', w')) (hp : ∀ e, p ≠ .ready (.error e)) :
    (p = .pending → b'.Behind v c w' ∧ b'.Trails v w') ∧ (p = .ready (.ok ()) → RepeatsByte c b') := by
  have hwindow : b'.fileWindow = b.fileWindow := by
    have hc := (continues_fill b w : b.Continues (b.fill fs w).2.1).fileWindow
    rwa [h] at hc
  have hbound := hb.bound
  have hcount := hb.read
  obtain ⟨hfrom, hto⟩ := hat
  rcases fill_cases h hp with ⟨bytes, hread, hblock, hcount', hends⟩ | ⟨hread, hblock, hcount', rfl, -⟩
  · obtain ⟨hroom, -, hbytes, hpos, hcontent⟩ := hfs.read_ok hread
    unfold room at hroom
    have hlen : b'.block.length = b.block.length + bytes.length := by rw [hblock, List.length_append]
    constructor
    · rintro rfl
      rcases hends with ⟨hlt, -, -⟩ | ⟨-, hready, -⟩
      · refine ⟨⟨hcontent.trans hb.content, ?_, ?_, ?_⟩, ?_, ?_⟩
        · rw [hcount', hcount, hlen]
        · have := hb.moved
          omega
        · rw [hwindow]
          omega
        · rw [hwindow, hpos]
          omega
        · rw [hwindow, hpos, hlen]
          omega
      · cases hready
    · rintro rfl
      rcases hends with ⟨-, hpend, -⟩ | ⟨hfull, -, -⟩
      · cases hpend
      · -- the last byte of the buffer is the last one of this read
        refine ⟨v.position b.file.inner w + (bytes.length - 1), ?_, ?_, ?_⟩
        · rw [hwindow]
          omega
        · rw [hwindow]
          omega
        · rw [hb.content] at hbytes
          have hlast : b.fileWindow.length - 1 - b.block.length = bytes.length - 1 := by omega
          rw [hwindow, hblock, List.getElem?_append_right (by omega), hlast, hbytes, List.getElem?_take, ← hbytes,
            if_pos (by omega), List.getElem?_drop]
  · obtain ⟨hcontent, hpos⟩ := hfs.read_pending hread
    refine ⟨fun _ => ⟨⟨hcontent.trans hb.content, ?_, ?_, ?_⟩, ?_, ?_⟩, fun hready => by cases hready⟩
    · rw [hcount', hcount, hblock]
    · rw [hblock]
      exact hb.moved
    · rw [hblock, hwindow]
      exact hb.bound
    · rw [hwindow, hpos]
      exact hfrom
    · rw [hwindow, hpos, hblock]
      exact hto

/-- the poll seeks, and the read behind the seek gives less than there is room for -/
def ShortAfterSeek (fs : FileSystem File World Err) (b : BlockFileRead File) (w : World) : Prop :=
  b.state = .seek ∧ ∃ r inner w1 bytes inner' w2,
    fs.pollSeek b.file.inner b.fileWindow.offset w = (.ready r, inner, w1) ∧
    fs.pollReadBlock inner b.room w1 = (.ready (.ok bytes), inner', w2) ∧
    b.read + bytes.length < b.fileWindow.length

/-- a read between two polls, as long as no answer was short behind a seek -/
def Running (v : FileView File World) (c : List UInt8) (b a : BlockFileRead File) (w : World) : Prop :=
  a.Continues b ∧
    (b.state = .seek ∧ b.read = 0 ∧ b.block = [] ∧ v.content b.file.inner w = c ∨
      b.state = .process ∧ b.InPlace v c w)

/-- and from then on -/
def Lagging (v : FileView File World) (c : List UInt8) (b a : BlockFileRead File) (w : World) : Prop :=
  a.Continues b ∧ b.Behind v c w ∧ (b.state = .seek ∨ b.state = .process ∧ b.Trails v w)

theorem inPlace_seek {c : List UInt8} {inner : File} {r : Except Err Nat} (hfs : fs.Positioned v)
    (hzero : b.read = 0) (hnil : b.block = []) (hcontent : v.content b.file.inner w = c)
    (hseek : fs.pollSeek b.file.inner b.fileWindow.offset w = (.ready r, inner, w')) :
    InPlace v c { b with file := { b.file with inner := inner } } w' := by
  obtain ⟨-, hsame, hpos⟩ := hfs.seek_ready hseek
  refine ⟨hsame.trans hcontent, ?_, ?_, ?_, ?_⟩
  · show b.read = b.block.length
    rw [hzero, hnil, List.length_nil]
  · show b.block.length ≤ b.fileWindow.length
    rw [hnil]
    exact Nat.zero_le _
  · show b.block = (c.drop b.fileWindow.offset).take b.block.length
    rw [hnil, List.length_nil, List.take_zero]
  · show v.position inner w' = b.fileWindow.offset + b.block.length
    rw [hpos, hnil, List.length_nil, Nat.add_zero]

theorem continues_of_poll (h : b.poll fs w = (p, b', w')) : b.Continues b' := by
  have hc := (continues_poll b w : b.Continues (b.poll fs w).2.1)
  rwa [h] at hc

theorem Running.poll {a : BlockFileRead File} {c : List UInt8} (hfs : fs.Positioned v)
    (hr : b.Running v c a w) (hshort : ¬ b.ShortAfterSeek fs w) (h : b.poll fs w = (p, b', w'))
    (hp : ∀ e, p ≠ .ready (.error e)) :
    (p = .pending → b'.Running v c a w') ∧
      (p = .ready (.ok ()) → a.Continues b' ∧ b'.InPlace v c w' ∧ b'.block.length = b'.fileWindow.length) := by
  obtain ⟨hcont, hstate⟩ := hr
  have hcont' : a.Continues b' := hcont.trans (continues_of_poll h)
  -- what a read in place makes of the part, unless it is short behind a seek
  have hfill : ∀ {d : BlockFileRead File} {w1 : World}, d.InPlace v c w1 → d.fill fs w1 = (p, b', w') →
      d.fileWindow = b'.fileWindow → (p = .pending → b'.state = .process) →
      (p = .pending → b'.Running v c a w') ∧
        (p = .ready (.ok ()) → a.Continues b' ∧ b'.InPlace v c w' ∧ b'.block.length = b'.fileWindow.length) := by
    intro d w1 hd hdf hwindow hprocess
    have hin := hd.fill hfs hdf hp
    refine ⟨fun hpend => ⟨hcont', Or.inr ⟨hprocess hpend, hin⟩⟩, fun hready => ⟨hcont', hin, ?_⟩⟩
    rw [hready] at hdf
    have hfull := full_of_fill hdf
    rw [hin.read, hwindow] at hfull
    exact Nat.le_antisymm hin.bound hfull
  have hwindow : b.fileWindow = b'.fileWindow := (continues_of_poll h).fileWindow.symm
  rcases poll_cases h with ⟨hst, -⟩ | ⟨hst, hf⟩ | ⟨hst, ⟨inner, hseek, rfl, rfl⟩ | ⟨r, inner, w1, hseek, hf⟩⟩
  · rcases hstate with ⟨hst', -⟩ | ⟨hst', -⟩ <;> rw [hst] at hst' <;> cases hst'
  · rcases hstate with ⟨hst', -⟩ | ⟨-, hin⟩
    · rw [hst] at hst'
      cases hst'
    · refine hfill hin hf hwindow fun hpend => ?_
      rw [hpend] at hf
      rcases state_of_fill hf with hsame | hprocess
      · exact hsame.trans hst
      · exact hprocess
  · rcases hstate with ⟨-, hzero, hnil, hcontent⟩ | ⟨hst', -⟩
    · refine ⟨fun _ => ⟨hcont', Or.inl ⟨hst, hzero, hnil, ?_⟩⟩, fun hready => by cases hready⟩
      rw [← hcontent]
      exact hfs.seek_pending hseek
    · rw [hst] at hst'
      cases hst'
  · rcases hstate with ⟨-, hzero, hnil, hcontent⟩ | ⟨hst', -⟩
    · refine hfill (inPlace_seek hfs hzero hnil hcontent hseek) hf hwindow fun hpend => ?_
      rcases fill_cases hf hp with ⟨bytes, hans, -, -, ⟨hlt, -, -⟩ | ⟨-, hready, -⟩⟩ | ⟨-, -, -, -, hprocess⟩
      · exact absurd ⟨hst, r, inner, w1, bytes, _, _, hseek, hans, hlt⟩ hshort
      · rw [hready] at hpend
        cases hpend
      · exact hprocess
    · rw [hst] at hst'
      cases hst'

/-- the poll with a short read behind a seek -/
theorem poll_short {r : Except Err Nat} {bytes : List UInt8} {inner inner' : File} {w1 w2 : World}
    (hstate : b.state = .seek)
    (hseek : fs.pollSeek b.file.inner b.fileWindow.offset w = (.ready r, inner, w1))
    (hread : fs.pollReadBlock inner b.room w1 = (.ready (.ok bytes), inner', w2))
    (hlt : b.read + bytes.length < b.fileWindow.length) :
    b.poll fs w = (.pending,
      { b with
        file := { b.file with inner := inner' }
        block := b.block ++ bytes
        read := b.read + bytes.length }, w2) := by
  unfold room at hread
  rw [poll, hstate]
  simp only [hseek, fill]
  rw [hread]
  simp only
  rw [if_pos hlt]

/-- the first short read behind a seek leaves the part behind -/
theorem Running.falls {a : BlockFileRead File} {c : List UInt8} (hfs : fs.Positioned v)
    (hlen : b.fileWindow.offset + b.fileWindow.length ≤ c.length) (hr : b.Running v c a w)
    (hshort : b.ShortAfterSeek fs w) (h : b.poll fs w = (p, b', w')) : p = .pending ∧ b'.Lagging v c a w' := by
  obtain ⟨hcont, hstates⟩ := hr
  obtain ⟨hstate, r, inner, w1, bytes, inner', w2, hseek, hread, hlt⟩ := hshort
  have hcont' : a.Continues b' := hcont.trans (continues_of_poll h)
  rw [poll_short hstate hseek hread hlt] at h
  cases h
  rcases hstates with ⟨-, hzero, hnil, hcontent⟩ | ⟨hst, -⟩
  · obtain ⟨-, hsame, hpos⟩ := hfs.seek_ready hseek
    obtain ⟨-, hsome, -, -, hcontent'⟩ := hfs.read_ok hread
    have hne : bytes ≠ [] := by
      apply hsome
      · rw [room, hnil, List.length_nil]
        omega
      · rw [hpos, hsame, hcontent]
        omega
    have hpos := List.length_pos_of_ne_nil hne
    refine ⟨rfl, hcont', ⟨?_, ?_, ?_, ?_⟩, Or.inl hstate⟩
    · exact hcontent'.trans (hsame.trans hcontent)
    · show b.read + bytes.length = (b.block ++ bytes).length
      rw [hzero, hnil, List.nil_append, Nat.zero_add]
    · show 1 ≤ (b.block ++ bytes).length
      rw [List.length_append]
      omega
    · show (b.block ++ bytes).length < b.fileWindow.length
      rw [hnil, List.nil_append]
      omega
  · rw [hstate] at hst
    cases hst

theorem Lagging.poll {a : BlockFileRead File} {c : List UInt8} (hfs : fs.Positioned v)
    (hl : b.Lagging v c a w) (h : b.poll fs w = (p, b', w')) (hp : ∀ e, p ≠ .ready (.error e)) :
    (p = .pending → b'.Lagging v c a w') ∧ (p = .ready (.ok ()) → a.Continues b' ∧ RepeatsByte c b') := by
  obtain ⟨hcont, hb, hstate⟩ := hl
  have hcont' : a.Continues b' := hcont.trans (continues_of_poll h)
  have hfill : ∀ {d : BlockFileRead File} {w1 : World}, d.Behind v c w1 → d.Trails v w1 →
      (d.state = .seek ∨ d.state = .process) → d.fill fs w1 = (p, b', w') →
      (p = .pending → b'.Lagging v c a w') ∧ (p = .ready (.ok ()) → a.Continues b' ∧ RepeatsByte c b') := by
    intro d w1 hd hat hdst hdf
    obtain ⟨hpending, hready⟩ := hd.fill hfs hat hdf hp
    refine ⟨fun hpend => ?_, fun hr => ⟨hcont', hready hr⟩⟩
    obtain ⟨hd', hat'⟩ := hpending hpend
    refine ⟨hcont', hd', ?_⟩
    rw [hpend] at hdf
    rcases state_of_fill hdf with hsame | hprocess
    · rcases hdst with hdst | hdst
      · exact Or.inl (hsame.trans hdst)
      · exact Or.inr ⟨hsame.trans hdst, hat'⟩
    · exact Or.inr ⟨hprocess, hat'⟩
  rcases poll_cases h with ⟨hst, -⟩ | ⟨hst, hf⟩ | ⟨hst, ⟨inner, hseek, rfl, rfl⟩ | ⟨r, inner, w1, hseek, hf⟩⟩
  · rcases hstate with hst' | ⟨hst', -⟩ <;> rw [hst] at hst' <;> cases hst'
  · rcases hstate with hst' | ⟨-, hat⟩
    · rw [hst] at hst'
      cases hst'
    · exact hfill hb hat (Or.inr hst) hf
  · refine ⟨fun _ => ⟨hcont', ⟨?_, hb.read, hb.moved, hb.bound⟩, Or.inl hst⟩, fun hready => by cases hready⟩
    exact (hfs.seek_pending hseek).trans hb.content
  · -- the seek goes back to the start of the window, of which some bytes are in the buffer already
    obtain ⟨-, hsame, hpos⟩ := hfs.seek_ready hseek
    have hmoved := hb.moved
    refine hfill (d := { b with file := { b.file with inner := inner } })
      ⟨hsame.trans hb.content, hb.read, hb.moved, hb.bound⟩ ?_ (Or.inl hst) hf
    constructor
    · show b.fileWindow.offset ≤ v.position inner w1
      omega
    · show v.position inner w1 + 1 ≤ b.fileWindow.offset + b.block.length
      omega

/-- **A finished read.**  If no read was short behind a seek, the buffer holds the window; otherwise its last
byte is the copy of an earlier byte of the window. -/
theorem finished_read (fs : FileSystem File World Err) (v : FileView File World) (hfs : fs.Positioned v)
    (file : BlockFile File) (window : FileWindow) (w w' : World) (n : Nat) (b' : BlockFileRead File)
    (hlen : window.offset + window.length ≤ (v.content file.inner w).length)
    (h : repeatPoll (fun b w => some (b.poll fs w)) n (new file window) w = some (.ready (.ok ()), b', w')) :
    (EveryPoll (fun b w => some (b.poll fs w)) (fun b w => ¬ b.ShortAfterSeek fs w) n (new file window) w →
      b'.block = ((v.content file.inner w).drop window.offset).take window.length) ∧
    (¬ EveryPoll (fun b w => some (b.poll fs w)) (fun b w => ¬ b.ShortAfterSeek fs w) n (new file window) w →
      ∃ k, window.offset ≤ k ∧ k + 1 < window.offset + window.length ∧
        b'.block[window.length - 1]? = (v.content file.inner w)[k]?) := by
  have hstart : (new file window).Running v (v.content file.inner w) (new file window) w :=
    ⟨⟨rfl, rfl⟩, Or.inl ⟨rfl, rfl, rfl, rfl⟩⟩
  obtain ⟨hgood, hbad⟩ := repeatPoll_falls
    (I := fun s => s.Running v (v.content file.inner w) (new file window))
    (J := fun s => s.Lagging v (v.content file.inner w) (new file window))
    (fun s w s' w' hI hP hpoll => (hI.poll hfs hP (Option.some.inj hpoll) pending_ne_error).1 rfl)
    (fun s w s' w' hI hP hpoll => (hI.poll hfs hP (Option.some.inj hpoll) ok_ne_error).2 rfl)
    (fun s w r s' w' hI hP hpoll =>
      hI.falls hfs (by rw [hI.1.fileWindow]; exact hlen) (not_not.mp hP) (Option.some.inj hpoll))
    (fun s w s' w' hJ hpoll => (hJ.poll hfs (Option.some.inj hpoll) pending_ne_error).1 rfl)
    (fun s w s' w' hJ hpoll => (hJ.poll hfs (Option.some.inj hpoll) ok_ne_error).2 rfl) hstart h
  constructor
  · intro hall
    obtain ⟨hcont, hin, hfull⟩ := hgood hall
    rw [hin.block, hfull, hcont.fileWindow]
    rfl
  · intro hnot
    obtain ⟨hcont, hrepeats⟩ := hbad hnot
    unfold RepeatsByte at hrepeats
    rw [hcont.fileWindow] at hrepeats
    exact hrepeats

end BlockFileRead

end

/-! ## a file that answers by a script -/

structure OpenFile where
  content : List UInt8
  position : Nat
deriving DecidableEq

/-- an answer: `Pending`, or `n + 1` bytes if so many are offered or asked for -/
inductive Answer where
  | pending
  | moves (n : Nat)
deriving DecidableEq

/-- a file system that answers by a script, `Pending` when it is over -/
def replay : FileSystem OpenFile (List Answer) Unit where
  pollOpenFile _ script := (.pending, script.tail)
  pollSeek f o script :=
    match script with
    | .moves _ :: script => (.ready (.ok o), { f with position := o }, script)
    | script => (.pending, f, script.tail)
  pollReadBlock f room script :=
    match script with
    | .moves n :: script =>
      let bytes := (f.content.drop f.position).take (min (n + 1) room)
      (.ready (.ok bytes), { f with position := f.position + bytes.length }, script)
    | script => (.pending, f, script.tail)
  pollWriteBlock f bytes script :=
    match script with
    | .moves n :: script =>
      let taken := bytes.take (n + 1)
      (.ready (.ok taken.length),
        ⟨overwrite 0 f.content f.position taken, f.position + taken.length⟩, script)
    | script => (.pending, f, script.tail)

def replayView : FileView OpenFile (List Answer) := ⟨fun f _ => f.content, fun f _ => f.position⟩

theorem replay_positioned : replay.Positioned replayView where
  seek_pending := by
    intro f o w f' w' h
    rcases w with _ | ⟨_ | n, w⟩ <;> cases h <;> rfl
  seek_ready := by
    intro f o w r f' w' h
    rcases w with _ | ⟨_ | n, w⟩ <;> cases h
    exact ⟨⟨o, rfl⟩, rfl, rfl⟩
  write_pending := by
    intro f bytes w f' w' h
    rcases w with _ | ⟨_ | n, w⟩ <;> cases h <;> exact ⟨rfl, rfl⟩
  write_ok := by
    intro f bytes w n f' w' h
    rcases w with _ | ⟨_ | m, w⟩ <;> cases h
    have hlen : (bytes.take (m + 1)).length = min (m + 1) bytes.length := List.length_take
    refine ⟨by omega, ?_, rfl, ?_⟩
    · intro hne
      have := List.length_pos_of_ne_nil hne
      omega
    · show overwrite 0 f.content f.position (bytes.take (m + 1)) = _
      rw [List.length_take, ← List.take_eq_take_min]
      rfl
  read_pending := by
    intro f room w f' w' h
    rcases w with _ | ⟨_ | n, w⟩ <;> cases h <;> exact ⟨rfl, rfl⟩
  read_ok := by
    intro f room w bytes f' w' h
    rcases w with _ | ⟨_ | m, w⟩ <;> cases h
    have hlen : ((f.content.drop f.position).take (min (m + 1) room)).length
        = min (min (m + 1) room) (f.content.length - f.position) := by rw [List.length_take, List.length_drop]
    refine ⟨by omega, ?_, ?_, rfl, rfl⟩
    · intro hroom hmore
      apply List.ne_nil_of_length_pos
      have : f.position < f.content.length := hmore
      omega
    · show _ = (f.content.drop f.position).take _
      rw [List.length_take, ← List.take_eq_take_min]

/-- a file of two bytes -/
def twoByteFile : BlockFile OpenFile := ⟨⟨⟨0⟩, ⟨0⟩⟩, ⟨[5, 6], 0⟩⟩

namespace BlockFileWrite

/-- a write that is pending behind its seek and then takes one byte at a time -/
theorem finished_write_byte_by_byte :
    ∃ b', repeatPoll (poll replay) 3 (new twoByteFile [1, 2] ⟨0, 2⟩) [.moves 0, .pending, .moves 0, .moves 0]
        = some (.ready (.ok ()), b', []) ∧ WindowWritten [5, 6] b'.file.inner.content [1, 2] ⟨0, 2⟩ := by
  refine ⟨_, rfl, (finished_write replay replayView replay_positioned twoByteFile [1, 2] ⟨0, 2⟩ (by decide)
    [.moves 0, .pending, .moves 0, .moves 0] [] 3 _ rfl).1 ⟨?_, ?_⟩⟩
  · rintro ⟨-, pos, inner, w1, n, inner', w2, hseek, hwrite, -⟩
    cases hseek
    cases hwrite
  · intro s1 w1 h1
    cases h1
    have hprocess : BlockState.process ≠ .seek := by decide
    refine ⟨fun hshort => hprocess hshort.1, ?_⟩
    intro s2 w2 h2
    cases h2
    refine ⟨fun hshort => hprocess hshort.1, ?_⟩
    intro s3 w3 h3
    cases h3

/-- one byte is taken behind each of two seeks: the second byte is written over the first -/
theorem short_write_misplaced :
    repeatPoll (poll replay) 2 (new twoByteFile [1, 2] ⟨0, 2⟩) [.moves 0, .moves 0, .moves 0, .moves 0]
        = some (.ready (.ok ()), ⟨⟨⟨⟨0⟩, ⟨0⟩⟩, ⟨[2, 6], 1⟩⟩, 2, [1, 2], ⟨0, 2⟩, .ready⟩, []) ∧
      ¬ WindowWritten [5, 6] [2, 6] [1, 2] ⟨0, 2⟩ := by
  refine ⟨rfl, ?_⟩
  intro h
  exact absurd h.inside (by decide)

end BlockFileWrite

namespace BlockFileRead

/-- a read that is pending behind its seek and then gives one byte at a time -/
theorem finished_read_byte_by_byte :
    ∃ b', repeatPoll (fun b w => some (b.poll replay w)) 3 (new twoByteFile ⟨0, 2⟩)
        [.moves 0, .pending, .moves 0, .moves 0] = some (.ready (.ok ()), b', []) ∧ b'.block = [5, 6] := by
  refine ⟨_, rfl, (finished_read replay replayView replay_positioned twoByteFile ⟨0, 2⟩
    [.moves 0, .pending, .moves 0, .moves 0] [] 3 _ (by decide) rfl).1 ⟨?_, ?_⟩⟩
  · rintro ⟨-, r, inner, w1, bytes, inner', w2, hseek, hread, -⟩
    cases hseek
    cases hread
  · intro s1 w1 h1
    cases h1
    have hprocess : BlockState.process ≠ .seek := by decide
    refine ⟨fun hshort => hprocess hshort.1, ?_⟩
    intro s2 w2 h2
    cases h2
    refine ⟨fun hshort => hprocess hshort.1, ?_⟩
    intro s3 w3 h3
    cases h3

/-- one byte is given behind each of two seeks: the first byte is read twice -/
theorem short_read_repeats :
    repeatPoll (fun b w => some (b.poll replay w)) 2 (new twoByteFile ⟨0, 2⟩)
        [.moves 0, .moves 0, .moves 0, .moves 0]
        = some (.ready (.ok ()), ⟨⟨⟨⟨0⟩, ⟨0⟩⟩, ⟨[5, 6], 1⟩⟩, [5, 5], ⟨0, 2⟩, 2, .ready⟩, []) ∧
      [5, 5] ≠ (twoByteFile.inner.content.drop 0).take 2 :=
  ⟨rfl, by decide⟩

end BlockFileRead

end Btt
