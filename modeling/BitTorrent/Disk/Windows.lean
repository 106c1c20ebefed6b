import BitTorrent.Disk.Parts
import BitTorrent.Lib.Tiling

/-!
# The windows of a block

What the walk of `filesForBlock` over the files of a torrent makes of a block `[start, stop)`:

* `Holds`        the file holds the whole block: the walk ends with one window;
* `Passed`       the walk goes past the file, with the window `passedWindow` or without one;
* otherwise an addition or the subtraction `file.offset + file.size - block_start` leaves `u64`: a build with
  overflow checks panics, and in one without them (`filesForBlockWrapping`) the walk goes on with what is left.

The one window is right (`covers_holds`).  The windows of a walk that passes every file never are
(`not_covers_wrapped`): the window of the file the block starts in has its offset for a length, and the
ones behind it do not fit their files.
-/

namespace Btt
open Tiling

namespace FileEntry

/-- the file holds the block `[start, stop)` -/
def Holds (f : FileEntry) (start stop : Nat) : Prop := f.offset ≤ start ∧ stop ≤ f.offset + f.size

instance (f : FileEntry) (start stop : Nat) : Decidable (f.Holds start stop) :=
  inferInstanceAs (Decidable (_ ∧ _))

/-- no sum or difference for the file leaves `u64`; in particular the file does not end before the block -/
structure InRange (f : FileEntry) (start stop : Nat) : Prop where
  ends : f.offset + f.size < 2 ^ 64
  after : start ≤ f.offset + f.size
  window : start < f.offset → f.offset + f.size ≤ stop → stop - f.offset + f.size < 2 ^ 64

structure Passed (f : FileEntry) (start stop : Nat) : Prop extends f.InRange start stop where
  holds : ¬ f.Holds start stop

/-- the window of a file the walk goes past -/
def passedWindow (start stop : Nat) (f : FileEntry) : List (FileEntry × FileWindow) :=
  if f.offset ≤ start then [(f, ⟨start - f.offset, start - f.offset⟩)]
  else if f.offset + f.size ≤ stop then [(f, ⟨0, stop - f.offset + f.size⟩)]
  else []

end FileEntry

namespace TorrentFile
open FileEntry

/-! ## one file -/

section
variable {start stop len : Nat} {f : FileEntry} {files : List FileEntry} {acc : List (FileEntry × FileWindow)}

theorem windows_holds (h : f.Holds start stop) (hend : f.offset + f.size < 2 ^ 64) :
    windows start stop len (f :: files) acc = some [(f, ⟨start - f.offset, len⟩)] := by
  rw [windows, if_pos h.1, checkedAdd_eq hend]
  exact if_pos h.2

theorem windows_passed (h : f.Passed start stop) :
    windows start stop len (f :: files) acc = windows start stop len files (acc ++ passedWindow start stop f) := by
  rw [windows]
  by_cases hoff : f.offset ≤ start
  · have hstop : ¬ f.offset + f.size ≥ stop := fun hs => h.holds ⟨hoff, hs⟩
    rw [if_pos hoff, checkedAdd_eq h.ends, passedWindow, if_pos hoff]
    show (if f.offset + f.size ≥ stop then _ else _) = _
    rw [if_neg hstop, checkedSub_eq h.after]
    rfl
  · have hsum : f.size + f.offset < 2 ^ 64 := by
      have := h.ends
      omega
    rw [if_neg hoff, checkedAdd_eq hsum, passedWindow, if_neg hoff, Nat.add_comm f.size f.offset]
    show (if f.offset + f.size ≤ stop then _ else _) = _
    by_cases hstop : f.offset + f.size ≤ stop
    · rw [if_pos hstop, if_pos hstop, checkedAdd_eq (h.window (by omega) hstop)]
      rfl
    · rw [if_neg hstop, if_neg hstop, List.append_nil]

theorem windows_panics (hh : ¬ (f.Holds start stop ∧ f.offset + f.size < 2 ^ 64))
    (hp : ¬ f.Passed start stop) : windows start stop len (f :: files) acc = none := by
  by_cases hend : f.offset + f.size < 2 ^ 64
  · have hholds : ¬ f.Holds start stop := fun h => hh ⟨h, hend⟩
    rw [windows]
    by_cases hoff : f.offset ≤ start
    · -- the file ends before the block starts
      have hbefore : ¬ start ≤ f.offset + f.size := by
        intro hafter
        exact hp ⟨⟨hend, hafter, fun hlt => absurd hoff (Nat.not_le.mpr hlt)⟩, hholds⟩
      rw [if_pos hoff, checkedAdd_eq hend]
      show (if f.offset + f.size ≥ stop then _ else _) = _
      rw [if_neg (fun hs => hholds ⟨hoff, hs⟩), checkedSub, if_neg hbefore]
      rfl
    · -- the length of the window is too large
      have hwindow : f.offset + f.size ≤ stop ∧ ¬ stop - f.offset + f.size < 2 ^ 64 := by
        by_contra hcon
        exact hp ⟨⟨hend, by omega, fun _ hs => by omega⟩, hholds⟩
      rw [if_neg hoff, checkedAdd_eq (by omega), Nat.add_comm f.size f.offset]
      show (if f.offset + f.size ≤ stop then _ else _) = _
      rw [if_pos hwindow.1, checkedAdd, if_neg hwindow.2]
      rfl
  · rw [windows, checkedAdd, if_neg hend, checkedAdd, Nat.add_comm f.size f.offset, if_neg hend]
    split <;> rfl

/-! ## the walk -/

/-- the walk ends with one window, or it passes every file -/
theorem windows_cases {r : List (FileEntry × FileWindow)}
    (h : windows start stop len files acc = some r) :
    (∃ f ∈ files, f.Holds start stop ∧ r = [(f, ⟨start - f.offset, len⟩)]) ∨
      ∀ f ∈ files, f.Passed start stop := by
  induction files generalizing acc with
  | nil =>
    right
    intro f hf
    cases hf
  | cons f files ih =>
    by_cases hh : f.Holds start stop ∧ f.offset + f.size < 2 ^ 64
    · rw [windows_holds hh.1 hh.2] at h
      cases h
      exact Or.inl ⟨f, List.mem_cons_self, hh.1, rfl⟩
    · by_cases hp : f.Passed start stop
      · rw [windows_passed hp] at h
        rcases ih h with ⟨g, hg, hholds, hr⟩ | hall
        · exact Or.inl ⟨g, List.mem_cons_of_mem _ hg, hholds, hr⟩
        · refine Or.inr (List.forall_mem_cons.mpr ⟨hp, hall⟩)
      · rw [windows_panics hh hp] at h
        cases h

end

/-! ## windows that cover a block -/

/-- the windows list distinct files by increasing offset, lie inside of them, and follow each other from
`start` to `stop` -/
structure Covers (start stop : Nat) (ws : List (FileEntry × FileWindow)) : Prop where
  nodup : (ws.map fun x => x.1.id).Nodup
  increasing : (ws.map fun x => x.1.offset).Pairwise (· < ·)
  inside : ∀ x ∈ ws, x.2.offset + x.2.length ≤ x.1.size
  contig : Contig start (ws.map fun x => (x.1.offset + x.2.offset, x.2.length)) stop

theorem covers_holds {start len : Nat} {f : FileEntry} (h : f.Holds start (start + len)) :
    Covers start (start + len) [(f, ⟨start - f.offset, len⟩)] := by
  obtain ⟨h1, h2⟩ := h
  refine ⟨List.nodup_singleton _, List.pairwise_singleton _ _, ?_, ?_, rfl⟩
  · intro x hx
    obtain rfl := List.mem_singleton.mp hx
    show start - f.offset + len ≤ f.size
    omega
  · show f.offset + (start - f.offset) = start
    omega

/-- intervals that are empty or end before `e` do not get from before `e` to `e` -/
theorem not_contig_of_short {e m : Nat} {l : List (Nat × Nat)} (hl : ∀ x ∈ l, x.2 = 0 ∨ x.1 + x.2 < e) (hm : m < e) :
    ¬ Contig m l e := by
  induction l generalizing m with
  | nil => exact Nat.ne_of_lt hm
  | cons x l ih =>
    obtain ⟨o, n⟩ := x
    rintro ⟨rfl, hrest⟩
    refine ih (fun y hy => hl y (List.mem_cons_of_mem _ hy)) ?_ hrest
    rcases hl (o, n) List.mem_cons_self with hn | hn
    · simp only at hn
      omega
    · exact hn

/-! ## the files of a block -/

/-- where the block begins and ends inside of the content -/
def blockStart (t : TorrentFile) (m : BlockMetadata) : Nat :=
  t.metaInfo.info.pieceLength * m.pieceIndex + m.blockOffset

def blockStop (t : TorrentFile) (m : BlockMetadata) : Nat := t.blockStart m + m.blockLength

/-- the block is one of a piece of the torrent -/
def HasBlock (t : TorrentFile) (m : BlockMetadata) : Prop :=
  m.pieceIndex < t.metaInfo.info.pieces.length ∧ m.blockOffset + m.blockLength ≤ t.metaInfo.info.pieceLength

theorem filesForBlock_of_hasBlock {t : TorrentFile} {order : Arrangement FileEntry} {m : BlockMetadata}
    (h : t.HasBlock m) (hstop : t.blockStop m < 2 ^ 64) :
    t.filesForBlock order m
      = (windows (t.blockStart m) (t.blockStop m) m.blockLength (order.run t.files) []).map Except.ok := by
  unfold blockStop blockStart at hstop
  rw [filesForBlock, if_pos h.1, checkedAdd_eq (by omega)]
  show (if m.blockOffset + m.blockLength ≤ t.metaInfo.info.pieceLength then _ else _) = _
  rw [if_pos h.2, checkedMul_eq (by omega)]
  show (checkedAdd (t.metaInfo.info.pieceLength * m.pieceIndex) m.blockOffset >>= _) = _
  rw [checkedAdd_eq (by omega)]
  show (checkedAdd (t.metaInfo.info.pieceLength * m.pieceIndex + m.blockOffset) m.blockLength >>= _) = _
  rw [checkedAdd_eq hstop]
  show (windows (t.blockStart m) (t.blockStop m) m.blockLength (order.run t.files) [] >>= _) = _
  cases windows (t.blockStart m) (t.blockStop m) m.blockLength (order.run t.files) [] with
  | none => rfl
  | some ws => rfl

/-- what an answer without an error tells about the block -/
theorem hasBlock_of_ok {t : TorrentFile} {order : Arrangement FileEntry} {m : BlockMetadata}
    {ws : List (FileEntry × FileWindow)} (h : t.filesForBlock order m = some (.ok ws)) :
    t.HasBlock m ∧ t.blockStop m < 2 ^ 64 := by
  rcases filesForBlock_cases h with he | ⟨ws', -, hpiece, hle, hlt, -⟩
  · cases he
  · exact ⟨⟨hpiece, hle⟩, hlt⟩

/-! ## the walk without overflow checks -/

/-- `+`, `-` and `*` on `u64` in a build without overflow checks -/
def wrappingAdd (a b : Nat) : Nat := (a + b) % 2 ^ 64
def wrappingSub (a b : Nat) : Nat := (a + (2 ^ 64 - b)) % 2 ^ 64
def wrappingMul (a b : Nat) : Nat := a * b % 2 ^ 64

theorem wrappingAdd_eq {a b : Nat} (h : a + b < 2 ^ 64) : wrappingAdd a b = a + b := Nat.mod_eq_of_lt h
theorem wrappingMul_eq {a b : Nat} (h : a * b < 2 ^ 64) : wrappingMul a b = a * b := Nat.mod_eq_of_lt h

theorem wrappingSub_eq {a b : Nat} (ha : a < 2 ^ 64) (h : b ≤ a) : wrappingSub a b = a - b := by
  unfold wrappingSub
  omega

/-- the loop of `windows`, where nothing panics -/
def windowsWrapping (blockStart blockEnd blockLength : Nat) :
    List FileEntry → List (FileEntry × FileWindow) → List (FileEntry × FileWindow)
  | [], acc => acc
  | file :: files, acc =>
    if blockStart ≥ file.offset then
      if wrappingAdd file.offset file.size ≥ blockEnd then [(file, ⟨wrappingSub blockStart file.offset, blockLength⟩)]
      else
        let windowOffset := wrappingSub blockStart file.offset
        windowsWrapping blockStart blockEnd blockLength files (acc ++ [(file, ⟨windowOffset, windowOffset⟩)])
    else if wrappingAdd file.size file.offset ≤ blockEnd then
      let windowLength := wrappingAdd (wrappingSub blockEnd file.offset) file.size
      windowsWrapping blockStart blockEnd blockLength files (acc ++ [(file, ⟨0, windowLength⟩)])
    else windowsWrapping blockStart blockEnd blockLength files acc

/-- `filesForBlock`, where nothing panics -/
def filesForBlockWrapping (t : TorrentFile) (order : Arrangement FileEntry) (metadata : BlockMetadata) :
    Except TorrentError (List (FileEntry × FileWindow)) :=
  if metadata.pieceIndex < t.metaInfo.info.pieces.length ∧
      wrappingAdd metadata.blockOffset metadata.blockLength ≤ t.metaInfo.info.pieceLength then
    let pieceStart := wrappingMul t.metaInfo.info.pieceLength metadata.pieceIndex
    let blockStart := wrappingAdd pieceStart metadata.blockOffset
    let blockEnd := wrappingAdd (wrappingAdd pieceStart metadata.blockOffset) metadata.blockLength
    .ok (windowsWrapping blockStart blockEnd metadata.blockLength (order.run t.files) [])
  else .error (.badPiece metadata.pieceIndex)

/-- the window of a file this walk goes past -/
def wrappedWindow (start stop : Nat) (f : FileEntry) : List (FileEntry × FileWindow) :=
  if f.offset ≤ start then [(f, ⟨start - f.offset, start - f.offset⟩)]
  else if f.offset + f.size ≤ stop then [(f, ⟨0, wrappingAdd (stop - f.offset) f.size⟩)]
  else []

section
variable {start stop len : Nat} {f : FileEntry} {files : List FileEntry} {acc : List (FileEntry × FileWindow)}

theorem windowsWrapping_holds (h : f.Holds start stop) (hend : f.offset + f.size < 2 ^ 64) (hstart : start < 2 ^ 64) :
    windowsWrapping start stop len (f :: files) acc = [(f, ⟨start - f.offset, len⟩)] := by
  rw [windowsWrapping, if_pos h.1, wrappingAdd_eq hend, if_pos h.2, wrappingSub_eq hstart h.1]

theorem windowsWrapping_passed (h : ¬ f.Holds start stop) (hend : f.offset + f.size < 2 ^ 64) (hstart : start < 2 ^ 64)
    (hstop : stop < 2 ^ 64) :
    windowsWrapping start stop len (f :: files) acc
      = windowsWrapping start stop len files (acc ++ wrappedWindow start stop f) := by
  rw [windowsWrapping, wrappedWindow]
  by_cases hoff : f.offset ≤ start
  · rw [if_pos hoff, if_pos hoff, wrappingAdd_eq hend, if_neg (fun hs => h ⟨hoff, hs⟩), wrappingSub_eq hstart hoff]
  · rw [if_neg hoff, if_neg hoff, wrappingAdd_eq (by omega), Nat.add_comm f.size f.offset]
    by_cases hin : f.offset + f.size ≤ stop
    · rw [if_pos hin, if_pos hin, wrappingSub_eq hstop (by omega)]
    · rw [if_neg hin, if_neg hin, List.append_nil]

/-- the walk ends with one window, or it passes every file -/
theorem windowsWrapping_cases (hends : ∀ f ∈ files, f.offset + f.size < 2 ^ 64) (hstart : start < 2 ^ 64)
    (hstop : stop < 2 ^ 64) :
    (∃ f ∈ files, f.Holds start stop ∧ windowsWrapping start stop len files acc = [(f, ⟨start - f.offset, len⟩)]) ∨
      (∀ f ∈ files, ¬ f.Holds start stop) ∧
        windowsWrapping start stop len files acc = acc ++ files.flatMap (wrappedWindow start stop) := by
  induction files generalizing acc with
  | nil => exact Or.inr ⟨fun f hf => absurd hf List.not_mem_nil, (List.append_nil acc).symm⟩
  | cons f files ih =>
    obtain ⟨hend, hends⟩ := List.forall_mem_cons.mp hends
    by_cases hh : f.Holds start stop
    · exact Or.inl ⟨f, List.mem_cons_self, hh, windowsWrapping_holds hh hend hstart⟩
    · rw [windowsWrapping_passed hh hend hstart hstop]
      rcases ih hends with ⟨g, hg, hholds, hr⟩ | ⟨hnone, hr⟩
      · exact Or.inl ⟨g, List.mem_cons_of_mem _ hg, hholds, hr⟩
      · refine Or.inr ⟨List.forall_mem_cons.mpr ⟨hh, hnone⟩, ?_⟩
        rw [hr, List.flatMap_cons, List.append_assoc]

/-- a window of a file this walk went past that lies inside of its file is empty or ends before the block -/
theorem wrappedWindow_inside (h : ¬ f.Holds start stop) (hstop : stop < 2 ^ 64)
    {x : FileEntry × FileWindow} (hx : x ∈ wrappedWindow start stop f) (hin : x.2.offset + x.2.length ≤ x.1.size) :
    x.2.length = 0 ∨ x.1.offset + x.2.offset + x.2.length < stop := by
  unfold wrappedWindow at hx
  split at hx
  · rename_i hoff
    obtain rfl := List.mem_singleton.mp hx
    have hbefore : ¬ stop ≤ f.offset + f.size := fun hs => h ⟨hoff, hs⟩
    simp only at hin ⊢
    omega
  · split at hx
    · obtain rfl := List.mem_singleton.mp hx
      -- a sum that does not wrap is too long, one that wraps too short
      simp only [wrappingAdd] at hin ⊢
      omega
    · cases hx

theorem not_covers_wrapped (hlt : start < stop) (hnone : ∀ f ∈ files, ¬ f.Holds start stop) (hstop : stop < 2 ^ 64) :
    ¬ Covers start stop (files.flatMap (wrappedWindow start stop)) := by
  intro hc
  refine not_contig_of_short ?_ hlt hc.contig
  intro y hy
  obtain ⟨x, hx, rfl⟩ := List.mem_map.mp hy
  obtain ⟨f, hf, hxf⟩ := List.mem_flatMap.mp hx
  exact wrappedWindow_inside (hnone f hf) hstop hxf (hc.inside x hx)

end

theorem filesForBlockWrapping_of_hasBlock {t : TorrentFile} {order : Arrangement FileEntry} {m : BlockMetadata}
    (h : t.HasBlock m) (hstop : t.blockStop m < 2 ^ 64) :
    t.filesForBlockWrapping order m
      = .ok (windowsWrapping (t.blockStart m) (t.blockStop m) m.blockLength (order.run t.files) []) := by
  unfold blockStop blockStart at hstop
  have hto : wrappingAdd m.blockOffset m.blockLength = m.blockOffset + m.blockLength := wrappingAdd_eq (by omega)
  have hpiece : wrappingMul t.metaInfo.info.pieceLength m.pieceIndex = t.metaInfo.info.pieceLength * m.pieceIndex :=
    wrappingMul_eq (by omega)
  have hstart : wrappingAdd (t.metaInfo.info.pieceLength * m.pieceIndex) m.blockOffset = t.blockStart m :=
    wrappingAdd_eq (by omega)
  have hend : wrappingAdd (t.blockStart m) m.blockLength = t.blockStop m := wrappingAdd_eq hstop
  rw [filesForBlockWrapping, hto]
  simp only [hpiece, hstart, hend]
  exact if_pos h

/-! ## the content -/

/-- where the content of the torrent ends -/
def contentEnd (t : TorrentFile) : Nat := (t.files.map FileEntry.size).sum

theorem content_of_entries {id : TorrentId} {root : String} {i offset : Nat} {files : List SubFileInfo}
    {es : List FileEntry} (h : entries id root i offset files = some es) (hoffset : offset < 2 ^ 64) :
    offset + (es.map FileEntry.size).sum < 2 ^ 64 ∧
      ∀ e ∈ es, e.offset + e.size ≤ offset + (es.map FileEntry.size).sum := by
  induction files generalizing i offset es with
  | nil =>
    cases h
    exact ⟨hoffset, fun e he => by cases he⟩
  | cons file files ih =>
    obtain ⟨next, hnext, h⟩ := Option.bind_eq_some_iff.mp h
    obtain ⟨rest, hrest, h⟩ := Option.bind_eq_some_iff.mp h
    cases h
    obtain ⟨hlt, rfl⟩ := of_checkedAdd hnext
    obtain ⟨hsum, hends⟩ := ih hrest hlt
    rw [List.map_cons, List.sum_cons, ← Nat.add_assoc]
    refine ⟨hsum, List.forall_mem_cons.mpr ⟨Nat.le_add_right _ _, hends⟩⟩

/-- no file ends behind the content -/
theorem content_of_new {id : TorrentId} {info : MetaInfo} {t : TorrentFile} (h : new id info = some t)
    (hsingle : ∀ n, info.info.content = .single n → n < 2 ^ 64) :
    t.contentEnd < 2 ^ 64 ∧ ∀ e ∈ t.files, e.offset + e.size ≤ t.contentEnd := by
  unfold new at h
  split at h
  · rename_i n hn
    cases h
    refine ⟨hsingle n hn, ?_⟩
    intro e he
    obtain rfl := List.mem_singleton.mp he
    exact Nat.le_of_eq (Nat.zero_add n)
  · obtain ⟨es, hes, rfl⟩ := Option.map_eq_some_iff.mp h
    have hcontent := content_of_entries hes (by decide)
    simp only [Nat.zero_add] at hcontent
    exact hcontent

/-! ## the windows are right -/

/-- the windows of an answer cover the block, and a block that reaches past the end of the content is an error -/
structure Maps (t : TorrentFile) (m : BlockMetadata)
    (answer : Option (Except TorrentError (List (FileEntry × FileWindow)))) : Prop where
  covers : ∀ ws, answer = some (.ok ws) → Covers (t.blockStart m) (t.blockStop m) ws
  past : t.contentEnd < t.blockStop m → ∃ e, answer = some (.error e)

/-- the piece of the block is not one of the torrent, or the block is longer than a piece -/
def Refuses (t : TorrentFile) (m : BlockMetadata) : Prop :=
  t.metaInfo.info.pieces.length ≤ m.pieceIndex ∨
    t.metaInfo.info.pieceLength < m.blockOffset + m.blockLength ∧ m.blockOffset + m.blockLength < 2 ^ 64

section
variable {t : TorrentFile} {order : Arrangement FileEntry} {m : BlockMetadata}

theorem maps_error (e : TorrentError) : t.Maps m (some (.error e)) := by
  refine ⟨?_, fun _ => ⟨e, rfl⟩⟩
  intro ws h
  cases h

theorem filesForBlock_refuses_iff :
    (∃ e, t.filesForBlock order m = some (.error e)) ↔ t.Refuses m := by
  unfold Refuses filesForBlock
  by_cases hpiece : m.pieceIndex < t.metaInfo.info.pieces.length
  · rw [if_pos hpiece]
    by_cases hsum : m.blockOffset + m.blockLength < 2 ^ 64
    · rw [checkedAdd_eq hsum]
      by_cases hle : m.blockOffset + m.blockLength ≤ t.metaInfo.info.pieceLength
      · refine iff_of_false ?_ (by omega)
        rintro ⟨e, he⟩
        change (if m.blockOffset + m.blockLength ≤ t.metaInfo.info.pieceLength then _ else _) = _ at he
        rw [if_pos hle] at he
        obtain ⟨_, -, he⟩ := Option.bind_eq_some_iff.mp he
        obtain ⟨_, -, he⟩ := Option.bind_eq_some_iff.mp he
        obtain ⟨_, -, he⟩ := Option.bind_eq_some_iff.mp he
        obtain ⟨_, -, he⟩ := Option.bind_eq_some_iff.mp he
        cases he
      · exact iff_of_true ⟨_, if_neg hle⟩ (Or.inr ⟨Nat.not_le.mp hle, hsum⟩)
    · refine iff_of_false ?_ (by omega)
      rintro ⟨e, he⟩
      rw [checkedAdd, if_neg hsum] at he
      cases he
  · rw [if_neg hpiece]
    exact iff_of_true ⟨_, rfl⟩ (Or.inl (Nat.not_lt.mp hpiece))

theorem filesForBlockWrapping_of_refuses (h : t.Refuses m) :
    t.filesForBlockWrapping order m = .error (.badPiece m.pieceIndex) := by
  refine if_neg ?_
  rintro ⟨hpiece, hle⟩
  rcases h with hout | ⟨hlong, hsum⟩
  · omega
  · rw [wrappingAdd_eq hsum] at hle
    omega

/-- a file holds the block: the answers, if there are any, are its one window -/
theorem maps_of_holds (hends : ∀ f ∈ t.files, f.offset + f.size ≤ t.contentEnd) (hcontent : t.contentEnd < 2 ^ 64)
    {f : FileEntry} (hf : f ∈ t.files) (hholds : f.Holds (t.blockStart m) (t.blockStop m)) :
    t.Maps m (t.filesForBlock order m) ∧ t.Maps m (some (t.filesForBlockWrapping order m)) := by
  have hin : t.blockStop m ≤ t.contentEnd := hholds.2.trans (hends f hf)
  have hpast : ¬ t.contentEnd < t.blockStop m := Nat.not_lt.mpr hin
  have hstop : t.blockStop m < 2 ^ 64 := Nat.lt_of_le_of_lt hin hcontent
  constructor
  · refine ⟨?_, fun h => absurd h hpast⟩
    intro ws hws
    obtain ⟨hblock, -⟩ := hasBlock_of_ok hws
    rw [filesForBlock_of_hasBlock hblock hstop] at hws
    obtain ⟨r, hr, heq⟩ := Option.map_eq_some_iff.mp hws
    cases heq
    rcases windows_cases hr with ⟨g, -, hg, rfl⟩ | hpassed
    · exact covers_holds hg
    · exact absurd hholds (hpassed f (order.mem_run.mpr hf)).holds
  · refine ⟨?_, fun h => absurd h hpast⟩
    intro ws hws
    by_cases hblock : t.HasBlock m
    · rw [filesForBlockWrapping_of_hasBlock hblock hstop] at hws
      cases hws
      have hstart : t.blockStart m < 2 ^ 64 := Nat.lt_of_le_of_lt (Nat.le_add_right _ _) hstop
      have hrange : ∀ g ∈ order.run t.files, g.offset + g.size < 2 ^ 64 :=
        fun g hg => Nat.lt_of_le_of_lt (hends g (order.mem_run.mp hg)) hcontent
      have hcases := @windowsWrapping_cases _ _ m.blockLength _ [] hrange hstart hstop
      rcases hcases with ⟨g, -, hg, hr⟩ | ⟨hnone, -⟩
      · rw [hr]
        exact covers_holds hg
      · exact absurd hholds (hnone f (order.mem_run.mpr hf))
    · have hsum : wrappingAdd m.blockOffset m.blockLength = m.blockOffset + m.blockLength := by
        unfold blockStop blockStart at hstop
        exact wrappingAdd_eq (by omega)
      have herror : t.filesForBlockWrapping order m = .error (.badPiece m.pieceIndex) := by
        rw [filesForBlockWrapping, hsum]
        exact if_neg hblock
      rw [herror] at hws
      cases hws

end

/-- **The windows of a block are right if one file holds it, or if it is refused.**  Any other block gets wrong windows,
or the one that reaches past the end of the content is no error, in a build with overflow checks or in one without. -/
theorem filesForBlock_covers_iff (id : TorrentId) (info : MetaInfo) (t : TorrentFile) (hnew : new id info = some t)
    (hsingle : ∀ n, info.info.content = .single n → n < 2 ^ 64) (order : Arrangement FileEntry) (m : BlockMetadata)
    (hpos : 0 < m.blockLength) :
    t.Maps m (t.filesForBlock order m) ∧ t.Maps m (some (t.filesForBlockWrapping order m)) ↔
      (∃ f ∈ t.files, f.Holds (t.blockStart m) (t.blockStop m)) ∨ t.Refuses m := by
  obtain ⟨hcontent, hends⟩ := content_of_new hnew hsingle
  constructor
  · rintro ⟨hchecked, hwrapping⟩
    by_contra hno
    push Not at hno
    obtain ⟨hnone, hrefuses⟩ := hno
    by_cases hstop : t.blockStop m < 2 ^ 64
    · have hblock : t.HasBlock m := by
        unfold Refuses at hrefuses
        unfold blockStop blockStart at hstop
        exact ⟨by omega, by omega⟩
      have hstart : t.blockStart m < 2 ^ 64 := Nat.lt_of_le_of_lt (Nat.le_add_right _ _) hstop
      have hrange : ∀ g ∈ order.run t.files, g.offset + g.size < 2 ^ 64 :=
        fun g hg => Nat.lt_of_le_of_lt (hends g (order.mem_run.mp hg)) hcontent
      have hrun : ∀ g ∈ order.run t.files, ¬ g.Holds (t.blockStart m) (t.blockStop m) :=
        fun g hg => hnone g (order.mem_run.mp hg)
      have hcovers := hwrapping.covers _ (congrArg some (filesForBlockWrapping_of_hasBlock hblock hstop))
      have hcases := @windowsWrapping_cases _ _ m.blockLength _ [] hrange hstart hstop
      rcases hcases with ⟨g, hg, hholds, -⟩ | ⟨-, hr⟩
      · exact hrun g hg hholds
      · rw [hr] at hcovers
        exact not_covers_wrapped (Nat.lt_add_of_pos_right hpos) hrun hstop hcovers
    · -- a sum leaves `u64`, and with overflow checks there is no answer
      have hpast : t.contentEnd < t.blockStop m := Nat.lt_of_lt_of_le hcontent (Nat.not_lt.mp hstop)
      exact hrefuses (filesForBlock_refuses_iff.mp (hchecked.past hpast))
  · rintro (⟨f, hf, hholds⟩ | hrefuses)
    · exact maps_of_holds hends hcontent hf hholds
    · obtain ⟨e, he⟩ := (@filesForBlock_refuses_iff t order m).mpr hrefuses
      rw [he, filesForBlockWrapping_of_refuses hrefuses]
      exact ⟨maps_error e, maps_error _⟩

/-- a block of the first of two files of one byte -/
theorem filesForBlock_covers_first_byte :
    ∃ t, new ⟨0⟩ DiskManager.twoFiles = some t ∧ t.Maps ⟨0, 0, 1⟩ (t.filesForBlock .same ⟨0, 0, 1⟩) ∧
      t.Maps ⟨0, 0, 1⟩ (some (t.filesForBlockWrapping .same ⟨0, 0, 1⟩)) := by
  refine ⟨_, rfl, (filesForBlock_covers_iff ⟨0⟩ DiskManager.twoFiles _ rfl ?_ .same ⟨0, 0, 1⟩ (by decide)).mpr ?_⟩
  · intro n hn
    cases hn
  · exact Or.inl ⟨_, List.mem_cons_self, by decide⟩

/-- the block of both files: the first window is empty and the second one longer than its file -/
theorem filesForBlock_two_bytes_wrong :
    ∃ t, new ⟨0⟩ DiskManager.twoFiles = some t ∧
      t.filesForBlock .same ⟨0, 0, 2⟩ = some (.ok
        [(⟨["two", "a"], ⟨⟨0⟩, ⟨0⟩⟩, 0, 1⟩, ⟨0, 0⟩), (⟨["two", "b"], ⟨⟨0⟩, ⟨1⟩⟩, 1, 1⟩, ⟨0, 2⟩)]) ∧
      ¬ t.Maps ⟨0, 0, 2⟩ (t.filesForBlock .same ⟨0, 0, 2⟩) := by
  refine ⟨_, rfl, rfl, ?_⟩
  intro h
  have hlong := (h.covers _ rfl).inside _ (List.mem_cons_of_mem _ List.mem_cons_self)
  exact absurd hlong (by decide)

/-- ten bytes a hundred bytes behind the start of a file of three: a panic, or an answer without overflow checks -/
example : ∃ t, new ⟨0⟩ ⟨none, [], none, none, none, none, [], [], ⟨[.replicate 0], 16384, .single 3, "a"⟩, [], .from []⟩
      = some t ∧ t.filesForBlock .same ⟨0, 100, 10⟩ = none ∧
    t.filesForBlockWrapping .same ⟨0, 100, 10⟩ = .ok [(⟨["a"], ⟨⟨0⟩, ⟨0⟩⟩, 0, 3⟩, ⟨100, 100⟩)] :=
  ⟨_, rfl, rfl, rfl⟩

/-! ## the arithmetic of the walk -/

theorem windows_ne_none_iff {start stop len : Nat} (hle : start ≤ stop) {files : List FileEntry}
    {acc : List (FileEntry × FileWindow)} (hends : ∀ f ∈ files, f.offset + f.size < 2 ^ 64)
    (hwindow : ∀ f ∈ files, start < f.offset → f.offset + f.size ≤ stop → stop - f.offset + f.size < 2 ^ 64) :
    windows start stop len files acc ≠ none ↔
      ∀ pre f post, files = pre ++ f :: post → f.offset + f.size < start → ∃ g ∈ pre, g.Holds start stop := by
  induction files generalizing acc with
  | nil =>
    refine ⟨fun _ pre f post h => ?_, fun _ => Option.some_ne_none _⟩
    exact absurd h.symm (List.append_ne_nil_of_right_ne_nil pre (List.cons_ne_nil f post))
  | cons f files ih =>
    obtain ⟨hend, hends⟩ := List.forall_mem_cons.mp hends
    obtain ⟨hwin, hwindow⟩ := List.forall_mem_cons.mp hwindow
    by_cases hh : f.Holds start stop
    · rw [windows_holds hh hend]
      refine ⟨fun _ pre g post h hbefore => ?_, fun _ => Option.some_ne_none _⟩
      rcases pre with _ | ⟨a, pre⟩
      · cases h
        have := hh.2
        omega
      · cases h
        exact ⟨f, List.mem_cons_self, hh⟩
    · by_cases hafter : start ≤ f.offset + f.size
      · rw [windows_passed ⟨⟨hend, hafter, hwin⟩, hh⟩, ih hends hwindow]
        constructor
        · intro h pre g post heq hbefore
          rcases pre with _ | ⟨a, pre⟩
          · cases heq
            omega
          · cases heq
            obtain ⟨x, hx, hxh⟩ := h pre g post rfl hbefore
            exact ⟨x, List.mem_cons_of_mem _ hx, hxh⟩
        · intro h pre g post heq hbefore
          obtain ⟨x, hx, hxh⟩ := h (f :: pre) g post (congrArg (f :: ·) heq) hbefore
          rcases List.mem_cons.mp hx with rfl | hx
          · exact absurd hxh hh
          · exact ⟨x, hx, hxh⟩
      · rw [windows_panics (fun h => hh h.1) (fun h => hafter h.after)]
        refine ⟨fun h => absurd rfl h, fun h => ?_⟩
        obtain ⟨g, hg, -⟩ := h [] f files rfl (Nat.not_le.mp hafter)
        cases hg

theorem end_of_mem_entries {id : TorrentId} {root : String} {i offset : Nat} {files : List SubFileInfo}
    {es : List FileEntry} (h : entries id root i offset files = some es) {e : FileEntry} (he : e ∈ es) :
    e.offset + e.size < 2 ^ 64 := by
  induction files generalizing i offset es with
  | nil =>
    cases h
    cases he
  | cons file files ih =>
    obtain ⟨next, hnext, h⟩ := Option.bind_eq_some_iff.mp h
    obtain ⟨rest, hrest, h⟩ := Option.bind_eq_some_iff.mp h
    cases h
    rcases List.mem_cons.mp he with rfl | he
    · exact (of_checkedAdd hnext).1
    · exact ih hrest he

/-- if the content fits into `u64`, so does the end of every file -/
theorem end_of_mem_new {id : TorrentId} {info : MetaInfo} {t : TorrentFile} {total : Nat}
    (h : new id info = some t) (hlen : info.info.content.length = some total) (htotal : total < 2 ^ 64)
    {e : FileEntry} (he : e ∈ t.files) : e.offset + e.size < 2 ^ 64 := by
  unfold new at h
  split at h
  · rename_i n hn
    cases h
    obtain rfl := List.mem_singleton.mp he
    rw [hn] at hlen
    cases hlen
    show 0 + total < 2 ^ 64
    omega
  · obtain ⟨es, hes, rfl⟩ := Option.map_eq_some_iff.mp h
    exact end_of_mem_entries hes he

theorem filesForBlock_of_not_hasBlock {t : TorrentFile} {order : Arrangement FileEntry} {m : BlockMetadata}
    (h : ¬ t.HasBlock m) (hsum : m.blockOffset + m.blockLength < 2 ^ 64) :
    t.filesForBlock order m = some (.error (.badPiece m.pieceIndex)) := by
  rw [filesForBlock, checkedAdd_eq hsum]
  by_cases hpiece : m.pieceIndex < t.metaInfo.info.pieces.length
  · rw [if_pos hpiece]
    exact if_neg fun hle => h ⟨hpiece, hle⟩
  · rw [if_neg hpiece]

/-- **The windows of a requested block are computed without a wrap** as long as no file that ends before the
block is visited ahead of a file that holds it. -/
theorem filesForBlock_in_range_iff (id : TorrentId) (info : MetaInfo) (t : TorrentFile) (total : Nat)
    (hnew : new id info = some t) (hlen : info.info.content.length = some total) (htotal : total < 2 ^ 64)
    (hpieces : info.info.pieces.length * info.info.pieceLength < 2 ^ 64) (order : Arrangement FileEntry)
    (r : PeerRequest) :
    t.filesForBlock order (.ofRequest r) ≠ none ↔
      (t.HasBlock (.ofRequest r) → ∀ pre f post, order.run t.files = pre ++ f :: post →
        f.offset + f.size < t.blockStart (.ofRequest r) →
        ∃ g ∈ pre, g.Holds (t.blockStart (.ofRequest r)) (t.blockStop (.ofRequest r))) := by
  have hoffset : r.begin_.toNat < 2 ^ 32 := r.begin_.toNat_lt
  have hlength : r.length.toNat < 2 ^ 32 := r.length.toNat_lt
  by_cases hb : t.HasBlock (.ofRequest r)
  · have hstop : t.blockStop (.ofRequest r) < 2 ^ 64 := by
      obtain ⟨hpiece, hto⟩ := hb
      rw [metaInfo_new hnew] at hpiece hto
      calc t.blockStop (.ofRequest r)
          = info.info.pieceLength * r.index.toNat + r.begin_.toNat + r.length.toNat := by
            rw [blockStop, blockStart, metaInfo_new hnew]
            rfl
        _ ≤ info.info.pieceLength * r.index.toNat + info.info.pieceLength := by
            rw [Nat.add_assoc]
            exact Nat.add_le_add_left hto _
        _ = (r.index.toNat + 1) * info.info.pieceLength := by rw [Nat.succ_mul, Nat.mul_comm]
        _ ≤ info.info.pieces.length * info.info.pieceLength := Nat.mul_le_mul_right _ hpiece
        _ < 2 ^ 64 := hpieces
    have hends : ∀ f ∈ order.run t.files, f.offset + f.size < 2 ^ 64 :=
      fun f hf => end_of_mem_new hnew hlen htotal (order.mem_run.mp hf)
    have hspan : t.blockStop (.ofRequest r) = t.blockStart (.ofRequest r) + r.length.toNat := rfl
    -- a file behind the start of the block is at most as long as the block, which a request keeps below 2 ^ 32
    have hwindow : ∀ f ∈ order.run t.files, t.blockStart (.ofRequest r) < f.offset →
        f.offset + f.size ≤ t.blockStop (.ofRequest r) →
        t.blockStop (.ofRequest r) - f.offset + f.size < 2 ^ 64 := by
      intro f _ hstart hend
      omega
    rw [filesForBlock_of_hasBlock hb hstop, Ne, Option.map_eq_none_iff,
      ← Ne, windows_ne_none_iff (hspan ▸ Nat.le_add_right _ _) hends hwindow]
    exact ⟨fun h _ => h, fun h => h hb⟩
  · have hsum : r.begin_.toNat + r.length.toNat < 2 ^ 64 := by omega
    rw [filesForBlock_of_not_hasBlock hb hsum]
    exact ⟨fun _ h => absurd h hb, fun _ => Option.some_ne_none _⟩

/-- a request for the only byte of a torrent -/
theorem filesForBlock_in_range_oneByte :
    ∃ t, new ⟨0⟩ oneByte = some t ∧ t.filesForBlock .same (.ofRequest ⟨0, 0, 1⟩) ≠ none := by
  refine ⟨_, rfl, (filesForBlock_in_range_iff ⟨0⟩ oneByte _ 1 rfl rfl (by decide) (by decide) .same
    ⟨0, 0, 1⟩).mpr ?_⟩
  intro _ pre f post _ hbefore
  exact absurd hbefore (Nat.not_lt_zero _)

/-- three pieces of one byte, in three files of one byte -/
def threeFiles : MetaInfo :=
  ⟨none, [], none, none, none, none, [], [],
    ⟨[firstByte [1], firstByte [2], firstByte [3]], 1, .multi [⟨1, ["a"]⟩, ⟨1, ["b"]⟩, ⟨1, ["c"]⟩], "three"⟩, [],
    .from []⟩

/-- a request for the third byte: the first file visited ends before it, and `0 + 1 - 2` is evaluated -/
theorem third_byte_wraps :
    ∃ t, new ⟨0⟩ threeFiles = some t ∧ threeFiles.info.content.length = some 3 ∧
      threeFiles.info.pieces.length * threeFiles.info.pieceLength = 3 ∧
      t.filesForBlock .same (.ofRequest ⟨2, 0, 1⟩) = none :=
  ⟨_, rfl, rfl, rfl, rfl⟩

end TorrentFile

end Btt
