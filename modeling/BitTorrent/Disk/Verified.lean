import BitTorrent.Disk.Accounting

/-!
# Only verified blocks are reported written

A write is checked against its piece's hash when its job is made, after any number of turns through the
queue; the answer is put together from the parts of the job much later.  `Verified` follows the block of
every active write: it was handed in, it is good, and the job carries its data.

A job for several files never ends well: `collectParts` compares the flipped count of the bytes written
with the length of the part, and these two never meet for data that fits into memory (`not_all_valid`).
-/

namespace Btt
open Run

section
variable {File World Err : Type} {fs : FileSystem File World Err}

/-- a write reports at most the bytes it was given -/
def FileSystem.HonestWrites (fs : FileSystem File World Err) : Prop :=
  ∀ f bytes w n f' w', fs.pollWriteBlock f bytes w = (.ready (.ok n), f', w') → n ≤ bytes.length

/-- the bound on the length of anything in memory (`isize::MAX`) -/
def memoryBound : Nat := 2 ^ 63

/-! ## the bytes written -/

theorem BlockFileWrite.written_write (hfs : fs.HonestWrites) {b b' : BlockFileWrite File} {w w' : World}
    {p : Poll (Except Err Unit)} (h : b.write fs w = some (p, b', w')) : b'.written ≤ b'.block.length := by
  unfold write at h
  split at h
  · rename_i hbounds
    obtain ⟨h1, h2⟩ := hbounds
    split at h
    · rename_i n inner w1 hwrite
      have hn := hfs _ _ _ _ _ _ hwrite
      rw [List.length_drop, List.length_take] at hn
      have hle : b.written + n ≤ b.block.length := by omega
      simp only at h
      split at h <;> cases h <;> exact hle
    · cases h
      exact h1.trans h2
    · cases h
      exact h1.trans h2
  · cases h

theorem BlockFileWrite.written_poll (hfs : fs.HonestWrites) {b b' : BlockFileWrite File} {w w' : World}
    {p : Poll (Except Err Unit)} (hb : b.written ≤ b.block.length) (h : b.poll fs w = some (p, b', w')) :
    b'.written ≤ b'.block.length := by
  unfold poll at h
  split at h
  · cases h
    exact hb
  · exact written_write hfs h
  · split at h
    · exact written_write hfs h
    · cases h
      exact hb
    · cases h
      exact hb

theorem written_pollWrites (hfs : fs.HonestWrites) {bs bs' : List (BlockFileWrite File)} {w w' : World}
    {ready : Bool} (hbs : ∀ b ∈ bs, b.written ≤ b.block.length)
    (h : pollWrites fs bs w = some (ready, bs', w')) : ∀ b ∈ bs', b.written ≤ b.block.length := by
  induction bs generalizing w ready bs' with
  | nil =>
    cases h
    exact hbs
  | cons b bs ih =>
    obtain ⟨⟨p, b1, w1⟩, hb, h⟩ := Option.bind_eq_some_iff.mp h
    obtain ⟨⟨ready1, bs1, w2⟩, hrest, h⟩ := Option.bind_eq_some_iff.mp h
    cases h
    intro c hc
    rcases List.mem_cons.mp hc with rfl | hc
    · exact BlockFileWrite.written_poll hfs (hbs b List.mem_cons_self) hb
    · exact ih (fun d hd => hbs d (List.mem_cons_of_mem _ hd)) hrest c hc

/-- no part of a write for several files has more bytes written than it has -/
def BlockJob.Bounded : BlockJob File → Prop
  | .write (.overlap _ _ bs) => ∀ b ∈ bs, b.written ≤ b.block.length
  | _ => True

theorem BlockJob.bounded_poll (hfs : fs.HonestWrites) {job job' : BlockJob File} {w w' : World}
    {p : Poll (Except Err Unit)} (hb : job.Bounded) (h : job.poll fs w = some (p, job', w')) : job'.Bounded := by
  unfold poll at h
  split at h
  · cases h
    trivial
  · cases h
    trivial
  · obtain ⟨⟨p1, b', w1⟩, -, h⟩ := Option.bind_eq_some_iff.mp h
    cases h
    trivial
  · obtain ⟨⟨ready, bs', w1⟩, hw, h⟩ := Option.bind_eq_some_iff.mp h
    cases h
    exact written_pollWrites hfs hb hw

/-! ## finishing a write -/

/-- what is written and what is left never flip into one another -/
theorem not_all_valid {written length : Nat} (hw : written ≤ length) (hl : length < memoryBound) :
    bitNot written ≠ length := by
  unfold bitNot
  unfold memoryBound at hl
  omega

namespace DiskManager

/-- a write that ends well has written the block it was made for, to one file -/
theorem answerOf_pieceWritten {block : Block} {t t' : TorrentId} {written : Block} {r : BlockWrite File}
    (hs : Serves (.writeBlock t block) (.write r)) (hb : (BlockJob.write r).Bounded)
    (hlen : block.blockData.length < memoryBound) (h : answerOf (.write r) = .pieceWritten t' written) :
    t' = t ∧ written = block := by
  obtain ⟨htorrent, hmeta, hdata⟩ := hs
  cases r with
  | single m b =>
    unfold answerOf BlockJob.finalize BlockWrite.finalize at h
    split at h
    · cases h
    · cases h
    · rename_i heq
      simp only at heq
      split at heq
      · cases heq
        cases h
        refine ⟨htorrent, ?_⟩
        rw [show m = block.metadata from hmeta, show b.block = block.blockData from hdata]
      · cases heq
    · cases h
  | overlap id m bs =>
    -- the first part is found invalid
    obtain ⟨hne, hparts⟩ := hdata
    obtain ⟨b, hbs⟩ := List.exists_mem_of_ne_nil bs hne
    have hbad : bitNot b.written ≠ b.block.length := by
      refine not_all_valid (hb b hbs) ?_
      exact Nat.lt_of_le_of_lt (hparts b hbs).length_le hlen
    have hinvalid : (collectParts (bs.map fun b => (b.written, b.block.length, b.block)) true []).1 = false := by
      rw [collectParts_fst, Bool.true_and, List.all_eq_false]
      exact ⟨_, List.mem_map_of_mem hbs, by simpa using hbad⟩
    unfold answerOf BlockJob.finalize BlockWrite.finalize at h
    simp only [hinvalid, Bool.false_eq_true, if_false] at h
    cases h

/-! ## the invariant -/

theorem isGoodPiece_iff {sha1 : List UInt8 → ShaHash} {dm : DiskManager File World} {t : TorrentId}
    {block : Block} : dm.isGoodPiece sha1 t block = true ↔ ∃ F, dm.torrents.lookup t = some F ∧
      F.metaInfo.info.pieces[block.metadata.pieceIndex]? = some (sha1 block.blockData) := by
  unfold isGoodPiece
  cases hF : dm.torrents.lookup t with
  | none => simp
  | some F =>
    unfold TorrentFile.isGoodPiece
    cases hp : F.metaInfo.info.pieces[block.metadata.pieceIndex]? with
    | none => simp [hp]
    | some pieceHash => simp [hp, eq_comm]

/-- the block `block` was handed in for the torrent `t` and is good -/
def Checked (sha1 : List UInt8 → ShaHash) (ins : List DiskMessageIn) (dm : DiskManager File World)
    (t : TorrentId) (block : Block) : Prop :=
  .writeBlock t block ∈ ins ∧ dm.isGoodPiece sha1 t block = true

/-- every active write is for a checked block, and so is every write reported -/
structure Verified (sha1 : List UInt8 → ShaHash) (ins : List DiskMessageIn) (outs : List DiskMessageOut)
    (dm : DiskManager File World) : Prop where
  jobs : ∀ r, .write r ∈ dm.activeBlocks → (BlockJob.write r).Bounded ∧
    ∃ block, Checked sha1 ins dm r.torrent block ∧ Serves (.writeBlock r.torrent block) (.write r)
  written : ∀ t block, .pieceWritten t block ∈ outs → Checked sha1 ins dm t block

variable {sha1 : List UInt8 → ShaHash} {order : Arrangement FileEntry} {dm dm' : DiskManager File World}
  {ins : List DiskMessageIn} {outs : List DiskMessageOut}

theorem Checked.moved {t : TorrentId} {block : Block} (hc : Checked sha1 ins dm t block)
    (ha : Accounted ins outs dm) {op : DiskOp} {out : Option DiskMessageOut} (h : Moved fs sha1 dm op out dm') :
    Checked sha1 (ins ++ op.message.toList) dm' t block := by
  obtain ⟨F, hF, hgood⟩ := isGoodPiece_iff.mp hc.2
  exact ⟨List.mem_append_left _ hc.1, isGoodPiece_iff.mpr ⟨F, ha.lookup_kept h hF, hgood⟩⟩

/-- a new job has written nothing -/
theorem bounded_jobFor {files : List (FileWindow × BlockFile File)} {msg : DiskMessageIn} {job : BlockJob File}
    (h : jobFor files msg = some job) : job.Bounded := by
  cases msg with
  | readBlock id m =>
    simp only [jobFor] at h
    split at h <;> cases h <;> trivial
  | writeBlock id block =>
    simp only [jobFor] at h
    split at h
    · cases h
      trivial
    · obtain ⟨bs, hbs, h⟩ := Option.map_eq_some_iff.mp h
      cases h
      intro b hb
      rw [((fragments_spec hbs).2 b hb).2.1]
      exact Nat.zero_le _
  | _ => cases h

/-- a polled write is still for its checked block -/
theorem Verified.polled (hfs : fs.HonestWrites) (hv : Verified sha1 ins outs dm) {job : BlockJob File}
    (hjob : job ∈ dm.activeBlocks) {p : Poll (Except Err Unit)} {r : BlockWrite File} {w : World}
    (h : job.poll fs dm.world = some (p, .write r, w)) : (BlockJob.write r).Bounded ∧
      ∃ block, Checked sha1 ins dm r.torrent block ∧ Serves (.writeBlock r.torrent block) (.write r) := by
  have hcont := BlockJob.continues_poll h
  obtain ⟨r0, rfl, htorrent, -⟩ := hcont.write
  obtain ⟨hbounded, block, hchecked, hserves⟩ := hv.jobs r0 hjob
  rw [htorrent]
  exact ⟨BlockJob.bounded_poll hfs hbounded h, block, hchecked, hserves.continues hcont⟩

/-- the active writes after a move: those before it, one of them some bytes later, or a new one for a block that
was found good -/
theorem Verified.jobs_moved (hfs : fs.HonestWrites) (hv : Verified sha1 ins outs dm) (ha : Accounted ins outs dm)
    {op : DiskOp} {out : Option DiskMessageOut} (h : Moved fs sha1 dm op out dm') (r : BlockWrite File)
    (hr : .write r ∈ dm'.activeBlocks) : (BlockJob.write r).Bounded ∧
      ∃ block, Checked sha1 ins dm r.torrent block ∧ Serves (.writeBlock r.torrent block) (.write r) := by
  cases h with
  | call h => exact hv.jobs r hr
  | idle h => exact hv.jobs r hr
  | job h =>
    cases h with
    | finished hjobs h => exact hv.jobs r (hjobs.mem_iff.mpr (List.mem_cons_of_mem _ hr))
    | pending hjobs h =>
      rcases List.mem_append.mp hr with hr | hr
      · exact hv.jobs r (hjobs.mem_iff.mpr (List.mem_cons_of_mem _ hr))
      · rw [← List.mem_singleton.mp hr] at h
        exact hv.polled hfs (hjobs.mem_iff.mpr List.mem_cons_self) h
  | @message order msg queue _ _ hq h =>
    cases h with
    | removed =>
      obtain ⟨op, hop⟩ := ha.called _ (ha.ledger.mem_calls (by rw [hq]; exact List.mem_cons_self))
      cases op <;> cases hop
    | refused hmsg h =>
      rw [h.frame.activeBlocks] at hr
      exact hv.jobs r hr
    | requeued hmsg hgood h =>
      rw [show (DiskManager.push _ msg).activeBlocks = _ from h.frame.activeBlocks] at hr
      exact hv.jobs r hr
    | @started _ id _ files job dm1 hmsg hgood h hjob =>
      rcases List.mem_append.mp hr with hr | hr
      · rw [h.frame.activeBlocks] at hr
        exact hv.jobs r hr
      · rw [← List.mem_singleton.mp hr] at hjob
        obtain ⟨hne, hown⟩ := h.torrent_of_mem fun F hF => (ha.filed id F hF).1
        have hserves := serves_jobFor hmsg hne hown hjob
        refine ⟨bounded_jobFor hjob, ?_⟩
        cases msg with
        | writeBlock id' block =>
          cases hmsg
          have hmem : .writeBlock id block ∈ ins := ha.ledger.mem_calls (by rw [hq]; exact List.mem_cons_self)
          rw [hserves.1]
          exact ⟨block, ⟨hmem, hgood block rfl⟩, hserves⟩
        | _ => cases hserves
    | _ => exact hv.jobs r hr

/-- no message is answered with a piece written -/
theorem Handled.not_pieceWritten {msg : DiskMessageIn} {r : Option (Poll DiskMessageOut)}
    (h : Handled fs sha1 order dm msg r dm') (t : TorrentId) (block : Block) :
    r.bind Poll.answer ≠ some (.pieceWritten t block) := by
  intro heq
  cases h with
  | removed =>
    unfold DiskManager.removeTorrent at heq
    split at heq <;> cases heq
  | refused hmsg h => cases msg <;> cases heq
  | _ => cases heq

/-- a piece is reported written by the end of a write job only -/
theorem Verified.written_moved (hfs : fs.HonestWrites) (hv : Verified sha1 ins outs dm)
    (hlen : ∀ t block, .writeBlock t block ∈ ins → block.blockData.length < memoryBound) {op : DiskOp}
    {t : TorrentId} {block : Block} (h : Moved fs sha1 dm op (some (.pieceWritten t block)) dm') :
    Checked sha1 ins dm t block := by
  generalize hout : some (DiskMessageOut.pieceWritten t block) = out at h
  cases h with
  | call h => cases hout
  | idle h => cases hout
  | message hq h => exact (h.not_pieceWritten t block hout.symm).elim
  | job h =>
    cases h with
    | pending hjobs h => cases hout
    | @finished job rest job' w e hjobs h =>
      cases job' with
      | read r => rcases answerOf_read r with ⟨data, ha⟩ | ha <;> rw [ha] at hout <;> cases hout
      | write r =>
        obtain ⟨hbounded, block', hchecked, hserves⟩ := hv.polled hfs (hjobs.mem_iff.mpr List.mem_cons_self) h
        obtain ⟨rfl, rfl⟩ := answerOf_pieceWritten hserves hbounded (hlen _ _ hchecked.1) (Option.some.inj hout).symm
        exact hchecked

theorem Verified.moved (hfs : fs.HonestWrites) (hv : Verified sha1 ins outs dm) (ha : Accounted ins outs dm)
    (hlen : ∀ t block, .writeBlock t block ∈ ins → block.blockData.length < memoryBound) {op : DiskOp}
    {out : Option DiskMessageOut} (h : Moved fs sha1 dm op out dm') :
    Verified sha1 (ins ++ op.message.toList) (outs ++ out.toList) dm' := by
  refine ⟨?_, ?_⟩
  · intro r hr
    obtain ⟨hbounded, block, hchecked, hserves⟩ := hv.jobs_moved hfs ha h r hr
    exact ⟨hbounded, block, hchecked.moved ha h, hserves⟩
  · intro t block hmem
    rcases List.mem_append.mp hmem with hmem | hmem
    · exact (hv.written t block hmem).moved ha h
    · rw [Option.mem_toList] at hmem
      cases hmem
      exact (hv.written_moved hfs hlen h).moved ha h

end DiskManager

end

namespace DiskManager
variable {File World Err : Type}

/-- **Only verified data is reported written.**  Every active write was made from a block handed in for its
torrent whose SHA-1 is the one listed for its piece, and every `PieceWritten` carries such a block. -/
theorem written_verified (fs : FileSystem File World Err) (hfs : fs.HonestWrites) (sha1 : List UInt8 → ShaHash)
    (world : World) (capacity : Nat) (ops : List DiskOp)
    (hlen : ∀ t block, .writeBlock t block ∈ calls ops → block.blockData.length < memoryBound)
    (dm : DiskManager File World) (h : exec (next fs sha1) (some (withCapacity world capacity)) ops = some dm) :
    (∀ r, .write r ∈ dm.activeBlocks → ∃ block F,
      .writeBlock r.torrent block ∈ calls ops ∧ Serves (.writeBlock r.torrent block) (.write r) ∧
      dm.torrents.lookup r.torrent = some F ∧
      F.metaInfo.info.pieces[block.metadata.pieceIndex]? = some (sha1 block.blockData)) ∧
    ∀ t block, .pieceWritten t block ∈ answers fs sha1 (some (withCapacity world capacity)) ops → ∃ F,
      .writeBlock t block ∈ calls ops ∧ dm.torrents.lookup t = some F ∧
      F.metaInfo.info.pieces[block.metadata.pieceIndex]? = some (sha1 block.blockData) := by
  have hv : Accounted (calls ops) (answers fs sha1 (some (withCapacity world capacity)) ops) dm ∧
      Verified sha1 (calls ops) (answers fs sha1 (some (withCapacity world capacity)) ops) dm := by
    refine run_inv (I := fun ins outs dm => (∀ t block, .writeBlock t block ∈ ins →
      block.blockData.length < memoryBound) → Accounted ins outs dm ∧ Verified sha1 ins outs dm) ?_ ?_ h hlen
    · intro ins outs dm op out dm' hI hm hlen'
      have hlen'' : ∀ t block, .writeBlock t block ∈ ins → block.blockData.length < memoryBound :=
        fun t block hmem => hlen' t block (List.mem_append_left _ hmem)
      obtain ⟨ha, hv⟩ := hI hlen''
      exact ⟨ha.moved hm, hv.moved hfs ha hlen'' hm⟩
    · intro _
      refine ⟨accounted_withCapacity world capacity, ?_, ?_⟩
      · intro r hr
        cases hr
      · intro t block hmem
        cases hmem
  obtain ⟨-, hjobs, hwritten⟩ := hv
  constructor
  · intro r hr
    obtain ⟨-, block, hchecked, hserves⟩ := hjobs r hr
    obtain ⟨F, hF, hgood⟩ := isGoodPiece_iff.mp hchecked.2
    exact ⟨block, F, hchecked.1, hserves, hF, hgood⟩
  · intro t block hmem
    have hchecked := hwritten t block hmem
    obtain ⟨F, hF, hgood⟩ := isGoodPiece_iff.mp hchecked.2
    exact ⟨F, hchecked.1, hF, hgood⟩

/-- the byte `1` is written to its file -/
def oneWrite : List DiskOp :=
  [.addTorrent ⟨0⟩ oneByte, .writeBlock ⟨0⟩ ⟨⟨0, 0, 1⟩, [1]⟩, .pollMessage .same, .pollMessage .same, .pollJob 0]

theorem honestWrites_instantDisk : instantDisk.HonestWrites := by
  intro f bytes w n f' w' h
  cases h
  exact Nat.le_refl _

theorem written_verified_one_write :
    .pieceWritten ⟨0⟩ ⟨⟨0, 0, 1⟩, [1]⟩ ∈ answers instantDisk firstByte (some (withCapacity () 100)) oneWrite ∧
      ∃ dm, exec (next instantDisk firstByte) (some (withCapacity () 100)) oneWrite = some dm ∧ ∃ F,
        DiskMessageIn.writeBlock ⟨0⟩ ⟨⟨0, 0, 1⟩, [1]⟩ ∈ calls oneWrite ∧ dm.torrents.lookup ⟨0⟩ = some F ∧
        F.metaInfo.info.pieces[0]? = some (firstByte [1]) := by
  have hmem : .pieceWritten ⟨0⟩ ⟨⟨0, 0, 1⟩, [1]⟩
      ∈ answers instantDisk firstByte (some (withCapacity () 100)) oneWrite := by decide
  have hlen : ∀ t block, .writeBlock t block ∈ calls oneWrite → block.blockData.length < memoryBound := by
    intro t block hcall
    have heq : DiskMessageIn.writeBlock t block = .writeBlock ⟨0⟩ ⟨⟨0, 0, 1⟩, [1]⟩ := by
      simpa [calls, oneWrite, DiskOp.message] using hcall
    cases heq
    decide
  exact ⟨hmem, _, rfl,
    (written_verified instantDisk honestWrites_instantDisk firstByte () 100 oneWrite hlen _ rfl).2 _ _ hmem⟩

end DiskManager

end Btt
