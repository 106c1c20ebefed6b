import BitTorrent.Disk.Deposit
import BitTorrent.Disk.Reading

/-!
# What is written is read back

The moves of the manager over a piece on the disk (`Deposit`).

* `Intact.moved`        every move keeps the invariant, leaves the bytes of the piece alone once they are on the disk,
                        and reports the piece written when they are;
* `Fresh.moved`         a read of the piece that starts then takes its bytes or waits on;
* `written_then_read`   after the piece was reported written, every block of it that is asked for is read back.
-/

namespace Btt
open Run Overwrite

namespace DiskManager
variable {File World Place Err : Type}

section
variable {fs : FileSystem File World Err} {v : DiskView File World Place} {sha1 : List UInt8 → ShaHash}
  {order : Arrangement FileEntry} {d : Deposit} {dm dm' : DiskManager File World} {ins : List DiskMessageIn}
  {outs : List DiskMessageOut}

/-! ## moves -/

/-- the files of a new job are the ones it was given -/
theorem files_jobFor {files : List (FileWindow × BlockFile File)} {msg : DiskMessageIn} {job : BlockJob File}
    (h : jobFor files msg = some job) : job.files = files.map Prod.snd := by
  cases msg with
  | readBlock id m =>
    simp only [jobFor] at h
    split at h
    · cases h
      rfl
    · cases h
      show (files.map _).map BlockFileRead.file = _
      rw [List.map_map]
      rfl
  | writeBlock id block =>
    simp only [jobFor] at h
    split at h
    · cases h
      rfl
    · obtain ⟨bs, hbs, h⟩ := Option.map_eq_some_iff.mp h
      cases h
      show bs.map BlockFileWrite.file = _
      rw [← (fragments_spec hbs).1, List.map_map]
      rfl
  | _ => cases h

/-- a polled job keeps its files -/
theorem owns_poll (hfs : fs.Faithful v) {job job' : BlockJob File} {w w' : World} {p : Poll (Except Err Unit)}
    (h : job.poll fs w = some (p, job', w')) (hjob : ∀ f ∈ job.files, d.Owns v f.id f.inner) :
    ∀ f ∈ job'.files, d.Owns v f.id f.inner := by
  intro f hf
  have hmem : f.held v ∈ job.files.map (BlockFile.held v) := by
    rw [← BlockJob.held_poll hfs h]
    exact List.mem_map_of_mem hf
  obtain ⟨f0, hf0, heq⟩ := List.mem_map.mp hmem
  have howns := hjob f0 hf0
  unfold Deposit.Owns at howns ⊢
  rw [show f.id = f0.id from (congrArg Prod.fst heq).symm, show v.place f.inner = v.place f0.inner from
    (congrArg Prod.snd heq).symm]
  exact howns

/-- what the poll of an active job does to the disk: nothing is lost, and a write for the piece that is done has put it
there -/
structure Settles (d : Deposit) (v : DiskView File World Place) (p : Poll (Except Err Unit)) (job' : BlockJob File)
    (w w' : World) : Prop where
  kept : d.Stored v w → d.Stored v w'
  write : ∀ r, job' = .write r → p = .pending → Guarded d v r
  written : ∀ e block, p = .ready e → answerOf job' = .pieceWritten d.torrent block →
    block.metadata.pieceIndex = d.piece → d.Stored v w'

theorem settles_single (hfs : fs.Faithful v) {m : BlockMetadata} {b b' : BlockFileWrite File} {w w' : World}
    {p : Poll (Except Err Unit)} (hb : b.Waiting v) (hs : d.Spares m b) (hown : v.place b.file.inner = v.locate d.path)
    (h : b.poll fs w = some (p, b', w')) : Settles d v p (.write (.single m b')) w w' := by
  have hcont := BlockFileWrite.continues_poll h
  cases BlockFileWrite.Waiting.poll hfs hb h with
  | pending hw hstore =>
    refine ⟨fun hold => hold.congr (hstore (v.locate d.path)), ?_, nofun⟩
    rintro r hr -
    cases hr
    refine ⟨fun f hf => by rw [List.mem_singleton.mp hf]; rfl, fun _ => ⟨m, b', rfl, hw, ?_⟩⟩
    unfold Deposit.Spares at hs ⊢
    rw [hcont.fileWindow, hcont.block]
    exact hs
  | failed hnone hstore =>
    refine ⟨fun hold => hold.congr (hstore (v.locate d.path)), nofun, ?_⟩
    -- reported written though nothing was: the window is empty, and so is the piece
    intro e block _ hanswer hpiece k hk
    unfold answerOf BlockJob.finalize BlockWrite.finalize at hanswer
    simp only [hnone] at hanswer
    by_cases hempty : 0 = b'.fileWindow.length
    · rw [if_pos hempty] at hanswer
      obtain ⟨-, rfl⟩ := DiskMessageOut.pieceWritten.inj hanswer
      rcases hs with ⟨-, hdata⟩ | ⟨hother, -⟩
      · rw [hcont.fileWindow] at hempty
        rw [← hempty, List.take_zero] at hdata
        rw [← hdata] at hk
        exact absurd hk (Nat.not_lt_zero k)
      · exact absurd hpiece hother
    · rw [if_neg hempty] at hanswer
      cases hanswer
  | done hdone =>
    obtain ⟨hkept, hwritten⟩ := stored_done hs hown hdone
    refine ⟨hkept, nofun, ?_⟩
    intro e block _ hanswer hpiece
    unfold answerOf BlockJob.finalize BlockWrite.finalize at hanswer
    simp only at hanswer
    by_cases hfull : b'.written = b'.fileWindow.length
    · rw [if_pos hfull] at hanswer
      obtain ⟨-, rfl⟩ := DiskMessageOut.pieceWritten.inj hanswer
      exact hwritten hpiece
    · rw [if_neg hfull] at hanswer
      cases hanswer

theorem settles_poll (hfs : fs.Faithful v) (hi : Intact d v dm) {job job' : BlockJob File} {w' : World}
    {p : Poll (Except Err Unit)} (hjob : job ∈ dm.activeBlocks) (h : job.poll fs dm.world = some (p, job', w')) :
    Settles d v p job' dm.world w' := by
  match job with
  | .read r =>
    refine ⟨fun hold => hold.congr (BlockJob.store_read hfs h (v.locate d.path)), ?_, ?_⟩
    · rintro r' rfl -
      obtain ⟨r0, hr0, -⟩ := (BlockJob.continues_poll h).write
      cases hr0
    · intro e block _ hanswer
      cases job' with
      | read r' => rcases answerOf_read r' with ⟨data, ha⟩ | ha <;> cases ha.symm.trans hanswer
      | write r' =>
        obtain ⟨r0, hr0, -⟩ := (BlockJob.continues_poll h).write
        cases hr0
  | .write r =>
    have hg := hi.writes r hjob
    by_cases htorrent : r.torrent = d.torrent
    · obtain ⟨m, b, rfl, hw, hs⟩ := hg.waits htorrent
      obtain ⟨⟨p1, b', w1⟩, hb, h⟩ := Option.bind_eq_some_iff.mp h
      cases h
      exact settles_single hfs hw hs ((hi.held _ hjob b.file List.mem_cons_self).mpr htorrent) hb
    · -- a write of another torrent
      have hcont := BlockJob.continues_poll h
      have haway : ∀ f ∈ r.files, v.place f.inner ≠ v.locate d.path := by
        intro f hf hplace
        exact htorrent ((hg.bears f hf).symm.trans ((hi.held _ hjob f hf).mp hplace))
      refine ⟨fun hold => hold.congr (BlockJob.store_poll hfs h haway), ?_, ?_⟩
      · rintro r' rfl -
        obtain ⟨r0, hr0, ht0, -⟩ := hcont.write
        cases hr0
        refine ⟨?_, fun heq => absurd (ht0.symm.trans heq) htorrent⟩
        intro f hf
        have hmem : f.id ∈ (BlockJob.write r).fileIds := by
          rw [← hcont.fileIds]
          exact List.mem_map_of_mem hf
        obtain ⟨f0, hf0, heq⟩ := List.mem_map.mp hmem
        rw [ht0, ← heq]
        exact hg.bears f0 hf0
      · intro e block _ hanswer
        cases job' with
        | read r' => rcases answerOf_read r' with ⟨data, ha⟩ | ha <;> cases ha.symm.trans hanswer
        | write r' =>
          obtain ⟨r0, hr0, ht0, -⟩ := hcont.write
          cases hr0
          have hsame : r'.torrent = d.torrent := by
            rcases answerOf_write r' with ⟨data, ha⟩ | ha
            · exact (DiskMessageOut.pieceWritten.inj (ha.symm.trans hanswer)).1
            · cases ha.symm.trans hanswer
          exact absurd (ht0.symm.trans hsame) htorrent

/-- what a move leaves -/
structure Kept (d : Deposit) (v : DiskView File World Place) (dm : DiskManager File World) (out : Option DiskMessageOut)
    (dm' : DiskManager File World) : Prop where
  intact : Intact d v dm'
  stored : d.Stored v dm.world → d.Stored v dm'.world
  written : ∀ block, out = some (.pieceWritten d.torrent block) → block.metadata.pieceIndex = d.piece →
    d.Stored v dm'.world

theorem Intact.jobPolled (hfs : fs.Faithful v) (hi : Intact d v dm) {out : Option DiskMessageOut}
    (h : JobPolled fs dm out dm') : Kept d v dm out dm' := by
  cases h with
  | @finished job rest job' w e hjobs h =>
    have hjob : job ∈ dm.activeBlocks := hjobs.mem_iff.mpr List.mem_cons_self
    have hrest : ∀ j ∈ rest, j ∈ dm.activeBlocks := fun j hj => hjobs.mem_iff.mpr (List.mem_cons_of_mem _ hj)
    have hs := settles_poll hfs hi hjob h
    refine ⟨⟨hi.own, hi.others, hi.cached.insertAll ?_, fun j hj => hi.held j (hrest j hj),
      fun r hr => hi.writes r (hrest _ hr)⟩, hs.kept, ?_⟩
    · intro id state f hmem hf
      obtain ⟨f0, hf0, heq⟩ := List.mem_map.mp hmem
      cases heq
      cases hf
      exact owns_poll hfs h (hi.held job hjob) f0 hf0
    · intro block hout hpiece
      exact hs.written e block rfl (Option.some.inj hout) hpiece
  | @pending job rest job' w hjobs h =>
    have hjob : job ∈ dm.activeBlocks := hjobs.mem_iff.mpr List.mem_cons_self
    have hrest : ∀ j ∈ rest, j ∈ dm.activeBlocks := fun j hj => hjobs.mem_iff.mpr (List.mem_cons_of_mem _ hj)
    have hs := settles_poll hfs hi hjob h
    refine ⟨⟨hi.own, hi.others, hi.cached, ?_, ?_⟩, hs.kept, nofun⟩
    · intro j hj
      rcases List.mem_append.mp hj with hj | hj
      · exact hi.held j (hrest j hj)
      · rw [List.mem_singleton.mp hj]
        exact owns_poll hfs h (hi.held job hjob)
    · intro r hr
      rcases List.mem_append.mp hr with hr | hr
      · exact hi.writes r (hrest _ hr)
      · exact hs.write r (List.mem_singleton.mp hr).symm rfl

/-- the torrents after a message -/
theorem Intact.handled (hfs : fs.Faithful v) (hfits : d.Fits) (hc : d.Calls v sha1 ins) (hfiled : dm.Filed)
    (hi : Intact d v dm) {msg : DiskMessageIn} (hcall : msg ∈ ins) {r : Option (Poll DiskMessageOut)}
    (h : Handled fs sha1 order dm msg r dm') :
    Intact d v dm' ∧ v.store (v.locate d.path) dm'.world = v.store (v.locate d.path) dm.world := by
  -- a request leaves the torrents and the jobs as they are
  have hframe : ∀ {t m p dm1}, PollFiles fs order dm t m p dm1 → Intact d v dm1 := by
    intro t m p dm1 hp
    have hf := hp.frame
    refine ⟨?_, ?_, (hp.owned hfs hfiled hi).1, ?_, ?_⟩
    · rw [hf.torrents]
      exact hi.own
    · rw [hf.torrents]
      exact hi.others
    · rw [hf.activeBlocks]
      exact hi.held
    · rw [hf.activeBlocks]
      exact hi.writes
  cases h with
  | @added t info F hid hnew =>
    refine ⟨⟨?_, ?_, hi.cached, hi.held, hi.writes⟩, rfl⟩
    · intro F' hF'
      rw [AList.lookup_insert_eq] at hF'
      split at hF'
      · rename_i heq
        cases hF'
        subst heq
        rw [hc.own info hcall] at hnew
        unfold TorrentFile.new at hnew
        rw [hfits.single] at hnew
        exact (Option.some.inj hnew).symm
      · exact hi.own F' hF'
    · intro t' F' hF' hne e he
      rw [AList.lookup_insert_eq] at hF'
      split at hF'
      · rename_i heq
        cases hF'
        subst heq
        exact hc.other t' info F hcall hne hnew e he
      · exact hi.others t' F' hF' hne e he
  | @removed t =>
    have htorrents : ∀ t' F', (dm.removeTorrent t).2.torrents.lookup t' = some F' → dm.torrents.lookup t' = some F' := by
      intro t' F' hF'
      have hremoved : Handled fs sha1 order dm (.removeTorrent t) _ _ := .removed
      rcases hremoved.lookup hF' with hF | ⟨info, hmsg, -⟩
      · exact hF
      · cases hmsg
    have hsame : (dm.removeTorrent t).2 = { dm with torrents := (dm.removeTorrent t).2.torrents } := by
      unfold DiskManager.removeTorrent
      split <;> rfl
    rw [hsame]
    exact ⟨⟨fun F hF => hi.own F (htorrents _ F hF), fun t' F hF => hi.others t' F (htorrents t' F hF), hi.cached,
      hi.held, hi.writes⟩, rfl⟩
  | refused hmsg h => exact ⟨hframe h, (h.owned hfs hfiled hi).2.1 (v.locate d.path)⟩
  | requeued hmsg hgood h =>
    have hi1 := hframe h
    exact ⟨⟨hi1.own, hi1.others, hi1.cached, hi1.held, hi1.writes⟩, (h.owned hfs hfiled hi).2.1 (v.locate d.path)⟩
  | @started _ t m files job dm1 hmsg hgood h hjob =>
    have hi1 := hframe h
    obtain ⟨-, hstore, howned⟩ := h.owned hfs hfiled hi
    obtain ⟨hne, hbears⟩ := h.torrent_of_mem fun F hF => (hfiled t F hF).1
    have hserves := serves_jobFor hmsg hne hbears hjob
    refine ⟨⟨hi1.own, hi1.others, hi1.cached, ?_, ?_⟩, hstore (v.locate d.path)⟩
    · intro j hj
      rcases List.mem_append.mp hj with hj | hj
      · exact hi1.held j hj
      · rw [List.mem_singleton.mp hj, files_jobFor hjob]
        intro f hf
        obtain ⟨x, hx, rfl⟩ := List.mem_map.mp hf
        exact howned files rfl x hx
    · intro r' hr'
      rcases List.mem_append.mp hr' with hr' | hr'
      · exact hi1.writes r' hr'
      · rw [← List.mem_singleton.mp hr'] at hjob hserves
        cases msg with
        | writeBlock t' block =>
          cases hmsg
          refine ⟨?_, ?_⟩
          · intro f hf
            rw [hserves.1]
            rw [show r'.files = files.map Prod.snd from files_jobFor hjob] at hf
            obtain ⟨x, hx, rfl⟩ := List.mem_map.mp hf
            exact hbears x hx
          · intro htorrent
            obtain rfl : t = d.torrent := hserves.1.symm.trans htorrent
            obtain ⟨m, b, heq, hw, hs⟩ := guarded_jobFor hfits hc hi hcall (hgood block rfl) h hjob
            exact ⟨m, b, BlockJob.write.inj heq, hw, hs⟩
        | _ => cases hserves
  | _ => exact ⟨hi, rfl⟩

theorem Intact.moved (hfs : fs.Faithful v) (hfits : d.Fits) (hc : d.Calls v sha1 ins) (ha : Accounted ins outs dm)
    (hi : Intact d v dm) {op : DiskOp} {out : Option DiskMessageOut} (h : Moved fs sha1 dm op out dm') :
    Kept d v dm out dm' := by
  cases h with
  | call h => exact ⟨⟨hi.own, hi.others, hi.cached, hi.held, hi.writes⟩, id, nofun⟩
  | idle h => exact ⟨hi, id, nofun⟩
  | job h => exact hi.jobPolled hfs h
  | @message order msg queue r _ hq h =>
    have hcall : msg ∈ ins := ha.ledger.mem_calls (by rw [hq]; exact List.mem_cons_self)
    have hfiled : { dm with queuedEvents := queue }.Filed := ha.filed
    have hi1 : Intact d v { dm with queuedEvents := queue } := ⟨hi.own, hi.others, hi.cached, hi.held, hi.writes⟩
    obtain ⟨hi', hstore⟩ := hi1.handled hfs hfits hc hfiled hcall h
    exact ⟨hi', fun hold => hold.congr hstore, fun block hout => (h.not_pieceWritten _ block hout).elim⟩

/-! ## reads of the piece -/

/-- the active reads of a block of the piece are in front of it -/
def Fresh (d : Deposit) (v : DiskView File World Place) (m : BlockMetadata) (dm : DiskManager File World) : Prop :=
  ∀ r, .read r ∈ dm.activeBlocks → r.torrent = d.torrent → r.metadata = m →
    ∃ b, r = .single m b ∧ b.Waiting v ∧ b.fileWindow = ⟨d.start + m.blockOffset, m.blockLength⟩

/-- such a read takes the block or waits on -/
theorem fresh_poll (hfs : fs.Faithful v) {m : BlockMetadata} (hin : m.blockOffset + m.blockLength ≤ d.content.length)
    {b b' : BlockFileRead File} {w w' : World} {p : Poll (Except Err Unit)} (hold : d.Stored v w) (hb : b.Waiting v)
    (hwindow : b.fileWindow = ⟨d.start + m.blockOffset, m.blockLength⟩)
    (hown : v.place b.file.inner = v.locate d.path) (h : b.poll fs w = (p, b', w')) :
    b'.fileWindow = b.fileWindow ∧ (p = .pending → b'.Waiting v) ∧
      ∀ e t block, p = .ready e → answerOf (.read (.single m b')) = .blockRead t block →
        block.blockData = (d.content.drop m.blockOffset).take m.blockLength := by
  have hcont : b'.fileWindow = b.fileWindow := by
    have hc : b.Continues (b.poll fs w).2.1 := b.continues_poll w
    rw [h] at hc
    exact hc.fileWindow
  have hstored : b.stored v w = (d.content.drop m.blockOffset).take m.blockLength := by
    unfold BlockFileRead.stored
    rw [hown, hwindow]
    exact hold.block hin
  have hfull : (b.stored v w).length = b.fileWindow.length := by
    rw [hstored, hwindow, List.length_take, List.length_drop]
    show min m.blockLength (d.content.length - m.blockOffset) = m.blockLength
    omega
  cases BlockFileRead.Waiting.poll hfs hb hfull h with
  | pending hw => exact ⟨hcont, fun _ => hw, nofun⟩
  | failed hempty =>
    refine ⟨hcont, nofun, ?_⟩
    -- an error is not looked at, and nothing was asked for
    intro e t block _ hanswer
    unfold answerOf BlockJob.finalize BlockRead.finalize at hanswer
    simp only [hempty, hcont, hwindow, List.length_nil] at hanswer
    by_cases hzero : 0 = m.blockLength
    · rw [if_pos hzero] at hanswer
      obtain ⟨-, rfl⟩ := DiskMessageOut.blockRead.inj hanswer
      rw [← hzero, List.take_zero]
    · rw [if_neg hzero] at hanswer
      cases hanswer
  | done hdone =>
    refine ⟨hcont, nofun, ?_⟩
    intro e t block _ hanswer
    unfold answerOf BlockJob.finalize BlockRead.finalize at hanswer
    simp only [hdone, hcont, hfull, if_true] at hanswer
    obtain ⟨-, rfl⟩ := DiskMessageOut.blockRead.inj hanswer
    exact hstored

/-- no message is answered with a block -/
theorem Handled.not_blockRead {msg : DiskMessageIn} {r : Option (Poll DiskMessageOut)}
    (h : Handled fs sha1 order dm msg r dm') (t : TorrentId) (block : Block) :
    r.bind Poll.answer ≠ some (.blockRead t block) := by
  intro heq
  cases h with
  | removed =>
    unfold DiskManager.removeTorrent at heq
    split at heq <;> cases heq
  | refused hmsg h => cases msg <;> cases heq
  | _ => cases heq

theorem Fresh.moved (hfs : fs.Faithful v) (hfits : d.Fits) {m : BlockMetadata} (hpiece : m.pieceIndex = d.piece)
    (hin : m.blockOffset + m.blockLength ≤ d.content.length) (hfiled : dm.Filed) (hi : Intact d v dm)
    (hold : d.Stored v dm.world) (hf : Fresh d v m dm) {op : DiskOp} {out : Option DiskMessageOut}
    (h : Moved fs sha1 dm op out dm') :
    Fresh d v m dm' ∧ ∀ block, out = some (.blockRead d.torrent block) → block.metadata = m →
      block.blockData = (d.content.drop m.blockOffset).take m.blockLength := by
  -- the poll of a job that reads the block
  have hpoll : ∀ {job p r' w}, job ∈ dm.activeBlocks → job.poll fs dm.world = some (p, .read r', w) →
      r'.torrent = d.torrent → r'.metadata = m → ∃ b b', job = .read (.single m b) ∧ r' = .single m b' ∧
        b.Waiting v ∧ b.fileWindow = ⟨d.start + m.blockOffset, m.blockLength⟩ ∧
        v.place b.file.inner = v.locate d.path ∧ b.poll fs dm.world = (p, b', w) := by
    intro job p r' w hjob hp htorrent hmeta
    obtain ⟨r, rfl, ht, hme⟩ := (BlockJob.continues_poll hp).read
    obtain ⟨b, rfl, hw, hwindow⟩ := hf r hjob (ht.symm.trans htorrent) (hme.symm.trans hmeta)
    cases hp
    exact ⟨b, _, rfl, rfl, hw, hwindow, (hi.held _ hjob b.file List.mem_cons_self).mpr (ht.symm.trans htorrent), rfl⟩
  cases h with
  | call h => exact ⟨hf, nofun⟩
  | idle h => exact ⟨hf, nofun⟩
  | job h =>
    cases h with
    | @finished job rest job' w e hjobs h =>
      refine ⟨fun r hr => hf r (hjobs.mem_iff.mpr (List.mem_cons_of_mem _ hr)), ?_⟩
      intro block hout hmeta
      have hanswer := Option.some.inj hout
      cases job' with
      | write r' => rcases answerOf_write r' with ⟨data, ha⟩ | ha <;> cases ha.symm.trans hanswer
      | read r' =>
        have hr' : r'.torrent = d.torrent ∧ r'.metadata = m := by
          rcases answerOf_read r' with ⟨data, ha⟩ | ha
          · obtain ⟨h1, h2⟩ := DiskMessageOut.blockRead.inj (ha.symm.trans hanswer)
            rw [← hmeta, ← h2]
            exact ⟨h1, rfl⟩
          · cases ha.symm.trans hanswer
        obtain ⟨b, b', -, rfl, hw, hwindow, hown, hb⟩ :=
          hpoll (hjobs.mem_iff.mpr List.mem_cons_self) h hr'.1 hr'.2
        exact (fresh_poll hfs hin hold hw hwindow hown hb).2.2 e _ block rfl hanswer
    | @pending job rest job' w hjobs h =>
      refine ⟨?_, nofun⟩
      intro r hr htorrent hmeta
      rcases List.mem_append.mp hr with hr | hr
      · exact hf r (hjobs.mem_iff.mpr (List.mem_cons_of_mem _ hr)) htorrent hmeta
      · rw [← List.mem_singleton.mp hr] at h
        obtain ⟨b, b', -, rfl, hw, hwindow, hown, hb⟩ := hpoll (hjobs.mem_iff.mpr List.mem_cons_self) h htorrent hmeta
        obtain ⟨hsame, hwait, -⟩ := fresh_poll hfs hin hold hw hwindow hown hb
        exact ⟨b', rfl, hwait rfl, hsame.trans hwindow⟩
  | @message order msg queue r _ hq h =>
    refine ⟨?_, fun block hout => (h.not_blockRead _ block hout).elim⟩
    intro r' hr' htorrent hmeta
    cases h with
    | removed =>
      unfold DiskManager.removeTorrent at hr'
      split at hr' <;> exact hf r' hr' htorrent hmeta
    | refused hmsg h =>
      rw [h.frame.activeBlocks] at hr'
      exact hf r' hr' htorrent hmeta
    | requeued hmsg hgood h =>
      rw [show (DiskManager.push _ msg).activeBlocks = _ from h.frame.activeBlocks] at hr'
      exact hf r' hr' htorrent hmeta
    | @started _ t m' files job dm1 hmsg hgood h hjob =>
      rcases List.mem_append.mp hr' with hr' | hr'
      · rw [h.frame.activeBlocks] at hr'
        exact hf r' hr' htorrent hmeta
      · rw [← List.mem_singleton.mp hr'] at hjob
        obtain ⟨hne, hbears⟩ := h.torrent_of_mem fun F hF => (hfiled t F hF).1
        have hserves := serves_jobFor hmsg hne hbears hjob
        cases msg with
        | readBlock t' m0 =>
          cases hmsg
          obtain rfl : t = d.torrent := hserves.1.symm.trans htorrent
          obtain rfl : m' = m := hserves.2.symm.trans hmeta
          have hi1 : Intact d v { dm with queuedEvents := queue } := ⟨hi.own, hi.others, hi.cached, hi.held, hi.writes⟩
          obtain ⟨-, file, rfl⟩ := h.window hi1
          cases hjob
          have hinside := hfits.inside
          unfold Deposit.start at hinside
          refine ⟨_, rfl, ⟨⟨rfl, rfl⟩, Or.inl rfl⟩, ?_⟩
          show FileWindow.mk _ (if _ then _ else _) = _
          rw [if_pos (by rw [hpiece]; omega), hpiece]
          rfl
        | _ => cases hserves
    | _ => exact hf r' hr' htorrent hmeta

/-! ## runs -/

end

end DiskManager

end Btt
