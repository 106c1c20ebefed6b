import BitTorrent.Disk.Accounting
import BitTorrent.Disk.Exclusion

/-!
# The order of requests on one file

A request whose files are not free goes back to the END of the queue, behind requests that came after it.  And a file
that a job holds is free for others once its mark is dropped from the cache.

* `Stamps`, `stamp`     every message of the queue bears the number of the call that put it there; a message
                        that is put back keeps its number;
* `RunsInOrder`         a job is only started when no request that came before it, for the same torrent and a
                        common file, is still queued, and no active job holds one of its files;
* `KeepsOrder`          the guard: no request is put back while a request with a common file is queued;
* `FindsMarks`          and where a request looks for a file that a job holds, the file is marked;
* `runs_in_order`       a run whose steps all meet the guards runs in order.
-/

namespace Btt
open Run

/-- for some order of the files, the two blocks touch a common one -/
def TorrentFile.Shares (F : TorrentFile) (m m' : BlockMetadata) : Prop :=
  ∃ order order' files files', F.filesForBlock order m = some (.ok files) ∧
    F.filesForBlock order' m' = some (.ok files') ∧ ∃ x ∈ files, ∃ y ∈ files', x.1.id = y.1.id

theorem TorrentFile.Shares.symm {F : TorrentFile} {m m' : BlockMetadata} (h : F.Shares m m') : F.Shares m' m := by
  obtain ⟨order, order', files, files', hf, hf', x, hx, y, hy, hxy⟩ := h
  exact ⟨order', order, files', files, hf', hf, y, hy, x, hx, hxy.symm⟩

/-- the numbers of the queued messages, in the order of the queue, and the number of the next call -/
structure Stamps where
  queued : List Nat
  issued : Nat

namespace DiskManager
variable {File World Err : Type}

/-! ## numbers -/

section
variable (fs : FileSystem File World Err) (sha1 : List UInt8 → ShaHash)

/-- what the queue loop does with the message at the head of the queue -/
def turn (order : Arrangement FileEntry) (s : Option (DiskManager File World)) : Option (Option (Poll DiskMessageOut)) :=
  s.bind fun dm => (pollMessage fs sha1 order dm).map Prod.fst

/-- the numbers after a step -/
def stamp (s : Option (DiskManager File World)) (n : Stamps) : DiskOp → Stamps
  | .pollJob _ => n
  | .pollMessage order =>
    match turn fs sha1 order s with
    -- put back
    | some (some .pending) => { n with queued := n.queued.tail ++ n.queued.head?.toList }
    | _ => { n with queued := n.queued.tail }
  | _ => ⟨n.queued ++ [n.issued], n.issued + 1⟩

/-- the numbers after a run -/
def stamps (s : Option (DiskManager File World)) (ops : List DiskOp) : Stamps :=
  (exec (fun (p : Option (DiskManager File World) × Stamps) op => (next fs sha1 p.1 op, stamp fs sha1 p.1 p.2 op))
    (s, ⟨[], 0⟩) ops).2

/-- whenever a job is started, the requests that came before it and touch its files are done with them -/
structure RunsInOrder (s : Option (DiskManager File World)) (ops : List DiskOp) : Prop where
  /-- no request for its torrent with a lower number and a common file is queued -/
  queued : ∀ pre order, pre ++ [.pollMessage order] <+: ops →
    ∀ dm msg queue n ns t m, exec (next fs sha1) s pre = some dm → dm.queuedEvents = msg :: queue →
      (stamps fs sha1 s pre).queued = n :: ns → msg.request = some (t, m) →
      -- the request is not answered and not put back: its job is started
      turn fs sha1 order (some dm) = some none →
      ∀ x ∈ queue.zip ns, ∀ m' F, x.1.request = some (t, m') → x.2 < n → dm.torrents.lookup t = some F →
        ¬ F.Shares m' m
  /-- and no active job holds one of its files: a read finds the writes that came before it done -/
  free : ∀ pre order, pre ++ [.pollMessage order] <+: ops →
    ∀ dm dm' msg queue t m, exec (next fs sha1) s pre = some dm → dm.queuedEvents = msg :: queue →
      msg.request = some (t, m) → turn fs sha1 order (some dm) = some none →
      next fs sha1 (some dm) (.pollMessage order) = some dm' →
      ∃ job, dm'.activeBlocks = dm.activeBlocks ++ [job] ∧ ∀ id ∈ job.fileIds, id ∉ dm.heldIds

/-- **The guard**: no request is put back while another one for its torrent, with a common file, is queued -/
def KeepsOrder (s : Option (DiskManager File World)) (op : DiskOp) : Prop :=
  ∀ dm order msg queue t m, s = some dm → op = .pollMessage order → dm.queuedEvents = msg :: queue →
    msg.request = some (t, m) → turn fs sha1 order s = some (some .pending) →
    ∀ x ∈ queue, ∀ m' F, x.request = some (t, m') → dm.torrents.lookup t = some F → ¬ F.Shares m' m

end

/-- **The guard for the marks**: a file of the request at the head of the queue that a job holds is marked, its mark was
not dropped from the cache -/
def FindsMarks (s : Option (DiskManager File World)) (op : DiskOp) : Prop :=
  ∀ dm order msg queue t m files, s = some dm → op = .pollMessage order → dm.queuedEvents = msg :: queue →
    msg.request = some (t, m) → dm.Touches order t m files →
    ∀ x ∈ files, x.1.id ∈ dm.heldIds → ∃ window, dm.fileCache.lookup x.1.id = some (.busy window)

section
variable {fs : FileSystem File World Err} {sha1 : List UInt8 → ShaHash} {order : Arrangement FileEntry}
  {dm dm' : DiskManager File World}

theorem stamps_snoc (s : Option (DiskManager File World)) (ops : List DiskOp) (op : DiskOp) :
    stamps fs sha1 s (ops ++ [op]) = stamp fs sha1 (exec (next fs sha1) s ops) (stamps fs sha1 s ops) op := by
  have hfst : ∀ (ops : List DiskOp) (p : Option (DiskManager File World) × Stamps),
      (exec (fun (p : Option (DiskManager File World) × Stamps) op =>
        (next fs sha1 p.1 op, stamp fs sha1 p.1 p.2 op)) p ops).1 = exec (next fs sha1) p.1 ops := by
    intro ops
    induction ops with
    | nil => exact fun p => rfl
    | cons op ops ih => exact fun p => ih _
  unfold stamps
  rw [exec_snoc]
  show stamp fs sha1 _ _ op = _
  rw [hfst]

theorem stamp_back {s : Option (DiskManager File World)} (n : Stamps)
    (h : turn fs sha1 order s = some (some .pending)) :
    stamp fs sha1 s n (.pollMessage order) = { n with queued := n.queued.tail ++ n.queued.head?.toList } := by
  simp only [stamp, h]

theorem stamp_gone {s : Option (DiskManager File World)} (n : Stamps)
    (h : turn fs sha1 order s ≠ some (some .pending)) :
    stamp fs sha1 s n (.pollMessage order) = { n with queued := n.queued.tail } := by
  simp only [stamp]

/-! ## the invariant -/

/-- two queued messages, the first one ahead of the second: it came before it, or they have no file in common -/
def InOrder (dm : DiskManager File World) (x y : DiskMessageIn × Nat) : Prop :=
  ∀ t m m', x.1.request = some (t, m) → y.1.request = some (t, m') →
    x.2 < y.2 ∨ ∃ F, dm.torrents.lookup t = some F ∧ ¬ F.Shares m m'

/-- the numbers belong to the queue, are those of the calls, and the queue is in order -/
structure Ordered (ins : List DiskMessageIn) (dm : DiskManager File World) (n : Stamps) : Prop where
  length : n.queued.length = dm.queuedEvents.length
  issued : n.issued = ins.length
  called : ∀ x ∈ dm.queuedEvents.zip n.queued, ins[x.2]? = some x.1
  ordered : (dm.queuedEvents.zip n.queued).Pairwise (InOrder dm)

theorem InOrder.kept {x y : DiskMessageIn × Nat} (h : InOrder dm x y)
    (hkept : ∀ t F, dm.torrents.lookup t = some F → dm'.torrents.lookup t = some F) : InOrder dm' x y := by
  intro t m m' hx hy
  rcases h t m m' hx hy with hlt | ⟨F, hF, hno⟩
  · exact Or.inl hlt
  · exact Or.inr ⟨F, hkept t F hF, hno⟩

section
variable {ins : List DiskMessageIn} {n : Stamps}

theorem Ordered.lt_issued (h : Ordered ins dm n) {x : DiskMessageIn × Nat}
    (hx : x ∈ dm.queuedEvents.zip n.queued) : x.2 < n.issued := by
  rw [h.issued]
  exact (List.getElem?_eq_some_iff.mp (h.called x hx)).1

/-- the queue stays as it is, and no torrent is lost -/
theorem Ordered.kept (h : Ordered ins dm n) (hq : dm'.queuedEvents = dm.queuedEvents)
    (hkept : ∀ t F, dm.torrents.lookup t = some F → dm'.torrents.lookup t = some F) : Ordered ins dm' n := by
  refine ⟨hq ▸ h.length, h.issued, hq ▸ h.called, ?_⟩
  rw [hq]
  exact h.ordered.imp fun hxy => hxy.kept hkept

/-- a message at the end of the queue, in order with the ones ahead of it -/
theorem Ordered.snoc (h : Ordered ins dm n) {msg : DiskMessageIn} {k : Nat} (hk : ins[k]? = some msg)
    (hlast : ∀ x ∈ dm.queuedEvents.zip n.queued, InOrder dm x (msg, k)) :
    Ordered ins (dm.push msg) ⟨n.queued ++ [k], n.issued⟩ := by
  have hzip : (dm.push msg).queuedEvents.zip (n.queued ++ [k]) = dm.queuedEvents.zip n.queued ++ [(msg, k)] :=
    List.zip_append h.length.symm
  refine ⟨?_, h.issued, ?_, ?_⟩
  · show (n.queued ++ [k]).length = (dm.queuedEvents ++ [msg]).length
    rw [List.length_append, List.length_append, h.length, List.length_singleton, List.length_singleton]
  · rw [hzip]
    intro x hx
    rcases List.mem_append.mp hx with hx | hx
    · exact h.called x hx
    · rw [List.mem_singleton.mp hx]
      exact hk
  · rw [hzip, List.pairwise_append]
    refine ⟨h.ordered, List.pairwise_singleton _ _, ?_⟩
    intro x hx y hy
    rw [List.mem_singleton.mp hy]
    exact hlast x hx

/-- a call -/
theorem Ordered.push (h : Ordered ins dm n) (msg : DiskMessageIn) :
    Ordered (ins ++ [msg]) (dm.push msg) ⟨n.queued ++ [n.issued], n.issued + 1⟩ := by
  have hissued : Ordered (ins ++ [msg]) dm ⟨n.queued, n.issued + 1⟩ := by
    refine ⟨h.length, ?_, ?_, h.ordered⟩
    · rw [List.length_append, List.length_singleton, h.issued]
    · intro x hx
      rw [List.getElem?_append_left (h.issued ▸ h.lt_issued hx)]
      exact h.called x hx
  refine hissued.snoc ?_ fun x hx t m m' _ _ => Or.inl (h.lt_issued hx)
  rw [h.issued]
  exact List.getElem?_concat_length

/-- the message at the head, and the rest in order behind it -/
theorem Ordered.pop (h : Ordered ins dm n) {msg : DiskMessageIn} {queue : List DiskMessageIn}
    (hq : dm.queuedEvents = msg :: queue) :
    ∃ k ns, n.queued = k :: ns ∧ ins[k]? = some msg ∧ (∀ x ∈ queue.zip ns, InOrder dm (msg, k) x) ∧
      Ordered ins { dm with queuedEvents := queue } ⟨ns, n.issued⟩ := by
  have hlen := h.length
  rw [hq] at hlen
  cases hn : n.queued with
  | nil =>
    rw [hn] at hlen
    cases hlen
  | cons k ns =>
    have hcalled := h.called
    have hordered := h.ordered
    rw [hq, hn, List.zip_cons_cons] at hcalled hordered
    obtain ⟨hhead, htail⟩ := List.pairwise_cons.mp hordered
    rw [hn, List.length_cons, List.length_cons, Nat.succ_inj] at hlen
    exact ⟨k, ns, rfl, hcalled _ List.mem_cons_self, hhead,
      hlen, h.issued, fun x hx => hcalled x (List.mem_cons_of_mem _ hx), htail⟩

/-- a turn of the queue loop -/
theorem Ordered.turned {outs : List DiskMessageOut} (h : Ordered ins dm n) (ha : Accounted ins outs dm)
    (hguard : KeepsOrder fs sha1 (some dm) (.pollMessage order)) {out : Option DiskMessageOut}
    (hmove : dm.move fs sha1 (.pollMessage order) = some (out, dm')) :
    Ordered ins dm' (stamp fs sha1 (some dm) n (.pollMessage order)) := by
  have hkept : ∀ t F, dm.torrents.lookup t = some F → dm'.torrents.lookup t = some F :=
    fun t F hF => ha.lookup_kept (move_cases hmove) hF
  obtain ⟨⟨r, dm1⟩, hr, heq⟩ := Option.map_eq_some_iff.mp hmove
  cases heq
  have hturn : turn fs sha1 order (some dm) = some r := by
    rw [turn, Option.bind_some, hr, Option.map_some]
  have hpoll := hr
  unfold pollMessage at hpoll
  split at hpoll
  · rename_i hq
    cases hpoll
    have hnil : n.queued = [] := List.eq_nil_of_length_eq_zero (by rw [h.length, hq]; rfl)
    have hsame : n.queued.tail = n.queued := by rw [hnil, List.tail_nil]
    rw [stamp_gone n (by rw [hturn]; intro hback; cases hback), hsame]
    exact h
  · rename_i msg queue hq
    obtain ⟨k, ns, hn, hcall, -, hrest⟩ := h.pop hq
    rcases (handle_cases hpoll).queue with ⟨rfl, hqueue, t, m, F, hreq, hF⟩ | ⟨hne, hqueue⟩
    · -- put back: it has no file in common with any message now ahead of it
      have hstamp : stamp fs sha1 (some dm) n (.pollMessage order) = { n with queued := ns ++ [k] } := by
        rw [stamp_back n hturn, hn]
        rfl
      rw [hstamp]
      refine (hrest.snoc hcall ?_).kept hqueue hkept
      intro x hx t' m1 m2 hxt hyt
      rw [hreq] at hyt
      cases hyt
      refine Or.inr ⟨F, hF, ?_⟩
      exact hguard dm order msg queue t m rfl rfl hq hreq hturn x.1 (List.of_mem_zip hx).1 m1 F hxt hF
    · have hstamp : stamp fs sha1 (some dm) n (.pollMessage order) = { n with queued := ns } := by
        rw [stamp_gone n (by rw [hturn]; exact fun heq => hne (Option.some.inj heq)), hn]
        rfl
      rw [hstamp]
      exact hrest.kept hqueue hkept

/-- **A guarded step keeps the order.** -/
theorem Ordered.moved {outs : List DiskMessageOut} (h : Ordered ins dm n) (ha : Accounted ins outs dm) {op : DiskOp}
    (hguard : KeepsOrder fs sha1 (some dm) op) {out : Option DiskMessageOut}
    (hmove : dm.move fs sha1 op = some (out, dm')) :
    Ordered (ins ++ op.message.toList) dm' (stamp fs sha1 (some dm) n op) := by
  cases op with
  | addTorrent id info =>
    cases hmove
    exact h.push _
  | readBlock id m =>
    cases hmove
    exact h.push _
  | writeBlock id block =>
    cases hmove
    exact h.push _
  | pollJob i =>
    have hjob := pollJob_cases hmove
    show Ordered (ins ++ []) dm' n
    rw [List.append_nil]
    exact h.kept hjob.queuedEvents fun t F hF => hjob.torrents ▸ hF
  | pollMessage order =>
    show Ordered (ins ++ []) dm' _
    rw [List.append_nil]
    exact h.turned ha hguard hmove

end

end

/-! ## the marks -/

section
variable {fs : FileSystem File World Err} {sha1 : List UInt8 → ShaHash} {order : Arrangement FileEntry}
  {dm dm' : DiskManager File World}

/-- a request that gets all its files finds none of them marked -/
theorem takeFiles_free {files : List (FileEntry × FileWindow)} {queued q : List (TorrentFileId × File × FileWindow)}
    {allReady : Bool} (hnd : (files.map fun x => x.1.id).Nodup)
    (h : takeFiles fs files queued allReady dm = (.ok (q, true), dm')) :
    allReady = true ∧ ∀ x ∈ files, ∀ window, dm.fileCache.lookup x.1.id ≠ some (.busy window) := by
  induction files generalizing queued allReady dm with
  | nil =>
    cases h
    exact ⟨rfl, fun x hx => absurd hx List.not_mem_nil⟩
  | cons file files ih =>
    obtain ⟨file, window⟩ := file
    obtain ⟨hnot, hnd⟩ := List.nodup_cons.mp hnd
    -- the file at hand is not marked, and for the others the cache is as it was
    have hrest : ∀ {c : LruCache TorrentFileId (FileState File)},
        (∀ w, dm.fileCache.lookup file.id ≠ some (.busy w)) →
        (∀ id, id ≠ file.id → c.lookup id = dm.fileCache.lookup id) →
        (∀ x ∈ files, ∀ w, c.lookup x.1.id ≠ some (.busy w)) →
        ∀ x ∈ (file, window) :: files, ∀ w, dm.fileCache.lookup x.1.id ≠ some (.busy w) := by
      intro c hfile hsame hfiles x hx w
      rcases List.mem_cons.mp hx with rfl | hx
      · exact hfile w
      · have hne : x.1.id ≠ file.id := by
          intro heq
          exact hnot (List.mem_map.mpr ⟨x, hx, heq⟩)
        rw [← hsame x.1.id hne]
        exact hfiles x hx w
    have hremoved : ∀ id, id ≠ file.id → (dm.fileCache.remove file.id).2.lookup id = dm.fileCache.lookup id :=
      fun _ hne => LruCache.lookup_remove_ne _ hne
    rw [takeFiles_cons] at h
    split at h
    · rename_i f hlook
      obtain ⟨hready, hfiles⟩ := ih hnd h
      exact ⟨hready, hrest (by rw [hlook]; nofun) hremoved hfiles⟩
    · rename_i f queuedWindow hlook
      obtain ⟨hready, hfiles⟩ := ih hnd h
      exact ⟨(Bool.and_eq_true_iff.mp hready).1, hrest (by rw [hlook]; nofun) hremoved hfiles⟩
    · cases (ih hnd h).1
    · rename_i hlook
      split at h
      · obtain ⟨hready, hfiles⟩ := ih hnd h
        exact ⟨hready, hrest (by rw [hlook]; nofun) (fun _ _ => rfl) hfiles⟩
      · cases h
      · cases h

/-- **A job that is started gets files no job holds** if it finds the marks of those that are held. -/
theorem free_of_started (hfiled : dm.Filed) (hmarks : FindsMarks (some dm) (.pollMessage order)) {msg : DiskMessageIn}
    {queue : List DiskMessageIn} {t : TorrentId} {m : BlockMetadata} (hq : dm.queuedEvents = msg :: queue)
    (hreq : msg.request = some (t, m)) (hturn : turn fs sha1 order (some dm) = some none)
    (hnext : next fs sha1 (some dm) (.pollMessage order) = some dm') :
    ∃ job, dm'.activeBlocks = dm.activeBlocks ++ [job] ∧ ∀ id ∈ job.fileIds, id ∉ dm.heldIds := by
  obtain ⟨⟨r, dm1⟩, hpoll, hr⟩ := Option.map_eq_some_iff.mp hturn
  cases hr
  rw [next, Option.bind_some, move, hpoll] at hnext
  cases hnext
  unfold pollMessage at hpoll
  rw [hq] at hpoll
  generalize hnone : (none : Option (Poll DiskMessageOut)) = r at hpoll
  cases handle_cases hpoll with
  | synced => cases hreq
  | moved => cases hreq
  | started hmsg hgood h hjob =>
    rw [hreq] at hmsg
    cases hmsg
    cases h with
    | @held files queued dm1 ht htake =>
      obtain ⟨T, hT, hfiles⟩ := ht.torrent
      obtain ⟨taken, htaken, hsub, -⟩ := takeFiles_spec htake
      rw [List.nil_append] at htaken
      subst htaken
      refine ⟨_, congrArg (· ++ _) (takeFiles_frame htake).activeBlocks, ?_⟩
      intro id hid hheld
      rw [fileIds_jobFor hjob, jobFiles, List.map_map] at hid
      obtain ⟨x, hx, rfl⟩ := List.mem_map.mp (hsub.subset hid)
      obtain ⟨window, hbusy⟩ := hmarks dm order msg queue t m files rfl rfl hq hreq ⟨ht.torrent, ht.nonempty⟩ x hx hheld
      exact (takeFiles_free (TorrentFile.nodup_filesForBlock (hfiled t T hT).2 hfiles) htake).2 x hx window hbusy
  | _ => cases hnone

end

/-- **Requests on the same file run in the order they were queued**, in every run in which no request is put back
behind one with a common file, and in which a file that a job holds is marked when it is looked for. -/
theorem runs_in_order (fs : FileSystem File World Err) (sha1 : List UInt8 → ShaHash) (world : World)
    (capacity : Nat) (ops : List DiskOp)
    (hkeeps : Along (next fs sha1) (KeepsOrder fs sha1) (some (withCapacity world capacity)) ops)
    (hmarks : Along (next fs sha1) FindsMarks (some (withCapacity world capacity)) ops) :
    RunsInOrder fs sha1 (some (withCapacity world capacity)) ops := by
  have hinv : ∀ pre, Along (next fs sha1) (KeepsOrder fs sha1) (some (withCapacity world capacity)) pre →
      ∀ dm, exec (next fs sha1) (some (withCapacity world capacity)) pre = some dm →
        Ordered (calls pre) dm (stamps fs sha1 (some (withCapacity world capacity)) pre) := by
    intro pre hpre
    refine hist_along (I := fun pre => ∀ dm, exec (next fs sha1) (some (withCapacity world capacity)) pre = some dm →
      Ordered (calls pre) dm (stamps fs sha1 (some (withCapacity world capacity)) pre)) ?_ ?_ hpre
    · intro dm hdm
      cases hdm
      refine ⟨rfl, rfl, ?_, List.Pairwise.nil⟩
      intro x hx
      cases hx
    · intro pre op hI hguard dm' hdm'
      rw [exec_snoc] at hdm'
      obtain ⟨dm, hdm, hdm'⟩ := Option.bind_eq_some_iff.mp hdm'
      obtain ⟨⟨out, dm2⟩, hmove, rfl⟩ := Option.map_eq_some_iff.mp hdm'
      rw [calls_snoc, stamps_snoc, hdm]
      rw [hdm] at hguard
      exact (hI dm hdm).moved (accounted_run hdm) hguard hmove
  constructor
  · rintro pre order ⟨post, rfl⟩ dm msg queue n ns t m hdm hq hn hreq hturn x hx m' F hxt hlt hF hshare
    rw [List.append_assoc, along_append] at hkeeps
    obtain ⟨k, ns', hk, -, hrest, -⟩ := (hinv pre hkeeps.1 dm hdm).pop hq
    rw [hn] at hk
    cases hk
    rcases hrest x hx t m m' hreq hxt with hlt' | ⟨F', hF', hno⟩
    · omega
    · rw [hF] at hF'
      cases hF'
      exact hno hshare.symm
  · intro pre order hpre dm dm' msg queue t m hdm hq hreq hturn hnext
    have hhere : FindsMarks (some dm) (.pollMessage order) := hdm ▸ (along_iff _ _).mp hmarks pre _ hpre
    exact free_of_started (accounted_run hdm).filed hhere hq hreq hturn hnext

/-! ### two runs -/

/-- a write of the piece and, after it, a read of the same file -/
def writeThenRead : List DiskOp :=
  [.addTorrent ⟨0⟩ oneByte, .pollMessage .same, .writeBlock ⟨0⟩ ⟨⟨0, 0, 1⟩, [1]⟩, .readBlock ⟨0⟩ ⟨0, 0, 1⟩,
    .pollMessage .same, .pollMessage .same]

theorem shares_oneByte {F : TorrentFile} (h : TorrentFile.new ⟨0⟩ oneByte = some F) :
    F.Shares ⟨0, 0, 1⟩ ⟨0, 0, 1⟩ := by
  cases h
  exact ⟨.same, .same, _, _, rfl, rfl, _, List.mem_cons_self, _, List.mem_cons_self, rfl⟩

/-- the file is not open at the first try: the write is put back, and the read is started before it -/
theorem read_before_write :
    ¬ RunsInOrder scriptedDisk firstByte (some (withCapacity [false] 100)) writeThenRead := by
  intro h
  refine h.queued (writeThenRead.take 5) .same (List.prefix_refl _) _ _ _ _ _ _ _ rfl rfl rfl rfl rfl
    (.writeBlock ⟨0⟩ ⟨⟨0, 0, 1⟩, [1]⟩, 1) ?_ _ _ rfl ?_ rfl (shares_oneByte rfl)
  · exact List.mem_cons_self
  · decide

/-- the write is done, and the read is started and done -/
def writeThenReadDone : List DiskOp := writeThenRead ++ [.pollJob 0, .pollMessage .same, .pollJob 0]

/-- the file opens at once: the write is started, the read has to wait for it, and both guards are met.  (This disk
reads zeros.) -/
theorem write_before_read :
    answers scriptedDisk firstByte (some (withCapacity [] 100)) writeThenReadDone
      = [.torrentAdded ⟨0⟩, .pieceWritten ⟨0⟩ ⟨⟨0, 0, 1⟩, [1]⟩, .blockRead ⟨0⟩ ⟨⟨0, 0, 1⟩, [0]⟩] ∧
    RunsInOrder scriptedDisk firstByte (some (withCapacity [] 100)) writeThenReadDone := by
  refine ⟨rfl, runs_in_order scriptedDisk firstByte [] 100 writeThenReadDone ?_ ?_⟩
  · refine ⟨?_, ?_, ?_, ?_, ?_, ?_, ?_, ?_, ?_, trivial⟩
    · intro dm order msg queue t m _ hop
      cases hop
    · intro dm order msg queue t m hdm hop hq hreq
      cases hdm
      cases hq
      cases hreq
    · intro dm order msg queue t m _ hop
      cases hop
    · intro dm order msg queue t m _ hop
      cases hop
    · intro dm order msg queue t m hdm hop hq hreq hturn
      cases hop
      cases hturn
    · intro dm order msg queue t m hdm hop hq hreq hturn x hx
      cases hdm
      cases hq
      cases hx
    · intro dm order msg queue t m _ hop
      cases hop
    · intro dm order msg queue t m hdm hop hq hreq hturn
      cases hop
      cases hturn
    · intro dm order msg queue t m _ hop
      cases hop
  · refine ⟨?_, ?_, ?_, ?_, ?_, ?_, ?_, ?_, ?_, trivial⟩
    · intro dm order msg queue t m files _ hop
      cases hop
    · intro dm order msg queue t m files hdm hop hq hreq
      cases hdm
      cases hq
      cases hreq
    · intro dm order msg queue t m files _ hop
      cases hop
    · intro dm order msg queue t m files _ hop
      cases hop
    · intro dm order msg queue t m files hdm hop hq hreq ht x hx hheld
      cases hdm
      cases hheld
    · -- the write holds the file of the read, and it is marked
      intro dm order msg queue t m files hdm hop hq hreq ht x hx hheld
      cases hdm
      obtain hid : x.1.id = ⟨⟨0⟩, ⟨0⟩⟩ := List.mem_singleton.mp hheld
      rw [hid]
      exact ⟨_, rfl⟩
    · intro dm order msg queue t m files _ hop
      cases hop
    · intro dm order msg queue t m files hdm hop hq hreq ht x hx hheld
      cases hdm
      cases hheld
    · intro dm order msg queue t m files _ hop
      cases hop

end DiskManager

end Btt
