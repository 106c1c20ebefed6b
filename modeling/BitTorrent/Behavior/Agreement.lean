import BitTorrent.Behavior.Step
import BitTorrent.Disk.Announced
import BitTorrent.Peer.Completion
import BitTorrent.Peer.Seeds

/-!
# Pool and disk manager agree on the torrents

A torrent enters the pool at once and reaches the disk manager through its queue.

* `newTorrent`, `newTorrents`   the torrent a step adds to the pool, with its metainfo; all those of a run;
* `Hands`, `hands_step`         what a step gives to the disk manager: the new torrent, or a read or write for a
                                torrent of the pool, or nothing;
* `Agrees.step`                 the invariant: the pool's info hashes differ, its torrents are those of the list,
                                and the disk manager has them registered;
* `pool_and_disk_agree`         so pool and disk manager agree in every state a run reaches.
-/

namespace Btt
open Run

/-- no two torrents have the same info hash -/
def TorrentPool.DistinctHashes (pool : TorrentPool) : Prop :=
  ∀ id id' T T', pool.torrents.lookup id = some T → pool.torrents.lookup id' = some T' →
    T.infoHash = T'.infoHash → id = id'

theorem TorrentPool.DistinctHashes.step {pool : TorrentPool} (h : pool.DistinctHashes) (op : PoolOp) :
    (pool.step op).DistinctHashes := by
  intro id id' T T' hT hT' hhash
  rcases lookup_step hT with ⟨S, hS, hfol⟩ | ⟨config, rfl, rfl, -, hnew, rfl⟩
  · rcases lookup_step hT' with ⟨S', hS', hfol'⟩ | ⟨config, rfl, rfl, -, hnew, rfl⟩
    · refine h id id' S S' hS hS' ?_
      rw [← hfol.infoHash, ← hfol'.infoHash, hhash]
    · refine (hnew id S hS ?_).elim
      rw [← hfol.infoHash, hhash]
  · rcases lookup_step hT' with ⟨S', hS', hfol'⟩ | ⟨config', -, rfl, -, -, -⟩
    · refine (hnew id' S' hS' ?_).elim
      rw [← hfol'.infoHash, ← hhash]
    · rfl

/-- operations other than `addTorrent` bring no torrent into the pool -/
theorem TorrentPool.lookup_exec {pool : TorrentPool} {ops : List PoolOp}
    (hops : ∀ op ∈ ops, ∀ config, op ≠ .addTorrent config) {id : TorrentId} {T' : Torrent}
    (h : (exec step pool ops).torrents.lookup id = some T') : ∃ T, pool.torrents.lookup id = some T := by
  induction ops generalizing pool with
  | nil => exact ⟨T', h⟩
  | cons op ops ih =>
    obtain ⟨S, hS⟩ := ih (fun o ho => hops o (List.mem_cons_of_mem _ ho)) h
    rcases lookup_step hS with ⟨T, hT, -⟩ | ⟨config, hop, -⟩
    · exact ⟨T, hT⟩
    · exact (hops op List.mem_cons_self config hop).elim

/-- a call that adds a torrent -/
def BehaviourOp.isAdd : BehaviourOp → Bool
  | .addLeech _ _ => true
  | .addSeed _ _ => true
  | _ => false

namespace BitTorrent
variable {File World Err : Type}

/-! ## new torrents -/

section
variable (fs : FileSystem File World Err) (sha1 : List UInt8 → ShaHash)

/-- the id the pool gives to the torrent, unless it refuses it -/
def takes (b : BitTorrent File World) (torrent : MetaInfo) (config : TorrentConfig) :
    Option (TorrentId × MetaInfo) :=
  match (b.torrents.addTorrent config).1 with
  | .ok (id, _) => some (id, torrent)
  | .error _ => none

/-- the torrent a step adds to the pool -/
def newTorrent (b : BitTorrent File World) : BehaviourOp → Option (TorrentId × MetaInfo)
  | .addLeech torrent state => (TorrentConfig.newLeech sha1 torrent state).bind (b.takes torrent)
  | .addSeed torrent state => (TorrentConfig.newSeed sha1 torrent state).bind (b.takes torrent)
  | _ => none

/-- the torrents a run adds to the pool -/
def newTorrents (s : Option (BitTorrent File World)) (ops : List BehaviourOp) : List (TorrentId × MetaInfo) :=
  outputs (next fs sha1) (fun s op => s.bind fun b => b.newTorrent sha1 op) s ops

end

section
variable {fs : FileSystem File World Err} {sha1 : List UInt8 → ShaHash} {b b' : BitTorrent File World}

/-- the pool refuses the torrent, or gives it the next id -/
theorem takes_cases (b : BitTorrent File World) (torrent : MetaInfo) (config : TorrentConfig)
    (added : TorrentId → TorrentState → TorrentAddedOk) :
    (b.takes torrent config = none ∧ (b.addTorrent torrent config added).torrents = b.torrents ∧
      (b.addTorrent torrent config added).diskManager = b.diskManager) ∨
    (b.takes torrent config = some (⟨b.torrents.nextUniqueTorrent⟩, torrent) ∧
      (b.addTorrent torrent config added).torrents.nextUniqueTorrent = b.torrents.nextUniqueTorrent + 1 ∧
      (∀ id T, (b.addTorrent torrent config added).torrents.torrents.lookup id = some T →
        (∃ S, b.torrents.torrents.lookup id = some S) ∨ id = ⟨b.torrents.nextUniqueTorrent⟩) ∧
      (b.addTorrent torrent config added).diskManager
        = b.diskManager.push (.addTorrent ⟨b.torrents.nextUniqueTorrent⟩ torrent)) := by
  unfold takes addTorrent
  rcases b.torrents.addTorrent_cases config with ⟨h, -⟩ | ⟨-, h⟩
  · rw [h]
    exact Or.inl ⟨rfl, rfl, rfl⟩
  · have hids : ∀ id T, (b.torrents.addTorrent config).2.torrents.lookup id = some T →
        (∃ S, b.torrents.torrents.lookup id = some S) ∨ id = ⟨b.torrents.nextUniqueTorrent⟩ := by
      intro id T hT
      rcases TorrentPool.lookup_addTorrent hT with hold | ⟨hid, -, -, -⟩
      · exact Or.inl ⟨T, hold⟩
      · exact Or.inr hid
    rw [h] at hids
    rw [h]
    exact Or.inr ⟨rfl, rfl, hids, rfl⟩

/-- an add that succeeds hands a configured torrent to the pool -/
theorem step_add {op : BehaviourOp} (hop : op.isAdd = true) (h : b.step fs sha1 op = some b') :
    ∃ torrent config added, b.newTorrent sha1 op = b.takes torrent config ∧
      b' = b.addTorrent torrent config added := by
  cases op with
  | addLeech torrent state =>
    obtain ⟨config, hc, rfl⟩ := Option.map_eq_some_iff.mp h
    exact ⟨torrent, config, .newLeech, by rw [newTorrent, hc, Option.bind_some], rfl⟩
  | addSeed torrent state =>
    obtain ⟨config, hc, rfl⟩ := Option.map_eq_some_iff.mp h
    exact ⟨torrent, config, .newSeed, by rw [newTorrent, hc, Option.bind_some], rfl⟩
  | _ => cases hop

theorem newTorrent_of_not_add {op : BehaviourOp} (hop : op.isAdd = false) : b.newTorrent sha1 op = none := by
  cases op with
  | addLeech torrent state => cases hop
  | addSeed torrent state => cases hop
  | _ => rfl

/-! ## what the disk manager is given -/

/-- what a step hands to the disk manager, by the torrent it adds -/
inductive Hands (b : BitTorrent File World) : Option (TorrentId × MetaInfo) → DiskManager File World → Prop
  | nothing : Hands b none b.diskManager
  | torrent {info} :
      Hands b (some (⟨b.torrents.nextUniqueTorrent⟩, info))
        (b.diskManager.push (.addTorrent ⟨b.torrents.nextUniqueTorrent⟩ info))
  | request {T} (msg : DiskMessageIn) (hmsg : msg.request.isSome = true) (hT : b.torrents.torrents.lookup msg.torrent = some T) :
      Hands b none (b.diskManager.push msg)

theorem hands_same {dm : DiskManager File World} (h : dm = b.diskManager) : Hands b none dm := by
  rw [h]
  exact .nothing

/-- an add hands on the torrent, if the pool takes it -/
theorem hands_add {op : BehaviourOp} (hop : op.isAdd = true) (h : b.step fs sha1 op = some b') :
    Hands b (b.newTorrent sha1 op) b'.diskManager := by
  obtain ⟨torrent, config, added, hnew, rfl⟩ := step_add hop h
  rw [hnew]
  rcases b.takes_cases torrent config added with ⟨ht, -, hdm⟩ | ⟨ht, -, -, hdm⟩ <;> rw [ht, hdm]
  · exact .nothing
  · exact .torrent

/-- of the events only a request for a block reaches the disk -/
theorem hands_injectNodeEvent (hg : b.Grounded) (w : Walk) (now : Instant) (peer : PeerId)
    (event : BitTorrentHandlerEvent) : Hands b none (b.injectNodeEvent w now peer event).diskManager := by
  cases event with
  | getPieceReq request requestId =>
    unfold injectNodeEvent
    simp only
    split
    · rename_i id pool h
      obtain ⟨T, -, hT, -⟩ := TorrentPool.onPieceRequest_some hg (congrArg Prod.fst h)
      exact .request (.readBlock id (.ofRequest request)) rfl hT
    · exact .nothing
  | bitfieldRes indexField userData =>
    refine hands_same ?_
    unfold injectNodeEvent
    simp only
    split
    · split <;> rfl
    · rfl
  | torrentErr => exact .nothing
  | interest inner => exact .nothing
  | keepAlive timestamp => exact .nothing
  | _ =>
    refine hands_same ?_
    unfold injectNodeEvent
    simp only
    split <;> rfl

theorem diskManager_injectConnected (b : BitTorrent File World) (w : Walk) (peer : PeerId)
    (endpoint : ConnectedPoint) : (b.injectConnected w peer endpoint).diskManager = b.diskManager := by
  unfold injectConnected
  cases endpoint with
  | dialer =>
    simp only
    split
    · unfold sendHandshake
      split <;> rfl
    · rfl
  | listener addr =>
    simp only
    unfold addAddressTorrents
    split <;> rfl

theorem hands_step (hg : b.Grounded) {op : BehaviourOp} (hop : ∀ e, op ≠ .pollDisk e)
    (h : b.step fs sha1 op = some b') : Hands b (b.newTorrent sha1 op) b'.diskManager := by
  cases op with
  | addAddressTorrents peer address torrents =>
    cases h
    refine hands_same ?_
    unfold addAddressTorrents
    split <;> rfl
  | handshakeKnownPeer peer torrent =>
    cases h
    refine hands_same ?_
    unfold handshakeKnownPeer
    split
    · rfl
    · split <;> rfl
  | chokePeer w peer =>
    cases h
    refine hands_same ?_
    unfold chokePeer answerChoke
    split <;> rfl
  | unchokePeer w peer =>
    cases h
    refine hands_same ?_
    unfold unchokePeer answerChoke
    split <;> rfl
  | injectConnected w peer endpoint =>
    cases h
    exact hands_same (diskManager_injectConnected ..)
  | injectDisconnected w peer =>
    cases h
    exact .nothing
  | injectNodeEvent w now peer event =>
    cases h
    exact hands_injectNodeEvent hg ..
  | popEvent =>
    cases h
    exact .nothing
  | pollPool now e =>
    cases h
    rcases diskManager_pollPool b now e with hsame | ⟨t, block, hready, hpush⟩
    · exact hands_same hsame
    · obtain ⟨pre, T, post, hrun, -, -⟩ :=
        TorrentPool.completes_of_pieceReady (fun id T hT => (hg id T hT).key) hready
      rw [hpush]
      exact .request (.writeBlock t block) rfl ((AList.lists_run e.walk b.torrents.torrents).lookup hrun)
  | pollDisk e => exact (hop e rfl).elim
  | addLeech torrent state => exact hands_add rfl h
  | addSeed torrent state => exact hands_add rfl h

/-! ## the invariant -/

theorem poolOps_not_add {op : BehaviourOp} (hop : op.isAdd = false) :
    ∀ o ∈ b.poolOps fs sha1 op, ∀ config, o ≠ .addTorrent config := by
  cases op with
  | addLeech torrent state => cases hop
  | addSeed torrent state => cases hop
  | injectNodeEvent w now peer event =>
    cases event with
    | bitfieldRes indexField userData =>
      simp only [poolOps, eventOps]
      split <;> simp
    | _ => simp [poolOps, eventOps]
  | pollDisk e =>
    simp only [poolOps]
    cases hans : b.diskAnswer fs sha1 e with
    | none => simp
    | some msg => cases msg <;> simp [messageOps]
  | _ => simp [poolOps]

/-- a torrent of the pool after a step was there before it, or is the one the step adds -/
theorem lookup_step {op : BehaviourOp} (h : b.step fs sha1 op = some b') {id : TorrentId} {T' : Torrent}
    (hT' : b'.torrents.torrents.lookup id = some T') :
    (∃ T, b.torrents.torrents.lookup id = some T) ∨ ∃ info, b.newTorrent sha1 op = some (id, info) := by
  cases hop : op.isAdd with
  | true =>
    obtain ⟨torrent, config, added, hnew, rfl⟩ := step_add hop h
    rw [hnew]
    rcases b.takes_cases torrent config added with ⟨-, hpool, -⟩ | ⟨ht, -, hids, -⟩
    · rw [hpool] at hT'
      exact Or.inl ⟨T', hT'⟩
    · rcases hids id T' hT' with hold | rfl
      · exact Or.inl hold
      · exact Or.inr ⟨torrent, ht⟩
  | false =>
    rw [torrents_step h] at hT'
    exact Or.inl (TorrentPool.lookup_exec (poolOps_not_add hop) hT')

/-- the id of a new torrent is the next one, and the counter goes on -/
theorem newTorrent_id {op : BehaviourOp} (h : b.step fs sha1 op = some b') {x : TorrentId × MetaInfo}
    (hx : b.newTorrent sha1 op = some x) :
    x.1 = ⟨b.torrents.nextUniqueTorrent⟩ ∧ b'.torrents.nextUniqueTorrent = b.torrents.nextUniqueTorrent + 1 := by
  cases hop : op.isAdd with
  | true =>
    obtain ⟨torrent, config, added, hnew, rfl⟩ := step_add hop h
    rw [hnew] at hx
    rcases b.takes_cases torrent config added with ⟨ht, -, -⟩ | ⟨ht, hnext, -, -⟩
    · rw [ht] at hx
      cases hx
    · rw [ht] at hx
      cases hx
      exact ⟨rfl, hnext⟩
  | false =>
    rw [newTorrent_of_not_add hop] at hx
    cases hx

/-- pool and disk manager agree on the torrents added so far -/
structure Agrees (added : List (TorrentId × MetaInfo)) (b : BitTorrent File World) : Prop where
  grounded : b.Grounded
  hashes : b.torrents.DistinctHashes
  /-- ids are given away in order, each of them once -/
  below : ∀ x ∈ added, x.1.val < b.torrents.nextUniqueTorrent
  unique : ∀ x ∈ added, ∀ y ∈ added, x.1 = y.1 → x = y
  pool : ∀ id T, b.torrents.torrents.lookup id = some T → ∃ info, (id, info) ∈ added
  disk : b.diskManager.Registered added

theorem agrees_withConfig (random : ShaHash) (world : World) (config : BitTorrentConfig) :
    Agrees [] (withConfig random world config : BitTorrent File World) := by
  have hempty : ∀ id T,
      (withConfig random world config : BitTorrent File World).torrents.torrents.lookup id ≠ some T := by
    intro id T h
    rw [show (withConfig random world config : BitTorrent File World).torrents.torrents = ∅ from rfl,
      AList.lookup_empty] at h
    cases h
  refine ⟨grounded_withConfig random world config, ?_, ?_, ?_, ?_, DiskManager.registered_withCapacity world 100⟩
  · intro id id' T T' hT
    exact (hempty id T hT).elim
  · intro x hx
    cases hx
  · intro x hx
    cases hx
  · intro id T hT
    exact (hempty id T hT).elim

variable {added : List (TorrentId × MetaInfo)}

theorem Agrees.fresh (ha : Agrees added b) (info : MetaInfo) : (⟨b.torrents.nextUniqueTorrent⟩, info) ∉ added := by
  intro hmem
  exact Nat.lt_irrefl _ (ha.below _ hmem)

/-- the disk manager keeps the torrents registered, whatever it is given or does -/
theorem Agrees.registered (ha : Agrees added b) {op : BehaviourOp} (h : b.step fs sha1 op = some b') :
    b'.diskManager.Registered (added ++ (b.newTorrent sha1 op).toList) := by
  have hmove : (∀ e, op ≠ .pollDisk e) →
      b'.diskManager.Registered (added ++ (b.newTorrent sha1 op).toList) := by
    intro hop
    have hh := hands_step ha.grounded hop h
    generalize b.newTorrent sha1 op = new, b'.diskManager = dm at hh
    cases hh with
    | nothing =>
      rw [Option.toList_none, List.append_nil]
      exact ha.disk
    | torrent => exact ha.disk.add ha.fresh
    | request msg hmsg hT =>
      rw [Option.toList_none, List.append_nil]
      exact ha.disk.request hmsg (ha.pool _ _ hT)
  cases op with
  | pollDisk e =>
    rw [newTorrent_of_not_add rfl, Option.toList_none, List.append_nil]
    obtain ⟨r, hr, rfl⟩ := Option.map_eq_some_iff.mp h
    rcases pollDisk_cases hr with ⟨msg, dm, hp, -, rfl⟩ | ⟨dm, hp, -, rfl⟩
    · rw [diskManager_onDiskMessage]
      exact (ha.disk.ready hp).1
    · exact ha.disk.pending hp
  | _ => exact hmove nofun

/-- **One step.** -/
theorem Agrees.step (ha : Agrees added b) {op : BehaviourOp} (h : b.step fs sha1 op = some b') :
    Agrees (added ++ (b.newTorrent sha1 op).toList) b' := by
  have hnext := nextUniqueTorrent_step h
  have hnew : ∀ x ∈ (b.newTorrent sha1 op).toList, x.1 = ⟨b.torrents.nextUniqueTorrent⟩ ∧
      b'.torrents.nextUniqueTorrent = b.torrents.nextUniqueTorrent + 1 := by
    intro x hx
    exact newTorrent_id h (Option.mem_toList.mp hx)
  refine ⟨ha.grounded.step h, ?_, ?_, ?_, ?_, ha.registered h⟩
  · rw [torrents_step h]
    exact exec_inv (I := TorrentPool.DistinctHashes) (fun pool op hI => hI.step op) ha.hashes _
  · intro x hx
    rcases List.mem_append.mp hx with hx | hx
    · exact Nat.lt_of_lt_of_le (ha.below x hx) hnext
    · obtain ⟨hid, hsucc⟩ := hnew x hx
      rw [hid, hsucc]
      exact Nat.lt_succ_self _
  · -- an old and a new torrent have different ids
    have hold : ∀ x ∈ added, ∀ y ∈ (b.newTorrent sha1 op).toList, x.1 ≠ y.1 := by
      intro x hx y hy heq
      have hlt := ha.below x hx
      rw [heq, (hnew y hy).1] at hlt
      exact Nat.lt_irrefl _ hlt
    intro x hx y hy heq
    rcases List.mem_append.mp hx with hx | hx <;> rcases List.mem_append.mp hy with hy | hy
    · exact ha.unique x hx y hy heq
    · exact (hold x hx y hy heq).elim
    · exact (hold y hy x hx heq.symm).elim
    · exact Option.some.inj ((Option.mem_toList.mp hx).symm.trans (Option.mem_toList.mp hy))
  · intro id T' hT'
    rcases lookup_step h hT' with ⟨T, hT⟩ | ⟨info, hinfo⟩
    · obtain ⟨info, hmem⟩ := ha.pool id T hT
      exact ⟨info, List.mem_append_left _ hmem⟩
    · exact ⟨info, List.mem_append_right _ (Option.mem_toList.mpr hinfo)⟩

/-- **A whole run.** -/
theorem agrees_run {random : ShaHash} {world : World} {config : BitTorrentConfig} {ops : List BehaviourOp}
    (h : exec (next fs sha1) (some (withConfig random world config)) ops = some b) :
    Agrees (newTorrents fs sha1 (some (withConfig random world config)) ops) b := by
  induction ops using List.reverseRecOn generalizing b with
  | nil =>
    cases h
    exact agrees_withConfig random world config
  | append_singleton ops op ih =>
    rw [exec_snoc] at h
    obtain ⟨b1, h1, h⟩ := Option.bind_eq_some_iff.mp h
    rw [newTorrents, outputs_snoc, h1, Option.bind_some]
    exact (ih h1).step h

end

/-- **Pool and disk manager agree.**  In every state a run reaches the info hashes of the pool differ; an add
that is refused changes neither pool nor disk manager; a torrent of the pool was added once, with a metainfo the
disk manager has set it up with or finds in the queue, in the torrent's one `AddTorrent`, ahead of all requests
for it; and no answer of the disk says that a torrent is missing or there already. -/
theorem pool_and_disk_agree (fs : FileSystem File World Err) (sha1 : List UInt8 → ShaHash) (random : ShaHash)
    (world : World) (config : BitTorrentConfig) (ops : List BehaviourOp) (b : BitTorrent File World)
    (hrun : exec (next fs sha1) (some (withConfig random world config)) ops = some b) :
    b.torrents.DistinctHashes ∧
    (∀ op b', op.isAdd = true → b.step fs sha1 op = some b' → b.newTorrent sha1 op = none →
      b'.torrents = b.torrents ∧ b'.diskManager = b.diskManager) ∧
    (∀ id T, b.torrents.torrents.lookup id = some T →
      ∃ info, (∀ info', (id, info') ∈ newTorrents fs sha1 (some (withConfig random world config)) ops ↔
          info' = info) ∧
        b.diskManager.Announced id info) ∧
    (∀ e msg, b.diskAnswer fs sha1 e = some msg → msg.strays = false) := by
  have ha := agrees_run hrun
  refine ⟨ha.hashes, ?_, ?_, ?_⟩
  · intro op b' hop hstep hnone
    obtain ⟨torrent, config, added, hnew, rfl⟩ := step_add hop hstep
    rw [hnew] at hnone
    rcases b.takes_cases torrent config added with ⟨-, hpool, hdm⟩ | ⟨ht, -, -, -⟩
    · exact ⟨hpool, hdm⟩
    · rw [ht] at hnone
      cases hnone
  · intro id T hT
    obtain ⟨info, hmem⟩ := ha.pool id T hT
    refine ⟨info, ?_, ha.disk.announced _ hmem⟩
    intro info'
    constructor
    · intro hmem'
      exact congrArg Prod.snd (ha.unique _ hmem' _ hmem rfl)
    · rintro rfl
      exact hmem
  · intro e msg hans
    unfold diskAnswer at hans
    split at hans
    · rename_i msg' dm hp
      cases hans
      exact (ha.disk.ready hp).2
    · cases hans

/-- the same torrent is added twice, the second time as a seed, and the disk is driven once -/
def addedTwice : List BehaviourOp := [.addLeech oneByte .active, .addSeed oneByte .active, diskTurn]

theorem agree_added_twice :
    ∃ b T, exec (next instantDisk firstByte) (some (withConfig (.replicate 0) () .default)) addedTwice = some b ∧
      b.torrents.torrents.lookup ⟨0⟩ = some T ∧ T.bitfield.get 0 = some false ∧
      newTorrents instantDisk firstByte (some (withConfig (.replicate 0) () .default)) addedTwice
        = [(⟨0⟩, oneByte)] ∧
      ∃ info, (∀ info', (⟨0⟩, info') ∈ newTorrents instantDisk firstByte
          (some (withConfig (.replicate 0) () .default)) addedTwice ↔ info' = info) ∧
        b.diskManager.Announced ⟨0⟩ info := by
  refine ⟨_, _, rfl, rfl, rfl, rfl, ?_⟩
  exact (pool_and_disk_agree instantDisk firstByte (.replicate 0) () .default addedTwice _ rfl).2.2.1 ⟨0⟩ _ rfl

end BitTorrent

end Btt
