import BitTorrent.Peer.Buffer

/-!
# What one operation does to a piece handler

* `step_static`     identity, lengths and the size of the bitfield never change;
* `lookup_step`     the record of every peer after an operation (`HandlerOp.onPeer`);
* `step_buffer_cases`   the buffer after an operation: unchanged, changed by the operation `bufferOp`
                    of the buffer, or newly selected (`seedersOf_spec`).

The invariants of the handler are derived from these alone.
-/

namespace Btt
open Run

/-- the record of the peer `id` after the operation -/
def HandlerOp.onPeer (id : PeerId) : HandlerOp → Option BitTorrentPeer → Option BitTorrentPeer
  | .insertPeer i peer, r => if id = i then some peer else r
  | .removePeer i, r => if id = i then none else r
  | .setClientChokeForPeer i c, r => if id = i then r.map ({ · with clientChoke := c }) else r
  | .setClientInterest i n, r => if id = i then r.map ({ · with clientInterest := n }) else r
  | .setChokeOnRemote i c, r => if id = i then r.map ({ · with remoteChoke := c }) else r
  | .setInterestOnRemote i n, r => if id = i then r.map ({ · with remoteInterest := n }) else r
  | .setRemoteHeartbeat i t, r => if id = i then r.map ({ · with remoteHeartbeat := t }) else r
  | .setClientHeartbeat i t, r => if id = i then r.map ({ · with clientHeartbeat := t }) else r
  | .setPeerBitfield i f, r => if id = i then r.map (·.setBitfield f) else r
  | .addPeerPiece i k, r => if id = i then r.map (fun p => (p.addPiece k).2) else r
  | _, r => r

namespace TorrentPieceHandler

theorem replacePeer_lookup {α : Type} (h : TorrentPieceHandler) (i id : PeerId) (old : BitTorrentPeer → α)
    (new : BitTorrentPeer → BitTorrentPeer) :
    (h.replacePeer i old new).2.peers.lookup id
      = if id = i then (h.peers.lookup id).map new else h.peers.lookup id := by
  unfold replacePeer
  split
  · rename_i p hl
    show (h.peers.insert i (new p)).lookup id = _
    rw [AList.lookup_insert_eq]
    by_cases e : id = i
    · rw [if_pos e, if_pos e, e, hl]; rfl
    · rw [if_neg e, if_neg e]
  · rename_i hl
    by_cases e : id = i
    · rw [if_pos e, e, hl]; rfl
    · rw [if_neg e]

/-- everything but the peers stays -/
theorem replacePeer_eq {α : Type} (h : TorrentPieceHandler) (i : PeerId) (old : BitTorrentPeer → α)
    (new : BitTorrentPeer → BitTorrentPeer) :
    ∃ peers, (h.replacePeer i old new).2 = { h with peers := peers } := by
  unfold replacePeer
  split
  · exact ⟨_, rfl⟩
  · exact ⟨h.peers, rfl⟩

theorem takePendingSeed_eq (h : TorrentPieceHandler) (test : PeerId × RequestId × BlockMetadata → Bool) :
    (h.takePendingSeed test).2 = { h with pendingSeedBlocks := h.pendingSeedBlocks.eraseP test } := by
  unfold takePendingSeed
  split
  · rfl
  · rename_i hl
    rw [List.eraseP_of_forall_not (fun a ha => by simpa using List.find?_eq_none.mp hl a ha)]

theorem setPiece_eq (h : TorrentPieceHandler) (i : Nat) :
    h.setPiece i = { h with bitfield := h.bitfield.set i true } := by
  unfold setPiece
  split
  · rfl
  · rename_i hi
    rw [BitField.set, List.set_eq_of_length_le (Nat.le_of_not_lt hi)]

/-- the ways a poll ends -/
theorem poll_cases (h : TorrentPieceHandler) (env : PollEnv) :
    (∃ b block, h.pieceBuffer = some b ∧ b.isFullPiece = true ∧ b.tryFinalizePiece = .ok block ∧
      h.poll env = (.pieceFinished (.ok block),
        { h with pieceBuffer := none, bitfield := h.bitfield.set block.metadata.pieceIndex true })) ∨
    (∃ b e, h.pieceBuffer = some b ∧ b.isFullPiece = true ∧ b.tryFinalizePiece = .error e ∧
      h.poll env = (.pieceFinished (.error e), { h with pieceBuffer := none })) ∨
    (∃ b, h.pieceBuffer = some b ∧ b.isFullPiece = false ∧
      h.poll env = (.leechBlock b.next.1, { h with pieceBuffer := some b.next.2 })) ∨
    (∃ b, h.pieceBuffer = none ∧ h.nextPieceBuffer env = some b ∧
      h.poll env = (.leechBlock b.next.1, { h with pieceBuffer := some b.next.2 })) ∨
    (h.pieceBuffer = none ∧ ∃ st, (st = .seed ∨ st = .waitingPeers) ∧ h.poll env = (st, h)) ∨
    (h.pieceBuffer = none ∧ h.poll env = (.finished, { h with finished := true })) := by
  unfold poll
  split
  · rename_i b hb
    split
    · rename_i hfull
      simp only
      split
      · rename_i block hok
        refine Or.inl ⟨b, block, hb, hfull, hok, ?_⟩
        rw [setPiece_eq]
      · rename_i e herr
        exact Or.inr (Or.inl ⟨b, e, hb, hfull, herr, rfl⟩)
    · rename_i hfull
      exact Or.inr (Or.inr (Or.inl ⟨b, hb, Bool.eq_false_iff.mpr hfull, rfl⟩))
  · rename_i hb
    right; right; right
    split
    · exact Or.inr (Or.inl ⟨hb, _, Or.inl rfl, rfl⟩)
    · split
      · exact Or.inr (Or.inr ⟨hb, rfl⟩)
      · split
        · rename_i b hnext
          exact Or.inl ⟨b, hb, hnext, rfl⟩
        · exact Or.inr (Or.inl ⟨hb, _, Or.inr rfl, rfl⟩)

/-! ## the parts an operation touches -/

/-- an operation changes the peers and the buffer, or the pending seeds, or it sets a bit, or it is a poll -/
theorem step_cases (h : TorrentPieceHandler) (op : HandlerOp) :
    (∃ peers buffer, h.step op = { h with peers := peers, pieceBuffer := buffer }) ∨
    (∃ peer block id, op = .insertBlockSeed peer block id) ∨
    (∃ test, h.step op = { h with pendingSeedBlocks := h.pendingSeedBlocks.eraseP test }) ∨
    (∃ i, op = .setPiece i) ∨ (∃ env, op = .poll env) := by
  have hreplace : ∀ {α : Type} (i : PeerId) (old : BitTorrentPeer → α) (new : BitTorrentPeer → BitTorrentPeer),
      ∃ peers buffer, (h.replacePeer i old new).2 = { h with peers := peers, pieceBuffer := buffer } := by
    intro α i old new
    obtain ⟨peers, e⟩ := h.replacePeer_eq i old new
    exact ⟨peers, h.pieceBuffer, e⟩
  cases op with
  | insertPeer id peer => exact Or.inl ⟨_, _, rfl⟩
  | removePeer id =>
    left
    show ∃ peers buffer, (h.removePeer id).2 = _
    unfold removePeer
    split
    · exact ⟨_, _, rfl⟩
    · exact ⟨h.peers, h.pieceBuffer, rfl⟩
  | setChokeOnRemote id c =>
    left
    show ∃ peers buffer, (h.setChokeOnRemote id c).2 = _
    unfold setChokeOnRemote
    split
    · exact ⟨_, _, rfl⟩
    · exact ⟨h.peers, h.pieceBuffer, rfl⟩
  | addBlock peer piece =>
    left
    show ∃ peers buffer, (h.addBlock peer (Block.ofPiece piece)).2 = _
    unfold addBlock
    split
    · exact ⟨h.peers, _, rfl⟩
    · exact ⟨h.peers, h.pieceBuffer, rfl⟩
  | setClientChokeForPeer id c => exact Or.inl (hreplace ..)
  | setClientInterest id i => exact Or.inl (hreplace ..)
  | setInterestOnRemote id i => exact Or.inl (hreplace ..)
  | setRemoteHeartbeat id t => exact Or.inl (hreplace ..)
  | setClientHeartbeat id t => exact Or.inl (hreplace ..)
  | setPeerBitfield id f => exact Or.inl (hreplace ..)
  | addPeerPiece id i => exact Or.inl (hreplace ..)
  | insertBlockSeed peer block id => exact Or.inr (Or.inl ⟨peer, block, id, rfl⟩)
  | removePendingSeedByRequest id => exact Or.inr (Or.inr (Or.inl ⟨_, h.takePendingSeed_eq _⟩))
  | clearPendingSeedBlock block => exact Or.inr (Or.inr (Or.inl ⟨_, h.takePendingSeed_eq _⟩))
  | setPiece i => exact Or.inr (Or.inr (Or.inr (Or.inl ⟨i, rfl⟩)))
  | poll env => exact Or.inr (Or.inr (Or.inr (Or.inr ⟨env, rfl⟩)))

/-! ## what never changes -/

/-- the parts of a handler that are fixed when it is built -/
def static (h : TorrentPieceHandler) : TorrentId × PieceSelection × Nat × Nat × Nat :=
  (h.id, h.selectionStrategy, h.pieceLength, h.lastPieceLength, h.bitfield.len)

theorem static_poll (h : TorrentPieceHandler) (env : PollEnv) : (h.poll env).2.static = h.static := by
  rcases h.poll_cases env with ⟨_, _, -, -, -, e⟩ | ⟨_, _, -, -, -, e⟩ | ⟨_, -, -, e⟩ | ⟨_, -, -, e⟩ |
    ⟨-, _, -, e⟩ | ⟨-, e⟩ <;> rw [e]
  · simp [static]
  all_goals rfl

theorem step_static (h : TorrentPieceHandler) (op : HandlerOp) : (h.step op).static = h.static := by
  rcases h.step_cases op with ⟨peers, buffer, e⟩ | ⟨peer, block, id, rfl⟩ | ⟨test, e⟩ | ⟨i, rfl⟩ | ⟨env, rfl⟩
  · rw [e]
    rfl
  · rfl
  · rw [e]
    rfl
  · show (h.setPiece i).static = _
    rw [setPiece_eq]
    simp [static]
  · exact h.static_poll env

theorem exec_static (h : TorrentPieceHandler) (ops : List HandlerOp) : (exec step h ops).static = h.static :=
  exec_inv (I := fun h' : TorrentPieceHandler => h'.static = h.static)
    (fun h' op e => (h'.step_static op).trans e) rfl ops

theorem pieceLengthAt_of_static {h h' : TorrentPieceHandler} (e : h'.static = h.static) (i : Nat) :
    h'.pieceLengthAt i = h.pieceLengthAt i := by
  simp only [static, Prod.mk.injEq] at e
  obtain ⟨-, -, e1, e2, e3⟩ := e
  unfold pieceLengthAt
  rw [e1, e2, e3]

/-! ## the peers -/

theorem lookup_poll (h : TorrentPieceHandler) (env : PollEnv) : (h.poll env).2.peers = h.peers := by
  rcases h.poll_cases env with ⟨_, _, -, -, -, e⟩ | ⟨_, _, -, -, -, e⟩ | ⟨_, -, -, e⟩ | ⟨_, -, -, e⟩ |
    ⟨-, _, -, e⟩ | ⟨-, e⟩ <;> rw [e]

theorem lookup_step (h : TorrentPieceHandler) (op : HandlerOp) (id : PeerId) :
    (h.step op).peers.lookup id = op.onPeer id (h.peers.lookup id) := by
  cases op with
  | insertPeer i peer => exact AList.lookup_insert_eq ..
  | removePeer i =>
    show (h.removePeer i).2.peers.lookup id = if id = i then none else h.peers.lookup id
    unfold removePeer
    split
    · exact AList.lookup_erase_eq ..
    · rename_i hl
      by_cases e : id = i
      · rw [if_pos e, e, hl]
      · rw [if_neg e]
  | setChokeOnRemote i c =>
    show (h.setChokeOnRemote i c).2.peers.lookup id
      = if id = i then (h.peers.lookup id).map ({ · with remoteChoke := c }) else h.peers.lookup id
    unfold setChokeOnRemote
    split
    · rename_i p hl
      show (h.peers.insert i _).lookup id = _
      rw [AList.lookup_insert_eq]
      by_cases e : id = i
      · rw [if_pos e, if_pos e, e, hl]; rfl
      · rw [if_neg e, if_neg e]
    · rename_i hl
      by_cases e : id = i
      · rw [if_pos e, e, hl]; rfl
      · rw [if_neg e]
  | setClientChokeForPeer i c => exact h.replacePeer_lookup ..
  | setClientInterest i n => exact h.replacePeer_lookup ..
  | setInterestOnRemote i n => exact h.replacePeer_lookup ..
  | setRemoteHeartbeat i t => exact h.replacePeer_lookup ..
  | setClientHeartbeat i t => exact h.replacePeer_lookup ..
  | setPeerBitfield i f => exact h.replacePeer_lookup ..
  | addPeerPiece i k => exact h.replacePeer_lookup ..
  | insertBlockSeed peer block i => rfl
  | removePendingSeedByRequest i =>
    show (h.takePendingSeed _).2.peers.lookup id = _
    rw [takePendingSeed_eq]
    rfl
  | clearPendingSeedBlock block =>
    show (h.takePendingSeed _).2.peers.lookup id = _
    rw [takePendingSeed_eq]
    rfl
  | setPiece i =>
    show (h.setPiece i).peers.lookup id = _
    rw [setPiece_eq]
    rfl
  | addBlock peer piece =>
    show (h.addBlock peer (Block.ofPiece piece)).2.peers.lookup id = _
    unfold addBlock
    split <;> rfl
  | poll env =>
    show (h.poll env).2.peers.lookup id = _
    rw [lookup_poll]
    rfl

/-- only `removePeer` takes a peer out -/
theorem onPeer_isSome {op : HandlerOp} {id : PeerId} {r : Option BitTorrentPeer} (hr : r.isSome)
    (hop : op ≠ .removePeer id) : (op.onPeer id r).isSome := by
  cases op <;> simp only [HandlerOp.onPeer] <;> first | exact hr | (split <;> simp_all)

/-! ## the buffer -/

/-- what an operation on the handler does to its buffer -/
def bufferOp (h : TorrentPieceHandler) (b : PieceBuffer) : HandlerOp → Option BufferOp
  | .insertPeer id peer =>
    if peer.remoteCanSeedPiece b.pieceIndex = true ∧ id ∉ h.peers then some (.push id) else none
  | .removePeer id => if id ∈ h.peers then some (.remove id) else none
  | .setChokeOnRemote id c =>
    match h.peers.lookup id with
    | some p =>
      match c with
      | .choked => some (.remove id)
      | .unChoked =>
        if { p with remoteChoke := .unChoked }.remoteCanSeedPiece b.pieceIndex = true then some (.push id)
        else none
    | none => none
  | .addBlock peer piece => some (.add peer (Block.ofPiece piece))
  | .poll _ => some .next
  | _ => none

theorem pieceBuffer_replacePeer {α : Type} (h : TorrentPieceHandler) (i : PeerId) (old : BitTorrentPeer → α)
    (new : BitTorrentPeer → BitTorrentPeer) : (h.replacePeer i old new).2.pieceBuffer = h.pieceBuffer := by
  obtain ⟨peers, e⟩ := h.replacePeer_eq i old new
  rw [e]

theorem pieceBuffer_takePendingSeed (h : TorrentPieceHandler) (test : PeerId × RequestId × BlockMetadata → Bool) :
    (h.takePendingSeed test).2.pieceBuffer = h.pieceBuffer := by
  rw [takePendingSeed_eq]

/-- what any operation but a poll does to the buffer, if there is one -/
theorem pieceBuffer_step (h : TorrentPieceHandler) {op : HandlerOp} (hop : ∀ env, op ≠ .poll env) :
    (h.step op).pieceBuffer = h.pieceBuffer.map fun b => (h.bufferOp b op).elim b b.apply := by
  have hquiet : ∀ {h' : TorrentPieceHandler}, h'.pieceBuffer = h.pieceBuffer →
      h'.pieceBuffer = h.pieceBuffer.map fun b => b := by
    intro h' e
    rw [e, Option.map_id']
  cases op with
  | insertPeer id peer =>
    show h.pieceBuffer.map _ = h.pieceBuffer.map fun b => (ite _ (some _) none).elim b b.apply
    congr 1
    funext b
    split <;> rfl
  | removePeer id =>
    show (h.removePeer id).2.pieceBuffer = h.pieceBuffer.map fun b => (ite _ (some _) none).elim b b.apply
    unfold removePeer
    split
    · rename_i p hl
      simp only [if_pos (AList.mem_of_lookup hl)]
      rfl
    · rename_i hl
      simp only [if_neg (AList.lookup_eq_none.mp hl)]
      exact hquiet rfl
  | setChokeOnRemote id c =>
    show (h.setChokeOnRemote id c).2.pieceBuffer = h.pieceBuffer.map fun b => (h.bufferOp b _).elim b b.apply
    cases hl : h.peers.lookup id with
    | none =>
      simp only [setChokeOnRemote, bufferOp, hl]
      exact hquiet rfl
    | some p =>
      simp only [setChokeOnRemote, bufferOp, hl]
      congr 1
      funext b
      cases c with
      | choked => rfl
      | unChoked =>
        simp only
        split <;> rfl
  | setClientChokeForPeer i c => exact hquiet (h.pieceBuffer_replacePeer ..)
  | setClientInterest i n => exact hquiet (h.pieceBuffer_replacePeer ..)
  | setInterestOnRemote i n => exact hquiet (h.pieceBuffer_replacePeer ..)
  | setRemoteHeartbeat i t => exact hquiet (h.pieceBuffer_replacePeer ..)
  | setClientHeartbeat i t => exact hquiet (h.pieceBuffer_replacePeer ..)
  | setPeerBitfield i f => exact hquiet (h.pieceBuffer_replacePeer ..)
  | addPeerPiece i k => exact hquiet (h.pieceBuffer_replacePeer ..)
  | insertBlockSeed peer block i => exact hquiet rfl
  | removePendingSeedByRequest i => exact hquiet (h.pieceBuffer_takePendingSeed _)
  | clearPendingSeedBlock block => exact hquiet (h.pieceBuffer_takePendingSeed _)
  | setPiece i =>
    have e : (h.setPiece i).pieceBuffer = h.pieceBuffer := by rw [setPiece_eq]
    exact hquiet e
  | addBlock peer piece =>
    show (h.addBlock peer (Block.ofPiece piece)).2.pieceBuffer = _
    unfold addBlock
    split
    · rename_i b hb
      rw [hb]
      rfl
    · rename_i hb
      rw [hb]
      rfl
  | poll env => exact (hop env rfl).elim

theorem step_some {h : TorrentPieceHandler} {b : PieceBuffer} (hb : h.pieceBuffer = some b) (op : HandlerOp)
    (hop : ∀ env, op = .poll env → b.isFullPiece = false) :
    (h.step op).pieceBuffer = some ((h.bufferOp b op).elim b b.apply) := by
  cases op with
  | poll env =>
    have hfull := hop env rfl
    show (h.poll env).2.pieceBuffer = some b.next.2
    unfold poll
    rw [hb]
    simp only [hfull, Bool.false_eq_true, if_false]
  | _ =>
    rw [h.pieceBuffer_step (fun env e => by cases e), hb]
    rfl

theorem step_full {h : TorrentPieceHandler} {b : PieceBuffer} (hb : h.pieceBuffer = some b)
    (hfull : b.isFullPiece = true) (env : PollEnv) : (h.step (.poll env)).pieceBuffer = none := by
  show (h.poll env).2.pieceBuffer = none
  rcases h.poll_cases env with ⟨_, _, -, -, -, e⟩ | ⟨_, _, -, -, -, e⟩ | ⟨b', hb', hf, e⟩ | ⟨_, hn, -, e⟩ |
    ⟨hn, _, -, e⟩ | ⟨hn, e⟩
  · rw [e]
  · rw [e]
  · rw [hb] at hb'
    cases hb'
    rw [hfull] at hf
    cases hf
  all_goals
    rw [hb] at hn
    cases hn

/-- the loop only ever remembers a listed piece with its seeders -/
theorem rarestLoop_spec (h : TorrentPieceHandler) (env : PollEnv) (is : List Nat) {S : Nat → Prop}
    (hS : ∀ i ∈ is, S i) (acc : Option (Nat × List PeerId))
    (hacc : ∀ r, acc = some r → h.seedersOf env r.1 = some r.2 ∧ S r.1) {r : Nat × List PeerId}
    (hr : h.rarestLoop env is acc = some r) : h.seedersOf env r.1 = some r.2 ∧ S r.1 := by
  induction is generalizing acc with
  | nil => exact hacc r hr
  | cons i is ih =>
    have hS' : ∀ j ∈ is, S j := fun j hj => hS j (List.mem_cons_of_mem _ hj)
    have hi : ∀ peers, h.seedersOf env i = some peers → ∀ r, some (i, peers) = some r →
        h.seedersOf env r.1 = some r.2 ∧ S r.1 := by
      rintro peers hs r e
      cases e
      exact ⟨hs, hS i List.mem_cons_self⟩
    rw [rarestLoop] at hr
    split at hr
    · rename_i peers hs
      split at hr
      · exact hi peers hs r hr
      · split at hr
        · split at hr
          · exact ih hS' _ (hi peers hs) hr
          · exact ih hS' _ hacc hr
        · exact ih hS' _ (hi peers hs) hr
    · exact ih hS' _ hacc hr

theorem mem_missingPieceIndices {h : TorrentPieceHandler} {i : Nat} (hi : i ∈ h.missingPieceIndices) :
    h.bitfield.get i = some false := by
  have h2 := (List.mem_filter.mp hi).2
  exact (of_decide_eq_true h2).1

theorem nextLeastCommonPiece_spec {h : TorrentPieceHandler} {env : PollEnv} {b : PieceBuffer}
    (hb : h.nextLeastCommonPiece env = some b) :
    ∃ i peers, h.bitfield.get i = some false ∧ h.seedersOf env i = some peers ∧ b = h.bufferFor i peers := by
  have hmem : ∀ i ∈ env.shuffle.run h.missingPieceIndices, h.bitfield.get i = some false :=
    fun i hi => mem_missingPieceIndices (env.shuffle.mem_run.mp hi)
  unfold nextLeastCommonPiece at hb
  split at hb
  · obtain ⟨⟨i, peers⟩, hr, rfl⟩ := Option.map_eq_some_iff.mp hb
    obtain ⟨hs, hi⟩ := h.rarestLoop_spec env _ hmem none (fun _ e => by cases e) hr
    exact ⟨i, peers, hi, hs, rfl⟩
  · cases hb

/-- a new buffer is for a missing piece, with the peers that can seed it -/
theorem nextPieceBuffer_spec {h : TorrentPieceHandler} {env : PollEnv} {b : PieceBuffer}
    (hb : h.nextPieceBuffer env = some b) :
    ∃ i peers, h.bitfield.get i = some false ∧ h.seedersOf env i = some peers ∧ b = h.bufferFor i peers := by
  unfold nextPieceBuffer at hb
  split at hb
  · obtain ⟨i, hi, hs⟩ := List.exists_of_findSome?_eq_some hb
    obtain ⟨peers, hseed, rfl⟩ := Option.map_eq_some_iff.mp hs
    exact ⟨i, peers, mem_missingPieceIndices (env.shuffle.mem_run.mp hi), hseed, rfl⟩
  · exact nextLeastCommonPiece_spec hb

theorem step_none {h : TorrentPieceHandler} (hb : h.pieceBuffer = none) {op : HandlerOp} {b : PieceBuffer}
    (hb' : (h.step op).pieceBuffer = some b) :
    ∃ env i peers, op = .poll env ∧ h.bitfield.get i = some false ∧ h.seedersOf env i = some peers ∧
      b = (h.bufferFor i peers).apply .next := by
  cases op with
  | poll env =>
    have hb' : (h.poll env).2.pieceBuffer = some b := hb'
    rcases h.poll_cases env with ⟨_, _, -, -, -, e⟩ | ⟨_, _, -, -, -, e⟩ | ⟨_, hs, -, e⟩ | ⟨b0, -, hn, e⟩ |
      ⟨-, _, -, e⟩ | ⟨-, e⟩ <;> rw [e] at hb'
    · cases hb'
    · cases hb'
    · rw [hb] at hs
      cases hs
    · obtain ⟨i, peers, h1, h2, rfl⟩ := nextPieceBuffer_spec hn
      cases hb'
      exact ⟨env, i, peers, rfl, h1, h2, rfl⟩
    · rw [hb] at hb'
      cases hb'
    · simp only [hb] at hb'
      cases hb'
  | _ =>
    rw [h.pieceBuffer_step (fun env e => by cases e), hb] at hb'
    cases hb'

/-- the buffer after a step, as it comes out of the one before -/
theorem step_buffer_cases {h : TorrentPieceHandler} {op : HandlerOp} {b' : PieceBuffer}
    (hb' : (h.step op).pieceBuffer = some b') :
    (h.pieceBuffer = some b' ∧ h.bufferOp b' op = none) ∨
    (∃ b o, h.pieceBuffer = some b ∧ h.bufferOp b op = some o ∧ b' = b.apply o) ∨
    (∃ env i peers, h.pieceBuffer = none ∧ op = .poll env ∧ h.bitfield.get i = some false ∧
      h.seedersOf env i = some peers ∧ b' = (h.bufferFor i peers).apply .next) := by
  cases hb : h.pieceBuffer with
  | none =>
    obtain ⟨env, i, peers, h1, h2, h3, h4⟩ := step_none hb hb'
    exact Or.inr (Or.inr ⟨env, i, peers, rfl, h1, h2, h3, h4⟩)
  | some b =>
    have hfull : ∀ env, op = .poll env → b.isFullPiece = false := by
      rintro env rfl
      cases hf : b.isFullPiece with
      | false => rfl
      | true =>
        rw [step_full hb hf env] at hb'
        cases hb'
    rw [step_some hb op hfull] at hb'
    cases hb'
    cases ho : h.bufferOp b op with
    | none => exact Or.inl ⟨rfl, ho⟩
    | some o => exact Or.inr (Or.inl ⟨b, o, rfl, ho, rfl⟩)

/-- the peers for a piece are all peers, in the order of the walk, or there are none -/
theorem seedersOf_eq (h : TorrentPieceHandler) (env : PollEnv) (i : Nat) :
    h.seedersOf env i = if (env.order.run h.peers.entries).all (fun e => e.2.remoteCanSeedPiece i) then
      some ((env.order.run h.peers.entries).map Sigma.fst) else none :=
  List.mapM_ite_some (fun e : Sigma fun _ : PeerId => BitTorrentPeer => e.2.remoteCanSeedPiece i) Sigma.fst _

/-- the peers of a new buffer are tracked, can seed its piece, and are listed once -/
theorem seedersOf_spec {h : TorrentPieceHandler} {env : PollEnv} {i : Nat} {peers : List PeerId}
    (hs : h.seedersOf env i = some peers) :
    peers.Nodup ∧ ∀ id ∈ peers, ∃ p, h.peers.lookup id = some p ∧ p.remoteCanSeedPiece i = true := by
  have hperm := env.order.perm h.peers.entries
  rw [seedersOf_eq] at hs
  split at hs
  · rename_i hall
    cases hs
    constructor
    · exact ((hperm.map Sigma.fst).nodup_iff).mpr h.peers.nodupKeys
    · intro id hid
      obtain ⟨e, he, rfl⟩ := List.mem_map.mp hid
      exact ⟨e.2, AList.mem_entries.mp (hperm.mem_iff.mp he), List.all_eq_true.mp hall e he⟩
  · cases hs

end TorrentPieceHandler

end Btt
