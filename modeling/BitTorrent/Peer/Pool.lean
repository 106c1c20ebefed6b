import BitTorrent.Peer.Torrent
import BitTorrent.Peer.Reassembly

/-!
# What one operation does to the torrents of a pool

* `Does pool id op hop`   the operation `op` of the pool runs the operation `hop` on the piece handler of
                          the torrent `id`; where the torrent is looked for, it is the first one of the
                          walk that answers (`first`);
* `lookup_step`           a torrent after an operation is new, or its handler made such a step, or it
                          is as before;
* `Grounded`              the invariant every reachable pool has: ids are keys, and every handler is
                          `Solid`.
-/

namespace Btt
open Run

namespace Torrent

/-- run an operation of the handler -/
def act (t : Torrent) (hop : HandlerOp) : Torrent := { t with pieceHandler := t.pieceHandler.step hop }

/-- the peer is tracked, and its bitfield known -/
def knowsPiecesOf (t : Torrent) (peer : PeerId) : Bool :=
  (t.pieceHandler.peers.lookup peer).any BitTorrentPeer.hasBitfield

/-- a request of this id waits for its block -/
def hasPendingSeed (t : Torrent) (id : RequestId) : Bool :=
  t.pieceHandler.pendingSeedBlocks.any fun (_, i, _) => i = id

end Torrent

namespace TorrentPool

/-- the first torrent of the walk that passes the test -/
def first (pool : TorrentPool) (w : Walk) (test : Torrent → Bool) : Option TorrentId :=
  ((w.run pool.torrents.entries).find? fun e => test e.2).map Sigma.fst

def Does (pool : TorrentPool) (id : TorrentId) : PoolOp → HandlerOp → Prop
  | .addTorrent _, _ => False
  | .unchokeRemote w p, hop =>
    pool.first w (·.containsPeer p) = some id ∧ hop = .setClientChokeForPeer p .unChoked
  | .chokeRemote w p, hop =>
    pool.first w (·.containsPeer p) = some id ∧ hop = .setClientChokeForPeer p .choked
  | .setClientInterest t p i, hop => id = t ∧ hop = .setClientInterest p i
  | .onHandshakeRequest w p hs now, hop =>
    pool.isAssociated p = false ∧ pool.first w (·.infoHash = hs.infoHash) = some id ∧
      hop = .insertPeer p (.new hs.peerId now)
  | .onHandshakeResponse p t hs now, hop =>
    id = t ∧ (∃ T, pool.torrents.lookup t = some T ∧ T.infoHash = hs.infoHash) ∧
      hop = .insertPeer p (.new hs.peerId now)
  | .onChokeByRemote w p c, hop =>
    pool.first w (·.containsPeer p) = some id ∧ hop = .setChokeOnRemote p c
  | .onKeepAliveByRemote w p t, hop =>
    pool.first w (·.containsPeer p) = some id ∧ hop = .setRemoteHeartbeat p t
  | .onInterestByRemote w p i, hop =>
    pool.first w (·.containsPeer p) = some id ∧ hop = .setInterestOnRemote p i
  | .onPieceRequest w p m r, hop =>
    pool.first w (·.canSeedPieceTo p m.pieceIndex) = some id ∧ hop = .insertBlockSeed p m r
  | .onBlockResponse t p piece, hop => id = t ∧ hop = .addBlock p piece
  | .onCancelRequest w r, hop =>
    pool.first w (·.hasPendingSeed r) = some id ∧ hop = .removePendingSeedByRequest r
  | .onBlockRead t m, hop => id = t ∧ hop = .clearPendingSeedBlock m
  | .onRemoteHave w p i, hop =>
    pool.first w (·.knowsPiecesOf p) = some id ∧ hop = .addPeerPiece p i
  | .setPeerBitfield p t f, hop => id = t ∧ hop = .setPeerBitfield p f
  | .onBitfieldRequest w p f, hop =>
    pool.first w (·.containsPeer p) = some id ∧ hop = .setPeerBitfield p f
  | .removePeer w p, hop => pool.first w (·.containsPeer p) = some id ∧ hop = .removePeer p
  | .setPiece t i, hop => id = t ∧ hop = .setPiece i
  | .poll _ _ clock env, hop => (∃ t, hop = .poll (env t)) ∨ ∃ p, hop = .setClientHeartbeat p clock

/-! ## walks and single torrents -/

theorem first_eq_some {pool : TorrentPool} {w : Walk} {test : Torrent → Bool} {id : TorrentId}
    (h : pool.first w test = some id) : ∃ T, pool.torrents.lookup id = some T ∧ test T = true := by
  obtain ⟨e, he, rfl⟩ := Option.map_eq_some_iff.mp h
  refine ⟨e.2, (AList.lists_run w pool.torrents).agree e (List.mem_of_find?_eq_some he), ?_⟩
  simpa using List.find?_some he

theorem exists_first {pool : TorrentPool} (w : Walk) (test : Torrent → Bool) {id : TorrentId} {T : Torrent}
    (hT : pool.torrents.lookup id = some T) (htest : test T = true) : ∃ id', pool.first w test = some id' := by
  have hmem : (⟨id, T⟩ : Sigma fun _ : TorrentId => Torrent) ∈ w.run pool.torrents.entries :=
    w.mem_run.mpr (AList.mem_entries.mpr hT)
  unfold first
  cases hf : (w.run pool.torrents.entries).find? fun e => test e.2 with
  | none => exact (List.find?_eq_none.mp hf _ hmem htest).elim
  | some e => exact ⟨e.1, rfl⟩

/-- a walk runs the operation on the first torrent that passes the test, and on no other -/
theorem lookup_walk {α : Type} (pool : TorrentPool) (w : Walk) {f : Torrent → Option α × Torrent}
    {test : Torrent → Bool} {hop : HandlerOp} (hpos : ∀ t, test t = true → ∃ a, f t = (some a, t.act hop))
    (hneg : ∀ t, test t = false → f t = (none, t)) (id : TorrentId) :
    (pool.walk w f).2.torrents.lookup id
      = if pool.first w test = some id then (pool.torrents.lookup id).map (·.act hop)
        else pool.torrents.lookup id := by
  have hsome : ∀ t, ((f t).1.map fun a => (t.id, a)).isSome = test t := by
    intro t
    cases ht : test t with
    | true =>
      obtain ⟨a, ha⟩ := hpos t ht
      rw [ha]
      rfl
    | false =>
      rw [hneg t ht]
      rfl
  have hquiet : ∀ t, (((f t).1.map fun a => (t.id, a), (f t).2) : Option (TorrentId × α) × Torrent).1 = none →
      (f t).2 = t := by
    intro t ht
    cases hc : test t with
    | true =>
      obtain ⟨a, ha⟩ := hpos t hc
      simp only [ha, Option.map_some] at ht
      cases ht
    | false => rw [hneg t hc]
  refine (AList.lookup_walk_first hquiet (AList.lists_run w pool.torrents) id).trans ?_
  simp only [hsome]
  show (if pool.first w test = some id then _ else _) = _
  by_cases hfirst : pool.first w test = some id
  · rw [if_pos hfirst, if_pos hfirst]
    -- the first torrent passes the test, so the operation ran
    obtain ⟨T, hl, htest⟩ := first_eq_some hfirst
    obtain ⟨a, ha⟩ := hpos T htest
    rw [hl, Option.map_some, Option.map_some, ha]
  · rw [if_neg hfirst, if_neg hfirst]

/-- a walk answers what the first torrent that passes the test answers, with the id of that torrent -/
theorem walk_answer {α : Type} (pool : TorrentPool) (w : Walk) {f : Torrent → Option α × Torrent}
    {test : Torrent → Bool} (hf : ∀ t, (f t).1.isSome = test t) :
    (pool.walk w f).1 = (pool.first w test).bind fun id =>
      (pool.torrents.lookup id).bind fun T => (f T).1.map fun a => (T.id, a) := by
  have hlist : ∀ l : List (Sigma fun _ : TorrentId => Torrent),
      (∀ e ∈ l, pool.torrents.lookup e.1 = some e.2) →
      (l.findSome? fun e => (f e.2).1.map fun a => (e.2.id, a))
        = ((l.find? fun e => test e.2).map Sigma.fst).bind fun id =>
          (pool.torrents.lookup id).bind fun T => (f T).1.map fun a => (T.id, a) := by
    intro l hl
    induction l with
    | nil => rfl
    | cons e l ih =>
      have he := hf e.2
      rw [List.findSome?_cons, List.find?_cons, ← he]
      cases hfe : (f e.2).1 with
      | none => exact ih fun x hx => hl x (List.mem_cons_of_mem _ hx)
      | some a =>
        simp only [Option.map_some, Option.isSome_some, Option.bind_some, hl e List.mem_cons_self, hfe]
  unfold walk first
  simp only [AList.walk_fst]
  exact hlist _ (AList.lists_run w pool.torrents).agree

/-- if ids are keys, the id is that of the first torrent that passes the test -/
theorem walk_first {α : Type} (pool : TorrentPool) (w : Walk) {f : Torrent → Option α × Torrent}
    {test : Torrent → Bool} (hf : ∀ t, (f t).1.isSome = test t)
    (hkey : ∀ id T, pool.torrents.lookup id = some T → T.id = id) :
    (pool.walk w f).1.map Prod.fst = pool.first w test := by
  rw [pool.walk_answer w hf]
  cases hfirst : pool.first w test with
  | none => rfl
  | some id =>
    obtain ⟨T, hT, htest⟩ := first_eq_some hfirst
    obtain ⟨a, ha⟩ := Option.isSome_iff_exists.mp ((hf T).trans htest)
    simp only [Option.bind_some, hT, ha, Option.map_some, hkey id T hT]

theorem lookup_modify {α : Type} (pool : TorrentPool) (t id : TorrentId) (f : Torrent → α × Torrent) :
    (pool.modify t f).2.torrents.lookup id
      = if id = t then (pool.torrents.lookup id).map (fun T => (f T).2) else pool.torrents.lookup id := by
  unfold modify
  split
  · rename_i T hT
    show (pool.torrents.insert t (f T).2).lookup id = _
    rw [AList.lookup_insert_eq]
    by_cases e : id = t
    · rw [if_pos e, if_pos e, e, hT]
      rfl
    · rw [if_neg e, if_neg e]
  · rename_i hT
    by_cases e : id = t
    · rw [if_pos e, e, hT]
      rfl
    · rw [if_neg e]

end TorrentPool

namespace Torrent

variable (t : Torrent) (peer : PeerId)

/-- a replacement in the record of a peer answers exactly if the peer is tracked -/
theorem handle_replacePeer {α : Type} (old : BitTorrentPeer → α) (new : BitTorrentPeer → BitTorrentPeer) :
    (t.containsPeer peer = true → ∃ a, t.handle (·.replacePeer peer old new)
      = (some a, { t with pieceHandler := (t.pieceHandler.replacePeer peer old new).2 })) ∧
    (t.containsPeer peer = false → t.handle (·.replacePeer peer old new) = (none, t)) := by
  constructor
  · intro h
    obtain ⟨p, hp⟩ := AList.mem_iff_lookup.mp (of_decide_eq_true h)
    exact ⟨old p, by simp only [handle, TorrentPieceHandler.replacePeer, hp]⟩
  · intro h
    have hp := AList.lookup_eq_none.mpr (of_decide_eq_false h)
    simp only [handle, TorrentPieceHandler.replacePeer, hp]

theorem handle_setChokeOnRemote (c : ChokeType) :
    (t.containsPeer peer = true → ∃ a, t.onChokeByRemote peer c = (some a, t.act (.setChokeOnRemote peer c))) ∧
    (t.containsPeer peer = false → t.onChokeByRemote peer c = (none, t)) := by
  unfold containsPeer onChokeByRemote handle act TorrentPieceHandler.step
  constructor
  · intro h
    obtain ⟨p, hp⟩ := AList.mem_iff_lookup.mp (of_decide_eq_true h)
    refine ⟨p.remoteChoke, ?_⟩
    simp only [TorrentPieceHandler.setChokeOnRemote, hp]
  · intro h
    have hp := AList.lookup_eq_none.mpr (of_decide_eq_false h)
    simp only [TorrentPieceHandler.setChokeOnRemote, hp]

theorem handle_removePeer :
    (t.containsPeer peer = true → ∃ a, t.removePeer peer = (some a, t.act (.removePeer peer))) ∧
    (t.containsPeer peer = false → t.removePeer peer = (none, t)) := by
  unfold containsPeer removePeer handle act TorrentPieceHandler.step
  constructor
  · intro h
    obtain ⟨p, hp⟩ := AList.mem_iff_lookup.mp (of_decide_eq_true h)
    refine ⟨p, ?_⟩
    simp only [TorrentPieceHandler.removePeer, hp]
  · intro h
    have hp := AList.lookup_eq_none.mpr (of_decide_eq_false h)
    simp only [TorrentPieceHandler.removePeer, hp]

theorem handle_cancel (id : RequestId) :
    (t.hasPendingSeed id = true → ∃ a, t.handle (·.removePendingSeedByRequest id)
      = (some a, t.act (.removePendingSeedByRequest id))) ∧
    (t.hasPendingSeed id = false → t.handle (·.removePendingSeedByRequest id) = (none, t)) := by
  unfold hasPendingSeed
  constructor
  · intro h
    cases hf : t.pieceHandler.pendingSeedBlocks.find? fun (_, i, _) => i = id with
    | none =>
      rw [List.find?_eq_none] at hf
      obtain ⟨e, he, hid⟩ := List.any_eq_true.mp h
      exact absurd hid (hf e he)
    | some e =>
      refine ⟨(e.1, e.2.2), ?_⟩
      simp only [handle, act, TorrentPieceHandler.step, TorrentPieceHandler.removePendingSeedByRequest,
        TorrentPieceHandler.takePendingSeed, hf, Option.map_some]
  · intro h
    have hf : (t.pieceHandler.pendingSeedBlocks.find? fun (_, i, _) => i = id) = none := by
      rw [List.find?_eq_none]
      intro e he hid
      rw [List.any_eq_false] at h
      exact h e he hid
    simp only [handle, TorrentPieceHandler.removePendingSeedByRequest, TorrentPieceHandler.takePendingSeed, hf,
      Option.map_none]

theorem handle_have (i : Nat) :
    (t.knowsPiecesOf peer = true → ∃ a, t.onRemoteHave peer i = (some a, t.act (.addPeerPiece peer i))) ∧
    (t.knowsPiecesOf peer = false → t.onRemoteHave peer i = (none, t)) := by
  unfold knowsPiecesOf
  cases hp : t.pieceHandler.peers.lookup peer with
  | none =>
    refine ⟨fun h => (by cases h), fun _ => ?_⟩
    simp only [onRemoteHave, handle, TorrentPieceHandler.addPeerPiece, TorrentPieceHandler.replacePeer, hp,
      Option.join_none]
  | some p =>
    constructor
    · intro h
      obtain ⟨f, hf⟩ := Option.isSome_iff_exists.mp (show p.bitfield.isSome = true from h)
      obtain ⟨bit, hbit⟩ : ∃ bit, (p.addPiece i).1 = some bit := by
        unfold BitTorrentPeer.addPiece
        rw [hf]
        simp only
        split
        · exact ⟨true, rfl⟩
        · exact ⟨false, rfl⟩
      refine ⟨bit, ?_⟩
      simp only [onRemoteHave, handle, act, TorrentPieceHandler.step, TorrentPieceHandler.addPeerPiece,
        TorrentPieceHandler.replacePeer, hp, Option.join_some, hbit]
    · intro h
      have hf : p.bitfield = none := Option.not_isSome_iff_eq_none.mp (by
        rw [show p.bitfield.isSome = false from h]
        exact Bool.false_ne_true)
      have hadd : (p.addPiece i).1 = none := by
        unfold BitTorrentPeer.addPiece
        rw [hf]
      simp only [onRemoteHave, handle, TorrentPieceHandler.addPeerPiece, TorrentPieceHandler.replacePeer, hp,
        Option.join_some, hadd]

/-- what a poll of the torrent makes of a poll of its handler -/
def outcome (id : TorrentId) : HandlerState → TorrentPoolState
  | .waitingPeers => .waiting id
  | .leechBlock (some block) => .nextBlock block
  | .leechBlock none => .waiting id
  | .pieceFinished res => .pieceReady (res.map fun block => (id, block))
  | .finished => .finished id
  | .seed => .idle

/-- a poll finds a heartbeat due, or a peer timed out, or polls the handler -/
theorem poll_cases (now clock : Instant) (env : PollEnv) :
    (∃ p, t.poll now clock env = (.keepAlive t.id p, t.act (.setClientHeartbeat p clock))) ∨
    (∃ p, t.poll now clock env = (.timeout t.id p, t)) ∨
    (∃ seedLeech, t.poll now clock env
      = (outcome t.id (t.pieceHandler.poll env).1, { t.act (.poll env) with seedLeech := seedLeech })) := by
  unfold poll
  split
  · rename_i e he
    split
    · exact Or.inl ⟨e.1, rfl⟩
    · exact Or.inr (Or.inl ⟨e.1, rfl⟩)
  · right; right
    simp only
    split <;> rename_i hpoll <;> rw [hpoll] <;> exact ⟨_, rfl⟩

/-- an inactive torrent is left alone, an active one is polled; only idle and waiting go on -/
theorem visit_cases (now clock : Instant) (env : TorrentId → PollEnv) :
    (t.isActive = false ∧ t.visit now clock env = (none, t)) ∨
    (t.isActive = true ∧ (t.visit now clock env).2 = (t.poll now clock (env t.id)).2 ∧
      ((t.visit now clock env).1 = some (t.poll now clock (env t.id)).1 ∨
        ((t.visit now clock env).1 = none ∧ ((t.poll now clock (env t.id)).1 = .idle ∨
          ∃ id, (t.poll now clock (env t.id)).1 = .waiting id)))) := by
  unfold visit
  split
  · rename_i hact
    right
    split <;> rename_i hp <;> rw [hp]
    · exact ⟨hact, rfl, Or.inr ⟨rfl, Or.inl rfl⟩⟩
    · exact ⟨hact, rfl, Or.inr ⟨rfl, Or.inr ⟨_, rfl⟩⟩⟩
    · exact ⟨hact, rfl, Or.inl rfl⟩
  · rename_i hact
    exact Or.inl ⟨Bool.eq_false_iff.mpr hact, rfl⟩

end Torrent

namespace TorrentPool

/-! ## the projection to one torrent -/

/-- `T'` is the torrent `T` after the operation -/
structure Follows (pool : TorrentPool) (id : TorrentId) (op : PoolOp) (T T' : Torrent) : Prop where
  sameId : T'.id = T.id
  infoHash : T'.infoHash = T.infoHash
  state : T'.state = T.state
  handler : T'.pieceHandler = T.pieceHandler ∨
    ∃ hop, pool.Does id op hop ∧ T'.pieceHandler = T.pieceHandler.step hop

theorem follows_same (pool : TorrentPool) (id : TorrentId) (op : PoolOp) (T : Torrent) :
    pool.Follows id op T T :=
  ⟨rfl, rfl, rfl, Or.inl rfl⟩

theorem follows_act {pool : TorrentPool} {id : TorrentId} {op : PoolOp} {T : Torrent} {hop : HandlerOp}
    (h : pool.Does id op hop) : pool.Follows id op T (T.act hop) :=
  ⟨rfl, rfl, rfl, Or.inr ⟨hop, h, rfl⟩⟩

section
variable {pool : TorrentPool} {id : TorrentId} {op : PoolOp} {T' : Torrent}

theorem follows_walk {α : Type} {w : Walk} {f : Torrent → Option α × Torrent} (test : Torrent → Bool)
    (hop : HandlerOp) (hf : ∀ t, (test t = true → ∃ a, f t = (some a, t.act hop)) ∧
      (test t = false → f t = (none, t)))
    (hdoes : pool.first w test = some id → pool.Does id op hop)
    (h : (pool.walk w f).2.torrents.lookup id = some T') :
    ∃ T, pool.torrents.lookup id = some T ∧ pool.Follows id op T T' := by
  rw [lookup_walk pool w (fun t => (hf t).1) (fun t => (hf t).2)] at h
  split at h
  · rename_i hfirst
    obtain ⟨T, hT, rfl⟩ := Option.map_eq_some_iff.mp h
    exact ⟨T, hT, follows_act (hdoes hfirst)⟩
  · exact ⟨T', h, follows_same pool id op T'⟩

theorem follows_modify {α : Type} {t : TorrentId} {f : Torrent → α × Torrent} (hop : HandlerOp)
    (hf : ∀ T, (f T).2 = T.act hop) (hdoes : id = t → pool.Does id op hop)
    (h : (pool.modify t f).2.torrents.lookup id = some T') :
    ∃ T, pool.torrents.lookup id = some T ∧ pool.Follows id op T T' := by
  rw [lookup_modify] at h
  split at h
  · rename_i e
    obtain ⟨T, hT, rfl⟩ := Option.map_eq_some_iff.mp h
    exact ⟨T, hT, hf T ▸ follows_act (hdoes e)⟩
  · exact ⟨T', h, follows_same pool id op T'⟩

end

/-- a torrent with a known info hash is refused; otherwise it is stored under the next id, in the state that
was asked for, and the state that is returned is the one the limit allows -/
theorem addTorrent_cases (pool : TorrentPool) (config : TorrentConfig) :
    (pool.addTorrent config = (.error config.infoHash, pool) ∧
      ∃ id T, pool.torrents.lookup id = some T ∧ T.infoHash = config.infoHash) ∨
    ((∀ id T, pool.torrents.lookup id = some T → T.infoHash ≠ config.infoHash) ∧
      pool.addTorrent config = (.ok (⟨pool.nextUniqueTorrent⟩,
          if config.state.isActive then
            if (pool.torrents.vals.filter Torrent.isActive).length < pool.maxActiveTorrents then .active
            else .paused
          else config.state),
        { pool with
          nextUniqueTorrent := pool.nextUniqueTorrent + 1
          torrents := pool.torrents.insert ⟨pool.nextUniqueTorrent⟩ ⟨⟨pool.nextUniqueTorrent⟩, config.infoHash,
            .new ⟨pool.nextUniqueTorrent⟩ pool.initialPieceSelectionStrategy config.bitfield config.pieceLength
              config.lastPieceLength, config.seedLeech, config.state⟩ })) := by
  unfold addTorrent
  split
  · rename_i hold
    obtain ⟨T, hT, hhash⟩ := List.any_eq_true.mp hold
    obtain ⟨id, hid⟩ := AList.mem_vals.mp hT
    exact Or.inl ⟨rfl, id, T, hid, of_decide_eq_true hhash⟩
  · rename_i hnew
    refine Or.inr ⟨?_, rfl⟩
    intro id T hT hhash
    exact hnew (List.any_eq_true.mpr ⟨T, AList.mem_vals.mpr ⟨id, hT⟩, decide_eq_true hhash⟩)

theorem lookup_addTorrent {pool : TorrentPool} {config : TorrentConfig} {id : TorrentId} {T' : Torrent}
    (h : (pool.addTorrent config).2.torrents.lookup id = some T') :
    pool.torrents.lookup id = some T' ∨
    (id = ⟨pool.nextUniqueTorrent⟩ ∧
      (pool.addTorrent config).2.nextUniqueTorrent = pool.nextUniqueTorrent + 1 ∧
      (∀ id T, pool.torrents.lookup id = some T → T.infoHash ≠ config.infoHash) ∧
      T' = ⟨id, config.infoHash, .new id pool.initialPieceSelectionStrategy config.bitfield config.pieceLength
        config.lastPieceLength, config.seedLeech, config.state⟩) := by
  rcases pool.addTorrent_cases config with ⟨e, -⟩ | ⟨hnew, e⟩ <;> rw [e] at h ⊢
  · exact Or.inl h
  · simp only [AList.lookup_insert_eq] at h
    split at h
    · rename_i hid
      cases h
      exact Or.inr ⟨hid, rfl, hnew, by rw [hid]⟩
    · exact Or.inl h

/-- a remote's handshake goes to the first torrent with its info hash, unless the remote is tracked -/
theorem follows_handshakeRequest {pool : TorrentPool} {w : Walk} {p : PeerId} {hs : Handshake} {now : Instant}
    {id : TorrentId} {T' : Torrent}
    (h : (pool.onHandshakeRequest w p hs now).2.torrents.lookup id = some T') :
    ∃ T, pool.torrents.lookup id = some T ∧ pool.Follows id (.onHandshakeRequest w p hs now) T T' := by
  unfold onHandshakeRequest at h
  split at h
  · exact ⟨T', h, follows_same ..⟩
  · rename_i hassoc
    simp only at h
    have hw : (pool.walk w fun t =>
        if t.infoHash = hs.infoHash then
          (some (), { t with pieceHandler := t.pieceHandler.insertPeer p (.new hs.peerId now) })
        else (none, t)).2.torrents.lookup id = some T' := by
      split at h <;> exact h
    refine follows_walk (·.infoHash = hs.infoHash) (.insertPeer p (.new hs.peerId now)) ?_
      (fun e => ⟨Bool.eq_false_iff.mpr hassoc, e, rfl⟩) hw
    intro t
    constructor
    · intro ht
      rw [if_pos (of_decide_eq_true ht)]
      exact ⟨(), rfl⟩
    · intro ht
      rw [if_neg (of_decide_eq_false ht)]

/-- the answer to our handshake goes to the torrent it was sent for, if the info hash is the same -/
theorem follows_handshakeResponse {pool : TorrentPool} {p : PeerId} {t : TorrentId} {hs : Handshake}
    {now : Instant} {id : TorrentId} {T' : Torrent}
    (h : (pool.onHandshakeResponse p t hs now).2.torrents.lookup id = some T') :
    ∃ T, pool.torrents.lookup id = some T ∧ pool.Follows id (.onHandshakeResponse p t hs now) T T' := by
  unfold onHandshakeResponse at h
  split at h
  · rename_i T hT
    split at h
    · rename_i hhash
      simp only [AList.lookup_insert_eq] at h
      split at h
      · rename_i e
        cases h
        have hdoes : pool.Does id (.onHandshakeResponse p t hs now) (.insertPeer p (.new hs.peerId now)) :=
          ⟨e, ⟨T, hT, hhash⟩, rfl⟩
        exact ⟨T, e ▸ hT, follows_act hdoes⟩
      · exact ⟨T', h, follows_same ..⟩
    · exact ⟨T', h, follows_same ..⟩
  · exact ⟨T', h, follows_same ..⟩

theorem follows_poll {pool : TorrentPool} {id : TorrentId} {w : Walk} {now clock : Instant}
    {env : TorrentId → PollEnv} {T' : Torrent}
    (h : (pool.poll w now clock env).2.torrents.lookup id = some T') :
    ∃ T, pool.torrents.lookup id = some T ∧ pool.Follows id (.poll w now clock env) T T' := by
  have hpoll : ∀ T : Torrent, pool.Follows id (.poll w now clock env) T (T.poll now clock (env T.id)).2 := by
    intro T
    rcases T.poll_cases now clock (env T.id) with ⟨p, e⟩ | ⟨p, e⟩ | ⟨sl, e⟩ <;> rw [e]
    · exact follows_act (Or.inr ⟨p, rfl⟩)
    · exact follows_same ..
    · exact ⟨rfl, rfl, rfl, Or.inr ⟨_, Or.inl ⟨T.id, rfl⟩, rfl⟩⟩
  have hl := AList.lists_run w pool.torrents
  rcases AList.lookup_walk _ hl id with e | ⟨pre, T, post, hrun, -, e⟩
  · exact ⟨T', e.symm.trans h, follows_same ..⟩
  · cases e.symm.trans h
    refine ⟨T, hl.lookup hrun, ?_⟩
    show pool.Follows id _ T (T.visit now clock env).2
    rcases T.visit_cases now clock env with ⟨-, e⟩ | ⟨-, e, -⟩ <;> rw [e]
    · exact follows_same ..
    · exact hpoll T

/-- a state other than idle comes from the poll of an active torrent; those before it in the walk had
nothing to report -/
theorem poll_answer {pool : TorrentPool} {w : Walk} {now clock : Instant} {env : TorrentId → PollEnv}
    {st : TorrentPoolState} (h : (pool.poll w now clock env).1 = st) (hst : st ≠ .idle) :
    ∃ pre id T post, w.run pool.torrents.entries = pre ++ ⟨id, T⟩ :: post ∧
      (∀ e ∈ pre, (e.2.visit now clock env).1 = none) ∧ pool.torrents.lookup id = some T ∧
      T.isActive = true ∧ (T.poll now clock (env T.id)).1 = st := by
  have h : ((pool.walk w (Torrent.visit now clock env)).1.map Prod.snd).getD .idle = st := h
  cases hw : (pool.walk w (Torrent.visit now clock env)).1 with
  | none =>
    rw [hw] at h
    exact (hst h.symm).elim
  | some a =>
    rw [hw] at h
    cases h
    unfold walk at hw
    simp only [AList.walk_fst] at hw
    obtain ⟨pre, e, post, hrun, hans, hpre⟩ := List.findSome?_eq_some_iff.mp hw
    obtain ⟨st', hst', rfl⟩ := Option.map_eq_some_iff.mp hans
    refine ⟨pre, e.1, e.2, post, hrun, ?_, (AList.lists_run w pool.torrents).lookup hrun, ?_⟩
    · intro x hx
      exact Option.map_eq_none_iff.mp (hpre x hx)
    · rcases e.2.visit_cases now clock env with ⟨-, hv⟩ | ⟨hact, -, hv | ⟨hv, -⟩⟩
      · rw [hv] at hst'
        cases hst'
      · rw [hv] at hst'
        exact ⟨hact, Option.some.inj hst'⟩
      · rw [hv] at hst'
        cases hst'

/-- a torrent after an operation: one that was there before, or the added one -/
theorem lookup_step {pool : TorrentPool} {op : PoolOp} {id : TorrentId} {T' : Torrent}
    (h : (pool.step op).torrents.lookup id = some T') :
    (∃ T, pool.torrents.lookup id = some T ∧ pool.Follows id op T T') ∨
    (∃ config, op = .addTorrent config ∧ id = ⟨pool.nextUniqueTorrent⟩ ∧
      (pool.step op).nextUniqueTorrent = pool.nextUniqueTorrent + 1 ∧
      (∀ id T, pool.torrents.lookup id = some T → T.infoHash ≠ config.infoHash) ∧
      T' = ⟨id, config.infoHash, .new id pool.initialPieceSelectionStrategy config.bitfield config.pieceLength
        config.lastPieceLength, config.seedLeech, config.state⟩) := by
  cases op with
  | addTorrent config =>
    rcases lookup_addTorrent h with h | ⟨hid, hnext, hnew, hT⟩
    · exact Or.inl ⟨T', h, follows_same ..⟩
    · exact Or.inr ⟨config, rfl, hid, hnext, hnew, hT⟩
  | unchokeRemote w p =>
    exact Or.inl (follows_walk (·.containsPeer p) (.setClientChokeForPeer p .unChoked)
      (fun t => t.handle_replacePeer p _ _) (fun e => ⟨e, rfl⟩) h)
  | chokeRemote w p =>
    exact Or.inl (follows_walk (·.containsPeer p) (.setClientChokeForPeer p .choked)
      (fun t => t.handle_replacePeer p _ _) (fun e => ⟨e, rfl⟩) h)
  | setClientInterest t p i =>
    exact Or.inl (follows_modify (.setClientInterest p i) (fun _ => rfl) (fun e => ⟨e, rfl⟩) h)
  | onHandshakeRequest w p hs now => exact Or.inl (follows_handshakeRequest h)
  | onHandshakeResponse p t hs now => exact Or.inl (follows_handshakeResponse h)
  | onChokeByRemote w p c =>
    exact Or.inl (follows_walk (·.containsPeer p) (.setChokeOnRemote p c)
      (fun t => t.handle_setChokeOnRemote p c) (fun e => ⟨e, rfl⟩) h)
  | onKeepAliveByRemote w p t =>
    have h : (pool.onKeepAliveByRemote w p t).2.torrents.lookup id = some T' := h
    unfold onKeepAliveByRemote at h
    refine Or.inl (follows_walk (·.containsPeer p) (.setRemoteHeartbeat p t)
      (fun t => t.handle_replacePeer p _ _) (fun e => ⟨e, rfl⟩) ?_)
    simp only at h
    split at h <;> exact h
  | onInterestByRemote w p i =>
    have h : (pool.onInterestByRemote w p i).2.torrents.lookup id = some T' := h
    unfold onInterestByRemote at h
    refine Or.inl (follows_walk (·.containsPeer p) (.setInterestOnRemote p i)
      (fun t => t.handle_replacePeer p _ _) (fun e => ⟨e, rfl⟩) ?_)
    simp only at h
    split at h
    · split at h <;> exact h
    · exact h
  | onPieceRequest w p m r =>
    refine Or.inl (follows_walk (·.canSeedPieceTo p m.pieceIndex) (.insertBlockSeed p m r) ?_
      (fun e => ⟨e, rfl⟩) h)
    intro t
    constructor
    · intro ht
      rw [if_pos ht]
      exact ⟨(), rfl⟩
    · intro ht
      rw [if_neg (by rw [ht]; exact Bool.false_ne_true)]
  | onBlockResponse t p piece =>
    exact Or.inl (follows_modify (.addBlock p piece) (fun _ => rfl) (fun e => ⟨e, rfl⟩) h)
  | onCancelRequest w r =>
    exact Or.inl (follows_walk (·.hasPendingSeed r) (.removePendingSeedByRequest r)
      (fun t => t.handle_cancel r) (fun e => ⟨e, rfl⟩) h)
  | onBlockRead t m =>
    exact Or.inl (follows_modify (.clearPendingSeedBlock m) (fun _ => rfl) (fun e => ⟨e, rfl⟩) h)
  | onRemoteHave w p i =>
    exact Or.inl (follows_walk (·.knowsPiecesOf p) (.addPeerPiece p i)
      (fun t => t.handle_have p i) (fun e => ⟨e, rfl⟩) h)
  | setPeerBitfield p t f =>
    exact Or.inl (follows_modify (.setPeerBitfield p f) (fun _ => rfl) (fun e => ⟨e, rfl⟩) h)
  | onBitfieldRequest w p f =>
    refine Or.inl (follows_walk (·.containsPeer p) (.setPeerBitfield p f) ?_ (fun e => ⟨e, rfl⟩) h)
    intro t
    obtain ⟨h1, h2⟩ := t.handle_replacePeer p (·.bitfield) (·.setBitfield f)
    constructor
    · intro ht
      obtain ⟨a, ha⟩ := h1 ht
      exact ⟨t.bitfield, by simp only [TorrentPieceHandler.setPeerBitfield, ha]; rfl⟩
    · intro ht
      simp only [TorrentPieceHandler.setPeerBitfield, h2 ht, Option.map_none]
  | removePeer w p =>
    exact Or.inl (follows_walk (·.containsPeer p) (.removePeer p)
      (fun t => t.handle_removePeer p) (fun e => ⟨e, rfl⟩) h)
  | setPiece t i =>
    exact Or.inl (follows_modify (.setPiece i) (fun _ => rfl) (fun e => ⟨e, rfl⟩) h)
  | poll w now clock env => exact Or.inl (follows_poll h)

theorem modify_eq {α : Type} (pool : TorrentPool) (t : TorrentId) (f : Torrent → α × Torrent) :
    ∃ ts, (pool.modify t f).2 = { pool with torrents := ts } := by
  unfold modify
  split
  · exact ⟨_, rfl⟩
  · exact ⟨pool.torrents, rfl⟩

theorem nextUniqueTorrent_modify {α : Type} (pool : TorrentPool) (t : TorrentId) (f : Torrent → α × Torrent) :
    (pool.modify t f).2.nextUniqueTorrent = pool.nextUniqueTorrent := by
  obtain ⟨ts, e⟩ := pool.modify_eq t f
  rw [e]

/-- only `addTorrent` changes more than the torrents -/
theorem step_eq (pool : TorrentPool) (op : PoolOp) :
    (∃ ts, pool.step op = { pool with torrents := ts }) ∨ ∃ config, op = .addTorrent config := by
  cases op with
  | addTorrent config => exact Or.inr ⟨config, rfl⟩
  | onHandshakeRequest w p hs now =>
    left
    show ∃ ts, (pool.onHandshakeRequest w p hs now).2 = _
    unfold onHandshakeRequest
    split
    · exact ⟨pool.torrents, rfl⟩
    · simp only
      split <;> exact ⟨_, rfl⟩
  | onHandshakeResponse p t hs now =>
    left
    show ∃ ts, (pool.onHandshakeResponse p t hs now).2 = _
    unfold onHandshakeResponse
    split
    · split
      · exact ⟨_, rfl⟩
      · exact ⟨pool.torrents, rfl⟩
    · exact ⟨pool.torrents, rfl⟩
  | onKeepAliveByRemote w p t =>
    left
    show ∃ ts, (pool.onKeepAliveByRemote w p t).2 = _
    unfold onKeepAliveByRemote
    simp only
    split <;> exact ⟨_, rfl⟩
  | onInterestByRemote w p i =>
    left
    show ∃ ts, (pool.onInterestByRemote w p i).2 = _
    unfold onInterestByRemote
    simp only
    split
    · split <;> exact ⟨_, rfl⟩
    · exact ⟨_, rfl⟩
  | setClientInterest t p i => exact Or.inl (pool.modify_eq t (·.setClientInterest p i))
  | onBlockResponse t p piece => exact Or.inl (pool.modify_eq t (·.addBlock p (Block.ofPiece piece)))
  | onBlockRead t m => exact Or.inl (pool.modify_eq t fun t => t.handle (·.clearPendingSeedBlock m))
  | setPeerBitfield p t f => exact Or.inl (pool.modify_eq t fun t => t.handle (·.setPeerBitfield p f))
  | setPiece t i => exact Or.inl (pool.modify_eq t fun t => ((), t.setPiece i))
  | _ => exact Or.inl ⟨_, rfl⟩

theorem nextUniqueTorrent_step (pool : TorrentPool) (op : PoolOp) :
    pool.nextUniqueTorrent ≤ (pool.step op).nextUniqueTorrent := by
  rcases pool.step_eq op with ⟨ts, e⟩ | ⟨config, rfl⟩
  · rw [e]
  · show _ ≤ (pool.addTorrent config).2.nextUniqueTorrent
    unfold addTorrent
    split
    · exact Nat.le_refl _
    · exact Nat.le_succ _

theorem maxActiveTorrents_step (pool : TorrentPool) (op : PoolOp) :
    (pool.step op).maxActiveTorrents = pool.maxActiveTorrents := by
  rcases pool.step_eq op with ⟨ts, e⟩ | ⟨config, rfl⟩
  · rw [e]
  · show (pool.addTorrent config).2.maxActiveTorrents = _
    unfold addTorrent
    split <;> rfl

/-! ## what holds of every pool -/

/-- the torrent under a key has that id, below the next free one, and a solid handler -/
structure Grounded (pool : TorrentPool) (id : TorrentId) (T : Torrent) : Prop where
  below : id.val < pool.nextUniqueTorrent
  key : T.id = id
  handler : T.pieceHandler.id = id
  solid : T.pieceHandler.Solid

theorem grounded_step {pool : TorrentPool} (op : PoolOp)
    (hI : ∀ id T, pool.torrents.lookup id = some T → pool.Grounded id T) :
    ∀ id T, (pool.step op).torrents.lookup id = some T → (pool.step op).Grounded id T := by
  intro id T' h'
  rcases lookup_step h' with ⟨T, hT, hfol⟩ | ⟨config, -, rfl, hnext, -, rfl⟩
  · have hg := hI id T hT
    have hbelow := Nat.lt_of_lt_of_le hg.below (pool.nextUniqueTorrent_step op)
    refine ⟨hbelow, hfol.sameId.trans hg.key, ?_, ?_⟩
    · rcases hfol.handler with e | ⟨hop, -, e⟩
      · rw [e]
        exact hg.handler
      · rw [e]
        exact (congrArg Prod.fst (T.pieceHandler.step_static hop)).trans hg.handler
    · rcases hfol.handler with e | ⟨hop, -, e⟩
      · rw [e]
        exact hg.solid
      · rw [e]
        exact hg.solid.step hop
  · refine ⟨?_, rfl, rfl, TorrentPieceHandler.solid_new _ _ _ _ _⟩
    rw [hnext]
    exact Nat.lt_succ_self _

theorem grounded_exec (random : ShaHash) (config : BitTorrentConfig) (ops : List PoolOp) :
    ∀ id T, (exec step (new random config) ops).torrents.lookup id = some T →
      (exec step (new random config) ops).Grounded id T := by
  refine exec_inv (I := fun pool : TorrentPool => ∀ id T, pool.torrents.lookup id = some T → pool.Grounded id T)
    (fun pool op hI => grounded_step op hI) ?_ ops
  intro id T h
  rw [show (new random config).torrents = ∅ from rfl, AList.lookup_empty] at h
  cases h

end TorrentPool

end Btt
