import BitTorrent.Behavior.Step
import BitTorrent.Peer.Work

/-!
# When the pool loop ends

`BitTorrent::poll` polls the torrent pool again and again, with one `now`, until it is idle or has something for
the swarm.  It goes round after a piece that is ready, which leaves less work to do, and after a peer that timed
out, which changes nothing.

* `pollPool_cases`      a turn ends the loop, or reports a piece or a timeout;
* `poolLoop_ends`       without silent peers the loop ends;
* `poolLoop_silent`     with a silent peer that is walked first it does not;
* `pool_loop_ends_iff`  so it ends for every order of torrents and peers exactly if there is no silent peer.
-/

namespace Btt
open Run

namespace BitTorrent
variable {File World Err : Type}

/-- a turn of the loop -/
theorem pollPool_cases (b : BitTorrent File World) (now : Instant) (e : PoolEnv) :
    (b.pollPool now e).1 ≠ .again ∨
    ((b.pollPool now e).1 = .again ∧
      ((∃ r, (b.torrents.poll e.walk now e.clock e.env).1 = .pieceReady r) ∨
        ∃ id p, (b.torrents.poll e.walk now e.clock e.env).1 = .timeout id p)) := by
  unfold pollPool
  split <;> rename_i h <;> rw [h]
  · exact Or.inl nofun
  · exact Or.inr ⟨rfl, Or.inr ⟨_, _, rfl⟩⟩
  · exact Or.inr ⟨rfl, Or.inl ⟨_, rfl⟩⟩
  · exact Or.inr ⟨rfl, Or.inl ⟨_, rfl⟩⟩
  · exact Or.inl nofun
  · exact Or.inl nofun
  · exact Or.inl nofun
  · exact Or.inl nofun

theorem poolLoop_cons (now : Instant) (e : PoolEnv) (es : List PoolEnv) (b : BitTorrent File World)
    (h : (b.pollPool now e).1 = .again) : poolLoop now (e :: es) b = poolLoop now es (b.pollPool now e).2 := by
  rw [poolLoop]
  split <;> rename_i hturn <;> rw [hturn] at h ⊢
  · cases h
  · cases h

theorem poolLoop_last (now : Instant) (e : PoolEnv) (es : List PoolEnv) (b : BitTorrent File World)
    (h : (b.pollPool now e).1 ≠ .again) : ∃ out, poolLoop now (e :: es) b = some out := by
  rw [poolLoop]
  split <;> rename_i hturn
  · rw [hturn] at h
    exact (h rfl).elim
  · exact ⟨_, rfl⟩
  · exact ⟨_, rfl⟩

/-- every turn that goes on leaves less work -/
theorem poolLoop_ends {b : BitTorrent File World} {now : Instant} (hg : b.Grounded)
    (hquiet : b.torrents.NoneSilent now) (es : Nat → PoolEnv) :
    ∃ n out, poolLoop now ((List.range n).map es) b = some out := by
  induction hwork : b.torrents.work using Nat.strongRecOn generalizing b es with
  | ind k ih =>
    have hrange : ∀ n, (List.range (n + 1)).map es = es 0 :: (List.range n).map fun i => es (i + 1) := by
      intro n
      rw [List.range_succ_eq_map, List.map_cons, List.map_map]
      rfl
    rcases b.pollPool_cases now (es 0) with hend | ⟨hagain, ⟨r, hready⟩ | ⟨id, p, htimeout⟩⟩
    · refine ⟨1, ?_⟩
      rw [hrange]
      exact poolLoop_last now (es 0) _ b hend
    · have htorrents : (b.pollPool now (es 0)).2.torrents
          = (b.torrents.poll (es 0).walk now (es 0).clock (es 0).env).2 := torrents_pollPool b now (es 0)
      have hless : (b.pollPool now (es 0)).2.torrents.work < k := by
        rw [htorrents, ← hwork]
        exact TorrentPool.work_poll hg hready
      have hg' : (b.pollPool now (es 0)).2.Grounded := by
        unfold Grounded
        rw [htorrents]
        exact TorrentPool.grounded_step (.poll (es 0).walk now (es 0).clock (es 0).env) hg
      have hquiet' : (b.pollPool now (es 0)).2.torrents.NoneSilent now := by
        rw [htorrents]
        refine TorrentPool.noneSilent_poll hquiet ?_
        intro id p hkeep
        rw [hready] at hkeep
        cases hkeep
      obtain ⟨n, out, hout⟩ := ih _ hless hg' hquiet' (fun i => es (i + 1)) rfl
      refine ⟨n + 1, out, ?_⟩
      rw [hrange, poolLoop_cons now (es 0) _ b hagain]
      exact hout
    · exact (TorrentPool.no_timeout hquiet id p htimeout).elim

/-- the torrent `id` and its peer `p` are walked first -/
def peerFirst (id : TorrentId) (p : PeerId) : PoolEnv :=
  ⟨.front fun e => e.1 = id, 0, fun _ => ⟨.same, .front fun e => e.1 = p⟩⟩

/-- a silent peer that is walked first is all the loop ever sees -/
theorem poolLoop_silent {b : BitTorrent File World} {now : Instant} {id : TorrentId} {T : Torrent} {p : PeerId}
    {r : BitTorrentPeer} (hT : b.torrents.torrents.lookup id = some T) (hact : T.isActive = true)
    (hp : T.pieceHandler.peers.lookup p = some r) (hr : r.Silent now) (n : Nat) :
    poolLoop now (List.replicate n (peerFirst id p)) b = none := by
  induction n generalizing b with
  | zero => rfl
  | succ n ih =>
    obtain ⟨htimeout, hkept⟩ := TorrentPool.poll_silent hT hact hp hr 0
    have hagain : (b.pollPool now (peerFirst id p)).1 = .again := by
      rcases b.pollPool_cases now (peerFirst id p) with hend | ⟨hagain, -⟩
      · exfalso
        refine hend ?_
        unfold pollPool
        split <;> rename_i h
        · cases (congrArg Prod.fst h).symm.trans htimeout
        · rfl
        · rfl
        · rfl
        all_goals cases (congrArg Prod.fst h).symm.trans htimeout
      · exact hagain
    rw [List.replicate_succ, poolLoop_cons now _ _ b hagain]
    refine ih ?_
    rw [torrents_pollPool]
    exact hkept

/-- **When the pool loop ends.**  In every state a run can reach, and for every `now`, the loop ends whatever the
order in which torrents and peers are walked exactly if no active torrent tracks a peer whose heartbeat is
overdue while ours is not. -/
theorem pool_loop_ends_iff (fs : FileSystem File World Err) (sha1 : List UInt8 → ShaHash) (random : ShaHash)
    (world : World) (config : BitTorrentConfig) (ops : List BehaviourOp) (b : BitTorrent File World)
    (hrun : exec (next fs sha1) (some (withConfig random world config)) ops = some b) (now : Instant) :
    (∀ es : Nat → PoolEnv, ∃ n out, poolLoop now ((List.range n).map es) b = some out) ↔
      b.torrents.NoneSilent now := by
  constructor
  · intro hall
    refine TorrentPool.noneSilent_iff.mpr ?_
    intro id T p r hT hact hp hr
    obtain ⟨n, out, hout⟩ := hall fun _ => peerFirst id p
    rw [List.map_const', List.length_range, poolLoop_silent hT hact hp hr] at hout
    cases hout
  · intro hquiet es
    have hg : b.Grounded := exec_some (fun b b' op hb h => hb.step h) (grounded_withConfig random world config) hrun
    exact poolLoop_ends hg hquiet es

/-- a remote says hello at time 0; after 121 seconds we send a heartbeat -/
def heartbeatSent : List BehaviourOp :=
  [.addLeech oneByte .active, .popEvent,
    .injectNodeEvent .same 0 ⟨[7]⟩ (.handshakeReq (.new (firstByte []) (.replicate 9)) ⟨0⟩), .popEvent,
    .pollPool 121000000000 ⟨.same, 121000000000, fun _ => ⟨.same, .same⟩⟩]

/-- a minute after the hello the peer is not late -/
theorem pool_loop_ends_early :
    ∃ b, exec (next instantDisk firstByte) (some (withConfig (.replicate 0) () .default)) heartbeatSent = some b ∧
      ∀ es : Nat → PoolEnv, ∃ n out, poolLoop 60000000000 ((List.range n).map es) b = some out := by
  refine ⟨_, rfl, ?_⟩
  refine (pool_loop_ends_iff instantDisk firstByte (.replicate 0) () .default heartbeatSent _ rfl 60000000000).mpr ?_
  decide

/-- at the time of our heartbeat the peer is late, and the loop reports it for ever -/
theorem pool_loop_never_ends :
    ∃ b T r, exec (next instantDisk firstByte) (some (withConfig (.replicate 0) () .default)) heartbeatSent
        = some b ∧
      b.torrents.torrents.lookup ⟨0⟩ = some T ∧ T.pieceHandler.peers.lookup ⟨[7]⟩ = some r ∧
      ¬ ∀ es : Nat → PoolEnv, ∃ n out, poolLoop 121000000000 ((List.range n).map es) b = some out := by
  refine ⟨_, _, _, rfl, rfl, rfl, ?_⟩
  intro hall
  obtain ⟨n, out, hout⟩ := hall fun _ => peerFirst ⟨0⟩ ⟨[7]⟩
  rw [List.map_const', List.length_range, poolLoop_silent rfl rfl rfl ⟨by decide, by decide⟩] at hout
  cases hout

end BitTorrent

end Btt
