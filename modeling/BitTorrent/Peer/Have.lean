import BitTorrent.Peer.Tracking

/-!
# What becomes of a `Have`

`on_remote_have` looks for the first torrent in which the peer has a bitfield and adds the piece there.
A peer that has sent no bitfield is answered like an unknown one, and whether the index is in bounds is
read off the peer's bitfield, whose length the peer chooses.

* `HaveRecorded`   what a `Have` is supposed to do;
* `HaveFits`       the state in which it does;
* `haveRecorded_iff_haveFits`   the two agree in any pool;
* `have_recorded_iff`           and so along any run.
-/

namespace Btt
open Run

namespace BitTorrentPeer

/-- `q` after `p` is told to have one more piece -/
def Learns (p : BitTorrentPeer) (i : Nat) (q : BitTorrentPeer) : Prop :=
  q.hasPiece i = some true ∧ ∀ j, j ≠ i → (q.hasPiece j = some true ↔ p.hasPiece j = some true)

variable {p : BitTorrentPeer} {f : BitField}

theorem addPiece_fst (hf : p.bitfield = some f) (i : Nat) : (p.addPiece i).1 = some (decide (i < f.len)) := by
  unfold addPiece
  rw [hf]
  simp only
  split
  · rename_i h
    rw [decide_eq_true h]
  · rename_i h
    rw [decide_eq_false h]

theorem learns_addPiece (hf : p.bitfield = some f) {i : Nat} (hi : i < f.len) : p.Learns i (p.addPiece i).2 := by
  have hget : ∀ j, (p.addPiece i).2.hasPiece j = if i = j then some true else p.hasPiece j := by
    intro j
    unfold addPiece hasPiece
    simp only [hf, if_pos hi, BitField.get_set]
  refine ⟨by rw [hget, if_pos rfl], ?_⟩
  intro j hj
  rw [hget, if_neg (Ne.symm hj)]

/-- a piece that was known already -/
theorem learns_self {i : Nat} (h : p.hasPiece i = some true) : p.Learns i p := ⟨h, fun _ _ => Iff.rfl⟩

end BitTorrentPeer

namespace TorrentPool

/-- `q` is the record of the peer in the torrent `T` -/
def Records (pool : TorrentPool) (p : PeerId) (id : TorrentId) (T : Torrent) (q : BitTorrentPeer) : Prop :=
  pool.torrents.lookup id = some T ∧ T.pieceHandler.peers.lookup p = some q

/-- a `Have` is answered with `None` iff nobody tracks the peer; in each torrent that does, the answer is
whether the torrent has such a piece, and then it is in the peer's record -/
def HaveRecorded (pool : TorrentPool) (w : Walk) (p : PeerId) (i : Nat) : Prop :=
  ((pool.onRemoteHave w p i).1 = none ↔ ¬ ∃ id T q, pool.Records p id T q) ∧
  ∀ id T q, pool.Records p id T q → (pool.onRemoteHave w p i).1 = some (decide (i < T.bitfield.len)) ∧
    (i < T.bitfield.len → ∃ T' q', (pool.onRemoteHave w p i).2.Records p id T' q' ∧ q.Learns i q')

/-- if the peer is tracked, its bitfield is known in a torrent `a`; in no torrent that tracks the peer
does its length decide differently, and the torrents other than `a` have the piece on record -/
def HaveFits (pool : TorrentPool) (w : Walk) (p : PeerId) (i : Nat) : Prop :=
  (∃ id T q, pool.Records p id T q) →
    ∃ a A q f, pool.first w (·.knowsPiecesOf p) = some a ∧ pool.Records p a A q ∧ q.bitfield = some f ∧
      ∀ id T r, pool.Records p id T r → (i < T.bitfield.len ↔ i < f.len) ∧
        (i < T.bitfield.len → id = a ∨ r.hasPiece i = some true)

/-- an operation finds the pool ready for it, if it is a `Have` -/
def HaveReady (pool : TorrentPool) (op : PoolOp) : Prop :=
  ∀ w p i, op = .onRemoteHave w p i → pool.HaveFits w p i

section
variable {pool : TorrentPool} {w : Walk} {p : PeerId} {i : Nat}

theorem first_knows {a : TorrentId} (h : pool.first w (·.knowsPiecesOf p) = some a) :
    ∃ A q f, pool.Records p a A q ∧ q.bitfield = some f := by
  obtain ⟨A, hA, hknows⟩ := first_eq_some h
  obtain ⟨q, hq, hf⟩ := (Option.any_eq_true ..).mp hknows
  obtain ⟨f, hf⟩ := Option.isSome_iff_exists.mp (show q.bitfield.isSome = true from hf)
  exact ⟨A, q, f, ⟨hA, hq⟩, hf⟩

/-- the answer is that of the first torrent in which the peer has a bitfield -/
theorem onRemoteHave_fst (pool : TorrentPool) (w : Walk) (p : PeerId) (i : Nat) :
    (pool.onRemoteHave w p i).1 = (pool.first w (·.knowsPiecesOf p)).bind fun id =>
      (pool.torrents.lookup id).bind fun T => (T.onRemoteHave p i).1 := by
  have hanswers : ∀ t : Torrent, (t.onRemoteHave p i).1.isSome = t.knowsPiecesOf p := by
    intro t
    cases h : t.knowsPiecesOf p with
    | true =>
      obtain ⟨a, ha⟩ := (t.handle_have p i).1 h
      rw [ha]
      rfl
    | false =>
      rw [(t.handle_have p i).2 h]
      rfl
  show (pool.walk w (·.onRemoteHave p i)).1.map Prod.snd = _
  rw [pool.walk_answer w hanswers]
  simp only [Option.map_bind, Function.comp_def, Option.map_map, Option.map_id']

/-- the answer is read off the bitfield the peer has in the first torrent that knows one -/
theorem onRemoteHave_known {a : TorrentId} {A : Torrent} {q : BitTorrentPeer} {f : BitField}
    (ha : pool.first w (·.knowsPiecesOf p) = some a) (hA : pool.Records p a A q) (hf : q.bitfield = some f) :
    (pool.onRemoteHave w p i).1 = some (decide (i < f.len)) := by
  have hadd := BitTorrentPeer.addPiece_fst hf i
  rw [onRemoteHave_fst, ha, Option.bind_some, hA.1, Option.bind_some]
  simp only [Torrent.onRemoteHave, Torrent.handle, TorrentPieceHandler.addPeerPiece, TorrentPieceHandler.replacePeer,
    hA.2, Option.join_some, hadd]

theorem lookup_onRemoteHave (id : TorrentId) :
    (pool.onRemoteHave w p i).2.torrents.lookup id
      = if pool.first w (·.knowsPiecesOf p) = some id then
          (pool.torrents.lookup id).map (·.act (.addPeerPiece p i))
        else pool.torrents.lookup id :=
  pool.lookup_walk w (fun t => (t.handle_have p i).1) (fun t => (t.handle_have p i).2) id

/-- the record in the torrent that answers -/
theorem records_onRemoteHave {a : TorrentId} {A : Torrent} {q : BitTorrentPeer}
    (ha : pool.first w (·.knowsPiecesOf p) = some a) (hA : pool.Records p a A q) :
    (pool.onRemoteHave w p i).2.Records p a (A.act (.addPeerPiece p i)) (q.addPiece i).2 := by
  constructor
  · rw [lookup_onRemoteHave, if_pos ha, hA.1]
    rfl
  · show (A.pieceHandler.addPeerPiece p i).2.peers.lookup p = _
    unfold TorrentPieceHandler.addPeerPiece TorrentPieceHandler.replacePeer
    rw [hA.2]
    exact AList.lookup_insert _

/-- the records in the others -/
theorem records_onRemoteHave_other {id : TorrentId} (hne : pool.first w (·.knowsPiecesOf p) ≠ some id) (T : Torrent)
    (r : BitTorrentPeer) : (pool.onRemoteHave w p i).2.Records p id T r ↔ pool.Records p id T r := by
  unfold Records
  rw [lookup_onRemoteHave, if_neg hne]

theorem haveFits_of_recorded (h : pool.HaveRecorded w p i) : pool.HaveFits w p i := by
  obtain ⟨hnone, hsome⟩ := h
  intro htracked
  have hans : (pool.onRemoteHave w p i).1 ≠ none := fun e => hnone.mp e htracked
  cases ha : pool.first w (·.knowsPiecesOf p) with
  | none =>
    rw [onRemoteHave_fst, ha] at hans
    exact (hans rfl).elim
  | some a =>
    obtain ⟨A, q, f, hA, hf⟩ := first_knows ha
    refine ⟨a, A, q, f, rfl, hA, hf, ?_⟩
    intro id T r hT
    obtain ⟨hanswer, hlearn⟩ := hsome id T r hT
    rw [onRemoteHave_known ha hA hf] at hanswer
    refine ⟨(decide_eq_decide.mp (Option.some.inj hanswer)).symm, ?_⟩
    intro hi
    by_cases hid : id = a
    · exact Or.inl hid
    · -- nothing was recorded in this torrent, so the piece was there before
      right
      obtain ⟨T', r', hT', hr'⟩ := hlearn hi
      rw [records_onRemoteHave_other (fun e => hid (Option.some.inj (e.symm.trans ha)))] at hT'
      cases hT.1.symm.trans hT'.1
      cases hT.2.symm.trans hT'.2
      exact hr'.1

theorem haveRecorded_of_fits (h : pool.HaveFits w p i) : pool.HaveRecorded w p i := by
  by_cases htracked : ∃ id T q, pool.Records p id T q
  · obtain ⟨a, A, q, f, ha, hA, hf, hall⟩ := h htracked
    have hanswer := onRemoteHave_known (i := i) ha hA hf
    refine ⟨?_, ?_⟩
    · rw [hanswer]
      exact ⟨fun e => (Option.some_ne_none _ e).elim, fun hno => (hno htracked).elim⟩
    intro id T r hT
    obtain ⟨hlen, hrest⟩ := hall id T r hT
    refine ⟨hanswer.trans (congrArg some (decide_eq_decide.mpr hlen.symm)), ?_⟩
    intro hi
    by_cases hid : id = a
    · subst hid
      cases hA.1.symm.trans hT.1
      cases hA.2.symm.trans hT.2
      exact ⟨_, _, records_onRemoteHave ha hA, BitTorrentPeer.learns_addPiece hf (hlen.mp hi)⟩
    · have hne : pool.first w (·.knowsPiecesOf p) ≠ some id := fun e => hid (Option.some.inj (e.symm.trans ha))
      have hpiece := (hrest hi).resolve_left hid
      exact ⟨T, r, (records_onRemoteHave_other hne T r).mpr hT, BitTorrentPeer.learns_self hpiece⟩
  · refine ⟨⟨fun _ => htracked, fun _ => ?_⟩, fun id T q hT => (htracked ⟨id, T, q, hT⟩).elim⟩
    cases ha : pool.first w (·.knowsPiecesOf p) with
    | none =>
      rw [onRemoteHave_fst, ha]
      rfl
    | some a =>
      obtain ⟨A, q, f, hA, -⟩ := first_knows ha
      exact (htracked ⟨a, A, q, hA⟩).elim

end

/-- a `Have` does what it is supposed to, exactly in a pool that fits it -/
theorem haveRecorded_iff_haveFits (pool : TorrentPool) (w : Walk) (p : PeerId) (i : Nat) :
    pool.HaveRecorded w p i ↔ pool.HaveFits w p i :=
  ⟨haveFits_of_recorded, haveRecorded_of_fits⟩

/-- **A `Have` is lost exactly where the pool does not fit it**: in every reachable pool, and so along
every run. -/
theorem have_recorded_iff (random : ShaHash) (config : BitTorrentConfig) (ops : List PoolOp) :
    (∀ w p i, (exec step (new random config) ops).HaveRecorded w p i ↔
      (exec step (new random config) ops).HaveFits w p i) ∧
    ((∀ pre w p i, pre ++ [.onRemoteHave w p i] <+: ops →
        (exec step (new random config) pre).HaveRecorded w p i) ↔
      Along step HaveReady (new random config) ops) := by
  refine ⟨haveRecorded_iff_haveFits _, ?_⟩
  rw [along_iff]
  constructor
  · rintro h pre op hpre w p i rfl
    exact (haveRecorded_iff_haveFits ..).mp (h pre w p i hpre)
  · intro h pre w p i hpre
    exact (haveRecorded_iff_haveFits ..).mpr (h pre _ hpre w p i rfl)

/-- a peer answers our handshake and sends no bitfield -/
def greeted : List PoolOp :=
  [.addTorrent (leechConfig (.replicate 1)),
    .onHandshakeResponse ⟨[7]⟩ ⟨0⟩ (.new (.replicate 1) (.replicate 9)) 0]

/-- its `Have` is answered as if nobody knew the peer -/
theorem have_without_bitfield_lost :
    ¬ (exec step (new (.replicate 0) plainConfig) greeted).HaveRecorded .same ⟨[7]⟩ 0 := by
  have hans : ((exec step (new (.replicate 0) plainConfig) greeted).onRemoteHave .same ⟨[7]⟩ 0).1 = none := rfl
  rintro ⟨hnone, -⟩
  apply hnone.mp hans
  exact ⟨⟨0⟩, _, .new (.replicate 9) 0, rfl, rfl⟩

end TorrentPool

end Btt
