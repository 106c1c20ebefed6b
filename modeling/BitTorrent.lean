import BitTorrent.Behavior.Agreement
import BitTorrent.Behavior.Announce
import BitTorrent.Behavior.Behavior
import BitTorrent.Behavior.Cancel
import BitTorrent.Behavior.Disconnect
import BitTorrent.Behavior.Handshakes
import BitTorrent.Behavior.Lifecycle
import BitTorrent.Behavior.News
import BitTorrent.Behavior.OnDisk
import BitTorrent.Behavior.Ownership
import BitTorrent.Behavior.PoolLoop
import BitTorrent.Behavior.Projection
import BitTorrent.Behavior.Replies
import BitTorrent.Behavior.Seeding
import BitTorrent.Behavior.Step
import BitTorrent.Behavior.Uploads
import BitTorrent.Behavior.Waiting
import BitTorrent.Bendy
import BitTorrent.BitField
import BitTorrent.Disk.Accounting
import BitTorrent.Disk.Acquire
import BitTorrent.Disk.Announced
import BitTorrent.Disk.Block
import BitTorrent.Disk.Cache
import BitTorrent.Disk.Deposit
import BitTorrent.Disk.Entries
import BitTorrent.Disk.Exclusion
import BitTorrent.Disk.File
import BitTorrent.Disk.Job
import BitTorrent.Disk.Manager
import BitTorrent.Disk.Moves
import BitTorrent.Disk.Order
import BitTorrent.Disk.Parts
import BitTorrent.Disk.Paths
import BitTorrent.Disk.ReadBack
import BitTorrent.Disk.Reading
import BitTorrent.Disk.Returns
import BitTorrent.Disk.Stall
import BitTorrent.Disk.Storage
import BitTorrent.Disk.Transfer
import BitTorrent.Disk.Verified
import BitTorrent.Disk.Windows
import BitTorrent.Disk.Writes
import BitTorrent.Handler.Answers
import BitTorrent.Handler.Contract
import BitTorrent.Handler.Handler
import BitTorrent.Handler.KeepAlive
import BitTorrent.Handler.Kinds
import BitTorrent.Handler.Link
import BitTorrent.Handler.Outcome
import BitTorrent.Handler.Pair
import BitTorrent.Handler.Poll
import BitTorrent.Handler.Release
import BitTorrent.Handler.Step
import BitTorrent.Handler.Turns
import BitTorrent.Lib.Balance
import BitTorrent.Lib.Bencode
import BitTorrent.Lib.Bytes
import BitTorrent.Lib.Channel
import BitTorrent.Lib.Chunks
import BitTorrent.Lib.Framing
import BitTorrent.Lib.Ledger
import BitTorrent.Lib.Machine
import BitTorrent.Lib.Maps
import BitTorrent.Lib.Matching
import BitTorrent.Lib.Overwrite
import BitTorrent.Lib.Pass
import BitTorrent.Lib.Paths
import BitTorrent.Lib.Tiling
import BitTorrent.Node.Net
import BitTorrent.Node.Node
import BitTorrent.Node.Replies
import BitTorrent.Peer.Admission
import BitTorrent.Peer.Books
import BitTorrent.Peer.Buffer
import BitTorrent.Peer.Completion
import BitTorrent.Peer.Download
import BitTorrent.Peer.Handler
import BitTorrent.Peer.Have
import BitTorrent.Peer.Leech
import BitTorrent.Peer.OnWire
import BitTorrent.Peer.Peer
import BitTorrent.Peer.Piece
import BitTorrent.Peer.Pool
import BitTorrent.Peer.Progress
import BitTorrent.Peer.Projection
import BitTorrent.Peer.Reassembly
import BitTorrent.Peer.Requests
import BitTorrent.Peer.Seeds
import BitTorrent.Peer.Selection
import BitTorrent.Peer.Torrent
import BitTorrent.Peer.Tracking
import BitTorrent.Peer.Work
import BitTorrent.Proto.Bounds
import BitTorrent.Proto.Canonical
import BitTorrent.Proto.Channel
import BitTorrent.Proto.Codec
import BitTorrent.Proto.Framing
import BitTorrent.Proto.Message
import BitTorrent.Proto.Wire
import BitTorrent.Torrent.Bencode
import BitTorrent.Torrent.Builder
import BitTorrent.Torrent.Geometry
import BitTorrent.Torrent.Honest
import BitTorrent.Torrent.Identity
import BitTorrent.Torrent.MetaInfo
import BitTorrent.Torrent.Walk
import BitTorrent.Tracker
import BitTorrent.Util
