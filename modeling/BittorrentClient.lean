import BittorrentClient.Bencoding.Asserts
import BittorrentClient.Bencoding.ElementRef
import BittorrentClient.Bencoding.Parser
import BittorrentClient.Bencoding.Strtoull
import BittorrentClient.Bencoding.TorrentFile
import BittorrentClient.Client.Announce
import BittorrentClient.Client.Bytes
import BittorrentClient.Client.Connection
import BittorrentClient.Client.Disk
import BittorrentClient.Client.Download
import BittorrentClient.Client.Handshake
import BittorrentClient.Client.Http
import BittorrentClient.Client.Main
import BittorrentClient.Client.Make
import BittorrentClient.Client.Messages
import BittorrentClient.Client.Peers
import BittorrentClient.Client.Pieces
import BittorrentClient.Client.Receive
import BittorrentClient.Client.Torrent
import BittorrentClient.Client.Tracker
import BittorrentClient.Client.TrackerResponse
import BittorrentClient.Client.Udp
import BittorrentClient.Lib.Bencode
import BittorrentClient.Lib.BitArray
import BittorrentClient.Lib.Blocks
import BittorrentClient.Lib.ByteOrder
import BittorrentClient.Lib.Chunks
import BittorrentClient.Lib.Decimal
import BittorrentClient.Lib.Dispatch
import BittorrentClient.Lib.FlatMemory
import BittorrentClient.Lib.Fuel
import BittorrentClient.Lib.Guarded
import BittorrentClient.Lib.Interleaving
import BittorrentClient.Lib.Layout
import BittorrentClient.Lib.Loops
import BittorrentClient.Lib.Memcpy
import BittorrentClient.Lib.Operations
import BittorrentClient.Lib.Outcome
import BittorrentClient.Lib.Rounds
import BittorrentClient.Lib.SortUnique
import BittorrentClient.Lib.StableList
import BittorrentClient.Lib.UrlQuery
import BittorrentClient.Lib.Words
import BittorrentClient.Theorems.Bitfield
import BittorrentClient.Theorems.Bytes
import BittorrentClient.Theorems.Files.Calls
import BittorrentClient.Theorems.Files.Disk
import BittorrentClient.Theorems.Files.Layout
import BittorrentClient.Theorems.Files.Names
import BittorrentClient.Theorems.Files.Ranges
import BittorrentClient.Theorems.Files.System
import BittorrentClient.Theorems.Files.Tiling
import BittorrentClient.Theorems.Files.Whole
import BittorrentClient.Theorems.Files.Writable
import BittorrentClient.Theorems.Files.Writes
import BittorrentClient.Theorems.Files.Written
import BittorrentClient.Theorems.Frames
import BittorrentClient.Theorems.Geometry
import BittorrentClient.Theorems.Handshake
import BittorrentClient.Theorems.Http
import BittorrentClient.Theorems.InfoSlice
import BittorrentClient.Theorems.Length
import BittorrentClient.Theorems.Make
import BittorrentClient.Theorems.Messages
import BittorrentClient.Theorems.Parser.Asserts
import BittorrentClient.Theorems.Parser.Calls
import BittorrentClient.Theorems.Parser.Carries
import BittorrentClient.Theorems.Parser.Completeness
import BittorrentClient.Theorems.Parser.Located
import BittorrentClient.Theorems.Parser.Reads
import BittorrentClient.Theorems.Parser.Runs
import BittorrentClient.Theorems.Parser.Soundness
import BittorrentClient.Theorems.Parser.Termination
import BittorrentClient.Theorems.Parser.Tokens
import BittorrentClient.Theorems.Parser.WellFormed
import BittorrentClient.Theorems.Pieces
import BittorrentClient.Theorems.Program.Aborts
import BittorrentClient.Theorems.Program.Announced
import BittorrentClient.Theorems.Program.Completion
import BittorrentClient.Theorems.Program.Conduct
import BittorrentClient.Theorems.Program.Connection
import BittorrentClient.Theorems.Program.Downloaded
import BittorrentClient.Theorems.Program.Exit
import BittorrentClient.Theorems.Program.Honest
import BittorrentClient.Theorems.Program.Reports
import BittorrentClient.Theorems.Program.Runs
import BittorrentClient.Theorems.Program.Torrent
import BittorrentClient.Theorems.Swarm.Accounted
import BittorrentClient.Theorems.Swarm.Buffers
import BittorrentClient.Theorems.Swarm.Choke
import BittorrentClient.Theorems.Swarm.Coverage
import BittorrentClient.Theorems.Swarm.Dialogue
import BittorrentClient.Theorems.Swarm.Honest
import BittorrentClient.Theorems.Swarm.Hostile
import BittorrentClient.Theorems.Swarm.Ledger
import BittorrentClient.Theorems.Swarm.Passes
import BittorrentClient.Theorems.Swarm.Progress
import BittorrentClient.Theorems.Swarm.Steps
import BittorrentClient.Theorems.Torrent.Accepted
import BittorrentClient.Theorems.Torrent.Content
import BittorrentClient.Theorems.Torrent.Decode
import BittorrentClient.Theorems.Torrent.Dispatch
import BittorrentClient.Theorems.Torrent.Handlers
import BittorrentClient.Theorems.Torrent.Paths
import BittorrentClient.Theorems.Torrent.Rearranged
import BittorrentClient.Theorems.Torrent.Slots
import BittorrentClient.Theorems.Tracker.Agree
import BittorrentClient.Theorems.Tracker.Announce
import BittorrentClient.Theorems.Tracker.Classified
import BittorrentClient.Theorems.Tracker.Compact
import BittorrentClient.Theorems.Tracker.Datagrams
import BittorrentClient.Theorems.Tracker.Peers
import BittorrentClient.Theorems.Tracker.Query
import BittorrentClient.Theorems.Tracker.Receive
import BittorrentClient.Theorems.Tracker.Replies
import BittorrentClient.Theorems.Tracker.Requests
import BittorrentClient.Theorems.Tracker.Response
import BittorrentClient.Theorems.Tracker.Served
