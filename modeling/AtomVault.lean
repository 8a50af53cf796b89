import AtomVault.Lib.Bytes
import AtomVault.Lib.Extents
import AtomVault.Lib.Codec
import AtomVault.Lib.Prog
import AtomVault.Lib.Host
import AtomVault.Lib.Calls
import AtomVault.Lib.Countdown
import AtomVault.Lib.Keeps
import AtomVault.Lib.Channel
import AtomVault.Lib.Machine
import AtomVault.Lib.Reader
import AtomVault.Lib.Talk
import AtomVault.Lib.Keyed
import AtomVault.Lib.Paths
import AtomVault.Lib.Floor
import AtomVault.Lib.Mailbox
import AtomVault.Lib.Inodes
import AtomVault.Lib.Aead
import AtomVault.Lib.Rejection
import AtomVault.Lib.Lossy
import AtomVault.Vault.Crypto
import AtomVault.Vault.Instance
import AtomVault.Vault.Blobs
import AtomVault.Vault.Storage
import AtomVault.Vault.Commands
import AtomVault.Vault.Layout
import AtomVault.Vault.Invariant
import AtomVault.Vault.Import
import AtomVault.Vault.Remove
import AtomVault.Vault.Vacuum
import AtomVault.Vault.Open
import AtomVault.Vault.Runs
import AtomVault.Vault.Simulation
import AtomVault.Vault.Refinement
import AtomVault.Vault.Atomicity
import AtomVault.Vault.Failures
import AtomVault.Vault.FailedImport
import AtomVault.Vault.Lives
import AtomVault.Vault.Sessions
import AtomVault.Vault.Compaction
import AtomVault.Vault.Shredding
import AtomVault.Vault.Export
import AtomVault.Vault.Readers
import AtomVault.Vault.Shell
import AtomVault.Vault.Sittings
import AtomVault.Transfer.Pacing
import AtomVault.Transfer.Jitter
import AtomVault.Transfer.Plan
import AtomVault.Transfer.Machine
import AtomVault.Transfer.Receiver
import AtomVault.Transfer.Safety
import AtomVault.Transfer.Conversation
import AtomVault.Transfer.Sender
import AtomVault.Transfer.Follower
import AtomVault.Transfer.Session
import AtomVault.Transfer.Storage
import AtomVault.Transfer.Agreement
import AtomVault.Transfer.Resume
import AtomVault.Transfer.ChunkLen
import AtomVault.Transfer.Crash
import AtomVault.Transfer.Framing
import AtomVault.Sync.Metadata
import AtomVault.Sync.Machine
import AtomVault.Sync.Append
import AtomVault.Sync.Binding
import AtomVault.Sync.Exchange
import AtomVault.Sync.Retry
import AtomVault.Sync.Convergence
import AtomVault.Sync.Multiplexer
import AtomVault.Sync.Pumps
import AtomVault.Live.Identity
import AtomVault.Live.Ticket
import AtomVault.Live.Auth
import AtomVault.Live.Handshake
import AtomVault.Live.Network
import AtomVault.Live.Record
import AtomVault.Live.Canonical
import AtomVault.Live.Sealed
import AtomVault.Live.Discovery
import AtomVault.Live.Lookup
import AtomVault.Live.Reach
import AtomVault.Live.Peers
import AtomVault.Live.Transfers
import AtomVault.Live.Pairing
import AtomVault.Live.Endpoints
import AtomVault.Live.Repairing
import AtomVault.Live.Store
import AtomVault.Live.Link
import AtomVault.Live.Pins
import AtomVault.Live.Blind
import AtomVault.Live.Response
import AtomVault.Live.Base32
import AtomVault.Live.Codes
import AtomVault.Live.Stun
import AtomVault.Live.Quic
import AtomVault.Live.Ratchet
import AtomVault.Daemon.Config
import AtomVault.Daemon.Friends
import AtomVault.Daemon.Links
import AtomVault.Daemon.Noise
import AtomVault.Daemon.Book
import AtomVault.Daemon.Nicknames
import AtomVault.Daemon.SavePaths
import AtomVault.Daemon.Receive
import AtomVault.Daemon.Identity
import AtomVault.Daemon.Saves
import AtomVault.Daemon.Push
import AtomVault.Daemon.Consent
import AtomVault.Daemon.Asked
import AtomVault.Daemon.Delivery
import AtomVault.Viewer.Teardown
import AtomVault.Viewer.Staging
import AtomVault.Viewer.Launch
import AtomVault.Viewer.Exec
import AtomVault.Gui.Landlock
import AtomVault.Gui.App
import AtomVault.Gui.Moves
import AtomVault.Gui.Safety
