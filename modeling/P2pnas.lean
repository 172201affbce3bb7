import P2pnas.Lib.Frames
import P2pnas.Lib.Stripes
import P2pnas.Lib.Strings
import P2pnas.Core.Base
import P2pnas.Core.Crypto
import P2pnas.Core.Erasure
import P2pnas.Core.Reconstruct
import P2pnas.Core.Pipeline
import P2pnas.Store.Reading
import P2pnas.Lib.Runs
import P2pnas.Lib.Interleave
import P2pnas.Lib.Tables
import P2pnas.Store.Manifest
import P2pnas.Store.Migration
import P2pnas.Store.Packing
import P2pnas.Store.Service
import P2pnas.Store.Written
import P2pnas.Store.Roundtrip
import P2pnas.Store.Shelves
import P2pnas.Store.Edits
import P2pnas.Store.Faultless
import P2pnas.Store.Crashes
import P2pnas.Store.Readable
import P2pnas.Store.Sizes
import P2pnas.Store.Shifts
import P2pnas.Lib.Window
import P2pnas.Node.Download
import P2pnas.Core.Sample
import P2pnas.Node.Repair
import P2pnas.Store.Authentic
import P2pnas.Node.ManifestBackup
import P2pnas.Node.Hosting
import P2pnas.Node.HostCalls
import P2pnas.Node.HeldShards
import P2pnas.Node.Quota
import P2pnas.Node.Accounting
import P2pnas.Node.Ceiling
import P2pnas.Node.Placement
import P2pnas.Node.Jurisdiction
import P2pnas.Store.Renaming
import P2pnas.Store.Backup
import P2pnas.Node.Wire
import P2pnas.Node.Relay
import P2pnas.Node.Spread
import P2pnas.Node.Outbound
import P2pnas.Lib.Tally
import P2pnas.Store.Restore
import P2pnas.Store.Hostile
import P2pnas.Core.Mds
import P2pnas.Node.Restoring
import P2pnas.Node.Recoverable
import P2pnas.Node.Pinning
import P2pnas.Store.Nonces
import P2pnas.Store.Lifecycle
import P2pnas.Store.Operations
import P2pnas.Node.AccountDeletion
import P2pnas.Store.Removal
import P2pnas.Store.HiddenNames
import P2pnas.Lib.Paths
import P2pnas.Store.Browsing
import P2pnas.Node.Listener
import P2pnas.Node.Moves
import P2pnas.Node.Orphans
import P2pnas.Store.Rows
import P2pnas.Dht.Table
import P2pnas.Dht.Overlay
import P2pnas.Dht.Contact
import P2pnas.Dht.Forgery
import P2pnas.Dht.Provenance
import P2pnas.Dht.Budget
import P2pnas.Dht.Freshness
import P2pnas.Node.Refusals
import P2pnas.Node.Queries
import P2pnas.Node.Jobs
import P2pnas.Store.Bundle
import P2pnas.Store.Import
import P2pnas.Store.Relaid
import P2pnas.Store.Repacking
import P2pnas.Node.Scrub
import P2pnas.Node.Respread
import P2pnas.Lib.TopK
import P2pnas.Node.Priority
import P2pnas.Node.Convergence
import P2pnas.Node.Failover
import P2pnas.Node.RemoteGc
import P2pnas.Node.Backlog
import P2pnas.Node.Refunds
import P2pnas.Store.Spared
import P2pnas.Store.Undelete
import P2pnas.Store.Parked
import P2pnas.Store.Intact
import P2pnas.Store.Retention
import P2pnas.Core.Encodings
import P2pnas.Node.Transcripts
import P2pnas.Store.Addresses
import P2pnas.Store.PackIndex
import P2pnas.Store.Envelopes
import P2pnas.Store.Allocation
import P2pnas.Store.Stamps
import P2pnas.Dht.Buckets
import P2pnas.Dht.Sources
import P2pnas.Dht.Harvest
import P2pnas.Dht.IdText
import P2pnas.Lib.Dialogue
import P2pnas.Store.Chronicle
import P2pnas.Store.Commits
import P2pnas.Node.ReadDialogues
import P2pnas.Node.ConcurrentReads
import P2pnas.Store.Refinement
import P2pnas.Store.ShardFiles
import P2pnas.Store.NodeKey
import P2pnas.Node.MessageStream
import P2pnas.Node.Healing
import P2pnas.Node.Recovery
import P2pnas.Node.Health
import P2pnas.Lib.Rounding
import P2pnas.Node.Instance
import P2pnas.Node.Reciprocity
