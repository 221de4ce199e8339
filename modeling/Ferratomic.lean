import Ferratomic.Lib.Bytes
import Ferratomic.Lib.File
import Ferratomic.Lib.BinarySearch
import Ferratomic.Lib.OrdMap
import Ferratomic.Lib.Reads
import Ferratomic.Lib.SortedList
import Ferratomic.Lib.Codec
import Ferratomic.Lib.Forall2
import Ferratomic.Lib.MergeJoin
import Ferratomic.Lib.SortByKey
import Ferratomic.Lib.ByteOrder
import Ferratomic.Lib.Machine
import Ferratomic.Lib.WindowSearch
import Ferratomic.Lib.Eytzinger
import Ferratomic.Lib.Displace
import Ferratomic.Lib.Smallest
import Ferratomic.Lib.MultiMap
import Ferratomic.Datom
import Ferratomic.Blake3
import Ferratomic.Error
import Ferratomic.Schema
import Ferratomic.SchemaEvolution
import Ferratomic.Positional
import Ferratomic.Index
import Ferratomic.Store.Live
import Ferratomic.Store.Basic
import Ferratomic.Store.Apply
import Ferratomic.Store.Stamped
import Ferratomic.Store.Orders
import Ferratomic.Filter
import Ferratomic.Validate
import Ferratomic.Store.Merge
import Ferratomic.Store.Selective
import Ferratomic.Store.Reachable
import Ferratomic.Store.Convergence
import Ferratomic.Store.Indexes
import Ferratomic.Store.Representation
import Ferratomic.Store.Sequential
import Ferratomic.Store.Atomicity
import Ferratomic.Store.Replay
import Ferratomic.Store.LiveState
import Ferratomic.Wire
import Ferratomic.Bincode
import Ferratomic.Checkpoint.Format
import Ferratomic.Checkpoint.Agreement
import Ferratomic.Checkpoint.LiveFirst
import Ferratomic.Wal
import Ferratomic.Wal.Recovery
import Ferratomic.Wal.Framing
import Ferratomic.Clock
import Ferratomic.Clock.Causality
import Ferratomic.Db.Basic
import Ferratomic.Db.Recover
import Ferratomic.Db.ColdStart
import Ferratomic.Db.Ticks
import Ferratomic.Db.Commitment
import Ferratomic.Db.Durability
import Ferratomic.Db.Equivalence
import Ferratomic.Db.Failures
import Ferratomic.Db.Lifetimes
import Ferratomic.Db.Batch
import Ferratomic.Observer
import Ferratomic.Db.Observe
import Ferratomic.Db.Clients
import Ferratomic.Db.Replicas
import Ferratomic.Db.Writers
import Ferratomic.Db.Linearize
import Ferratomic.Canonical
import Ferratomic.Canonical.Decode
import Ferratomic.Db.Signing
import Ferratomic.Db.Bundle
import Ferratomic.Db.BundleVerifies
import Ferratomic.Db.Transport
import Ferratomic.Prolly.Chunk
import Ferratomic.Prolly.Build
import Ferratomic.Prolly.Tree
import Ferratomic.Prolly.Read
import Ferratomic.Prolly.Diff
import Ferratomic.Prolly.DiffWalk
import Ferratomic.Prolly.DiffExact
import Ferratomic.Prolly.Transfer
import Ferratomic.Prolly.Closure
import Ferratomic.Prolly.Resume
import Ferratomic.Prolly.Minimality
import Ferratomic.Prolly.Accepted
import Ferratomic.Prolly.Levels
import Ferratomic.Lib.Cursor
import Ferratomic.Prolly.Offsets
import Ferratomic.Fingerprint
import Ferratomic.LeafChunk
import Ferratomic.LeafChunk.Accepted
import Ferratomic.LeafChunk.Fingerprint
import Ferratomic.LeafChunk.KeyOrder
import Ferratomic.Hasher
import Ferratomic.ChunkFingerprints
import Ferratomic.Keys
import Ferratomic.Search
import Ferratomic.Search.Overflow
import Ferratomic.Positions
import Ferratomic.Perm
import Ferratomic.Mph
import Ferratomic.Bloom
import Ferratomic.Search.Entities
import Ferratomic.Sketch
import Ferratomic.Sketch.Estimate
import Ferratomic.Intern
import Ferratomic.Adjacency
import Ferratomic.Lib.Runs
import Ferratomic.EntityRle
import Ferratomic.Lib.RankSelect
import Ferratomic.Succinct
import Ferratomic.Lib.Mutex
import Ferratomic.Lib.Census
import Ferratomic.Db.Slots
import Ferratomic.Db.Progress
import Ferratomic.Lib.Checker
import Ferratomic.Checker.SnapshotIsolation
import Ferratomic.Db.Snapshots
import Ferratomic.Db.Logged
import Ferratomic.Db.Crash
import Ferratomic.Db.History
import Ferratomic.Db.Directory
import Ferratomic.Lib.Gossip
import Ferratomic.Checker.Crdt
import Ferratomic.Store.Gossip
import Ferratomic.Prolly.Manifest
import Ferratomic.Checker.CrashRecovery
import Ferratomic.Checker.TransactionAtomicity
import Ferratomic.Checker.WriteLinearizability
import Ferratomic.Db.Atomicity
