import TrieDb.Base.EState
import TrieDb.Base.Runs
import TrieDb.Base.Buffer
import TrieDb.Base.Patricia
import TrieDb.Base.Rlp
import TrieDb.Base.Paths
import TrieDb.Base.Search
import TrieDb.Base.Left
import TrieDb.Base.Simulation
import TrieDb.Alloy.Primitives
import TrieDb.Alloy.Reference
import TrieDb.Alloy.Verify
import TrieDb.Path
import TrieDb.Node
import TrieDb.Node.Codec
import TrieDb.Node.RoundTrip
import TrieDb.Context
import TrieDb.Page.Manager
import TrieDb.Page.Slotted
import TrieDb.Page.Refinement
import TrieDb.Page.Nodes
import TrieDb.Page.Allocation
import TrieDb.Page.Defragment
import TrieDb.Page.Exclusive
import TrieDb.Page.Mmap
import TrieDb.Meta.Slots
import TrieDb.Meta.Manager
import TrieDb.Meta.Crash
import TrieDb.Meta.Queue
import TrieDb.Meta.Diagnostics
import TrieDb.Transaction.Manager
import TrieDb.Engine.PageOps
import TrieDb.Engine.Subtrie
import TrieDb.Engine.Write
import TrieDb.Engine.Trace
import TrieDb.Engine.Read
import TrieDb.Engine.Frame
import TrieDb.Engine.Debug
import TrieDb.Overlay.State
import TrieDb.Overlay.Slices
import TrieDb.Overlay.Freeze
import TrieDb.Trie.Basic
import TrieDb.Trie.Exec
import TrieDb.Trie.Changes
import TrieDb.Trie.Update
import TrieDb.Trie.Shape
import TrieDb.Trie.Contents
import TrieDb.Trie.Stall
import TrieDb.Trie.Tidy
import TrieDb.Trie.Fresh
import TrieDb.Trie.Applied
import TrieDb.Trie.Effective
import TrieDb.Trie.Encoding
import TrieDb.Trie.Merkle
import TrieDb.Trie.Untouched
import TrieDb.Trie.Lengths
import TrieDb.Trie.Trail
import TrieDb.Layout.Located
import TrieDb.Layout.Evolve
import TrieDb.Layout.PageOps
import TrieDb.Layout.Clone
import TrieDb.Layout.Subtrie
import TrieDb.Layout.Steps
import TrieDb.Layout.Handlers
import TrieDb.Layout.Leaves
import TrieDb.Layout.Write
import TrieDb.Layout.Root
import TrieDb.Layout.Read
import TrieDb.Layout.Contents
import TrieDb.Layout.Shape
import TrieDb.Layout.Cache
import TrieDb.Layout.Proofs
import TrieDb.Layout.Cases
import TrieDb.Layout.Verified
import TrieDb.Layout.Versions
import TrieDb.Database.Interleaving
import TrieDb.Database.Reopen
import TrieDb.Database.Recycling
import TrieDb.Database.Consistency
import TrieDb.Database.Snapshots
import TrieDb.Database.Store
import TrieDb.Database.Refines
import TrieDb.Database.Isolation
import TrieDb.Database.Concurrent
