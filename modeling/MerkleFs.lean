import MerkleFs.C.Basic
import MerkleFs.Tree.Change
import MerkleFs.Tree.Commit
import MerkleFs.Tree.Threads
import MerkleFs.Bits.RoundUp
import MerkleFs.Tree.Format
import MerkleFs.Schedule.Interleaving
import MerkleFs.Schedule.ReadModifyWrite
import MerkleFs.Parse.Leaves
import MerkleFs.Parse.Threads
import MerkleFs.Parse.Heap
import MerkleFs.Parse.Bigger
import MerkleFs.Parse.Found
import MerkleFs.Parse.Calls
import MerkleFs.Parse.Unaligned
import MerkleFs.Tree.Parser
import MerkleFs.Tree.Merkle
import MerkleFs.Tree.Workers
import MerkleFs.Tree.Rebuild
import MerkleFs.Fs.Attribute
import MerkleFs.Fs.Concurrent
import MerkleFs.Fs.Assigned
import MerkleFs.Fs.Failed
import MerkleFs.Fs.Runs
import MerkleFs.Fs.Write
import MerkleFs.Parse.Geometry
import MerkleFs.Tree.Compare
import MerkleFs.Tree.Digest
import MerkleFs.Tree.Tokens
import MerkleFs.Tree.Levels
import MerkleFs.Tree.Sha3
import MerkleFs.Fs.Locked
import MerkleFs.Parse.Root
import MerkleFs.Fs.Ledger
