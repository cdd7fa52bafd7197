import Diem.Theory.Runs
import Diem.Theory.Quorum
import Diem.Theory.Monads
import Diem.Theory.Maps
import Diem.Theory.Bits
import Diem.Theory.Hoare
import Diem.Theory.Bytes
import Diem.Theory.Leb128
import Diem.Theory.Digits
import Diem.Theory.BinarySearch
import Diem.Types.Basic
import Diem.Types.ValidatorVerifier
import Diem.Types.LedgerInfo
import Diem.Types.Accumulator
import Diem.Types.Chain
import Diem.Types.TrustedState
import Diem.Consensus.Types
import Diem.Consensus.PendingVotes
import Diem.Consensus.SafetyRules.PersistentSafetyStorage
import Diem.Consensus.SafetyRules.SafetyRules
import Diem.Consensus.SafetyRules.Spec
import Diem.Consensus.SafetyRules.Run
import Diem.Secure.Storage.InMemory
import Diem.Secure.Storage.Vault
import Diem.Consensus.SafetyRules.Safety
import Diem.Consensus.SafetyRules.StorageFailures
import Diem.Theory.OrdMap
import Diem.Move.FileFormat
import Diem.Move.FileFormatCommon
import Diem.Move.Serializer
import Diem.Move.Deserializer
import Diem.Move.ControlFlowGraph
import Diem.Move.ControlFlowGraph.Partition
import Diem.Move.StackUsageVerifier
import Diem.Move.BorrowGraph
import Diem.Move.AbsInt
import Diem.Move.AbsInt.Fixpoint
import Diem.Move.LocalsSafety
import Diem.Move.ReferenceSafety.AbstractState
import Diem.Move.ReferenceSafety
import Diem.Vm.MVHashMap
import Diem.Vm.ParallelExecutor.Scheduler
import Diem.Vm.ParallelExecutor.Executor
import Diem.Theory.MerkleTree
import Diem.Types.AccumulatorProof
import Diem.Theory.SparseMerkleTree
import Diem.Types.SparseMerkleProof
import Diem.Storage.Scratchpad.Utils
import Diem.Theory.InorderTree
import Diem.Types.Position
import Diem.Types.Position.Tree
import Diem.Types.Accumulator.Frontier
import Diem.Types.Position.FrozenSubtrees
import Diem.Storage.Accumulator
import Diem.Storage.Accumulator.Proofs
import Diem.Consensus.BlockStorage.BlockTree
import Diem.Consensus.BlockStorage.Certificates
import Diem.Theory.Crypto
import Diem.Crypto.Noise
import Diem.Crypto.Noise.Agreement
import Diem.Network.Noise.Handshake
import Diem.Network.Noise.Authentication
import Diem.Network.Noise.Stream
import Diem.Types.NibblePath
import Diem.Types.NibblePath.Iterator
import Diem.Storage.JellyfishMerkle.NodeType
import Diem.Storage.JellyfishMerkle.NodeKey
import Diem.Storage.JellyfishMerkle.Decode
import Diem.Storage.JellyfishMerkle.Encode
import Diem.Storage.JellyfishMerkle.Restore
import Diem.Storage.JellyfishMerkle.NibbleRange
import Diem.Types.Position.Postorder
import Diem.Mempool.TtlCache
import Diem.Move.BorrowGraph.Join
import Diem.Move.ReferenceSafety.Join
import Diem.Common.Channel.DiemChannel
import Diem.Common.RateLimiter.RateLimit
import Diem.Mempool.ParkingLotIndex
import Diem.Storage.JellyfishMerkle.Siblings
import Diem.Theory.RadixTrie
import Diem.Storage.JellyfishMerkle.TreeCache
import Diem.Storage.JellyfishMerkle.Tree
import Diem.Storage.JellyfishMerkle.Tree.Stored
import Diem.Storage.JellyfishMerkle.Tree.Insert
import Diem.Storage.JellyfishMerkle.Tree.Write
