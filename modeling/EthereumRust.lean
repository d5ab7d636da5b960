import EthereumRust.Engine.Answers
import EthereumRust.Engine.Markers
import EthereumRust.Rpc.ByHash
import EthereumRust.Core.ListRoot
import EthereumRust.Trie.Proof
import EthereumRust.Trie.Ragged.Edits
import EthereumRust.Engine.RawTransactions
import EthereumRust.Levm.Jumps
import EthereumRust.Levm.Assembler
import EthereumRust.Levm.Gas
import EthereumRust.Levm.Storage
import EthereumRust.Levm.Transient
import EthereumRust.Net.Frame
import EthereumRust.Blockchain.Building
import EthereumRust.Net.Lookups
import EthereumRust.Rpc.FeeHistory
import EthereumRust.Rpc.Logs
import EthereumRust.Net.MessageCodec
import EthereumRust.Net.Rlpx
import EthereumRust.Storage.Difficulty
import EthereumRust.Core.Signing
import EthereumRust.Core.Items
import EthereumRust.Rpc.RawTransaction
import EthereumRust.Net.Answers
import EthereumRust.Net.Requests
import EthereumRust.Core.ForkId
import EthereumRust.Trie.Atomic
import EthereumRust.Trie.NibbleLists
import EthereumRust.Trie.Canonical
