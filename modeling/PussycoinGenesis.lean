import PussycoinGenesis.Bytes
import PussycoinGenesis.Merkle
import PussycoinGenesis.MerkleTree
import PussycoinGenesis.Block
import PussycoinGenesis.Mining
import PussycoinGenesis.Record
