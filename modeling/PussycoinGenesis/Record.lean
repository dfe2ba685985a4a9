import PussycoinGenesis.Mining

/-!
# What the returned genesis record says

`mine_genesis_block` returns a dictionary (generate_genesis.py:137–144) and
prints the same values as the `CreateGenesisBlock(timestamp, nonce, bits, 1,
…)` line and the two `uint256S` assertions of `chainparams.cpp`
(generate_genesis.py:131–135). A node rebuilds the genesis header from those
values alone: version `1`, a zero previous hash, the merkle root read from its
hex string (`rebuildHeader`).

- `mineGenesisBlock_certified`: **the record certifies its block**. The header
  rebuilt from the record is the 80-byte header the loop hashed, the recorded
  hash is its `double_sha256` printed reversed, below the loop's target, and
  the recorded merkle root is `calculate_merkle_root` of the block's one
  transaction; both strings are 64 hex digits.
- `mineGenesisBlock_hash_eq_iff_collision`: networks with different
  timestamps mine different headers, so their genesis hashes agree exactly
  when `double_sha256` collides on those two headers.
- `mineGenesisBlock_of_unknown_network`: `timestamps.get(network,
  timestamps["mainnet"])` falls back to mainnet's timestamp, and a run depends
  on the network only through it (`mineLoop_network`), so every name but
  `"testnet"` and `"regtest"` mines mainnet's genesis block under its own
  name. Only the `__main__` check (generate_genesis.py:152) keeps a mistyped
  network from reaching it.
-/

namespace PussycoinGenesis

/-! ## The record certifies its block -/

/-- The header a node rebuilds from a record: `CreateGenesisBlock(timestamp,
nonce, bits, 1, …)` over a zero previous hash and the merkle root read back
from its printed, byte-reversed hex (generate_genesis.py:132–135). -/
def rebuildHeader (r : GenesisBlock) : Except String Bytes :=
  createBlockHeader 1 (List.replicate 32 0) (bytesFromHex r.merkleRoot).reverse r.timestamp r.bits
    r.nonce

section Certified

variable {sha256 : Bytes → Bytes} {network : String} {targetBits : Nat} {r : GenesisBlock}

/-- **The record certifies its block**: for a `sha256` with 32-byte digests,
the header rebuilt from a returned record is the 80-byte header the loop
hashed at the record's nonce; the recorded hash is its `double_sha256`,
printed reversed, and reads as a value below `genesisTarget`; the recorded
merkle root reads back as `calculate_merkle_root` of the block's one
transaction id; and both strings are the 64 hex digits `uint256S` takes. -/
theorem mineGenesisBlock_certified (hlen : ∀ d, (sha256 d).length = 32)
    (h : mineGenesisBlock sha256 network targetBits = .ok r) :
    (bytesFromHex r.merkleRoot).reverse =
      calculateMerkleRoot sha256 [doubleSha256 sha256 createCoinbaseTx] ∧
    ∃ header, rebuildHeader r = .ok header ∧
      headerAt (networkTimestamp network) (doubleSha256 sha256 createCoinbaseTx) targetBits
        r.nonce = .ok header ∧
      header.length = 80 ∧ r.hash = hex (doubleSha256 sha256 header).reverse ∧
      hexValue r.hash < genesisTarget ∧ r.hash.length = 64 ∧ r.merkleRoot.length = 64 := by
  obtain ⟨header, hheader, hlt, hr, -⟩ := mineLoop_eq_ok h
  have hroot : (bytesFromHex r.merkleRoot).reverse = doubleSha256 sha256 createCoinbaseTx := by
    rw [hr, foundBlock, bytesFromHex_hex, List.reverse_reverse]
  have hdigits : ∀ d : Bytes, (hex (sha256 d).reverse).length = 64 := fun d => by
    rw [hex_length, List.length_reverse, hlen]
  obtain ⟨-, rfl⟩ := createBlockHeader_eq_ok.1 hheader
  refine ⟨by rw [hroot, calculateMerkleRoot_singleton], _, ?_, hheader,
    by simp [doubleSha256, hlen], by rw [hr]; rfl, by rw [hr, foundBlock, hexValue_hex]; exact hlt,
    by rw [hr]; exact hdigits _, by rw [hr]; exact hdigits _⟩
  rw [rebuildHeader, hroot, ← hheader, hr]
  rfl

theorem mineGenesisBlock_certified_zeroHash :
    (∀ d, (zeroHash d).length = 32) ∧ ∃ r,
      mineGenesisBlock zeroHash "mainnet" defaultTargetBits = .ok r ∧
      ((bytesFromHex r.merkleRoot).reverse =
        calculateMerkleRoot zeroHash [doubleSha256 zeroHash createCoinbaseTx] ∧
      ∃ header, rebuildHeader r = .ok header ∧
        headerAt (networkTimestamp "mainnet") (doubleSha256 zeroHash createCoinbaseTx)
          defaultTargetBits r.nonce = .ok header ∧
        header.length = 80 ∧ r.hash = hex (doubleSha256 zeroHash header).reverse ∧
        hexValue r.hash < genesisTarget ∧ r.hash.length = 64 ∧ r.merkleRoot.length = 64) := by
  have hheader : headerAt (networkTimestamp "mainnet") (doubleSha256 zeroHash createCoinbaseTx)
      defaultTargetBits 0 = .ok _ := createBlockHeader_eq_ok.2 ⟨by decide, rfl⟩
  have hrun := mineGenesisBlock_of_meets_zero hheader (by decide)
  exact ⟨fun _ => rfl, _, hrun, mineGenesisBlock_certified (fun _ => rfl) hrun⟩

end Certified

/-! ## Networks -/

section Networks

variable {sha256 : Bytes → Bytes} {timestamp : Nat} {merkleRoot : Bytes} {targetBits : Nat}

/-- A run depends on the network only through the record's `network` field:
the headers it hashes do not read it. -/
theorem mineLoop_network (network network' : String) {nonce : Nat} :
    mineLoop sha256 network timestamp merkleRoot targetBits nonce =
      (mineLoop sha256 network' timestamp merkleRoot targetBits nonce).map
        fun r => { r with network := network } := by
  induction nonce using mineLoop.induct sha256 network timestamp merkleRoot targetBits with
  | case1 x e he => rw [mineLoop_of_error he, mineLoop_of_error he]; rfl
  | case2 x header hx _ hlt =>
    rw [mineLoop_of_ok hx, mineLoop_of_ok hx, if_pos hlt, if_pos hlt]; rfl
  | case3 x header hx _ hge ih =>
    rw [mineLoop_of_ok hx, mineLoop_of_ok hx, if_neg hge, if_neg hge, ih]

/-- `timestamps.get` falls back to mainnet's timestamp on every other name. -/
theorem networkTimestamp_of_ne {network : String} (htest : network ≠ "testnet")
    (hreg : network ≠ "regtest") : networkTimestamp network = networkTimestamp "mainnet" := by
  simp only [networkTimestamp, timestamps, List.lookup_cons, List.lookup_nil,
    beq_false_of_ne htest, beq_false_of_ne hreg]
  split <;> rfl

/-- **An unknown network mines mainnet's block**: for every name other than
`"testnet"` and `"regtest"`, the run returns mainnet's genesis block (its
timestamp, nonce, hash and merkle root), or mainnet's error, under that name. -/
theorem mineGenesisBlock_of_unknown_network {network : String} (htest : network ≠ "testnet")
    (hreg : network ≠ "regtest") :
    mineGenesisBlock sha256 network targetBits =
      (mineGenesisBlock sha256 "mainnet" targetBits).map
        fun r => { r with network := network } := by
  rw [mineGenesisBlock, mineGenesisBlock, networkTimestamp_of_ne htest hreg, mineLoop_network]

theorem mineGenesisBlock_of_unknown_network_signet :
    "signet" ≠ "testnet" ∧ "signet" ≠ "regtest" ∧
      mineGenesisBlock zeroHash "signet" defaultTargetBits =
        (mineGenesisBlock zeroHash "mainnet" defaultTargetBits).map
          fun r => { r with network := "signet" } :=
  ⟨by decide, by decide, mineGenesisBlock_of_unknown_network (by decide) (by decide)⟩

/-- **Distinct networks, distinct genesis blocks**: runs for two networks
with different timestamps hash two different headers, and their genesis
hashes agree exactly when `double_sha256` maps those two headers to one
digest. -/
theorem mineGenesisBlock_hash_eq_iff_collision {network₁ network₂ : String} {bits₁ bits₂ : Nat}
    {r₁ r₂ : GenesisBlock} (hts : networkTimestamp network₁ ≠ networkTimestamp network₂)
    (h₁ : mineGenesisBlock sha256 network₁ bits₁ = .ok r₁)
    (h₂ : mineGenesisBlock sha256 network₂ bits₂ = .ok r₂) :
    ∃ header₁ header₂, header₁ ≠ header₂ ∧
      headerAt (networkTimestamp network₁) (doubleSha256 sha256 createCoinbaseTx) bits₁
        r₁.nonce = .ok header₁ ∧
      headerAt (networkTimestamp network₂) (doubleSha256 sha256 createCoinbaseTx) bits₂
        r₂.nonce = .ok header₂ ∧
      (r₁.hash = r₂.hash ↔ doubleSha256 sha256 header₁ = doubleSha256 sha256 header₂) := by
  obtain ⟨header₁, hh₁, -, hr₁, -⟩ := mineLoop_eq_ok h₁
  obtain ⟨header₂, hh₂, -, hr₂, -⟩ := mineLoop_eq_ok h₂
  refine ⟨header₁, header₂, fun heq => hts (headerAt_inj hh₁ (by rwa [heq])).1, hh₁, hh₂, ?_⟩
  rw [hr₁, hr₂]
  exact ⟨fun h => List.reverse_injective (hex_injective h), fun h => by simp only [foundBlock, h]⟩

theorem mineGenesisBlock_hash_eq_iff_collision_mainnet_testnet :
    ∃ r₁ r₂, networkTimestamp "mainnet" ≠ networkTimestamp "testnet" ∧
      mineGenesisBlock zeroHash "mainnet" defaultTargetBits = .ok r₁ ∧
      mineGenesisBlock zeroHash "testnet" defaultTargetBits = .ok r₂ ∧
      ∃ header₁ header₂, header₁ ≠ header₂ ∧
        headerAt (networkTimestamp "mainnet") (doubleSha256 zeroHash createCoinbaseTx)
          defaultTargetBits r₁.nonce = .ok header₁ ∧
        headerAt (networkTimestamp "testnet") (doubleSha256 zeroHash createCoinbaseTx)
          defaultTargetBits r₂.nonce = .ok header₂ ∧
        (r₁.hash = r₂.hash ↔ doubleSha256 zeroHash header₁ = doubleSha256 zeroHash header₂) := by
  have hmain : headerAt (networkTimestamp "mainnet") (doubleSha256 zeroHash createCoinbaseTx)
      defaultTargetBits 0 = .ok _ := createBlockHeader_eq_ok.2 ⟨by decide, rfl⟩
  have htest : headerAt (networkTimestamp "testnet") (doubleSha256 zeroHash createCoinbaseTx)
      defaultTargetBits 0 = .ok _ := createBlockHeader_eq_ok.2 ⟨by decide, rfl⟩
  have h₁ := mineGenesisBlock_of_meets_zero hmain (by decide)
  have h₂ := mineGenesisBlock_of_meets_zero htest (by decide)
  exact ⟨_, _, by decide, h₁, h₂, mineGenesisBlock_hash_eq_iff_collision (by decide) h₁ h₂⟩

end Networks

end PussycoinGenesis
