import PussycoinGenesis.Block

/-!
# `mine_genesis_block`: what a mined genesis block satisfies

`mine_genesis_block` (generate_genesis.py:85–148) hashes the header at nonce
`0, 1, 2, …` and returns the first block whose hash, read as a little-endian
integer, is below a target. The loop ends there, or when `struct.pack` raises
on the nonce `2 ^ 32`; `mineLoop` follows it step by step, by well-founded
recursion on the nonces left.

- `mineLoop_eq_ok_iff`, `mineLoop_eq_error_iff`: the two ways a run ends. It
  returns exactly the block of the least nonce whose hash is below
  `genesisTarget`, and raises `struct.error` exactly when there is none below
  `2 ^ 32`, with the 32-bit range text whenever the bits fit in 64 bits.
  `headerAt_ne`: no header is hashed twice on the way (`headerAt_inj`: a
  header gives back its timestamp, bits and nonce).
- The target the loop compares against is the constant
  `0x0ffff * 2 ** (8 * (0x1e - 3))` (generate_genesis.py:114), not the target
  encoded by `target_bits`, although the comment above it says "Calculate
  target from bits" and the emitted `CreateGenesisBlock` line declares
  `target_bits`. `mineGenesisBlock_compactPowOk_iff` names exactly the bits for
  which every returned block still passes the compact proof-of-work check;
  the default `0x1e0ffff0` is among them, so the script as run is safe
  (`scriptMain_compactPowOk`), and `mineGenesisBlock_misses_compact_target`
  is a block returned for `0x1d00ffff` that fails it.

The script's printing is left out; the emitted `CreateGenesisBlock` line
declares the same `target_bits` the returned `bits` field holds.
-/

namespace PussycoinGenesis

/-! ## The data `mine_genesis_block` reads and returns -/

/-- The network timestamps (generate_genesis.py:88–92). -/
def timestamps : List (String × Nat) :=
  [("mainnet", 1735689600), ("testnet", 1735689601), ("regtest", 1735689602)]

/-- `timestamps.get(network, timestamps["mainnet"])` (generate_genesis.py:94). -/
def networkTimestamp (network : String) : Nat :=
  (timestamps.lookup network).getD 1735689600

theorem networkTimestamp_lt (network : String) : networkTimestamp network < 2 ^ 32 := by
  unfold networkTimestamp timestamps
  simp only [List.lookup_cons, List.lookup_nil]
  repeat' split
  all_goals decide

/-- The default `target_bits` of `mine_genesis_block` (generate_genesis.py:85). -/
def defaultTargetBits : Nat := 0x1e0ffff0

/-- The target the loop compares against (generate_genesis.py:114). -/
def genesisTarget : Nat := 0x0ffff * 2 ^ (8 * (0x1e - 3))

/-- The dictionary `mine_genesis_block` returns (generate_genesis.py:137–144). -/
structure GenesisBlock where
  network : String
  timestamp : Nat
  nonce : Nat
  bits : Nat
  hash : String
  merkleRoot : String
  deriving DecidableEq, Repr

/-! ## The mining loop -/

section Mining

variable (sha256 : Bytes → Bytes) (network : String) (timestamp : Nat) (merkleRoot : Bytes)
  (targetBits : Nat)

/-- The header the loop builds at `nonce`: version `1`, a zero previous hash
(generate_genesis.py:110–111, 120). -/
def headerAt (nonce : Nat) : Except String Bytes :=
  createBlockHeader 1 (List.replicate 32 0) merkleRoot timestamp targetBits nonce

/-- The block returned when the header at `nonce` hashes to `hashResult`
(generate_genesis.py:137–144). -/
def foundBlock (nonce : Nat) (hashResult : Bytes) : GenesisBlock :=
  { network, timestamp, nonce, bits := targetBits, hash := hex hashResult.reverse,
    merkleRoot := hex merkleRoot.reverse }

/-- The `while True` loop of `mine_genesis_block` from `nonce` on
(generate_genesis.py:118–148). -/
def mineLoop (nonce : Nat) : Except String GenesisBlock :=
  match h : headerAt timestamp merkleRoot targetBits nonce with
  | .error e => .error e
  | .ok header =>
    let hashResult := doubleSha256 sha256 header
    if fromBytesBig hashResult.reverse < genesisTarget then
      .ok (foundBlock network timestamp merkleRoot targetBits nonce hashResult)
    else mineLoop (nonce + 1)
termination_by 2 ^ 32 - nonce
decreasing_by have := (createBlockHeader_eq_ok.1 h).1.2.2.2; omega

/-- `mine_genesis_block(network, target_bits)` (generate_genesis.py:85–148):
the coinbase hash is the merkle root, and the loop starts at nonce `0`. -/
def mineGenesisBlock (network : String) (targetBits : Nat) : Except String GenesisBlock :=
  mineLoop sha256 network (networkTimestamp network) (doubleSha256 sha256 createCoinbaseTx)
    targetBits 0

/-- The usage text of the script (generate_genesis.py:153). -/
def usage : String := "Usage: python3 generate_genesis.py [mainnet|testnet|regtest]"

/-- The `__main__` block (generate_genesis.py:150–156): the network from
`sys.argv[1]`, checked, then mined with the default bits. -/
def scriptMain (argv : List String) : Except String GenesisBlock :=
  let network := argv.getD 1 "mainnet"
  if network ∈ ["mainnet", "testnet", "regtest"] then
    mineGenesisBlock sha256 network defaultTargetBits
  else .error usage

/-- The loop's test at `nonce` passes: the header can be built and its
`double_sha256`, read little-endian, is below `genesisTarget`. -/
def Meets (nonce : Nat) : Prop :=
  ∃ header, headerAt timestamp merkleRoot targetBits nonce = .ok header ∧
    fromBytesBig (doubleSha256 sha256 header).reverse < genesisTarget

/-! ### One iteration -/

variable {sha256 network timestamp merkleRoot targetBits}

theorem mineLoop_of_error {nonce : Nat} {e : String}
    (h : headerAt timestamp merkleRoot targetBits nonce = .error e) :
    mineLoop sha256 network timestamp merkleRoot targetBits nonce = .error e := by
  rw [mineLoop]
  split <;> simp_all

theorem mineLoop_of_ok {nonce : Nat} {header : Bytes}
    (h : headerAt timestamp merkleRoot targetBits nonce = .ok header) :
    mineLoop sha256 network timestamp merkleRoot targetBits nonce =
      if fromBytesBig (doubleSha256 sha256 header).reverse < genesisTarget then
        .ok (foundBlock network timestamp merkleRoot targetBits nonce (doubleSha256 sha256 header))
      else mineLoop sha256 network timestamp merkleRoot targetBits (nonce + 1) := by
  rw [mineLoop]
  split <;> simp_all

/-- A header exists at every nonce below `2 ^ 32` once one exists at all. -/
theorem headerAt_ok_of_le {m n : Nat} {header : Bytes} (hm : m ≤ n)
    (h : headerAt timestamp merkleRoot targetBits n = .ok header) :
    ∃ header', headerAt timestamp merkleRoot targetBits m = .ok header' := by
  obtain ⟨⟨hv, ht, hb, hn⟩, -⟩ := createBlockHeader_eq_ok.1 h
  exact ⟨_, createBlockHeader_eq_ok.2 ⟨⟨hv, ht, hb, by omega⟩, rfl⟩⟩

/-- A nonce whose header hashes at or above the target does not meet it. -/
theorem not_meets_of_ge {x : Nat} {header : Bytes}
    (hx : headerAt timestamp merkleRoot targetBits x = .ok header)
    (hge : ¬ fromBytesBig (doubleSha256 sha256 header).reverse < genesisTarget) :
    ¬ Meets sha256 timestamp merkleRoot targetBits x := by
  rintro ⟨header', hx', hlt⟩
  rw [hx, Except.ok.injEq] at hx'
  subst hx'
  exact hge hlt

/-- Once `struct.pack` raises at `x`, no nonce from `x` on meets the target. -/
theorem not_meets_of_error {x m : Nat} {e : String}
    (he : headerAt timestamp merkleRoot targetBits x = .error e) (hm : x ≤ m) :
    ¬ Meets sha256 timestamp merkleRoot targetBits m := by
  rintro ⟨header, hheader, -⟩
  obtain ⟨_, hx⟩ := headerAt_ok_of_le hm hheader
  rw [hx] at he
  cases he

/-- Two headers over one merkle root are equal only at equal timestamps, bits
and nonces: the three fields are read back from their four bytes each. -/
theorem headerAt_inj {t t' b b' m n : Nat} {header : Bytes}
    (hm : headerAt t merkleRoot b m = .ok header) (hn : headerAt t' merkleRoot b' n = .ok header) :
    t = t' ∧ b = b' ∧ m = n := by
  obtain ⟨⟨-, ht, hb, hm32⟩, rfl⟩ := createBlockHeader_eq_ok.1 hm
  obtain ⟨⟨-, ht', hb', hn32⟩, heq⟩ := createBlockHeader_eq_ok.1 hn
  obtain ⟨hfront, hnonce⟩ := List.append_inj' heq (by simp)
  obtain ⟨hfront, hbits⟩ := List.append_inj' hfront (by simp)
  obtain ⟨-, hts⟩ := List.append_inj' hfront (by simp)
  exact ⟨encodeLE_four_inj ht' ht hts |>.symm, encodeLE_four_inj hb' hb hbits |>.symm,
    encodeLE_four_inj hn32 hm32 hnonce |>.symm⟩

/-- **No header is hashed twice**: the loop builds one header per nonce, and
headers at two nonces are equal only if the nonces are, whatever the merkle
root and the hash. -/
theorem headerAt_ne {m n : Nat} (hmn : m ≠ n) {hm hn : Bytes}
    (hm_ok : headerAt timestamp merkleRoot targetBits m = .ok hm)
    (hn_ok : headerAt timestamp merkleRoot targetBits n = .ok hn) : hm ≠ hn := by
  rintro rfl
  exact hmn (headerAt_inj hm_ok hn_ok).2.2

theorem headerAt_ne_zero_one :
    (0 : Nat) ≠ 1 ∧
      ∃ h₀ h₁, headerAt 0 [] 0 0 = .ok h₀ ∧ headerAt 0 [] 0 1 = .ok h₁ ∧ h₀ ≠ h₁ := by
  have h₀ : headerAt 0 [] 0 0 = .ok _ := createBlockHeader_eq_ok.2 ⟨by decide, rfl⟩
  have h₁ : headerAt 0 [] 0 1 = .ok _ := createBlockHeader_eq_ok.2 ⟨by decide, rfl⟩
  exact ⟨by decide, _, _, h₀, h₁, headerAt_ne (by decide) h₀ h₁⟩

/-! ### Whole runs -/

/-- **Soundness and minimality of the loop**: a block returned from `nonce`
on is the block of the first nonce `≥ nonce` that meets `genesisTarget`. -/
theorem mineLoop_eq_ok {nonce : Nat} {r : GenesisBlock}
    (h : mineLoop sha256 network timestamp merkleRoot targetBits nonce = .ok r) :
    ∃ header, headerAt timestamp merkleRoot targetBits r.nonce = .ok header ∧
      fromBytesBig (doubleSha256 sha256 header).reverse < genesisTarget ∧
      r = foundBlock network timestamp merkleRoot targetBits r.nonce
        (doubleSha256 sha256 header) ∧
      nonce ≤ r.nonce ∧
      ∀ m, nonce ≤ m → m < r.nonce → ¬ Meets sha256 timestamp merkleRoot targetBits m := by
  induction nonce using mineLoop.induct sha256 network timestamp merkleRoot targetBits with
  | case1 x e he => rw [mineLoop_of_error he] at h; cases h
  | case2 x header hx _ hlt =>
    rw [mineLoop_of_ok hx, if_pos hlt] at h
    cases h
    exact ⟨header, hx, hlt, rfl, le_rfl, fun m h1 h2 => absurd h2 (by simp [foundBlock]; omega)⟩
  | case3 x header hx _ hge ih =>
    rw [mineLoop_of_ok hx, if_neg hge] at h
    obtain ⟨header', hr, hlt, hblock, hle, hmin⟩ := ih h
    refine ⟨header', hr, hlt, hblock, by omega, fun m h1 h2 => ?_⟩
    rcases Nat.eq_or_lt_of_le h1 with rfl | h1
    · exact not_meets_of_ge hx hge
    · exact hmin m h1 h2

/-- **The loop finds what meets the target**: if some nonce `≥ nonce` meets
`genesisTarget`, the loop returns, at that nonce or an earlier one. -/
theorem mineLoop_ok_of_meets {nonce m : Nat} (hm : nonce ≤ m)
    (hmeets : Meets sha256 timestamp merkleRoot targetBits m) :
    ∃ r, mineLoop sha256 network timestamp merkleRoot targetBits nonce = .ok r ∧
      r.nonce ≤ m := by
  obtain ⟨header, hheader, hlt⟩ := hmeets
  induction nonce using mineLoop.induct sha256 network timestamp merkleRoot targetBits with
  | case1 x e he => exact absurd ⟨header, hheader, hlt⟩ (not_meets_of_error he hm)
  | case2 x header' hx _ hlt' => exact ⟨_, by rw [mineLoop_of_ok hx, if_pos hlt'], hm⟩
  | case3 x header' hx _ hge ih =>
    rw [mineLoop_of_ok hx, if_neg hge]
    rcases Nat.eq_or_lt_of_le hm with rfl | hm
    · exact absurd ⟨header, hheader, hlt⟩ (not_meets_of_ge hx hge)
    · exact ih hm

/-- **The loop returns exactly the first meeting nonce**: from any start, the
loop returns `r` iff `r` is the block of the least nonce `≥ nonce` whose
header hashes below `genesisTarget`. -/
theorem mineLoop_eq_ok_iff {nonce : Nat} {r : GenesisBlock} :
    mineLoop sha256 network timestamp merkleRoot targetBits nonce = .ok r ↔
      ∃ header, headerAt timestamp merkleRoot targetBits r.nonce = .ok header ∧
        fromBytesBig (doubleSha256 sha256 header).reverse < genesisTarget ∧
        r = foundBlock network timestamp merkleRoot targetBits r.nonce
          (doubleSha256 sha256 header) ∧
        nonce ≤ r.nonce ∧
        ∀ m, nonce ≤ m → m < r.nonce →
          ¬ Meets sha256 timestamp merkleRoot targetBits m := by
  refine ⟨mineLoop_eq_ok, fun ⟨header, hheader, hlt, hr, hle, hmin⟩ => ?_⟩
  obtain ⟨r', hr', hle'⟩ : ∃ r',
      mineLoop sha256 network timestamp merkleRoot targetBits nonce = .ok r' ∧
        r'.nonce ≤ r.nonce :=
    mineLoop_ok_of_meets hle ⟨header, hheader, hlt⟩
  obtain ⟨header', hheader', hlt', hr'', hle'', -⟩ := mineLoop_eq_ok hr'
  have hnonce : r'.nonce = r.nonce := by
    by_contra hne
    exact hmin r'.nonce hle'' (by omega) ⟨header', hheader', hlt'⟩
  rw [hnonce, hheader, Except.ok.injEq] at hheader'
  rw [hr', hr'', hr, hnonce, hheader']

end Mining

/-! ## The compact proof-of-work check -/

/-- The target a compact `bits` value encodes: the mantissa
`bits & 0x007fffff` scaled by the exponent byte `bits >> 24`. -/
def compactTarget (bits : Nat) : Nat :=
  let e := bits >>> 24
  let m := bits &&& 0x007fffff
  if e < 3 then m >>> (8 * (3 - e)) else m * 256 ^ (e - 3)

/-- The compact proof-of-work check of a hash value against `bits`: sign bit
clear, target positive, hash not above the target. -/
def CompactPowOk (bits hashValue : Nat) : Prop :=
  bits &&& 0x00800000 = 0 ∧ 0 < compactTarget bits ∧ hashValue ≤ compactTarget bits

instance (bits hashValue : Nat) : Decidable (CompactPowOk bits hashValue) :=
  inferInstanceAs (Decidable (_ ∧ _ ∧ _))

section Compact

variable {sha256 : Bytes → Bytes} {network : String} {targetBits : Nat} {r : GenesisBlock}

/-- What every returned genesis block records: `bits` is the `target_bits`
given, and `hash` names the `double_sha256` of the header at its nonce, below
`genesisTarget`. -/
theorem mineGenesisBlock_eq_ok (h : mineGenesisBlock sha256 network targetBits = .ok r) :
    r.bits = targetBits ∧ hexValue r.hash < genesisTarget ∧
      ∃ header, headerAt (networkTimestamp network) (doubleSha256 sha256 createCoinbaseTx)
        targetBits r.nonce = .ok header ∧
        hexValue r.hash = decodeLE (doubleSha256 sha256 header) := by
  obtain ⟨header, hheader, hlt, hr, -⟩ := mineLoop_eq_ok h
  have hhash : hexValue r.hash = decodeLE (doubleSha256 sha256 header) := by
    rw [hr, foundBlock, hexValue_hex, fromBytesBig_reverse]
  rw [fromBytesBig_reverse] at hlt
  exact ⟨by rw [hr]; rfl, by rw [hhash]; exact hlt, header, hheader, hhash⟩

/-- **When the fixed target is safe**: for bits with a clear sign bit that
encode a target of at least `genesisTarget - 1`, every returned block passes
the compact check of the bits it declares. -/
theorem mineGenesisBlock_compactPowOk_of_le (hsign : targetBits &&& 0x00800000 = 0)
    (hle : genesisTarget ≤ compactTarget targetBits + 1)
    (h : mineGenesisBlock sha256 network targetBits = .ok r) :
    CompactPowOk r.bits (hexValue r.hash) := by
  obtain ⟨hbits, hlt, -⟩ := mineGenesisBlock_eq_ok h
  have hpos : 1 < genesisTarget := by decide
  rw [hbits]
  exact ⟨hsign, by omega, by omega⟩

/-- The nonce-`0` block, when the first header already meets the target. -/
theorem mineGenesisBlock_of_meets_zero {header : Bytes}
    (hheader : headerAt (networkTimestamp network) (doubleSha256 sha256 createCoinbaseTx)
      targetBits 0 = .ok header)
    (hlt : fromBytesBig (doubleSha256 sha256 header).reverse < genesisTarget) :
    mineGenesisBlock sha256 network targetBits =
      .ok (foundBlock network (networkTimestamp network) (doubleSha256 sha256 createCoinbaseTx)
        targetBits 0 (doubleSha256 sha256 header)) := by
  rw [mineGenesisBlock, mineLoop_of_ok hheader, if_pos hlt]

/-- A `sha256` whose every digest reads, little-endian, as `v`. -/
def constHash (v : Nat) (_ : Bytes) : Bytes := encodeLE 32 v

/-- **Exactly which bits the fixed target serves**: for a 32-bit `target_bits`,
every block returned under every hash passes the compact check of the bits it
declares iff the sign bit is clear and the bits encode a target of at least
`genesisTarget - 1`. Otherwise a hash whose digest reads as
`genesisTarget - 1` is accepted at nonce `0` and fails the check. -/
theorem mineGenesisBlock_compactPowOk_iff (hbits : targetBits < 2 ^ 32) :
    (∀ (sha256 : Bytes → Bytes) (r : GenesisBlock),
      mineGenesisBlock sha256 network targetBits = .ok r →
        CompactPowOk r.bits (hexValue r.hash)) ↔
    targetBits &&& 0x00800000 = 0 ∧ genesisTarget ≤ compactTarget targetBits + 1 := by
  refine ⟨fun hall => ?_, fun ⟨hsign, hle⟩ sha256 r h => ?_⟩
  · have hdigest : ∀ header, decodeLE (doubleSha256 (constHash (genesisTarget - 1)) header) =
        genesisTarget - 1 := fun _ => by
      rw [doubleSha256, constHash, decodeLE_encodeLE]
      exact Nat.mod_eq_of_lt (by decide)
    have hheader : headerAt (networkTimestamp network)
        (doubleSha256 (constHash (genesisTarget - 1)) createCoinbaseTx) targetBits 0 = .ok _ :=
      createBlockHeader_eq_ok.2
        ⟨⟨by decide, networkTimestamp_lt network, hbits, by decide⟩, rfl⟩
    have hmine := mineGenesisBlock_of_meets_zero hheader
      (by rw [fromBytesBig_reverse, hdigest]; decide)
    obtain ⟨hsign, -, hle⟩ := hall _ _ hmine
    simp only [foundBlock, hexValue_hex, fromBytesBig_reverse, hdigest] at hsign hle
    exact ⟨hsign, by omega⟩
  · exact mineGenesisBlock_compactPowOk_of_le hsign hle h

theorem mineGenesisBlock_compactPowOk_iff_default :
    defaultTargetBits < 2 ^ 32 ∧
      ((∀ (sha256 : Bytes → Bytes) (r : GenesisBlock),
        mineGenesisBlock sha256 "mainnet" defaultTargetBits = .ok r →
          CompactPowOk r.bits (hexValue r.hash)) ↔
      defaultTargetBits &&& 0x00800000 = 0 ∧
        genesisTarget ≤ compactTarget defaultTargetBits + 1) :=
  ⟨by decide, mineGenesisBlock_compactPowOk_iff (by decide)⟩

/-- **The script as shipped is safe**: run from the command line it mines with
the default bits `0x1e0ffff0`, whose target is sixteen times `genesisTarget`,
so every block it returns passes the compact check of the bits it declares. -/
theorem scriptMain_compactPowOk {argv : List String}
    (h : scriptMain sha256 argv = .ok r) : CompactPowOk r.bits (hexValue r.hash) := by
  simp only [scriptMain] at h
  split at h
  · exact mineGenesisBlock_compactPowOk_of_le (by decide) (by decide) h
  · cases h

theorem scriptMain_compactPowOk_zeroHash :
    ∃ r, scriptMain zeroHash ["generate_genesis.py"] = .ok r ∧
      CompactPowOk r.bits (hexValue r.hash) := by
  have hheader : headerAt (networkTimestamp "mainnet") (doubleSha256 zeroHash createCoinbaseTx)
      defaultTargetBits 0 = .ok _ := createBlockHeader_eq_ok.2 ⟨by decide, rfl⟩
  have hmain : scriptMain zeroHash ["generate_genesis.py"] =
      mineGenesisBlock zeroHash "mainnet" defaultTargetBits := rfl
  have hrun := hmain.trans (mineGenesisBlock_of_meets_zero hheader (by decide))
  exact ⟨_, hrun, scriptMain_compactPowOk hrun⟩

/-- A `sha256` whose every digest is `2 ^ 228` written little-endian. -/
def lowHash (_ : Bytes) : Bytes := List.replicate 28 0 ++ [16] ++ List.replicate 3 0

/-- **The target ignores `target_bits`**: with bits `0x1d00ffff` (target
`0xffff * 256 ^ 26`) and a hash reading as `2 ^ 228`, below the loop's fixed
`genesisTarget` but above that target, the script returns a block that fails
the compact check of the bits it declares. -/
theorem mineGenesisBlock_misses_compact_target :
    ∃ r, mineGenesisBlock lowHash "mainnet" 0x1d00ffff = .ok r ∧ r.bits = 0x1d00ffff ∧
      ¬ CompactPowOk r.bits (hexValue r.hash) := by
  have hheader : headerAt (networkTimestamp "mainnet") (doubleSha256 lowHash createCoinbaseTx)
      0x1d00ffff 0 = .ok _ := createBlockHeader_eq_ok.2 ⟨by decide, rfl⟩
  refine ⟨_, mineGenesisBlock_of_meets_zero hheader (by decide), rfl, ?_⟩
  simp only [foundBlock, hexValue_hex, fromBytesBig_reverse]
  decide

end Compact

end PussycoinGenesis
