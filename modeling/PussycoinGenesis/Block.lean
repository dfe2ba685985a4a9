import PussycoinGenesis.Merkle
import Mathlib.Data.Finset.Card

/-!
# The genesis coinbase and the 80-byte block header

- `createCoinbaseTx`: `create_coinbase_tx` (generate_genesis.py:37–73), the
  one transaction of the genesis block; its `double_sha256` is the merkle root.
- `createBlockHeader`: `create_block_header` (generate_genesis.py:75–83), the
  six fields concatenated, the integers through `struct.pack("<I", ·)`.
- `parseBlockHeader`: the fixed-offset reader a node applies to an 80-byte
  Bitcoin header (little-endian `u32` at 0, 68, 72, 76; 32 raw bytes at 4
  and 36). It returns `HeaderFields`, whose fields carry the ranges
  `create_block_header` packs without error.

`createBlockHeader_parseBlockHeader` is the round trip: on every well-formed
field tuple the script writes exactly 80 bytes, from which the reader recovers
the tuple; so the header that the mining loop hashes determines its fields.
The hash of the header does not: no hash with 32-byte digests is injective on
more than `256 ^ 32` tuples (`createBlockHeader_hash_not_injective`), so two
tuples hash alike exactly through a `double_sha256` collision of their headers.
-/

namespace PussycoinGenesis

/-! ## `create_coinbase_tx` -/

/-- The coinbase input script: height `0` and the message
(generate_genesis.py:52). -/
def coinbaseScriptData : Bytes := 0 :: "Rare, Irresistible, Irreversible".toUTF8.toList

/-- The output script (generate_genesis.py:66). The comment above it calls it
P2PKH, but its 28 bytes are `76a914`, 20 bytes, then `15109d88ac`, not the
25-byte P2PKH form `76a914`, 20 bytes, `88ac`. -/
def coinbasePubkeyScript : Bytes :=
  bytesFromHex "76a914389ffce9cd9ae88dcc0631e88a821ffdbe9bfe2615109d88ac"

/-- `create_coinbase_tx` (generate_genesis.py:37–73). Every packed constant is
in range, so no `struct.error` can arise. -/
def createCoinbaseTx : Bytes :=
  encodeLE 4 1 ++ encodeLE 1 1 ++ List.replicate 32 0 ++ encodeLE 4 0xffffffff ++
    encodeLE 1 coinbaseScriptData.length ++ coinbaseScriptData ++ encodeLE 4 0xffffffff ++
    encodeLE 1 1 ++ encodeLE 8 5000000000 ++
    encodeLE 1 coinbasePubkeyScript.length ++ coinbasePubkeyScript ++ encodeLE 4 0

/-! ## `create_block_header` -/

/-- `create_block_header` (generate_genesis.py:75–83). -/
def createBlockHeader (version : Nat) (prevHash merkleRoot : Bytes)
    (timestamp bits nonce : Nat) : Except String Bytes := do
  let v ← packU32 version
  let t ← packU32 timestamp
  let b ← packU32 bits
  let n ← packU32 nonce
  return v ++ prevHash ++ merkleRoot ++ t ++ b ++ n

/-- Peeling one `let x ← …` of an `Except` block: it returned. -/
theorem bind_eq_ok {α β : Type} {x : Except String α} {f : α → Except String β} {r : β} :
    x >>= f = .ok r ↔ ∃ a, x = .ok a ∧ f a = .ok r := by
  cases x <;> simp [Bind.bind, Except.bind]

/-- The header is the concatenation exactly when all four integers fit in 32
bits. -/
theorem createBlockHeader_eq_ok {version timestamp bits nonce : Nat}
    {prevHash merkleRoot header : Bytes} :
    createBlockHeader version prevHash merkleRoot timestamp bits nonce = .ok header ↔
      (version < 2 ^ 32 ∧ timestamp < 2 ^ 32 ∧ bits < 2 ^ 32 ∧ nonce < 2 ^ 32) ∧
      encodeLE 4 version ++ prevHash ++ merkleRoot ++ encodeLE 4 timestamp ++
        encodeLE 4 bits ++ encodeLE 4 nonce = header := by
  simp only [createBlockHeader, bind_eq_ok, packU32_eq_ok]
  constructor
  · rintro ⟨_, ⟨hv, rfl⟩, _, ⟨ht, rfl⟩, _, ⟨hb, rfl⟩, _, ⟨hn, rfl⟩, h⟩
    exact ⟨⟨hv, ht, hb, hn⟩, Except.ok.inj h⟩
  · rintro ⟨⟨hv, ht, hb, hn⟩, rfl⟩
    exact ⟨_, ⟨hv, rfl⟩, _, ⟨ht, rfl⟩, _, ⟨hb, rfl⟩, _, ⟨hn, rfl⟩, rfl⟩

/-- The six header fields in the ranges `create_block_header` packs without
error: 32-bit integers and 32-byte hashes. -/
@[ext] structure HeaderFields where
  version : Nat
  prevHash : Bytes
  merkleRoot : Bytes
  timestamp : Nat
  bits : Nat
  nonce : Nat
  version_lt : version < 2 ^ 32
  prevHash_length : prevHash.length = 32
  merkleRoot_length : merkleRoot.length = 32
  timestamp_lt : timestamp < 2 ^ 32
  bits_lt : bits < 2 ^ 32
  nonce_lt : nonce < 2 ^ 32
  deriving DecidableEq, Repr

/-- `length` bytes of `header` from `offset` on. -/
def slice (header : Bytes) (offset length : Nat) : Bytes := (header.drop offset).take length

/-- The little-endian `u32` at `offset`. -/
def readU32 (header : Bytes) (offset : Nat) : Nat := decodeLE (slice header offset 4)

theorem readU32_lt (header : Bytes) (offset : Nat) : readU32 header offset < 2 ^ 32 :=
  calc readU32 header offset < 256 ^ (slice header offset 4).length := decodeLE_lt _
    _ ≤ 256 ^ 4 := Nat.pow_le_pow_right (by decide) (List.length_take_le _ _)
    _ = 2 ^ 32 := rfl

theorem slice_length {header : Bytes} {offset length : Nat}
    (h : offset + length ≤ header.length) :
    (slice header offset length).length = length := by
  simp only [slice, List.length_take, List.length_drop]
  omega

/-- The Bitcoin header reader: an 80-byte string, read at fixed offsets. -/
def parseBlockHeader (header : Bytes) : Option HeaderFields :=
  if h : header.length = 80 then
    some
      { version := readU32 header 0
        prevHash := slice header 4 32
        merkleRoot := slice header 36 32
        timestamp := readU32 header 68
        bits := readU32 header 72
        nonce := readU32 header 76
        version_lt := readU32_lt header 0
        prevHash_length := slice_length (by omega)
        merkleRoot_length := slice_length (by omega)
        timestamp_lt := readU32_lt header 68
        bits_lt := readU32_lt header 72
        nonce_lt := readU32_lt header 76 }
  else none

/-! ## The round trip -/

/-- The header `create_block_header` writes for well-formed fields. -/
theorem createBlockHeader_fields (f : HeaderFields) :
    createBlockHeader f.version f.prevHash f.merkleRoot f.timestamp f.bits f.nonce =
      .ok (encodeLE 4 f.version ++ f.prevHash ++ f.merkleRoot ++ encodeLE 4 f.timestamp ++
        encodeLE 4 f.bits ++ encodeLE 4 f.nonce) :=
  createBlockHeader_eq_ok.2 ⟨⟨f.version_lt, f.timestamp_lt, f.bits_lt, f.nonce_lt⟩, rfl⟩

/-- Reading the written header back gives the fields. -/
theorem parseBlockHeader_encode (f : HeaderFields) :
    parseBlockHeader (encodeLE 4 f.version ++ f.prevHash ++ f.merkleRoot ++
      encodeLE 4 f.timestamp ++ encodeLE 4 f.bits ++ encodeLE 4 f.nonce) = some f := by
  have hp := f.prevHash_length
  have hm := f.merkleRoot_length
  rw [parseBlockHeader, dif_pos (by simp [hp, hm]), Option.some.injEq]
  ext <;> simp [readU32, slice, List.drop_append_eq_append_drop, List.take_append_eq_append_take,
    List.drop_eq_nil_of_le, List.take_of_length_le, hp, hm,
    decodeLE_encodeLE_four f.version_lt, decodeLE_encodeLE_four f.timestamp_lt,
    decodeLE_encodeLE_four f.bits_lt, decodeLE_encodeLE_four f.nonce_lt]

/-- Two well-formed field tuples written to one header are equal. -/
theorem createBlockHeader_inj {f g : HeaderFields} {header : Bytes}
    (hf : createBlockHeader f.version f.prevHash f.merkleRoot f.timestamp f.bits f.nonce =
      .ok header)
    (hg : createBlockHeader g.version g.prevHash g.merkleRoot g.timestamp g.bits g.nonce =
      .ok header) :
    f = g := by
  rw [createBlockHeader_fields, Except.ok.injEq] at hf hg
  apply Option.some.inj
  rw [← parseBlockHeader_encode f, ← parseBlockHeader_encode g, hf, hg]

/-- Every header written from well-formed fields is 80 bytes long. -/
theorem createBlockHeader_length {f : HeaderFields} {header : Bytes}
    (h : createBlockHeader f.version f.prevHash f.merkleRoot f.timestamp f.bits f.nonce =
      .ok header) :
    header.length = 80 := by
  rw [createBlockHeader_fields, Except.ok.injEq] at h
  simp [← h, f.prevHash_length, f.merkleRoot_length]

/-- **Header round trip**: for every well-formed field tuple,
`create_block_header` returns exactly 80 bytes from which the fixed-offset
reader recovers the tuple; hence the header determines the six fields, and
two different tuples hash alike only through a `double_sha256` collision of
their two different 80-byte headers. -/
theorem createBlockHeader_parseBlockHeader (f : HeaderFields) :
    (∃ header, createBlockHeader f.version f.prevHash f.merkleRoot f.timestamp f.bits f.nonce =
        .ok header ∧ header.length = 80 ∧ parseBlockHeader header = some f) ∧
    (∀ g : HeaderFields, ∀ header,
      createBlockHeader f.version f.prevHash f.merkleRoot f.timestamp f.bits f.nonce = .ok header →
      createBlockHeader g.version g.prevHash g.merkleRoot g.timestamp g.bits g.nonce = .ok header →
      f = g) ∧
    (∀ sha256 : Bytes → Bytes, ∀ g : HeaderFields, ∀ hf hg,
      createBlockHeader f.version f.prevHash f.merkleRoot f.timestamp f.bits f.nonce = .ok hf →
      createBlockHeader g.version g.prevHash g.merkleRoot g.timestamp g.bits g.nonce = .ok hg →
      doubleSha256 sha256 hf = doubleSha256 sha256 hg → f ≠ g →
      hf ≠ hg ∧ hf.length = 80 ∧ hg.length = 80) :=
  ⟨⟨_, createBlockHeader_fields f, createBlockHeader_length (createBlockHeader_fields f),
      parseBlockHeader_encode f⟩,
    fun _ _ hf hg => createBlockHeader_inj hf hg,
    fun _ _ _ _ hf hg _ hne => ⟨fun heq => hne (createBlockHeader_inj hf (heq ▸ hg)),
      createBlockHeader_length hf, createBlockHeader_length hg⟩⟩

/-! ## The hash is not injective in the fields -/

/-- For a `sha256` with 32-byte digests, two different field tuples have
headers with one `double_sha256`: the `2 * 256 ^ 32` tuples with previous hash
`encodeLE 32 x` and nonce `x / 256 ^ 32` outnumber the `256 ^ 32` digests. -/
theorem exists_headerFields_hash_eq {sha256 : Bytes → Bytes}
    (hlen : ∀ d, (sha256 d).length = 32) :
    ∃ f g : HeaderFields, f ≠ g ∧
      doubleSha256 sha256 (encodeLE 4 f.version ++ f.prevHash ++ f.merkleRoot ++
        encodeLE 4 f.timestamp ++ encodeLE 4 f.bits ++ encodeLE 4 f.nonce) =
      doubleSha256 sha256 (encodeLE 4 g.version ++ g.prevHash ++ g.merkleRoot ++
        encodeLE 4 g.timestamp ++ encodeLE 4 g.bits ++ encodeLE 4 g.nonce) := by
  let fieldsAt (x : Nat) (hx : x < 2 * 256 ^ 32) : HeaderFields :=
    ⟨0, encodeLE 32 x, List.replicate 32 0, 0, 0, x / 256 ^ 32, by decide, encodeLE_length _ _,
      List.length_replicate _ _, by decide, by decide, by omega⟩
  let digest (x : Nat) : Bytes := doubleSha256 sha256 (encodeLE 4 0 ++ encodeLE 32 x ++
    List.replicate 32 0 ++ encodeLE 4 0 ++ encodeLE 4 0 ++ encodeLE 4 (x / 256 ^ 32))
  have hdigest : ∀ x, (digest x).length = 32 := fun x => hlen _
  -- the pigeonhole: more tuples than values of a 32-byte digest
  obtain ⟨x, hx, y, hy, hxy, heq⟩ := Finset.exists_ne_map_eq_of_card_lt_of_maps_to
    (show (Finset.range (256 ^ 32)).card < (Finset.range (2 * 256 ^ 32)).card by simp)
    (show ∀ x ∈ Finset.range (2 * 256 ^ 32), decodeLE (digest x) ∈ Finset.range (256 ^ 32) from
      fun x _ => Finset.mem_range.2 (hdigest x ▸ decodeLE_lt _))
  rw [Finset.mem_range] at hx hy
  refine ⟨fieldsAt x hx, fieldsAt y hy, fun hfg => hxy ?_,
    decodeLE_inj ((hdigest x).trans (hdigest y).symm) heq⟩
  have hprev : encodeLE 32 x = encodeLE 32 y := congrArg HeaderFields.prevHash hfg
  have hlow : x % 256 ^ 32 = y % 256 ^ 32 := by
    rw [← decodeLE_encodeLE, ← decodeLE_encodeLE, hprev]
  have hhigh : x / 256 ^ 32 = y / 256 ^ 32 := congrArg HeaderFields.nonce hfg
  rw [← Nat.div_add_mod x (256 ^ 32), ← Nat.div_add_mod y (256 ^ 32), hlow, hhigh]

/-- **No 32-byte hash is injective in the fields**: whatever `sha256` with
32-byte digests the script runs on, `hashlib`'s included, two different field
tuples give headers with one `double_sha256`. -/
theorem createBlockHeader_hash_not_injective :
    ¬ ∃ sha256 : Bytes → Bytes, (∀ d, (sha256 d).length = 32) ∧
      ∀ f g : HeaderFields, ∀ hf hg,
        createBlockHeader f.version f.prevHash f.merkleRoot f.timestamp f.bits f.nonce = .ok hf →
        createBlockHeader g.version g.prevHash g.merkleRoot g.timestamp g.bits g.nonce = .ok hg →
        doubleSha256 sha256 hf = doubleSha256 sha256 hg → f = g := by
  rintro ⟨sha256, hlen, hinj⟩
  obtain ⟨f, g, hne, heq⟩ := exists_headerFields_hash_eq hlen
  exact hne (hinj f g _ _ (createBlockHeader_fields f) (createBlockHeader_fields g) heq)

end PussycoinGenesis
