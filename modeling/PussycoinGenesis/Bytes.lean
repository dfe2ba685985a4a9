import Mathlib.Data.List.Basic
import Mathlib.Algebra.Order.Group.Nat

/-!
# Byte strings of `generate_genesis.py`

Python `bytes` are byte lists here, and the script reads and writes them in
three encodings:

- `packU32`: `struct.pack("<I", n)` (generate_genesis.py:77–82): four
  little-endian bytes, or `struct.error` outside `[0, 2^32)`, with CPython's
  two texts: the 32-bit range check below `2^64`, "argument out of range"
  past it. Its inverse on the fixed-width read is `decodeLE_encodeLE_four`.
- `fromBytesBig`: `int.from_bytes(b, 'big')`; on the reversed string
  (`hash_result[::-1]`, generate_genesis.py:122) it is the little-endian
  reading `decodeLE` (`fromBytesBig_reverse`).
- `hex`: `bytes.hex()` (generate_genesis.py:127,142), two lower-case digits a
  byte; `hexValue` reads a hex string back as `int(s, 16)` does, and
  `hexValue_hex` is the round trip: the hex string the script returns names the
  same integer as the bytes it was printed from. `bytesFromHex` is
  `bytes.fromhex`, and `bytesFromHex_hex` the round trip on the bytes
  themselves.
-/

namespace PussycoinGenesis

/-- Python `bytes`. -/
abbrev Bytes := List UInt8

@[simp] theorem uint8_toNat_ofNat (n : Nat) : (UInt8.ofNat n).toNat = n % 256 := rfl

/-! ## Little-endian integers -/

/-- A byte string read as a little-endian integer. -/
def decodeLE : Bytes → Nat
  | [] => 0
  | b :: rest => b.toNat + 256 * decodeLE rest

/-- The `width` low bytes of `value`, least significant first. -/
def encodeLE : Nat → Nat → Bytes
  | 0, _ => []
  | width + 1, value => UInt8.ofNat value :: encodeLE width (value / 256)

@[simp] theorem decodeLE_nil : decodeLE [] = 0 := rfl

@[simp] theorem decodeLE_cons (b : UInt8) (rest : Bytes) :
    decodeLE (b :: rest) = b.toNat + 256 * decodeLE rest := rfl

@[simp] theorem encodeLE_length (width value : Nat) :
    (encodeLE width value).length = width := by
  induction width generalizing value <;> simp [encodeLE, *]

/-- Reading back `width` encoded bytes gives the value modulo `256 ^ width`. -/
theorem decodeLE_encodeLE (width value : Nat) :
    decodeLE (encodeLE width value) = value % 256 ^ width := by
  induction width generalizing value with
  | zero => simp [encodeLE, Nat.mod_one]
  | succ width ih =>
    rw [encodeLE, decodeLE_cons, ih, uint8_toNat_ofNat, pow_succ', Nat.mod_mul]

theorem decodeLE_lt (bs : Bytes) : decodeLE bs < 256 ^ bs.length := by
  induction bs with
  | nil => simp
  | cons b rest ih =>
    have : b.toNat < 256 := b.toNat_lt_size
    simp only [decodeLE_cons, List.length_cons, pow_succ']
    omega

/-- Two byte strings of one length with one little-endian value are equal. -/
theorem decodeLE_inj : ∀ {a b : Bytes}, a.length = b.length → decodeLE a = decodeLE b → a = b
  | [], [], _, _ => rfl
  | x :: a, y :: b, hl, h => by
    have : x.toNat < 256 := x.toNat_lt_size
    have : y.toNat < 256 := y.toNat_lt_size
    simp only [decodeLE_cons, List.length_cons, Nat.add_right_cancel_iff] at h hl
    rw [UInt8.toNat.inj (show x.toNat = y.toNat by omega), decodeLE_inj hl (by omega)]

/-! ## `struct.pack("<I", n)` -/

/-- CPython's `struct.error` text for an `'I'` argument past 32 bits. -/
def packU32Error : String := "'I' format requires 0 <= number <= 4294967295"

/-- CPython's `struct.error` text for an argument past the C `unsigned long`. -/
def packRangeError : String := "argument out of range"

/-- `struct.pack("<I", n)` as CPython 3.11 runs it with a 64-bit C `long`:
`get_ulong` fails first on a value past `2 ^ 64`, then `lp_uint` checks the
32-bit range; otherwise four little-endian bytes. -/
def packU32 (n : Nat) : Except String Bytes :=
  if n < 2 ^ 64 then
    if n < 2 ^ 32 then .ok (encodeLE 4 n) else .error packU32Error
  else .error packRangeError

theorem packU32_eq_ok {n : Nat} {b : Bytes} :
    packU32 n = .ok b ↔ n < 2 ^ 32 ∧ encodeLE 4 n = b := by
  unfold packU32
  split_ifs with h64 h32
  · exact ⟨fun h => ⟨h32, Except.ok.inj h⟩, fun h => congrArg _ h.2⟩
  all_goals exact ⟨fun h => (nomatch h), fun h => absurd h.1 (by omega)⟩

/-- A 32-bit value reads back exactly from its four bytes. -/
theorem decodeLE_encodeLE_four {n : Nat} (h : n < 2 ^ 32) : decodeLE (encodeLE 4 n) = n := by
  rw [decodeLE_encodeLE]
  exact Nat.mod_eq_of_lt h

theorem encodeLE_four_inj {m n : Nat} (hm : m < 2 ^ 32) (hn : n < 2 ^ 32)
    (h : encodeLE 4 m = encodeLE 4 n) : m = n := by
  rw [← decodeLE_encodeLE_four hm, h, decodeLE_encodeLE_four hn]

/-! ## `int.from_bytes(b, 'big')` -/

/-- `int.from_bytes(b, 'big')`. -/
def fromBytesBig (b : Bytes) : Nat :=
  b.foldl (fun acc x => 256 * acc + x.toNat) 0

/-- Reversing and reading big-endian is reading little-endian. -/
theorem fromBytesBig_reverse (b : Bytes) : fromBytesBig b.reverse = decodeLE b := by
  rw [fromBytesBig, List.foldl_reverse]
  induction b with
  | nil => rfl
  | cons x rest ih => simp only [List.foldr_cons, ih, decodeLE_cons]; omega

/-! ## `bytes.hex()` and `int(s, 16)` -/

/-- One lower-case hex digit, as `bytes.hex()` writes it. -/
def hexDigit (n : Nat) : Char :=
  if n < 10 then Char.ofNat (48 + n) else Char.ofNat (87 + n)

/-- `bytes.hex()`. -/
def hex (b : Bytes) : String :=
  String.mk (b.flatMap fun x => [hexDigit (x.toNat / 16), hexDigit (x.toNat % 16)])

/-- The value of one hex digit, as `int(s, 16)` reads it. -/
def hexDigitValue (c : Char) : Nat :=
  if '0' ≤ c ∧ c ≤ '9' then c.toNat - 48
  else if 'a' ≤ c ∧ c ≤ 'f' then c.toNat - 87
  else if 'A' ≤ c ∧ c ≤ 'F' then c.toNat - 55
  else 0

/-- A hex string read as a big-endian integer, as `int(s, 16)` reads it. -/
def hexValue (s : String) : Nat :=
  s.toList.foldl (fun acc c => 16 * acc + hexDigitValue c) 0

theorem hexDigitValue_hexDigit : ∀ n < 16, hexDigitValue (hexDigit n) = n := by
  decide

/-- Two digits of a byte move the running value by one byte. -/
theorem hexValue_step (acc : Nat) (x : UInt8) :
    16 * (16 * acc + hexDigitValue (hexDigit (x.toNat / 16))) +
      hexDigitValue (hexDigit (x.toNat % 16)) = 256 * acc + x.toNat := by
  have : x.toNat < 256 := x.toNat_lt_size
  rw [hexDigitValue_hexDigit _ (by omega), hexDigitValue_hexDigit _ (by omega)]
  omega

/-- **Hex round trip**: the string `bytes.hex()` prints reads back, with
`int(s, 16)`, as the big-endian integer of the bytes. -/
theorem hexValue_hex (b : Bytes) : hexValue (hex b) = fromBytesBig b := by
  suffices ∀ acc, (b.flatMap fun x => [hexDigit (x.toNat / 16), hexDigit (x.toNat % 16)]).foldl
      (fun acc c => 16 * acc + hexDigitValue c) acc =
      b.foldl (fun acc x => 256 * acc + x.toNat) acc from this 0
  induction b with
  | nil => simp
  | cons x rest ih =>
    intro acc
    simp only [List.flatMap_cons, List.foldl_append, List.foldl_cons, List.foldl_nil,
      hexValue_step, ih]

/-- `bytes.fromhex(s)` on a well-formed literal: digits read two at a time. -/
def fromHexPairs : List Char → Bytes
  | hi :: lo :: rest => UInt8.ofNat (16 * hexDigitValue hi + hexDigitValue lo) :: fromHexPairs rest
  | _ => []

/-- `bytes.fromhex(s)`. -/
def bytesFromHex (s : String) : Bytes := fromHexPairs s.toList

theorem uint8_ofNat_toNat (x : UInt8) : UInt8.ofNat x.toNat = x :=
  UInt8.toNat.inj (by rw [uint8_toNat_ofNat]; exact Nat.mod_eq_of_lt x.toNat_lt_size)

theorem hex_toList (b : Bytes) :
    (hex b).toList = b.flatMap fun x => [hexDigit (x.toNat / 16), hexDigit (x.toNat % 16)] :=
  rfl

/-- **Hex round trip on bytes**: `bytes.fromhex(b.hex()) == b`, so a printed
digest or merkle root gives back the bytes it was printed from. -/
theorem bytesFromHex_hex (b : Bytes) : bytesFromHex (hex b) = b := by
  rw [bytesFromHex, hex_toList]
  induction b with
  | nil => rfl
  | cons x rest ih =>
    have : x.toNat < 256 := x.toNat_lt_size
    rw [List.flatMap_cons, List.cons_append, List.cons_append, List.nil_append, fromHexPairs, ih,
      hexDigitValue_hexDigit _ (by omega), hexDigitValue_hexDigit _ (by omega), Nat.div_add_mod,
      uint8_ofNat_toNat]

theorem hex_injective {b c : Bytes} (h : hex b = hex c) : b = c := by
  rw [← bytesFromHex_hex b, h, bytesFromHex_hex]

/-- Two digits a byte: a 32-byte digest prints as 64 digits. -/
theorem hex_length (b : Bytes) : (hex b).length = 2 * b.length := by
  rw [String.length, ← String.toList, hex_toList]
  induction b with
  | nil => rfl
  | cons x rest ih =>
    simp only [List.flatMap_cons, List.length_append, ih, List.length_cons, List.length_nil]
    omega

end PussycoinGenesis
