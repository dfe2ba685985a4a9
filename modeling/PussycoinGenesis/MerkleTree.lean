import PussycoinGenesis.Merkle
import Mathlib.Data.Nat.Log

/-!
# The level-by-level root is the top-down tree hash

`calculateMerkleRoot` walks up one level at a time. The usual picture of a
Merkle tree is top-down: `treeHash h xs` hashes the left subtree over the
first `2 ^ (h - 1)` ids with the right subtree over the rest, and repeats the
left subtree when there is no rest. The two agree at the tree's height
`h = ⌈log₂ |xs|⌉` (`calculateMerkleRoot_eq_treeHash`).

The proof goes through `h` rounds of `nextLevel`:

- `nextLevel_iterate_append`: `h` rounds split at a boundary of `2 ^ h` ids;
- `nextLevel_iterate_eq_treeHash`: `h` rounds on at most `2 ^ h` ids leave
  exactly the tree hash of height `h`;
- `nextLevel_iterate_clog`: the recursion of `calculate_merkle_root` makes
  exactly `⌈log₂ |xs|⌉` rounds.
-/

namespace PussycoinGenesis

section MerkleTree

variable (sha256 : Bytes → Bytes)

/-- The top-down tree hash of height `h` over at most `2 ^ h` ids: the left
subtree over the first `2 ^ (h - 1)` ids, hashed with the right subtree over
the rest, or with itself when no id is left over. -/
def treeHash : Nat → List Bytes → Bytes
  | 0, xs => xs.headD []
  | h + 1, xs =>
    match xs.drop (2 ^ h) with
    | [] => doubleSha256 sha256 (treeHash h (xs.take (2 ^ h)) ++ treeHash h (xs.take (2 ^ h)))
    | r :: rs => doubleSha256 sha256 (treeHash h (xs.take (2 ^ h)) ++ treeHash h (r :: rs))

/-- No more than `2 ^ h` ids: the right subtree repeats the left one. -/
theorem treeHash_succ_of_length_le {h : Nat} {xs : List Bytes} (hle : xs.length ≤ 2 ^ h) :
    treeHash sha256 (h + 1) xs =
      doubleSha256 sha256 (treeHash sha256 h xs ++ treeHash sha256 h xs) := by
  rw [treeHash, List.drop_eq_nil_of_le hle, List.take_of_length_le hle]

/-- A full left half of `2 ^ h` ids and a nonempty rest. -/
theorem treeHash_succ_append {h : Nat} {xs ys : List Bytes} (hxs : xs.length = 2 ^ h)
    (hys : ys ≠ []) :
    treeHash sha256 (h + 1) (xs ++ ys) =
      doubleSha256 sha256 (treeHash sha256 h xs ++ treeHash sha256 h ys) := by
  obtain ⟨r, rs, rfl⟩ := List.exists_cons_of_ne_nil hys
  rw [treeHash, ← hxs, List.drop_left, List.take_left]

/-- `h` rounds of pairing split at a boundary of `2 ^ h` ids. -/
theorem nextLevel_iterate_append (h : Nat) :
    ∀ {xs : List Bytes} (ys : List Bytes), xs.length = 2 ^ h →
      (nextLevel sha256)^[h] (xs ++ ys) =
        (nextLevel sha256)^[h] xs ++ (nextLevel sha256)^[h] ys := by
  induction h with
  | zero => intros; rfl
  | succ h ih =>
    intro xs ys hxs
    have heven : xs.length % 2 = 0 := by rw [hxs, pow_succ]; omega
    have hhalf : (nextLevel sha256 xs).length = 2 ^ h := by
      rw [nextLevel_length, hxs, pow_succ]; omega
    simp only [Function.iterate_succ_apply, nextLevel_append sha256 ys heven, ih _ hhalf]

/-- `h` rounds on `1` to `2 ^ h` ids leave the one tree hash of height `h`. -/
theorem nextLevel_iterate_eq_treeHash (h : Nat) :
    ∀ {xs : List Bytes}, xs ≠ [] → xs.length ≤ 2 ^ h →
      (nextLevel sha256)^[h] xs = [treeHash sha256 h xs] := by
  induction h with
  | zero =>
    intro xs hne hle
    match xs, hle with
    | [x], _ => rfl
  | succ h ih =>
    intro xs hne hle
    rw [Function.iterate_succ_apply']
    by_cases hsmall : xs.length ≤ 2 ^ h
    · rw [ih hne hsmall, treeHash_succ_of_length_le sha256 hsmall]
      rfl
    · have hleft : (xs.take (2 ^ h)).length = 2 ^ h := by simp; omega
      have hright : xs.drop (2 ^ h) ≠ [] := by simp; omega
      have hrlen : (xs.drop (2 ^ h)).length ≤ 2 ^ h := by
        rw [List.length_drop]; rw [pow_succ] at hle; omega
      rw [← List.take_append_drop (2 ^ h) xs, nextLevel_iterate_append sha256 h _ hleft,
        ih (List.ne_nil_of_length_pos (by rw [hleft]; exact Nat.two_pow_pos h)) hleft.le,
        ih hright hrlen, treeHash_succ_append sha256 hleft hright]
      rfl

/-- The recursion of `calculate_merkle_root` makes `⌈log₂ |xs|⌉` rounds and
returns the one hash they leave. -/
theorem nextLevel_iterate_clog :
    ∀ {xs : List Bytes}, xs ≠ [] →
      (nextLevel sha256)^[Nat.clog 2 xs.length] xs = [calculateMerkleRoot sha256 xs] := by
  intro xs
  induction xs using calculateMerkleRoot.induct sha256 with
  | case1 => intro h; exact absurd rfl h
  | case2 x => intro _; simp
  | case3 a b rest ih =>
    intro _
    have hn : 2 ≤ (a :: b :: rest).length := by simp
    have hhalf : ((a :: b :: rest).length + 2 - 1) / 2 =
        (nextLevel sha256 (a :: b :: rest)).length := by
      rw [nextLevel_length]; omega
    rw [Nat.clog_of_two_le Nat.one_lt_two hn, hhalf, Function.iterate_succ_apply,
      ih (by simp [nextLevel]), calculateMerkleRoot_of_two_le sha256 hn]

/-- **Level by level is top-down**: the root `calculate_merkle_root` computes
is the tree hash of height `⌈log₂ |xs|⌉`; in particular two full halves of
`2 ^ k` ids each hash to the pair hash of their roots. -/
theorem calculateMerkleRoot_eq_treeHash :
    (∀ xs : List Bytes, xs ≠ [] →
      calculateMerkleRoot sha256 xs = treeHash sha256 (Nat.clog 2 xs.length) xs) ∧
    (∀ (k : Nat) (xs ys : List Bytes), xs.length = 2 ^ k → ys.length = 2 ^ k →
      calculateMerkleRoot sha256 (xs ++ ys) =
        doubleSha256 sha256 (calculateMerkleRoot sha256 xs ++ calculateMerkleRoot sha256 ys)) := by
  have htree : ∀ xs : List Bytes, xs ≠ [] →
      calculateMerkleRoot sha256 xs = treeHash sha256 (Nat.clog 2 xs.length) xs := by
    intro xs hne
    have := (nextLevel_iterate_clog sha256 hne).symm.trans
      (nextLevel_iterate_eq_treeHash sha256 _ hne (Nat.le_pow_clog Nat.one_lt_two _))
    exact List.singleton_inj.1 this
  refine ⟨htree, fun k xs ys hxs hys => ?_⟩
  have hne : ∀ zs : List Bytes, zs.length = 2 ^ k → zs ≠ [] := by
    rintro zs hzs rfl
    exact (Nat.two_pow_pos k).ne hzs
  have hclog : ∀ zs : List Bytes, zs.length = 2 ^ k → Nat.clog 2 zs.length = k := by
    intro zs hzs
    rw [hzs, Nat.clog_pow _ _ Nat.one_lt_two]
  have happ : (xs ++ ys).length = 2 ^ (k + 1) := by simp [hxs, hys, pow_succ]; omega
  rw [htree _ (by simp [hne xs hxs]), happ, Nat.clog_pow _ _ Nat.one_lt_two,
    treeHash_succ_append sha256 hxs (hne ys hys), htree xs (hne xs hxs), htree ys (hne ys hys),
    hclog xs hxs, hclog ys hys]

end MerkleTree

end PussycoinGenesis
