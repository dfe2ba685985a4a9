import PussycoinGenesis.Bytes

/-!
# `calculate_merkle_root` and what its root binds

`calculate_merkle_root` (generate_genesis.py:21–35) builds the root level by
level: `nextLevel` hashes neighbours in pairs with `double_sha256`, pairing an
odd last id with itself, until one hash is left. The hash is a parameter
`sha256`; `double_sha256` is applied to it as the script does.

- `calculateMerkleRoot_append_last`: the odd-level duplication makes the root
  forget a repeated last id: a list of odd length `≥ 3` and the same list with
  its last id appended have one root, whatever the hash. So the root does not
  bind the list across lengths, even for an injective hash.
  `calculateMerkleRoot_append_dup` is the same at every level: a repeated
  trailing subtree of `2 ^ k` ids after a part of a multiple of `2 ^ (k + 1)`
  ids is invisible too.
- `calculateMerkleRoot_inj`: among lists of one length it does, when
  `double_sha256` is injective and the length of a digest depends only on the
  length of its input (the identity is such a hash; no hash with 32-byte
  digests is injective): every level then holds entries of one length, so each
  pair hash splits back into its two halves.
-/

namespace PussycoinGenesis

section Merkle

variable (sha256 : Bytes → Bytes)

/-- `double_sha256` (generate_genesis.py:18–19). -/
def doubleSha256 (data : Bytes) : Bytes := sha256 (sha256 data)

/-- One level of `calculate_merkle_root` (generate_genesis.py:29–33): the
`left + right` pairs hashed, an odd last id paired with itself. -/
def nextLevel : List Bytes → List Bytes
  | [] => []
  | [left] => [doubleSha256 sha256 (left ++ left)]
  | left :: right :: rest => doubleSha256 sha256 (left ++ right) :: nextLevel rest

@[simp] theorem nextLevel_length (txids : List Bytes) :
    (nextLevel sha256 txids).length = (txids.length + 1) / 2 := by
  induction txids using nextLevel.induct sha256 with
  | case1 | case2 => simp [nextLevel]
  | case3 _ _ rest ih => simp only [nextLevel, List.length_cons, ih]; omega

/-- `calculate_merkle_root` (generate_genesis.py:21–35). -/
def calculateMerkleRoot (txids : List Bytes) : Bytes :=
  match txids with
  | [] => List.replicate 32 0
  | [txid] => txid
  | a :: b :: rest => calculateMerkleRoot (nextLevel sha256 (a :: b :: rest))
termination_by txids.length
decreasing_by simp only [nextLevel_length, List.length_cons]; omega

@[simp] theorem calculateMerkleRoot_singleton (txid : Bytes) :
    calculateMerkleRoot sha256 [txid] = txid := by
  rw [calculateMerkleRoot]

/-- Two or more ids: the root is the root of the next level. -/
theorem calculateMerkleRoot_of_two_le {txids : List Bytes} (h : 2 ≤ txids.length) :
    calculateMerkleRoot sha256 txids = calculateMerkleRoot sha256 (nextLevel sha256 txids) := by
  match txids, h with
  | a :: b :: rest, _ => rw [calculateMerkleRoot]

/-- Pairing splits at an even boundary. -/
theorem nextLevel_append {xs : List Bytes} (ys : List Bytes) (h : xs.length % 2 = 0) :
    nextLevel sha256 (xs ++ ys) = nextLevel sha256 xs ++ nextLevel sha256 ys := by
  induction xs using nextLevel.induct sha256 with
  | case1 => rfl
  | case2 x => simp at h
  | case3 x y rest ih =>
    simp only [List.length_cons] at h
    rw [List.cons_append, List.cons_append, nextLevel, nextLevel, ih (by omega), List.cons_append]

/-! ## Duplicated ids and subtrees -/

/-- **Duplication is invisible**: appending a copy of the last id to a list of
odd length `≥ 3` leaves its root unchanged, for every hash. -/
theorem calculateMerkleRoot_append_last {init : List Bytes} (c : Bytes)
    (heven : init.length % 2 = 0) (h2 : 2 ≤ init.length) :
    calculateMerkleRoot sha256 (init ++ [c, c]) = calculateMerkleRoot sha256 (init ++ [c]) := by
  have hlevel : nextLevel sha256 (init ++ [c, c]) = nextLevel sha256 (init ++ [c]) := by
    rw [nextLevel_append sha256 _ heven, nextLevel_append sha256 _ heven]
    rfl
  have hcc : 2 ≤ (init ++ [c, c]).length := by simp only [List.length_append]; omega
  have hc : 2 ≤ (init ++ [c]).length := by simp only [List.length_append]; omega
  rw [calculateMerkleRoot_of_two_le sha256 hcc, calculateMerkleRoot_of_two_le sha256 hc, hlevel]

/-- **A duplicated trailing subtree is invisible**: at every level `k`, a
list made of a nonempty part of a multiple of `2 ^ (k + 1)` ids and a full
subtree of `2 ^ k` ids has the root it has with that subtree repeated, for
every hash. At level `k` the repeated subtree is one odd last hash, which the
pairing duplicates anyway. -/
theorem calculateMerkleRoot_append_dup (k : Nat) :
    ∀ {xs ys : List Bytes}, 2 ^ (k + 1) ∣ xs.length → xs ≠ [] → ys.length = 2 ^ k →
      calculateMerkleRoot sha256 (xs ++ ys ++ ys) = calculateMerkleRoot sha256 (xs ++ ys) := by
  induction k with
  | zero =>
    intro xs ys ⟨m, hm⟩ hne hys
    obtain ⟨c, rfl⟩ := List.length_eq_one.1 hys
    have hpos := List.length_pos_of_ne_nil hne
    rw [List.append_assoc, List.singleton_append]
    exact calculateMerkleRoot_append_last sha256 c (by omega) (by omega)
  | succ k ih =>
    intro xs ys ⟨m, hm⟩ hne hys
    have hpos := List.length_pos_of_ne_nil hne
    have hx : xs.length = 2 * (2 ^ (k + 1) * m) := by
      rw [hm, pow_succ 2 (k + 1), Nat.mul_comm _ 2, Nat.mul_assoc]
    have hy : ys.length = 2 * 2 ^ k := by rw [hys, pow_succ, Nat.mul_comm]
    have hxy : (xs ++ ys).length % 2 = 0 := by rw [List.length_append]; omega
    have h₁ : 2 ≤ (xs ++ ys ++ ys).length := by simp only [List.length_append]; omega
    have h₂ : 2 ≤ (xs ++ ys).length := by simp only [List.length_append]; omega
    -- one round of pairing halves both lists and keeps them split at the same places
    rw [calculateMerkleRoot_of_two_le sha256 h₁, calculateMerkleRoot_of_two_le sha256 h₂,
      nextLevel_append sha256 ys hxy, nextLevel_append sha256 ys (by omega)]
    refine ih ⟨m, ?_⟩ (List.ne_nil_of_length_pos ?_) ?_ <;> rw [nextLevel_length] <;> omega

theorem calculateMerkleRoot_append_dup_six :
    2 ^ (1 + 1) ∣ ([[0], [1], [2], [3]] : List Bytes).length ∧
      ([[0], [1], [2], [3]] : List Bytes) ≠ [] ∧ ([[4], [5]] : List Bytes).length = 2 ^ 1 ∧
      calculateMerkleRoot id ([[0], [1], [2], [3]] ++ [[4], [5]] ++ [[4], [5]]) =
        calculateMerkleRoot id ([[0], [1], [2], [3]] ++ [[4], [5]]) :=
  ⟨by decide, by simp, rfl, calculateMerkleRoot_append_dup id 1 (by decide) (by simp) rfl⟩

/-- Even an injective `double_sha256` does not make the root binding:
`[a, b, c]` and `[a, b, c, c]` share a root. -/
theorem calculateMerkleRoot_not_binding :
    ¬ ∀ sha256 : Bytes → Bytes, Function.Injective (doubleSha256 sha256) →
      ∀ xs ys : List Bytes, xs ≠ [] → ys ≠ [] → (∀ x ∈ xs, x.length = 32) →
        (∀ y ∈ ys, y.length = 32) →
        calculateMerkleRoot sha256 xs = calculateMerkleRoot sha256 ys → xs = ys := by
  intro h
  have hroot : calculateMerkleRoot id ([List.replicate 32 0, List.replicate 32 1] ++
      [List.replicate 32 2, List.replicate 32 2]) =
      calculateMerkleRoot id
        ([List.replicate 32 0, List.replicate 32 1] ++ [List.replicate 32 2]) :=
    calculateMerkleRoot_append_last id _ rfl le_rfl
  have := h id (fun _ _ e => e) _ _ (List.cons_ne_nil _ _) (List.cons_ne_nil _ _)
    (by simp) (by simp) hroot
  simp at this

/-! ## Binding among lists of one length -/

/-- Every entry is 32 bytes long: a list of transaction ids or of digests. -/
def IsIdList (xs : List Bytes) : Prop := ∀ x ∈ xs, x.length = 32

variable {sha256}

/-- One level keeps a list of entries of one length `n` a list of entries of
one length: that of a digest of `2 * n` bytes. -/
theorem nextLevel_length_eq
    (hunif : ∀ u v : Bytes, u.length = v.length →
      (doubleSha256 sha256 u).length = (doubleSha256 sha256 v).length)
    {n : Nat} {xs : List Bytes} (hxs : ∀ x ∈ xs, x.length = n) :
    ∀ d ∈ nextLevel sha256 xs,
      d.length = (doubleSha256 sha256 (List.replicate (2 * n) 0)).length := by
  induction xs using nextLevel.induct sha256 with
  | case1 => simp [nextLevel]
  | case2 x =>
    simp only [nextLevel, List.mem_singleton, forall_eq]
    exact hunif _ _ (by simp [hxs x (by simp)]; omega)
  | case3 x y rest ih =>
    simp only [nextLevel, List.mem_cons, forall_eq_or_imp]
    exact ⟨hunif _ _ (by simp [hxs x (by simp), hxs y (by simp)]; omega),
      ih fun z hz => hxs z (by simp [hz])⟩

/-- One level: with an injective pair hash, two lists of one length whose
entries all have one length and whose next levels agree are equal. -/
theorem nextLevel_inj (hinj : Function.Injective (doubleSha256 sha256)) {n : Nat} :
    ∀ {xs ys : List Bytes}, xs.length = ys.length → (∀ x ∈ xs, x.length = n) →
      (∀ y ∈ ys, y.length = n) → nextLevel sha256 xs = nextLevel sha256 ys → xs = ys
  | [], [], _, _, _, _ => rfl
  | [x], [y], _, hx, hy, h => by
    simp only [nextLevel, List.cons.injEq, and_true] at h
    rw [(List.append_inj (hinj h) (by rw [hx x (by simp), hy y (by simp)])).1]
  | x :: x' :: xs, y :: y' :: ys, hl, hx, hy, h => by
    simp only [nextLevel, List.cons.injEq, List.length_cons] at h hl
    obtain ⟨rfl, rfl⟩ := List.append_inj (hinj h.1) (by rw [hx x (by simp), hy y (by simp)])
    rw [nextLevel_inj hinj (by omega) (fun z hz => hx z (by simp [hz]))
      (fun z hz => hy z (by simp [hz])) h.2]
  | [], _ :: _, hl, _, _, _ | _ :: _, [], hl, _, _, _
  | [_], _ :: _ :: _, hl, _, _, _ | _ :: _ :: _, [_], hl, _, _, _ => by simp at hl

/-- **Binding among lists of one length**: with an injective `double_sha256`
whose digest length depends only on the input length, two nonempty lists of
one length whose entries all have one length and whose roots agree are
equal. -/
theorem calculateMerkleRoot_inj (hinj : Function.Injective (doubleSha256 sha256))
    (hunif : ∀ u v : Bytes, u.length = v.length →
      (doubleSha256 sha256 u).length = (doubleSha256 sha256 v).length) :
    ∀ {xs : List Bytes} {n : Nat} {ys : List Bytes}, xs ≠ [] → xs.length = ys.length →
      (∀ x ∈ xs, x.length = n) → (∀ y ∈ ys, y.length = n) →
      calculateMerkleRoot sha256 xs = calculateMerkleRoot sha256 ys → xs = ys := by
  intro xs
  induction xs using calculateMerkleRoot.induct sha256 with
  | case1 => intro _ _ h; exact absurd rfl h
  | case2 x =>
    intro _ ys _ hl _ _ h
    match ys, hl with
    | [y], _ => simp only [calculateMerkleRoot_singleton] at h; exact h ▸ rfl
  | case3 a b rest ih =>
    intro n ys _ hl hx hy h
    have hys : 2 ≤ ys.length := by simp at hl; omega
    rw [calculateMerkleRoot_of_two_le sha256 (by simp),
      calculateMerkleRoot_of_two_le sha256 hys] at h
    -- one level up, both lists still have one length and entries of one length
    exact nextLevel_inj hinj hl hx hy (@ih _ (nextLevel sha256 ys) (by simp [nextLevel])
      (by simp [hl]) (nextLevel_length_eq hunif hx) (nextLevel_length_eq hunif hy) h)

/-- **What the root binds**: for a `double_sha256` that is injective with a
digest length depending only on the input length, lists of 32-byte ids of one
length with one root are equal; across lengths the root binds nothing more,
for every hash, since a repeated last id on a list of odd length `≥ 3` leaves
it unchanged. -/
theorem calculateMerkleRoot_binds_same_length :
    (∀ sha256 : Bytes → Bytes, Function.Injective (doubleSha256 sha256) →
      (∀ u v : Bytes, u.length = v.length →
        (doubleSha256 sha256 u).length = (doubleSha256 sha256 v).length) →
      ∀ xs ys : List Bytes, xs ≠ [] → xs.length = ys.length → IsIdList xs → IsIdList ys →
        calculateMerkleRoot sha256 xs = calculateMerkleRoot sha256 ys → xs = ys) ∧
    (∀ (sha256 : Bytes → Bytes) (init : List Bytes) (c : Bytes), init.length % 2 = 0 →
      2 ≤ init.length →
      calculateMerkleRoot sha256 (init ++ [c, c]) = calculateMerkleRoot sha256 (init ++ [c])) :=
  ⟨fun _ hinj hunif _ _ hne hl hx hy => calculateMerkleRoot_inj hinj hunif hne hl hx hy,
    fun sha256 _ c => calculateMerkleRoot_append_last sha256 c⟩

theorem calculateMerkleRoot_binds_same_length_id :
    Function.Injective (doubleSha256 id) ∧
      (∀ u v : Bytes, u.length = v.length →
        (doubleSha256 id u).length = (doubleSha256 id v).length) ∧
      ∀ xs ys : List Bytes, xs ≠ [] → xs.length = ys.length → IsIdList xs → IsIdList ys →
        calculateMerkleRoot id xs = calculateMerkleRoot id ys → xs = ys :=
  ⟨fun _ _ h => h, fun _ _ h => h,
    calculateMerkleRoot_binds_same_length.1 id (fun _ _ h => h) fun _ _ h => h⟩

/-- A `sha256` with the constant all-zero digest. -/
def zeroHash (_ : Bytes) : Bytes := List.replicate 32 0

end Merkle

end PussycoinGenesis
