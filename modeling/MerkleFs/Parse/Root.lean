import MerkleFs.Parse.Stored

/-!
# Calculating the root again

`root_calculation` hashes the inner nodes of a tree again, the last one first, and writes the tree
to a string.  It reads the hashes of the leaves only, so that it repairs whatever has become of the
others.

* `rootCalculation` : `root_calculation`.
* `rootCalculation_eq` : what it returns when all leaves have their hashes.
* `rootCalculation_of_gives` : it turns the stored tree of a file, with any hashes in the inner
  nodes, back into the string of the file.
* `rootCalculation_eq_self_iff` : a stored tree comes back as it was exactly when its inner nodes
  are hashed from their children.
* `rootCalculation_fails_iff` : it fails exactly when a leaf has no hash.
-/

namespace MerkleFs

variable (sha3 : List Byte → Digest) (heap : Heap)

/-- `root_calculation`.  (Its buffer is as large as those of `compute_merkle`.) -/
def rootCalculation (mt : MerkleTree) : Run Outcome := do
  let leafStartIndex ← shl1 (mt.treeHeight - 1)
  let (code, mt) ←
    hashAll (rehashNode sha3 heap) (List.range' 1 (leafStartIndex - 1)).reverse mt
  if code = -1 then return ⟨-1, mt, .unset⟩
  else do
    let s ← treeToString mt
    return ⟨0, mt, .string s⟩

/-- Every inner node of a tree with `h` levels is hashed from its children. -/
def ParentsHashed (h : ℕ) (τ : ℕ → CStr) : Prop :=
  ∀ i, 1 ≤ i → i < 2 ^ (h - 1) → τ i = parentHash sha3 heap i (τ (2 * i)) (τ (2 * i + 1))

variable {sha3 heap} {mt : MerkleTree} {h i j n : ℕ} {τ τ' : ℕ → CStr} {c : List Byte} {s : CStr}

theorem exists_parentsHashed (sha3 : List Byte → Digest) (heap : Heap) (h : ℕ) (τ : ℕ → CStr) :
    ∃ σ, ParentsHashed sha3 heap h σ ∧ ∀ i, 2 ^ (h - 1) ≤ i → i < 2 ^ h → σ i = τ i := by
  have hσ := BinTree.solves_solution (h := h) τ (parentHash sha3 heap)
  exact ⟨_, hσ.inner, hσ.leaf⟩

theorem ParentsHashed.eq (hh : 1 ≤ h) (hτ : ParentsHashed sha3 heap h τ)
    (hσ : ParentsHashed sha3 heap h τ')
    (hleaf : ∀ i, 2 ^ (h - 1) ≤ i → i < 2 ^ h → τ i = τ' i) (hi : 1 ≤ i) (hi' : i < 2 ^ h) :
    τ i = τ' i := by
  have hsolves : BinTree.Solves h τ (parentHash sha3 heap) τ := ⟨fun _ _ _ => rfl, hτ⟩
  have hsolves' : BinTree.Solves h τ (parentHash sha3 heap) τ' :=
    ⟨fun j hj hj' => (hleaf j hj hj').symm, hσ⟩
  exact hsolves.unique hh hsolves' i hi hi'

theorem ParentsHashed.isHash (hτ : ParentsHashed sha3 heap h τ)
    (hleaf : ∀ i, 2 ^ (h - 1) ≤ i → i < 2 ^ h → IsHash (τ i)) (hi : 1 ≤ i) (hi' : i < 2 ^ h) :
    IsHash (τ i) := by
  rcases Nat.lt_or_ge i (2 ^ (h - 1)) with hlt | hge
  · rw [hτ i hi hlt]
    exact isHash_printDigest _
  · exact hleaf i hge hi'

/-! ### The loop -/

/-- The loop hashes all inner nodes. -/
theorem hashAll_parentsHashed (hs : Shape h mt) (hheap : heap.Terminated h)
    (hτ : ParentsHashed sha3 heap h τ)
    (hleaf : Settled τ {i | 2 ^ (h - 1) ≤ i ∧ i < 2 ^ h} mt) :
    hashAll (rehashNode sha3 heap) (List.range' 1 (2 ^ (h - 1) - 1)).reverse mt =
      .ok (0, mt.setHashes τ (List.range' 1 (2 ^ (h - 1) - 1)).reverse) := by
  have hp := BinTree.two_pow_pred hs.pos
  have hpos := Nat.two_pow_pos (h - 1)
  have hinner : ∀ i ∈ (List.range' 1 (2 ^ (h - 1) - 1)).reverse, i < 2 ^ (h - 1) := by
    intro i hi
    rw [List.mem_reverse, List.mem_range'_1] at hi
    omega
  have hstep : ∀ i ∈ (List.range' 1 (2 ^ (h - 1) - 1)).reverse,
      StepsTo h (fun _ => .nil) τ (rehashNode sha3 heap) i := by
    intro i hi
    refine rehashNode_stepsTo_of (hashNode_stepsTo_of ?_ fun hi₁ hi₂ =>
      ⟨hheap i hi₁ hi₂, hτ i hi₁ hi₂⟩)
    intro hge
    exact absurd (hinner i hi) (not_lt.2 hge)
  refine hashAll_of_bottomUp hstep hs hleaf
    (BinTree.bottomUp_descending hs.pos (by omega) fun i hi hi' => ⟨by omega, hi'⟩) ?_
  intro i hi hge
  exact absurd (hinner i hi) (not_lt.2 hge)

theorem settled_parentsHashed
    (hleaf : Settled τ {i | 2 ^ (h - 1) ≤ i ∧ i < 2 ^ h} mt) :
    Settled τ (BinTree.Nodes h) (mt.setHashes τ (List.range' 1 (2 ^ (h - 1) - 1)).reverse) := by
  intro i ⟨hi, hi'⟩
  rw [MerkleTree.setHashes_hash]
  split_ifs with hmem
  · rfl
  · rw [List.mem_reverse, List.mem_range'_1] at hmem
    exact hleaf i ⟨by omega, hi'⟩

/-- The loop meets a node with a child that has no hash. -/
theorem hashAll_missing (sha3 : List Byte → Digest) (hs : Shape h mt) (hheap : heap.Terminated h)
    (hn : n < 2 ^ (h - 1)) (hj : 2 ^ (h - 1) ≤ j) (hjn : 1 ≤ j / 2 ∧ j / 2 ≤ n)
    (hmissing : (mt.nodes j).hash = none) :
    ∃ mt', hashAll (rehashNode sha3 heap) (List.range' 1 n).reverse mt = .ok (-1, mt') := by
  have hp := BinTree.two_pow_pred hs.pos
  induction n generalizing mt with
  | zero => exact absurd hjn.2 (by omega)
  | succ n ih =>
    rw [BinTree.reverse_range'_succ, hashAll]
    have hchild : ∀ k, k ≠ n + 1 → ((mt.setHash (n + 1) none).nodes k).hash = (mt.nodes k).hash :=
      fun k hk => MerkleTree.setHash_hash_of_ne hk
    have hrun : rehashNode sha3 heap mt (n + 1) =
        hashNode sha3 heap (mt.setHash (n + 1) none) (n + 1) := rfl
    cases hl : (mt.nodes (2 * (n + 1))).hash with
    | none =>
      refine ⟨mt.setHash (n + 1) none, ?_⟩
      rw [hrun, hashNode, if_neg (by rw [hs.setHash.nbNodes]; omega), hs.setHash.shl1_eq,
        Run.ok_bind, if_pos hn, hchild _ (by omega), hl]
      exact orFail_fail
    | some l =>
      cases hr : (mt.nodes (2 * (n + 1) + 1)).hash with
      | none =>
        refine ⟨mt.setHash (n + 1) none, ?_⟩
        rw [hrun, hashNode, if_neg (by rw [hs.setHash.nbNodes]; omega), hs.setHash.shl1_eq,
          Run.ok_bind, if_pos hn, hchild _ (by omega), hchild _ (by omega), hl, hr]
        exact orFail_fail
      | some r =>
        -- the node is hashed, so that it is not above the leaf without a hash
        have hne : j / 2 ≠ n + 1 := by
          intro heq
          rcases Nat.mod_two_eq_zero_or_one j with hm | hm
          · rw [show 2 * (n + 1) = j by omega, hmissing] at hl
            cases hl
          · rw [show 2 * (n + 1) + 1 = j by omega, hmissing] at hr
            cases hr
        rw [hrun, hashNode_inner hs.setHash hn ((hchild _ (by omega)).trans hl)
          ((hchild _ (by omega)).trans hr) (hheap _ (by omega) hn), orFail_ok]
        refine ih hs.setHash.setHash (by omega) ⟨hjn.1, by omega⟩ ?_
        rw [MerkleTree.setHash_hash_of_ne (by omega), hchild _ (by omega), hmissing]

/-! ### The function -/

/-- **It needs the hashes of the leaves only.** -/
theorem rootCalculation_eq (hs : Shape h mt) (hh : h ≤ 23) (hheap : heap.Terminated h)
    (hτ : ParentsHashed sha3 heap h τ)
    (hleaf : ∀ i, 2 ^ (h - 1) ≤ i → i < 2 ^ h → (mt.nodes i).hash = some (τ i) ∧ IsHash (τ i)) :
    ∃ mt', rootCalculation sha3 heap mt = .ok ⟨0, mt', .string (treeString (2 ^ h) τ)⟩ := by
  have hpow : 2 ^ h ≤ 2 ^ 23 := Nat.pow_le_pow_right Nat.two_pos hh
  have hsettled : Settled τ {i | 2 ^ (h - 1) ≤ i ∧ i < 2 ^ h} mt :=
    fun i hi => (hleaf i hi.1 hi.2).1
  have hD := settled_parentsHashed hsettled
  have hs' := hs.setHashes τ (List.range' 1 (2 ^ (h - 1) - 1)).reverse
  have hstring : treeToString (mt.setHashes τ (List.range' 1 (2 ^ (h - 1) - 1)).reverse) =
      .ok (treeString (2 ^ h) τ) := by
    rw [← hs'.nbNodes]
    refine treeToString_eq ?_ ?_ ?_ ?_
    · rw [hs'.nbNodes]
      exact Nat.one_le_two_pow
    · rw [hs'.nbNodes]
      unfold INT_MAX
      omega
    · intro i hi hi'
      rw [hs'.nbNodes] at hi'
      exact hD i ⟨hi, hi'⟩
    · intro i hi hi'
      rw [hs'.nbNodes] at hi'
      exact hτ.isHash (fun i hi hi' => (hleaf i hi hi').2) hi hi'
  refine ⟨mt.setHashes τ (List.range' 1 (2 ^ (h - 1) - 1)).reverse, ?_⟩
  rw [rootCalculation, hs.shl1_eq, Run.ok_bind, hashAll_parentsHashed hs hheap hτ hsettled,
    Run.ok_bind]
  simp only [if_neg (show (0 : ℤ) ≠ -1 by decide), hstring, Run.ok_bind]
  rfl

/-- **It fails exactly when a leaf has no hash.**  A tree without inner nodes has nothing to fail
at. -/
theorem rootCalculation_fails_iff (hs : Shape h mt) (hh : 2 ≤ h) (hheap : heap.Terminated h) :
    (∃ mt', rootCalculation sha3 heap mt = .ok ⟨-1, mt', .unset⟩) ↔
      ∃ i, 2 ^ (h - 1) ≤ i ∧ i < 2 ^ h ∧ (mt.nodes i).hash = none := by
  have hpow : 2 ^ 1 ≤ 2 ^ (h - 1) := Nat.pow_le_pow_right Nat.two_pos (by omega)
  constructor
  · rintro ⟨mt', hrun⟩
    by_contra hnone
    have hall : ∀ i, 2 ^ (h - 1) ≤ i → i < 2 ^ h → ∃ s, (mt.nodes i).hash = some s := by
      intro i hi hi'
      cases hhash : (mt.nodes i).hash with
      | none => exact absurd ⟨i, hi, hi', hhash⟩ hnone
      | some s => exact ⟨s, rfl⟩
    obtain ⟨σ, hσ, hleaf⟩ :=
      exists_parentsHashed sha3 heap h fun i => (mt.nodes i).hash.getD .nil
    have hsettled : Settled σ {i | 2 ^ (h - 1) ≤ i ∧ i < 2 ^ h} mt := by
      intro i ⟨hi, hi'⟩
      obtain ⟨s, hhash⟩ := hall i hi hi'
      rw [hleaf i hi hi', hhash]
      rfl
    rw [rootCalculation, hs.shl1_eq, Run.ok_bind, hashAll_parentsHashed hs hheap hσ hsettled,
      Run.ok_bind] at hrun
    simp only [if_neg (show (0 : ℤ) ≠ -1 by decide)] at hrun
    obtain ⟨s, -, hrun⟩ := Run.bind_eq_ok.1 hrun
    cases hrun
  · rintro ⟨j, hj, hj', hmissing⟩
    have hp := BinTree.two_pow_pred hs.pos
    obtain ⟨mt', hrun⟩ := hashAll_missing sha3 hs hheap (n := 2 ^ (h - 1) - 1) (by omega) hj
      ⟨by omega, by omega⟩ hmissing
    refine ⟨mt', ?_⟩
    rw [rootCalculation, hs.shl1_eq, Run.ok_bind, hrun, Run.ok_bind]
    rfl

theorem rootCalculation_fails_three : ∃ mt', rootCalculation (fun _ => zeroDigest) .nul
    ((hashTree (2 ^ 2) 2 fun _ => printDigest zeroDigest).setHash 3 none) =
      .ok ⟨-1, mt', .unset⟩ := by
  have hs : Shape 2 (hashTree (2 ^ 2) 2 fun _ => printDigest zeroDigest) :=
    ⟨by decide, by decide, hashTree_nbNodes, hashTree_treeHeight⟩
  exact (rootCalculation_fails_iff hs.setHash le_rfl Heap.terminated_nul).2
    ⟨3, by decide, by decide, MerkleTree.setHash_hash_self⟩

/-! ### Stored trees -/

/-- **A stored tree comes back as it was** exactly when its inner nodes are hashed from their
children. -/
theorem rootCalculation_eq_self_iff (hh : 1 ≤ h) (hh' : h ≤ 23) (hheap : heap.Terminated h)
    (hτ : ∀ i, 1 ≤ i → i < 2 ^ h → IsHash (τ i))
    (hread : stringToTree (treeString (2 ^ h) τ) = .ok mt) :
    (∃ mt', rootCalculation sha3 heap mt = .ok ⟨0, mt', .string (treeString (2 ^ h) τ)⟩) ↔
      ParentsHashed sha3 heap h τ := by
  rw [stringToTree_treeString hh hτ] at hread
  cases hread
  have hpos := Nat.two_pow_pos (h - 1)
  have hs : Shape h (hashTree (2 ^ h) h τ) := ⟨hh, by omega, hashTree_nbNodes, hashTree_treeHeight⟩
  obtain ⟨σ, hσ, hleaf⟩ := exists_parentsHashed sha3 heap h τ
  have hhash : ∀ i, 2 ^ (h - 1) ≤ i → i < 2 ^ h →
      ((hashTree (2 ^ h) h τ).nodes i).hash = some (σ i) ∧ IsHash (σ i) := by
    intro i hi hi'
    rw [hleaf i hi hi']
    exact ⟨hashTree_hash (by omega) hi', hτ i (by omega) hi'⟩
  obtain ⟨mt₁, hrun⟩ := rootCalculation_eq hs hh' hheap hσ hhash
  constructor
  · rintro ⟨mt', hrun'⟩
    rw [hrun] at hrun'
    have hstring := Result.string.inj (congrArg Outcome.result (Except.ok.inj hrun'))
    obtain ⟨-, heq⟩ := treeString_inj hh hh
      (fun j hj hj' => hσ.isHash (fun i hi hi' => (hhash i hi hi').2) hj hj') hτ hstring
    have hp := BinTree.two_pow_pred hh
    intro i hi hi'
    rw [← heq i hi (by omega), ← heq (2 * i) (by omega) (by omega),
      ← heq (2 * i + 1) (by omega) (by omega)]
    exact hσ i hi hi'
  · intro hall
    have hstring : treeString (2 ^ h) σ = treeString (2 ^ h) τ :=
      treeString_congr fun j hj hj' => hσ.eq hh hall hleaf hj hj'
    exact ⟨mt₁, by rw [hrun, hstring]⟩

theorem rootCalculation_eq_self_zero : ∃ mt mt', stringToTree
      (treeString (2 ^ 2) fun _ => printDigest zeroDigest) = .ok mt ∧
    rootCalculation (fun _ => zeroDigest) .nul mt =
      .ok ⟨0, mt', .string (treeString (2 ^ 2) fun _ => printDigest zeroDigest)⟩ := by
  have hread := stringToTree_treeString (h := 2) (τ := fun _ => printDigest zeroDigest) (by decide)
    fun _ _ _ => isHash_printDigest zeroDigest
  have hself : ParentsHashed (fun _ => zeroDigest) .nul 2 fun _ => printDigest zeroDigest :=
    fun _ _ _ => rfl
  obtain ⟨mt', hrun⟩ := (rootCalculation_eq_self_iff (by decide) (by decide) Heap.terminated_nul
    (fun _ _ _ => isHash_printDigest zeroDigest) hread).2 hself
  exact ⟨_, mt', hread, hrun⟩

end MerkleFs
