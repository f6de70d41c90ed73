import MerkleFs.Parse.Quick
import MerkleFs.Tree.Merkle
import MerkleFs.Tree.Rebuild

/-!
# Growing a tree equals building the padded one

`get_bigger_tree` copies the hashes of the old leaves, adds as many filler leaves, and hashes the
inner nodes anew.  It never sees the old pages.

`grows_of_buildTree` : the tree it returns has the hashes that `build_tree` computes for the old
pages with filler pages behind them, whenever `build_tree` computes any.
-/

namespace MerkleFs

/-- `get_bigger_tree` grows `oldMt` by one level, into a tree with the hashes of `mt`. -/
def Grows (sha3 : List Byte → Digest) (heap : Heap) (h : ℕ) (oldMt mt : MerkleTree) : Prop :=
  ∃ newMt, getBiggerTree sha3 heap oldMt = .ok (0, newMt) ∧ newMt.treeHeight = h + 1 ∧
    newMt.nbNodes = 2 ^ (h + 1) ∧ SameHashes (h + 1) newMt mt

/-- The pages, and as many filler pages. -/
def padded (ps : List CStr) : List CStr := ps ++ List.replicate ps.length filler

variable {sha3 : List Byte → Digest} {heap heap₀ : Heap} {h i : ℕ} {ps : List CStr}
  {datas datas' : ℕ → Ptr} {mt mt' mt₀ mt₀' oldMt : MerkleTree} {τ τ' : ℕ → CStr}

theorem leafAt_padded_of_lt (n : ℕ) (hi : i < ps.length) :
    leafAt n (padded ps) (n + i) = leafAt n ps (n + i) := by
  rw [leafAt_add, leafAt_add, padded, List.getElem?_append_left hi]

theorem leafAt_padded_of_ge (n : ℕ) (hi : ps.length ≤ i) (hi' : i < 2 * ps.length) :
    leafAt n (padded ps) (n + i) = filler := by
  rw [leafAt_add, padded, List.getElem?_append_right hi, List.getElem?_replicate,
    if_pos (by omega), Option.getD_some]

theorem builtTree_hash {leaf : ℕ → CStr} (hi : 1 ≤ i) (hi' : i < 2 ^ h) :
    ((builtTree h leaf τ).nodes i).hash = some (τ i) := if_pos ⟨hi, hi'⟩

theorem leaf_eq_of_padded (hh : 1 ≤ h) (hps : ps.length = 2 ^ (h - 1))
    (hτ : Target sha3 heap₀ h (leafAt (2 ^ (h - 1)) ps) τ)
    (hτ' : Target sha3 heap (h + 1) (leafAt (2 ^ h) (padded ps)) τ') (hi : i < 2 ^ (h - 1)) :
    τ (2 ^ (h - 1) + i) = τ' (2 ^ h + i) := by
  have hp := BinTree.two_pow_pred hh
  have hp' : 2 ^ (h + 1) = 2 * 2 ^ h := by rw [pow_succ, mul_comm]
  have hleaf := hτ'.leaf (2 ^ h + i) (by rw [Nat.add_sub_cancel]; omega) (by omega)
  rw [hleaf, hτ.leaf _ (by omega) (by omega), leafAt_padded_of_lt _ (by omega), leafAt_add,
    leafAt_add]

/-- **Growing a tree equals building the padded one.** -/
theorem grows_of_buildTree (hh : 1 ≤ h) (hmt₀ : mt₀.treeHeight = h)
    (hmt₀' : mt₀'.treeHeight = h + 1) (hps : ps.length = 2 ^ (h - 1)) (hl : Layout datas 0 ps)
    (hl' : Layout datas' 0 (padded ps)) (hb : buildTree sha3 heap₀ mt₀ datas = .ok (0, mt))
    (hb' : buildTree sha3 heap mt₀' datas' = .ok (0, mt')) (hs : Shape h oldMt)
    (hold : SameHashes h oldMt mt) : Grows sha3 heap h oldMt mt' := by
  have hp := BinTree.two_pow_pred hh
  have hp' : 2 ^ (h + 1) = 2 * 2 ^ h := by rw [pow_succ, mul_comm]
  have hlen : (padded ps).length = 2 ^ h := by
    rw [padded, List.length_append, List.length_replicate, hps, hp, Nat.two_mul]
  obtain ⟨-, -, ss, τ, hw, -, hτ, rfl⟩ := buildTree_eq_ok hh hmt₀ hb
  obtain ⟨hh', hheap, ss', τ', hw', -, hτ', rfl⟩ := buildTree_eq_ok (by omega) hmt₀' hb'
  rw [Nat.add_sub_cancel] at hw' hτ'
  obtain rfl := Option.some.inj (hw.symm.trans (walk_eq_some_iff.2 ⟨hl, hps⟩))
  obtain rfl := Option.some.inj (hw'.symm.trans (walk_eq_some_iff.2 ⟨hl', hlen⟩))
  have hcopied : ∀ i < 2 ^ (h - 1), (oldMt.nodes (2 ^ (h - 1) + i)).hash = some (τ' (2 ^ h + i)) :=
    fun i hi => by
      rw [hold _ ⟨by omega, by omega⟩, builtTree_hash (by omega) (by omega),
        leaf_eq_of_padded hh hps hτ hτ' hi]
  have hfiller : ∀ j, 2 ^ h + 2 ^ (h - 1) ≤ j → j < 2 ^ (h + 1) →
      leafAt (2 ^ h) (padded ss) j = filler := fun j hj hj' => by
    have hleaf : leafAt (2 ^ h) (padded ss) (2 ^ h + (j - 2 ^ h)) = filler :=
      leafAt_padded_of_ge _ (by omega) (by omega)
    rwa [show 2 ^ h + (j - 2 ^ h) = j by omega] at hleaf
  obtain ⟨newMt, hnew, hshape, hsettled⟩ := getBiggerTree_eq hs hh' hheap hτ' hcopied hfiller
  exact ⟨newMt, hnew, hshape.treeHeight, hshape.nbNodes,
    hsettled.sameHashes fun i hi => builtTree_hash hi.1 hi.2⟩

/-! ### Small and large trees -/

theorem sameHashes_hashTree {leaf : ℕ → CStr} :
    SameHashes h (hashTree (2 ^ h) h τ) (builtTree h leaf τ) :=
  fun _ hi => (hashTree_hash hi.1 hi.2).trans (builtTree_hash hi.1 hi.2).symm

/-- Two pages. -/
def twoPages : List CStr := [pageA, pageBC]

theorem isPage_twoPages : ∀ p ∈ twoPages, IsPage p := by
  unfold IsPage
  decide

theorem isPage_padded : ∀ p ∈ padded twoPages, IsPage p := by
  unfold IsPage
  decide

theorem grows_twoPages : ∃ oldMt mt,
    buildTree firstByte .nul (.blank 0 3) (arrayOf (padded twoPages)) = .ok (0, mt) ∧
      Grows firstByte .nul 2 oldMt mt := by
  have hl := layout_arrayOf fun p hp => (isPage_twoPages p hp).1
  have hl' := layout_arrayOf fun p hp => (isPage_padded p hp).1
  obtain ⟨τ, -, hb⟩ := exists_builtTree firstByte (h := 2) (by decide) (by decide) hl rfl
    (fits_of_isPage isPage_twoPages (by decide))
  obtain ⟨τ', -, hb'⟩ := exists_builtTree firstByte (h := 3) (by decide) (by decide) hl' rfl
    (fits_of_isPage isPage_padded (by decide))
  exact ⟨_, _, hb', grows_of_buildTree (by decide) rfl rfl rfl hl hl' hb hb'
    ⟨by decide, by decide, hashTree_nbNodes, hashTree_treeHeight⟩ sameHashes_hashTree⟩

/-- A tree of height 30 is not grown. -/
theorem not_grows_height30 :
    ¬ ∀ (sha3 : List Byte → Digest) (heap : Heap) (h : ℕ) (ps : List CStr) (datas : ℕ → Ptr)
      (mt₀ mt oldMt : MerkleTree), 1 ≤ h → mt₀.treeHeight = h → ps.length = 2 ^ (h - 1) →
      (∀ p ∈ ps, IsPage p) → Layout datas 0 ps → buildTree sha3 heap mt₀ datas = .ok (0, mt) →
      Shape h oldMt → (∀ i, (oldMt.nodes i).data = none) → SameHashes h oldMt mt →
        ∃ newMt, getBiggerTree sha3 heap oldMt = .ok (0, newMt) := by
  intro hall
  have hl := layout_replicate filler (2 ^ (30 - 1)) 0
  obtain ⟨τ, -, hb⟩ := exists_builtTree (fun _ => zeroDigest) (h := 30) (by decide) (by decide) hl
    List.length_replicate (fits_fillers (by decide))
  obtain ⟨newMt, hnew⟩ := hall _ _ 30 _ _ _ _ (hashTree (2 ^ 30) 30 τ) (by decide) rfl
    List.length_replicate (fun p hp => List.eq_of_mem_replicate hp ▸ ⟨by decide, by decide⟩)
    hl hb
    ⟨by decide, by decide, hashTree_nbNodes, hashTree_treeHeight⟩ (fun _ => hashTree_data)
    sameHashes_hashTree
  rw [getBiggerTree, hashTree_treeHeight] at hnew
  cases hnew

end MerkleFs
