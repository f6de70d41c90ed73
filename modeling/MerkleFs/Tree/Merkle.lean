import MerkleFs.Tree.Build

/-!
# The Merkle invariant

What `build_tree` is for: on an array laid out for `2^(h-1)` pages it returns `0` and leaves a tree
in which every leaf holds its page and the printed digest of the page, and every inner node the
printed digest of 32 characters of each child hash; on an array that ends early it returns `-1`.

`buildsMerkleTree` proves this for every array in which the slots of all pages have `int` indexes
(`not_buildsMerkleTree_largePages`).
-/

namespace MerkleFs

/-- A page: a string of at most `PAGE_LENGTH` bytes, and not empty. -/
def IsPage (p : CStr) : Prop := p ≠ .nil ∧ p.strlen ≤ PAGE_LENGTH

/-- The Merkle tree with `h` levels over the pages `ps`. -/
structure IsMerkleTree (sha3 : List Byte → Digest) (h : ℕ) (ps : List CStr) (mt : MerkleTree) :
    Prop where
  /-- The number of nodes. -/
  nbNodes : mt.nbNodes = 2 ^ h
  /-- A leaf holds its page, and the hash of the page. -/
  leaf : ∀ j p, ps[j]? = some p → (mt.nodes (2 ^ (h - 1) + j)).data = some p ∧
    (mt.nodes (2 ^ (h - 1) + j)).hash = some (leafHash sha3 p)
  /-- An inner node holds the hash of what its children hold. -/
  inner : ∀ i, 1 ≤ i → i < 2 ^ (h - 1) → ∃ l r, (mt.nodes (2 * i)).hash = some l ∧
    (mt.nodes (2 * i + 1)).hash = some r ∧
    (mt.nodes i).hash = some (printDigest (sha3 (l.bytes.take 32 ++ r.bytes.take 32)))
  /-- Hashes have 32 to 64 characters. -/
  strlen : ∀ i, 1 ≤ i → i < 2 ^ h →
    ∃ s, (mt.nodes i).hash = some s ∧ 32 ≤ s.strlen ∧ s.strlen ≤ 64

/-- What `build_tree` does with the array `datas`. -/
structure BuildsMerkleTree (sha3 : List Byte → Digest) (heap : Heap) (h : ℕ) (mt : MerkleTree)
    (datas : ℕ → Ptr) : Prop where
  /-- It builds the Merkle tree of the pages it finds. -/
  builds : ∀ ps, Layout datas 0 ps → ps.length = 2 ^ (h - 1) → (∀ p ∈ ps, IsPage p) →
    total ps.dropLast ≤ INT_MAX →
      ∃ mt', buildTree sha3 heap mt datas = .ok (0, mt') ∧ IsMerkleTree sha3 h ps mt'
  /-- It returns `-1` when it meets a NULL slot. -/
  null : ∀ ps, Layout datas 0 ps → ps.length < 2 ^ (h - 1) → (∀ p ∈ ps, IsPage p) →
    total ps ≤ INT_MAX → (datas (total ps)).str = none →
      ∃ mt', buildTree sha3 heap mt datas = .ok (-1, mt')
  /-- It does not return `-1` otherwise. -/
  onlyNull : ∀ mt', buildTree sha3 heap mt datas = .ok (-1, mt') →
    ∃ ps, Layout datas 0 ps ∧ ps.length < 2 ^ (h - 1) ∧ (datas (total ps)).str = none

variable {sha3 : List Byte → Digest} {heap : Heap} {mt mt' : MerkleTree} {h i : ℕ}
  {ps : List CStr} {τ : ℕ → CStr} {datas : ℕ → Ptr}

theorem IsPage.room {p : CStr} (hp : IsPage p) : 1 + p.strlen ≤ PTR_SIZE * 2 * PAGE_LENGTH := by
  have hlen := hp.2
  unfold PTR_SIZE PAGE_LENGTH at *
  omega

theorem fits_of_isPage (hps : ∀ p ∈ ps, IsPage p) (hint : total ps.dropLast ≤ INT_MAX) :
    Fits 0 ps :=
  fits_iff.2 ⟨fun p hp => (hps p hp).room, .inr (by rwa [Nat.zero_add])⟩

/-! ### The blocks that are hashed -/

theorem mem_tail (hheap : heap.concatTail i 0 = 0) : 0 ∈ heap.tail i :=
  List.mem_map.2 ⟨0, List.mem_range.2 (by decide), hheap⟩

theorem bytes_concat_of_nul {l r : CStr} (hheap : heap.concatTail i 0 = 0) (hl : 32 ≤ l.strlen)
    (hr : 32 ≤ r.strlen) : (concat heap i l r).bytes = l.bytes.take 32 ++ r.bytes.take 32 := by
  have htail : heap.tail i = [] ++ 0 :: (heap.tail i).tail := by
    obtain ⟨n, hn⟩ : ∃ n,
        PTR_SIZE * 2 * HASH_SIZE / BYTE_SIZE - 2 * (HASH_SIZE / BYTE_SIZE) = n + 1 := ⟨447, rfl⟩
    rw [Heap.tail, hn, List.range_succ_eq_map, List.map_cons, hheap]
    rfl
  rw [bytes_concat hl hr, htail, CStr.ofBlock_append_zero List.not_mem_nil, List.append_nil]

theorem strlen_target_le {leaf : ℕ → CStr} (hτ : Target sha3 heap h leaf τ) (hi : 1 ≤ i)
    (hi' : i < 2 ^ h) : (τ i).strlen ≤ 64 := by
  rcases Nat.lt_or_ge i (2 ^ (h - 1)) with hlt | hge
  · rw [hτ.inner i hi hlt]
    exact (strlen_printDigest _).2
  · rw [hτ.leaf i hge hi', leafHash]
    split_ifs
    · decide
    · exact (strlen_printDigest _).2

/-! ### The tree that is built -/

/-- The built tree is the Merkle tree of its pages. -/
theorem isMerkleTree_builtTree (hh : 1 ≤ h)
    (hheap : ∀ i, 1 ≤ i → i < 2 ^ (h - 1) → heap.concatTail i 0 = 0) (hps : ps.length = 2 ^ (h - 1))
    (hτ : Target sha3 heap h (leafAt (2 ^ (h - 1)) ps) τ) :
    IsMerkleTree sha3 h ps (builtTree h (leafAt (2 ^ (h - 1)) ps) τ) where
  nbNodes := rfl
  leaf j p hp := by
    have hpow := BinTree.two_pow_pred hh
    have hj : j < ps.length := (List.getElem?_eq_some_iff.1 hp).1
    have hleaf : leafAt (2 ^ (h - 1)) ps (2 ^ (h - 1) + j) = p := by
      rw [leafAt_add, hp, Option.getD_some]
    have hpos := Nat.two_pow_pos (h - 1)
    refine ⟨(if_pos ⟨by omega, by omega⟩).trans (by rw [hleaf]), ?_⟩
    refine (if_pos ⟨by omega, by omega⟩).trans ?_
    rw [hτ.leaf _ (by omega) (by omega), hleaf]
  inner i hi hi' := by
    have hpow := BinTree.two_pow_pred hh
    refine ⟨τ (2 * i), τ (2 * i + 1), if_pos ⟨by omega, by omega⟩, if_pos ⟨by omega, by omega⟩, ?_⟩
    refine (if_pos ⟨hi, by omega⟩).trans ?_
    rw [hτ.inner i hi hi', parentHash, bytes_concat_of_nul (hheap i hi hi')
      (strlen_target hτ (by omega) (by omega)) (strlen_target hτ (by omega) (by omega))]
  strlen i hi hi' :=
    ⟨τ i, if_pos ⟨hi, hi'⟩, strlen_target hτ hi hi', strlen_target_le hτ hi hi'⟩

theorem walk_of_buildTree (hh : 1 ≤ h) (hh' : h ≤ 30) (hmt : mt.treeHeight = h)
    (hheap : heap.Terminated h) (hb : buildTree sha3 heap mt datas = .ok (-1, mt')) :
    walk datas (2 ^ (h - 1)) 0 = none := by
  have hp := BinTree.two_pow_pred hh
  rw [buildTree, hmt, shl1_sub_one hh (by omega), shl1_natCast hh'] at hb
  simp only [Run.ok_bind, show 2 ^ h - 2 ^ (h - 1) = 2 ^ (h - 1) by omega] at hb
  obtain ⟨⟨code, mt₁⟩, hleaves, -⟩ := Run.bind_eq_ok.1 hb
  rcases buildLeaves_eq_ok (k := 0) (Nat.zero_le _) (shape_blank hh hh') le_rfl (by omega)
      hleaves with
    ⟨-, hw⟩ | ⟨rfl, ss, hw, -, rfl⟩
  · exact hw
  · -- the internal loop does not fail
    obtain ⟨τ, hτ⟩ := exists_target sha3 heap h (leafAt (2 ^ (h - 1)) ss)
    rw [hleaves, orFail_ok, hashAll_setLeaves hh hh' hheap (length_of_walk hw) hτ] at hb
    cases hb

/-- **`build_tree` establishes the Merkle invariant.** -/
theorem buildsMerkleTree (hh : 1 ≤ h) (hh' : h ≤ 30) (hmt : mt.treeHeight = h)
    (hheap : ∀ i, 1 ≤ i → i < 2 ^ (h - 1) → heap.concatTail i 0 = 0) :
    BuildsMerkleTree sha3 heap h mt datas where
  builds ps hl hlen hps hint := by
    obtain ⟨τ, hτ⟩ := exists_target sha3 heap h (leafAt (2 ^ (h - 1)) ps)
    exact ⟨_, buildTree_of_walk mt hh hh' hmt (fun i hi hi' => mem_tail (hheap i hi hi'))
      (fits_of_isPage hps hint) (walk_eq_some_iff.2 ⟨hl, hlen⟩) hτ,
      isMerkleTree_builtTree hh hheap hlen hτ⟩
  null ps hl hlen hps hint hnull :=
    buildTree_of_null sha3 heap mt hh hh' hmt (fun p hp => (hps p hp).room) hint hl hlen hnull
  onlyNull mt' hb := by
    have hw := walk_of_buildTree hh hh' hmt (fun i hi hi' => mem_tail (hheap i hi hi')) hb
    simpa using walk_eq_none_iff.1 hw

/-! ### Small trees -/

/-- The array that holds the strings `ps` at `strlen` strides. -/
def arrayOf : List CStr → ℕ → Ptr
  | [], _ => .null
  | p :: ps, k =>
    if k = 0 then .heap p else if k < p.strlen then .null else arrayOf ps (k - p.strlen)

theorem layout_of_arrayOf {k : ℕ} (hps : ∀ p ∈ ps, p ≠ .nil)
    (hdatas : ∀ j, datas (k + j) = arrayOf ps j) : Layout datas k ps := by
  induction ps generalizing k with
  | nil => trivial
  | cons p ps ih =>
    have hlen : 0 < p.strlen := Nat.pos_of_ne_zero fun h0 =>
      hps p List.mem_cons_self (CStr.strlen_eq_zero.1 h0)
    refine ⟨by rw [← Nat.add_zero k, hdatas]; rfl,
      ih (fun q hq => hps q (List.mem_cons_of_mem _ hq)) fun j => ?_⟩
    rw [Nat.add_assoc, hdatas, arrayOf, if_neg (by omega), if_neg (by omega),
      Nat.add_sub_cancel_left]

theorem layout_arrayOf (hps : ∀ p ∈ ps, p ≠ .nil) : Layout (arrayOf ps) 0 ps :=
  layout_of_arrayOf hps fun j => by rw [Nat.zero_add]

theorem exists_builtTree (sha3 : List Byte → Digest) (hh : 1 ≤ h) (hh' : h ≤ 30)
    (hl : Layout datas 0 ps) (hlen : ps.length = 2 ^ (h - 1)) (hfit : Fits 0 ps) :
    ∃ τ, Target sha3 .nul h (leafAt (2 ^ (h - 1)) ps) τ ∧ buildTree sha3 .nul (.blank 0 h) datas =
      .ok (0, builtTree h (leafAt (2 ^ (h - 1)) ps) τ) := by
  obtain ⟨τ, hτ⟩ := exists_target sha3 .nul h (leafAt (2 ^ (h - 1)) ps)
  exact ⟨τ, hτ, buildTree_of_walk _ hh hh' rfl Heap.terminated_nul hfit
    (walk_eq_some_iff.2 ⟨hl, hlen⟩) hτ⟩

/-- The page `a`. -/
def pageA : CStr := .ofString "a" (by decide)

/-- The page `bc`. -/
def pageBC : CStr := .ofString "bc" (by decide)

/-- Four pages. -/
def fourPages : List CStr := [pageA, pageBC, filler, pageBC]

theorem isPage_fourPages : ∀ p ∈ fourPages, IsPage p := by
  unfold IsPage
  decide

theorem layout_fourPages : Layout (arrayOf fourPages) 0 fourPages :=
  layout_arrayOf fun p hp => (isPage_fourPages p hp).1

theorem fits_fourPages : Fits 0 fourPages := fits_of_isPage isPage_fourPages (by decide)

/-- A hash function: the first byte of a string, repeated. -/
def firstByte (s : List Byte) : Digest :=
  ⟨List.replicate 32 (s.headD 0), by simp [HASH_SIZE, BYTE_SIZE]⟩

theorem buildsMerkleTree_fourPages :
    ∃ mt, buildTree firstByte .nul (.blank 0 3) (arrayOf fourPages) = .ok (0, mt) ∧
      IsMerkleTree firstByte 3 fourPages mt := by
  have hbuilds : BuildsMerkleTree firstByte .nul 3 (.blank 0 3) (arrayOf fourPages) :=
    buildsMerkleTree (by decide) (by decide) rfl fun _ _ _ => rfl
  exact hbuilds.builds fourPages layout_fourPages rfl isPage_fourPages (by decide)

/-! ### One page repeated -/

theorem layout_replicate (p : CStr) (n k : ℕ) :
    Layout (fun _ => .heap p) k (List.replicate n p) := by
  induction n generalizing k with
  | zero => trivial
  | succ n ih => exact ⟨rfl, ih _⟩

theorem total_replicate (p : CStr) (n : ℕ) : total (List.replicate n p) = n * p.strlen := by
  simp [total]

theorem fits_fillers (hh' : h ≤ 30) : Fits 0 (List.replicate (2 ^ (h - 1)) filler) := by
  have hpow : 2 ^ (h - 1) ≤ 2 ^ 29 := Nat.pow_le_pow_right (by norm_num) (by omega)
  refine fits_iff.2 ⟨fun p hp => ?_, .inr ?_⟩
  · rw [List.eq_of_mem_replicate hp]
    decide
  · have hone : filler.strlen = 1 := rfl
    rw [Nat.zero_add]
    refine (total_dropLast_le _).trans ?_
    rw [total_replicate, hone]
    unfold INT_MAX
    omega

/-! ### Large pages -/

/-- A full page. -/
def fullPage : CStr :=
  ⟨List.replicate PAGE_LENGTH (byteOf 'a'), fun h0 =>
    absurd (List.eq_of_mem_replicate h0) (by decide)⟩

theorem strlen_fullPage : fullPage.strlen = PAGE_LENGTH := List.length_replicate

theorem isPage_fullPage : IsPage fullPage := by
  refine ⟨fun h => ?_, strlen_fullPage.le⟩
  have hlen := congrArg CStr.strlen h
  rw [CStr.strlen_nil, strlen_fullPage] at hlen
  exact absurd hlen (by decide)

theorem not_total_fullPages_le :
    ¬ total (List.replicate (2 ^ 16) fullPage).dropLast ≤ INT_MAX := by
  rw [List.dropLast_replicate, total_replicate, strlen_fullPage]
  unfold PAGE_LENGTH INT_MAX
  norm_num

theorem fits_fullPages : Fits 0 (List.replicate (2 ^ 15) fullPage) := by
  refine fits_of_isPage (fun p hp => List.eq_of_mem_replicate hp ▸ isPage_fullPage) ?_
  rw [List.dropLast_replicate, total_replicate, strlen_fullPage]
  unfold PAGE_LENGTH INT_MAX
  norm_num

theorem not_walk_fullPages {ss : List CStr}
    (hw : walk (fun _ => .heap fullPage) (2 ^ (17 - 1)) 0 = some ss) :
    ¬ total ss.dropLast ≤ INT_MAX := by
  have hl := walk_eq_some_iff.2 ⟨layout_replicate fullPage (2 ^ 16) 0, List.length_replicate⟩
  obtain rfl := Option.some.inj (hl.symm.trans hw)
  exact not_total_fullPages_le

theorem not_buildsMerkleTree_largePages :
    ¬ ∀ (sha3 : List Byte → Digest) (heap : Heap) (h : ℕ) (mt : MerkleTree) (datas : ℕ → Ptr)
      (ps : List CStr), 1 ≤ h → h ≤ 30 → mt.treeHeight = h → (∀ i, heap.concatTail i 0 = 0) →
      Layout datas 0 ps → ps.length = 2 ^ (h - 1) → (∀ p ∈ ps, IsPage p) →
        ∃ mt', buildTree sha3 heap mt datas = .ok (0, mt') ∧ IsMerkleTree sha3 h ps mt' := by
  intro hall
  obtain ⟨mt', hb, -⟩ := hall (fun _ => zeroDigest) .nul 17 (.blank 0 17) _ _ (by decide)
    (by decide) rfl (fun _ => rfl) (layout_replicate fullPage (2 ^ 16) 0) List.length_replicate
    fun p hp => List.eq_of_mem_replicate hp ▸ isPage_fullPage
  obtain ⟨-, -, ss, τ, hw, hfit, -⟩ := buildTree_eq_ok (by decide) rfl hb
  exact not_walk_fullPages hw hfit.total_le

end MerkleFs
