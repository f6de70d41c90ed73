import Mathlib.Order.Bounds.Basic
import MerkleFs.Parse.Compute

/-!
# The geometry of a tree

`compute_merkle` rounds the number of pages of a file up to a power of two, and takes the height of
the tree from its logarithm; `build_tree` gets the numbers of nodes and leaves back from the height
by shifting.

* `computeTreeSize_isLeast` : the rounding.
* `wellDefined_iff` : the numbers fit together for every file that is not empty and has at most
  `2^30` bytes.
* `computeMerkle_of_not_wellDefined` : on the other files `compute_merkle` stops before it has
  reached `build_tree`.
-/

namespace MerkleFs

/-- The numbers that are computed from the size of a file. -/
structure Geometry where
  /-- `tree_size`. -/
  treeSize : ℤ
  /-- The slots that are laid out: full pages, the partial page, and filler pages. -/
  slots : ℕ
  /-- `tree_height`. -/
  treeHeight : ℕ
  /-- The first leaf that `build_tree` visits. -/
  leafStartIndex : ℕ
  /-- The node it stops at. -/
  nbNodes : ℕ

/-- `compute_merkle`, up to `build_tree`, and the start of `build_tree`, as far as sizes are
concerned. -/
def geometry (fileSize : ℕ) : Run Geometry := do
  -- the size of the buffer for the file
  let _ ← checkInt (fileSize + 1)
  let pageFull := isFull fileSize
  let full : ℕ := if pageFull then 1 else 0
  let nbOfPages := fileSize / PAGE_LENGTH
  let treeSize := computeTreeSize (nbOfPages + 1 - full)
  let partialPages := if pageFull then 0 else 1
  -- the pointer goes back in front of the slots
  let _ ← checkInt (treeSize * PAGE_LENGTH)
  let padding := (treeSize - (nbOfPages + 1 - full)).toNat
  let height ← log2 treeSize.toNat
  let leafStartIndex ← shl1 ((height + 1 : ℕ) - 1)
  let nbNodes ← shl1 (height + 1 : ℕ)
  return ⟨treeSize, nbOfPages + partialPages + padding, height + 1, leafStartIndex, nbNodes⟩

/-- The numbers exist and fit together. -/
def WellDefined (fileSize : ℕ) : Prop :=
  ∃ g, geometry fileSize = .ok g ∧
    -- the least power of two that is at least the number of pages, and at least one
    IsLeast {t : ℤ | (∃ k : ℕ, t = 2 ^ k) ∧ (max 1 (pageCount fileSize) : ℕ) ≤ t} g.treeSize ∧
    1 ≤ g.treeSize ∧ 1 ≤ g.treeHeight ∧ g.treeHeight ≤ 30 ∧
    (2 ^ (g.treeHeight - 1) : ℕ) = g.treeSize ∧ g.leafStartIndex = 2 ^ (g.treeHeight - 1) ∧
    g.nbNodes - g.leafStartIndex = g.slots ∧ (g.slots : ℤ) = g.treeSize

variable {n : ℕ} {b : List Byte} {p : Parsed} {g : Geometry}

/-! ### In the code -/

/-- The sizes are those `compute_merkle` works with. -/
theorem geometry_of_parsePages (hp : parsePages n b = .ok p) (hg : geometry n = .ok g) :
    p.treeSize = g.treeSize.toNat ∧ log2 p.treeSize = .ok (g.treeHeight - 1) := by
  simp only [parsePages] at hp
  simp only [geometry] at hg
  generalize computeTreeSize (((n / PAGE_LENGTH : ℕ) : ℤ) + 1 -
    ((if isFull n then 1 else 0 : ℕ) : ℤ)) = t at hp hg
  have hsize : p.treeSize = t.toNat := by
    obtain ⟨_, -, hp⟩ := Run.bind_eq_ok.1 hp
    obtain ⟨_, -, hp⟩ := Run.bind_eq_ok.1 hp
    by_cases hfull : isFull n
    · simp only [if_pos hfull] at hp
      obtain ⟨_, -, hp⟩ := Run.bind_eq_ok.1 hp
      exact (congrArg Parsed.treeSize (Except.ok.inj hp)).symm
    · simp only [if_neg hfull] at hp
      obtain ⟨_, -, hp⟩ := Run.bind_eq_ok.1 hp
      obtain ⟨_, -, hp⟩ := Run.bind_eq_ok.1 hp
      exact (congrArg Parsed.treeSize (Except.ok.inj hp)).symm
  obtain ⟨_, -, hg⟩ := Run.bind_eq_ok.1 hg
  obtain ⟨_, -, hg⟩ := Run.bind_eq_ok.1 hg
  obtain ⟨height, hlog, hg⟩ := Run.bind_eq_ok.1 hg
  obtain ⟨_, -, hg⟩ := Run.bind_eq_ok.1 hg
  obtain ⟨_, -, hg⟩ := Run.bind_eq_ok.1 hg
  obtain rfl := Except.ok.inj hg
  exact ⟨hsize, hsize ▸ hlog⟩

/-- `build_tree` visits the leaves from the first one to the end of the tree. -/
theorem buildTree_geometry (sha3 : List Byte → Digest) (heap : Heap) (datas : ℕ → Ptr)
    (hg : geometry n = .ok g) : buildTree sha3 heap (.blank 0 g.treeHeight) datas =
      orFail (buildLeaves sha3 heap datas (g.nbNodes - g.leafStartIndex) g.leafStartIndex 0
          (.blank g.nbNodes g.treeHeight))
        (hashAll (rehashNode sha3 heap) (List.range' 1 (g.leafStartIndex - 1)).reverse) := by
  obtain ⟨_, -, hg⟩ := Run.bind_eq_ok.1 hg
  obtain ⟨_, -, hg⟩ := Run.bind_eq_ok.1 hg
  obtain ⟨height, -, hg⟩ := Run.bind_eq_ok.1 hg
  obtain ⟨leafStart, hstart, hg⟩ := Run.bind_eq_ok.1 hg
  obtain ⟨nbNodes, hnodes, hg⟩ := Run.bind_eq_ok.1 hg
  obtain rfl := Except.ok.inj hg
  rw [buildTree]
  show (shl1 ((height + 1 : ℕ) - 1) >>= fun _ => _) = _
  rw [hstart, Run.ok_bind]
  show (shl1 (height + 1 : ℕ) >>= fun _ => _) = _
  rw [hnodes, Run.ok_bind]
  rfl

/-! ### Rounding up -/

theorem isLeast_clog (n : ℕ) :
    IsLeast {t : ℤ | (∃ k : ℕ, t = 2 ^ k) ∧ (n : ℤ) ≤ t} (2 ^ Nat.clog 2 n : ℕ) := by
  constructor
  · exact ⟨⟨Nat.clog 2 n, by push_cast; rfl⟩, by exact_mod_cast Nat.le_pow_clog Nat.one_lt_two n⟩
  · rintro t ⟨⟨k, rfl⟩, hle⟩
    have hle' : n ≤ 2 ^ k := by exact_mod_cast hle
    have hclog := (Nat.clog_le_iff_le_pow Nat.one_lt_two).2 hle'
    exact_mod_cast Nat.pow_le_pow_right Nat.two_pos hclog

/-- **`compute_tree_size` rounds up to a power of two.** -/
theorem computeTreeSize_isLeast (hn : 1 ≤ n) (hn' : n ≤ 2 ^ 30) :
    (∃ k : ℕ, computeTreeSize n = 2 ^ k) ∧ (n : ℤ) ≤ computeTreeSize n ∧
      computeTreeSize n < 2 * n ∧
      IsLeast {t : ℤ | (∃ k : ℕ, t = 2 ^ k) ∧ (n : ℤ) ≤ t} (computeTreeSize n) := by
  have hleast := isLeast_clog n
  have hlt : 2 ^ Nat.clog 2 n < 2 * n := by
    rcases Nat.eq_zero_or_pos (Nat.clog 2 n) with h0 | hpos
    · rw [h0]
      omega
    · have hlow : 2 ^ (Nat.clog 2 n - 1) < n :=
        (Nat.lt_clog_iff_pow_lt Nat.one_lt_two).1 (Nat.sub_lt hpos Nat.one_pos)
      rw [BinTree.two_pow_pred hpos]
      omega
  rw [computeTreeSize_eq hn hn']
  exact ⟨hleast.1.1, hleast.1.2, by exact_mod_cast hlt, hleast⟩

/-- Five pages get eight leaves. -/
theorem computeTreeSize_five : computeTreeSize (5 : ℕ) = 8 ∧ (5 : ℕ) ≤ computeTreeSize (5 : ℕ) ∧
    computeTreeSize (5 : ℕ) < 2 * (5 : ℕ) := by
  have hspec := computeTreeSize_isLeast (by decide : 1 ≤ 5) (by decide)
  exact ⟨by decide, hspec.2.1, hspec.2.2.1⟩

/-! ### Sizes that fit together -/

theorem computeTreeSize_of_int (hn : 1 ≤ n) (hn' : n ≤ INT_MAX) :
    computeTreeSize (((n / PAGE_LENGTH : ℕ) : ℤ) + 1 - ((if isFull n then 1 else 0 : ℕ) : ℤ)) =
      (leafCount n : ℕ) :=
  computeTreeSize_pages hn (hn'.trans (by decide))

/-- The numbers for a file that is not empty and not too large. -/
theorem geometry_eq (hn : 1 ≤ n) (hn' : n ≤ 2 ^ 30) : geometry n =
    .ok ⟨(leafCount n : ℕ), leafCount n, heightOf n, leafCount n, 2 * leafCount n⟩ := by
  have hheight := heightOf_le hn'
  rw [heightOf] at hheight
  have hlog : log2 ((leafCount n : ℕ) : ℤ).toNat = .ok (Nat.clog 2 (pageCount n)) := by
    rw [Int.toNat_natCast]
    exact log2_two_pow _
  have hstart : shl1 ((Nat.clog 2 (pageCount n) + 1 : ℕ) - 1) = .ok (leafCount n) := by
    rw [shl1_sub_one (Nat.le_add_left _ _) (by omega), Nat.add_sub_cancel]
    rfl
  have hnodes : shl1 (Nat.clog 2 (pageCount n) + 1 : ℕ) = .ok (2 * leafCount n) := by
    rw [shl1_natCast (by omega), pow_succ, Nat.mul_comm]
    rfl
  have hpages := pageCount_eq n
  have hle := pageCount_le_leafCount n
  have hslots : n / PAGE_LENGTH + (if isFull n then 0 else 1) + (((leafCount n : ℕ) : ℤ) -
      (((n / PAGE_LENGTH : ℕ) : ℤ) + 1 - ((if isFull n then 1 else 0 : ℕ) : ℤ))).toNat =
        leafCount n := by
    split_ifs at hpages ⊢ <;> omega
  have hint : n + 1 ≤ INT_MAX := by
    unfold INT_MAX
    omega
  have hsize : ((leafCount n : ℕ) : ℤ) * PAGE_LENGTH ≤ INT_MAX := by
    exact_mod_cast leafCount_mul_le hn'
  rw [geometry, checkInt_of_le (by omega) (by exact_mod_cast hint), Run.ok_bind]
  simp only [computeTreeSize_of_int hn (by omega : n ≤ INT_MAX)]
  rw [checkInt_of_le (by positivity) hsize, Run.ok_bind, hlog, Run.ok_bind, hstart, Run.ok_bind,
    hnodes, Run.ok_bind, hslots, Run.pure_eq, heightOf]

theorem geometry_zero : geometry 0 = .error .log2 := by
  have hsize : computeTreeSize (((0 / PAGE_LENGTH : ℕ) : ℤ) + 1 -
      ((if isFull (0 : ℕ) then 1 else 0 : ℕ) : ℤ)) = 0 := by decide
  have hint : checkInt (((0 : ℕ) : ℤ) + 1) = .ok 1 := rfl
  have hint' : checkInt (0 * PAGE_LENGTH) = .ok 0 := by
    rw [zero_mul]
    rfl
  have hlog : log2 (0 : ℤ).toNat = .error .log2 := rfl
  simp only [geometry, hsize, hint, hint', hlog, Run.ok_bind, Run.error_bind]

theorem geometry_overflow (hn : 2 ^ 30 < n) (hn' : n ≤ INT_MAX) :
    geometry n = .error .overflow := by
  rw [geometry]
  by_cases hmax : n = INT_MAX
  · rw [checkInt_of_gt (by omega), Run.error_bind]
  · have hleaf := leafCount_gt hn
    have hsize : (INT_MAX : ℤ) < ((leafCount n : ℕ) : ℤ) * PAGE_LENGTH := by
      unfold PAGE_LENGTH INT_MAX
      omega
    rw [checkInt_of_le (by omega) (by omega), Run.ok_bind]
    simp only [computeTreeSize_of_int (by omega : 1 ≤ n) hn']
    rw [checkInt_of_gt hsize, Run.error_bind]

theorem wellDefined_of_le (hn : 1 ≤ n) (hn' : n ≤ 2 ^ 30) : WellDefined n := by
  have hleaves := leafCount_eq_pow n
  have hleast := isLeast_clog (pageCount n)
  rw [← max_eq_right (pageCount_pos hn)] at hleast
  refine ⟨_, geometry_eq hn hn', ?_, ?_, heightOf_pos n, (heightOf_le hn').trans (by norm_num), ?_,
    hleaves, ?_, rfl⟩
  · rwa [max_eq_right (pageCount_pos hn)] at hleast ⊢
  · show (1 : ℤ) ≤ (leafCount n : ℕ)
    exact_mod_cast Nat.two_pow_pos (Nat.clog 2 (pageCount n))
  · rw [← hleaves]
  · show 2 * leafCount n - leafCount n = leafCount n
    omega

/-- **The numbers fit together** for the files with at least one byte and at most `2^30`. -/
theorem wellDefined_iff (hn : n ≤ INT_MAX) : WellDefined n ↔ 1 ≤ n ∧ n ≤ 2 ^ 30 := by
  constructor
  · rintro ⟨g, hg, -⟩
    constructor
    · by_contra hno
      obtain rfl : n = 0 := by omega
      rw [geometry_zero] at hg
      cases hg
    · by_contra hno
      rw [geometry_overflow (not_le.1 hno) hn] at hg
      cases hg
  · rintro ⟨hpos, hle⟩
    exact wellDefined_of_le hpos hle

/-- A file of one byte more than a page. -/
theorem wellDefined_secondPage : 65537 ≤ INT_MAX ∧ WellDefined 65537 :=
  ⟨by decide, (wellDefined_iff (by decide)).2 ⟨by decide, by decide⟩⟩

/-- An empty file. -/
theorem not_wellDefined_empty : ¬ ∀ n ≤ INT_MAX, WellDefined n := by
  intro hall
  obtain ⟨g, hg, -⟩ := hall 0 (Nat.zero_le _)
  rw [geometry_zero] at hg
  cases hg

/-! ### Files -/

variable {sha3 : List Byte → Digest} {heap : Heap} {c : List Byte} {mt : MerkleTree}

theorem computeMerkle_of_geometry (hg : geometry c.length = .ok g) (hmax : c.length ≤ INT_MAX)
    (hterm : Terminates heap c) : computeMerkle sha3 heap (some c) mt = (do
      let (code, mt) ← buildTree sha3 heap (.blank 0 g.treeHeight) (parsedOf c).slots
      if code = -1 then return ⟨-1, mt, .block⟩ else finishMerkle (parsedOf c) mt) := by
  rcases Nat.eq_zero_or_pos c.length with hzero | hpos
  · rw [hzero, geometry_zero] at hg
    cases hg
  rcases Nat.lt_or_ge (2 ^ 30) c.length with hlarge | hle
  · rw [geometry_overflow hlarge hmax] at hg
    cases hg
  rw [geometry_eq hpos hle] at hg
  obtain rfl := Except.ok.inj hg
  exact computeMerkle_eq hpos hle hterm

/-- Where the numbers do not fit together, `compute_merkle` stops as well. -/
theorem computeMerkle_of_not_wellDefined (hmax : c.length ≤ INT_MAX)
    (hn : ¬ WellDefined c.length) :
    ∃ e, geometry c.length = .error e ∧ computeMerkle sha3 heap (some c) mt = .error e := by
  rcases Nat.eq_zero_or_pos c.length with hzero | hpos
  · refine ⟨_, by rw [hzero, geometry_zero], computeMerkle_of_zero ?_⟩
    rw [hzero]
    rfl
  · have hlarge : 2 ^ 30 < c.length := by
      by_contra hle
      exact hn ((wellDefined_iff hmax).2 ⟨hpos, not_lt.1 hle⟩)
    exact ⟨_, geometry_overflow hlarge hmax, computeMerkle_overflow hlarge hmax⟩

end MerkleFs
