import MerkleFs.Parse.Walk
import MerkleFs.Tree.Format

/-!
# The tree of a file

`compute_merkle` cuts a file into pages, builds the tree over them and writes it to a string.

* `computeMerkle_of_walk`, `computeMerkle_of_not_walkOk`, `computeMerkle_overflow`,
  `computeMerkle_bounds` : what it does on files of at least one byte.
* `computeMerkle_readPart` : from files of `2^31` bytes on, only a part is read.
* `computeMerkle_eq_ok_iff` : when it returns.
* `computeMerkle_of_nulFree` : it succeeds on files without a NUL of up to `2^30` bytes.
* `hashesPages_iff` : when it hashes exactly the pages of a file.
-/

namespace MerkleFs

/-- What is behind the `result` pointer of a function that computes a tree. -/
inductive Result where
  /-- `*result` has not been assigned. -/
  | unset
  /-- A block that no string has been written to. -/
  | block
  /-- A block with a string. -/
  | string (s : CStr)
  deriving DecidableEq

/-- What a function that computes a tree leaves behind. -/
structure Outcome where
  /-- The return code. -/
  code : ℤ
  /-- The tree in `*mt`, as it was before `free_merkle`. -/
  mt : MerkleTree
  /-- The string in `*result`. -/
  result : Result

/-- The part of `compute_merkle` behind `build_tree`: the string of the tree, and freeing. -/
def finishMerkle (p : Parsed) (mt : MerkleTree) : Run Outcome := do
  let s ← treeToString mt
  freePages p
  return ⟨0, mt, .string s⟩

variable (sha3 : List Byte → Digest) (heap : Heap)

/-- `compute_merkle`. -/
def computeMerkle (fp : Option (List Byte)) (mt : MerkleTree) : Run Outcome :=
  match fp with
  | none => .ok ⟨-1, mt, .unset⟩
  | some contents => do
    let (fileSize, fileString) ← readFile heap contents
    let p ← parsePages fileSize fileString
    let height ← log2 p.treeSize
    let (code, mt) ← buildTree sha3 heap (.blank 0 (height + 1)) p.slots
    if code = -1 then return ⟨-1, mt, .block⟩ else finishMerkle p mt

/-- The height of the tree of a file of `n` bytes. -/
def heightOf (n : ℕ) : ℕ := Nat.clog 2 (pageCount n) + 1

variable {sha3 heap} {c : List Byte} {mt mt' : MerkleTree} {h i n : ℕ} {ss : List CStr}
  {τ : ℕ → CStr}

theorem leafCount_eq_pow (n : ℕ) : leafCount n = 2 ^ (heightOf n - 1) := by
  rw [leafCount, heightOf, Nat.add_sub_cancel]

theorem heightOf_pos (n : ℕ) : 1 ≤ heightOf n := Nat.le_add_left _ _

theorem heightOf_le (hn : n ≤ 2 ^ 30) : heightOf n ≤ 15 := by
  have : pageCount n ≤ 2 ^ 14 := pageCount_le_iff.2 (by unfold PAGE_LENGTH; omega)
  have := (Nat.clog_le_iff_le_pow Nat.one_lt_two).2 this
  unfold heightOf
  omega

theorem size_le_of_le (hh : h ≤ 15) : 128 * 2 ^ h ≤ INT_MAX := by
  have hpow : 2 ^ h ≤ 2 ^ 15 := Nat.pow_le_pow_right (by norm_num) hh
  unfold INT_MAX
  omega

theorem treeToString_builtTree {leaf : ℕ → CStr} (hh : h ≤ 15)
    (hτ : Target sha3 heap h leaf τ) :
    treeToString (builtTree h leaf τ) = .ok (treeString (2 ^ h) τ) := by
  have hnodes : (builtTree h leaf τ).nbNodes = 2 ^ h := rfl
  rw [← hnodes]
  refine treeToString_eq ?_ ?_ (fun j hj hj' => if_pos ⟨hj, hj'⟩)
    fun j hj hj' => isHash_target hτ hj hj'
  · rw [hnodes]; exact Nat.one_le_two_pow
  · rw [hnodes]; exact size_le_of_le hh

/-- A file cut into its pages. -/
def parsedOf (c : List Byte) : Parsed :=
  ⟨leafCount c.length, c.length / PAGE_LENGTH, isFull c.length, slotsOf c⟩

@[simp] theorem slots_parsedOf : (parsedOf c).slots = slotsOf c := rfl

theorem parsePages_parsedOf (hn : 1 ≤ c.length) (hn' : c.length ≤ 2 ^ 30)
    (hterm : Terminates heap c) :
    parsePages c.length (c ++ [heap.fileTail]) = .ok (parsedOf c) :=
  parsePages_eq hn hn' hterm

theorem log2_parsedOf (c : List Byte) :
    log2 (parsedOf c).treeSize = .ok (Nat.clog 2 (pageCount c.length)) :=
  log2_two_pow _

/-- The steps of `compute_merkle` up to `build_tree`. -/
theorem computeMerkle_eq (hn : 1 ≤ c.length) (hn' : c.length ≤ 2 ^ 30)
    (hterm : Terminates heap c) :
    computeMerkle sha3 heap (some c) mt = (do
      let (code, mt) ← buildTree sha3 heap (.blank 0 (heightOf c.length)) (parsedOf c).slots
      if code = -1 then return ⟨-1, mt, .block⟩ else finishMerkle (parsedOf c) mt) := by
  rw [computeMerkle, readFile_eq hn', Run.ok_bind]
  simp only
  rw [parsePages_parsedOf hn hn' hterm, Run.ok_bind, log2_parsedOf, Run.ok_bind]
  rfl

theorem finishMerkle_eq (hn' : c.length ≤ 2 ^ 30) {leaf : ℕ → CStr}
    (hτ : Target sha3 heap (heightOf c.length) leaf τ) :
    finishMerkle (parsedOf c) (builtTree (heightOf c.length) leaf τ) =
      if FreeOk c then .ok ⟨0, builtTree (heightOf c.length) leaf τ,
        .string (treeString (2 ^ heightOf c.length) τ)⟩
      else .error .invalidFree := by
  have hfree : freePages (parsedOf c) = if FreeOk c then .ok () else .error .invalidFree :=
    freePages_eq c
  rw [finishMerkle, treeToString_builtTree (heightOf_le hn') hτ, Run.ok_bind, hfree]
  split_ifs <;> rfl

/-- **`compute_merkle` on a file whose array can be read.** -/
theorem computeMerkle_of_walk (mt : MerkleTree) (hn : 1 ≤ c.length) (hn' : c.length ≤ 2 ^ 30)
    (hterm : Terminates heap c) (hheap : heap.Terminated (heightOf c.length))
    (hw : walk (slotsOf c) (leafCount c.length) 0 = some ss)
    (hτ : Target sha3 heap (heightOf c.length) (leafAt (leafCount c.length) ss) τ) :
    computeMerkle sha3 heap (some c) mt =
      if FreeOk c then .ok ⟨0, builtTree (heightOf c.length) (leafAt (leafCount c.length) ss) τ,
        .string (treeString (2 ^ heightOf c.length) τ)⟩
      else .error .invalidFree := by
  have hh := heightOf_le hn'
  have hfit : Fits 0 ss := (room_slotsOf hn hn').fits (walk_eq_some_iff.1 hw).1
  rw [leafCount_eq_pow] at hw hτ ⊢
  have hb := buildTree_of_walk (.blank 0 (heightOf c.length)) (heightOf_pos _) (by omega) rfl
    hheap hfit hw hτ
  rw [computeMerkle_eq hn hn' hterm, slots_parsedOf, hb, Run.ok_bind, ← finishMerkle_eq hn' hτ]
  rfl

theorem walk_eq_none (hn : 1 ≤ c.length) (hn' : c.length ≤ 2 ^ 30) (hw : ¬ WalkOk c) :
    walk (slotsOf c) (2 ^ (heightOf c.length - 1)) 0 = none := by
  rw [← walk_slotsOf_iff hn hn', not_exists] at hw
  rw [← leafCount_eq_pow]
  exact Option.eq_none_iff_forall_ne_some.2 hw

/-- A NULL slot makes it fail. -/
theorem computeMerkle_of_not_walkOk (sha3 : List Byte → Digest) (mt : MerkleTree)
    (hn : 1 ≤ c.length) (hn' : c.length ≤ 2 ^ 30) (hterm : Terminates heap c) (hw : ¬ WalkOk c) :
    ∃ mt', computeMerkle sha3 heap (some c) mt = .ok ⟨-1, mt', .block⟩ := by
  have hh := heightOf_le hn'
  obtain ⟨mt', hb⟩ := buildTree_of_walk_none sha3 heap (.blank 0 (heightOf c.length))
    (heightOf_pos _) (by omega) rfl (room_slotsOf hn hn') (walk_eq_none hn hn' hw)
  refine ⟨mt', ?_⟩
  rw [computeMerkle_eq hn hn' hterm, slots_parsedOf, hb, Run.ok_bind]
  rfl

/-- The size of the array of a larger file is no `int`. -/
theorem computeMerkle_overflow (hn : 2 ^ 30 < c.length) (hn' : c.length ≤ INT_MAX) :
    computeMerkle sha3 heap (some c) mt = .error .overflow := by
  have hint : intOf (c.length : ℕ) = (c.length : ℕ) :=
    intOf_of_lt (Int.natCast_nonneg _) (by exact_mod_cast hn')
  rw [computeMerkle, readFile, hint]
  by_cases hmax : c.length = INT_MAX
  · rw [checkInt_of_gt (by omega)]
    rfl
  · rw [checkInt_of_le (by omega) (by omega), Run.ok_bind, if_neg (by omega), Int.toNat_natCast,
      Run.pure_eq, Run.ok_bind]
    simp only
    rw [parsePages_overflow hn (by unfold INT_MAX at hn'; omega)]
    rfl

/-- A partial page without a NUL in it or behind it is read past the end of its buffer. -/
theorem computeMerkle_bounds (hn : 1 ≤ c.length) (hn' : c.length ≤ 2 ^ 30)
    (hterm : ¬ Terminates heap c) : computeMerkle sha3 heap (some c) mt = .error .bounds := by
  rw [computeMerkle, readFile_eq hn', Run.ok_bind]
  simp only
  rw [parsePages_bounds hn hn' hterm, Run.error_bind]

/-! ### The size of a file -/

/-- The part of a file that is read: its size is converted to an `int`. -/
def readPart (c : List Byte) : List Byte := c.take (intOf c.length).toNat

theorem intOf_natCast_le (n : ℕ) : intOf n ≤ n := by
  unfold intOf
  rw [Int.bmod_def]
  push_cast
  split_ifs <;> omega

theorem intOf_le (x : ℤ) : intOf x ≤ INT_MAX := by
  have : intOf x < ((2 ^ 32 : ℕ) + 1) / 2 := Int.bmod_lt (by norm_num)
  unfold INT_MAX
  norm_num at this
  omega

theorem length_readPart (hpos : 0 ≤ intOf c.length) :
    ((readPart c).length : ℤ) = intOf c.length := by
  have := intOf_natCast_le c.length
  rw [readPart, List.length_take]
  omega

theorem readFile_eq_ok {b : List Byte} (hread : readFile heap c = .ok (n, b)) :
    0 ≤ intOf c.length ∧ n = (readPart c).length := by
  obtain ⟨_, -, hread⟩ := Run.bind_eq_ok.1 hread
  split_ifs at hread with hneg
  obtain ⟨hn, -⟩ := Prod.mk.inj (Except.ok.inj hread)
  have hlen := length_readPart (not_lt.1 hneg)
  exact ⟨not_lt.1 hneg, by omega⟩

theorem readFile_readPart (hpos : 0 ≤ intOf c.length) :
    readFile heap c = readFile heap (readPart c) := by
  have hint : intOf (readPart c).length = intOf c.length := by
    rw [length_readPart hpos]
    exact intOf_of_lt hpos (intOf_le _)
  have htake : (readPart c).take (intOf c.length).toNat = readPart c :=
    List.take_of_length_le (by have := length_readPart hpos; omega)
  rw [readFile, readFile, hint, htake]
  rfl

theorem computeMerkle_readPart (hpos : 0 ≤ intOf c.length) :
    computeMerkle sha3 heap (some c) mt = computeMerkle sha3 heap (some (readPart c)) mt := by
  simp only [computeMerkle, ← readFile_readPart hpos]

theorem computeMerkle_of_neg (hneg : intOf c.length < 0) :
    computeMerkle sha3 heap (some c) mt = .error .bounds := by
  have hlow : -INT_MAX - 1 ≤ intOf c.length := by
    have : -((2 ^ 32 : ℕ) / 2 : ℤ) ≤ intOf c.length := Int.le_bmod (by norm_num)
    unfold INT_MAX
    norm_num at this
    omega
  have hint : checkInt (intOf c.length + 1) = .ok (intOf c.length + 1) :=
    if_pos ⟨by omega, by have := intOf_le c.length; unfold INT_MAX at *; omega⟩
  rw [computeMerkle, readFile, hint, Run.ok_bind, if_pos hneg, Run.error_bind]

theorem parsePages_zero (b : List Byte) : ∃ p, parsePages 0 b = .ok p ∧ p.treeSize = 0 := by
  have hfull : isFull (0 : ℕ) = true := by decide
  have hsize : computeTreeSize (((0 : ℕ) : ℤ) + 1 - ((1 : ℕ) : ℤ)) = 0 := by decide
  have hint : checkInt ((0 * PAGE_LENGTH : ℕ) : ℤ) = .ok 0 := by
    rw [Nat.zero_mul]
    rfl
  simp only [parsePages, hfull, if_true, Nat.zero_div, hsize, Int.toNat_zero, hint, Run.ok_bind,
    copyPages, Run.pure_eq]
  exact ⟨_, rfl, rfl⟩

theorem computeMerkle_of_zero (hzero : intOf c.length = 0) :
    computeMerkle sha3 heap (some c) mt = .error .log2 := by
  have hempty : readPart c = [] := by rw [readPart, hzero]; rfl
  obtain ⟨p, hparse, hsize⟩ := parsePages_zero ([] ++ [heap.fileTail])
  have hread : readFile heap [] = .ok (0, [] ++ [heap.fileTail]) := readFile_eq (by simp)
  have hlog : log2 0 = .error .log2 := rfl
  rw [computeMerkle_readPart hzero.ge, hempty, computeMerkle, hread, Run.ok_bind]
  simp only
  rw [hparse, Run.ok_bind, hsize, hlog, Run.error_bind]

theorem pos_of_computeMerkle {o : Outcome} (ho : computeMerkle sha3 heap (some c) mt = .ok o) :
    1 ≤ intOf c.length := by
  by_contra hno
  rcases lt_or_eq_of_le (show intOf c.length ≤ 0 by omega) with hneg | hzero
  · rw [computeMerkle_of_neg hneg] at ho
    cases ho
  · rw [computeMerkle_of_zero hzero] at ho
    cases ho

/-! ### Returning -/

/-- The files and heaps with which `compute_merkle` returns. -/
structure Returns (heap : Heap) (c : List Byte) : Prop where
  /-- The size of the array is an `int`. -/
  le : c.length ≤ 2 ^ 30
  /-- The partial page ends in its buffer. -/
  terminates : Terminates heap c
  /-- When the tree can be built, nothing but blocks is freed. -/
  free : WalkOk c → FreeOk c
  /-- When the tree can be built, the buffers of its inner nodes have a NUL. -/
  terminated : WalkOk c → heap.Terminated (heightOf c.length)

theorem computeMerkle_of_returns (sha3 : List Byte → Digest) (mt : MerkleTree)
    (hn : 1 ≤ c.length) (hr : Returns heap c) (hw : WalkOk c) :
    ∃ ss τ, walk (slotsOf c) (leafCount c.length) 0 = some ss ∧
      Target sha3 heap (heightOf c.length) (leafAt (leafCount c.length) ss) τ ∧
      computeMerkle sha3 heap (some c) mt =
        .ok ⟨0, builtTree (heightOf c.length) (leafAt (leafCount c.length) ss) τ,
          .string (treeString (2 ^ heightOf c.length) τ)⟩ := by
  obtain ⟨ss, hss⟩ := (walk_slotsOf_iff hn hr.le).2 hw
  have hτ := BinTree.solves_solution (h := heightOf c.length)
    (fun i => leafHash sha3 (leafAt (leafCount c.length) ss i)) (parentHash sha3 heap)
  exact ⟨ss, _, hss, hτ, by
    rw [computeMerkle_of_walk _ hn hr.le hr.terminates (hr.terminated hw) hss hτ,
      if_pos (hr.free hw)]⟩

/-- **When `compute_merkle` returns.** -/
theorem computeMerkle_eq_ok_iff (hn : 1 ≤ c.length) (hmax : c.length ≤ INT_MAX) :
    (∃ o, computeMerkle sha3 heap (some c) mt = .ok o) ↔ Returns heap c := by
  constructor
  · rintro ⟨o, ho⟩
    have hn' : c.length ≤ 2 ^ 30 := by
      by_contra hlarge
      rw [computeMerkle_overflow (by omega) hmax] at ho
      cases ho
    have hterm : Terminates heap c := by
      by_contra hterm
      rw [computeMerkle_bounds hn hn' hterm] at ho
      cases ho
    have hheap : WalkOk c → heap.Terminated (heightOf c.length) := fun hw => by
      obtain ⟨ss, hss⟩ := (walk_slotsOf_iff hn hn').2 hw
      have hfit : Fits 0 ss := (room_slotsOf hn hn').fits (walk_eq_some_iff.1 hss).1
      have hh := heightOf_le hn'
      rw [computeMerkle_eq hn hn' hterm, slots_parsedOf] at ho
      obtain ⟨p, hb, -⟩ := Run.bind_eq_ok.1 ho
      rw [leafCount_eq_pow] at hss
      exact terminated_of_buildTree (heightOf_pos _) (by omega) rfl hfit hss hb
    refine ⟨hn', hterm, fun hw => ?_, hheap⟩
    obtain ⟨ss, hss⟩ := (walk_slotsOf_iff hn hn').2 hw
    by_contra hfree
    rw [computeMerkle_of_walk _ hn hn' hterm (hheap hw) hss (BinTree.solves_solution _ _),
      if_neg hfree] at ho
    cases ho
  · intro hr
    by_cases hw : WalkOk c
    · obtain ⟨ss, τ, -, -, hcompute⟩ := computeMerkle_of_returns sha3 mt hn hr hw
      exact ⟨_, hcompute⟩
    · obtain ⟨mt', hcompute⟩ := computeMerkle_of_not_walkOk sha3 mt hn hr.le
        hr.terminates hw
      exact ⟨_, hcompute⟩

/-! ### Files without a NUL -/

theorem returns_of_computeMerkle {o : Outcome}
    (ho : computeMerkle sha3 heap (some c) mt = .ok o) : 1 ≤ intOf c.length ∧
      1 ≤ (readPart c).length ∧ Returns heap (readPart c) ∧
      computeMerkle sha3 heap (some (readPart c)) mt = .ok o := by
  have hpos := pos_of_computeMerkle ho
  have hlen := length_readPart (c := c) (by omega)
  have hmax := intOf_le c.length
  rw [computeMerkle_readPart (by omega)] at ho
  have hn : 1 ≤ (readPart c).length := by omega
  exact ⟨hpos, hn, (computeMerkle_eq_ok_iff hn (by omega)).1 ⟨o, ho⟩, ho⟩

theorem terminates_nul : Terminates .nul c := .inr (.inl rfl)

theorem freeOk_of_nulFree (hfree : 0 ∉ c) : FreeOk c :=
  .inr (.inr fun h => hfree (List.mem_of_mem_drop (List.mem_of_mem_head? h)))

/-- The hash strings of the tree of a file without a NUL. -/
def fileHashes (sha3 : List Byte → Digest) (c : List Byte) : ℕ → CStr :=
  BinTree.solution (heightOf c.length)
    (fun i => leafHash sha3 (leafAt (leafCount c.length) (leafStrings c) i))
    (parentHash sha3 .nul)

/-- The string of the tree of a file without a NUL. -/
def merkleString (sha3 : List Byte → Digest) (c : List Byte) : CStr :=
  treeString (2 ^ heightOf c.length) (fileHashes sha3 c)

theorem target_fileHashes (sha3 : List Byte → Digest) (c : List Byte) :
    Target sha3 .nul (heightOf c.length) (leafAt (leafCount c.length) (leafStrings c))
      (fileHashes sha3 c) :=
  BinTree.solves_solution _ _

/-- **`compute_merkle` succeeds on files without a NUL of up to `2^30` bytes.** -/
theorem computeMerkle_of_nulFree (hfree : 0 ∉ c) (hn : 1 ≤ c.length) (hn' : c.length ≤ 2 ^ 30) :
    computeMerkle sha3 .nul (some c) mt =
      .ok ⟨0, builtTree (heightOf c.length) (leafAt (leafCount c.length) (leafStrings c))
        (fileHashes sha3 c), .string (merkleString sha3 c)⟩ := by
  rw [computeMerkle_of_walk _ hn hn' terminates_nul Heap.terminated_nul (walk_slotsOf hfree)
    (target_fileHashes sha3 c), if_pos (freeOk_of_nulFree hfree)]
  rfl

theorem returns_of_nulFree (hfree : 0 ∉ c) (hn' : c.length ≤ 2 ^ 30) : Returns .nul c :=
  ⟨hn', terminates_nul, fun _ => freeOk_of_nulFree hfree, fun _ => Heap.terminated_nul⟩

/-- `n` pages of `a`. -/
def pagesOfA (n : ℕ) : List Byte := List.replicate (n * PAGE_LENGTH) (byteOf 'a')

theorem length_pagesOfA (n : ℕ) : (pagesOfA n).length = n * PAGE_LENGTH := List.length_replicate

theorem nulFree_pagesOfA (n : ℕ) : 0 ∉ pagesOfA n :=
  fun h0 => absurd (List.eq_of_mem_replicate h0) (by decide)

theorem div_pagesOfA (n : ℕ) : (pagesOfA n).length / PAGE_LENGTH = n := by
  rw [length_pagesOfA, Nat.mul_div_cancel _ (by unfold PAGE_LENGTH; norm_num)]

theorem pageCount_pagesOfA (n : ℕ) : pageCount (pagesOfA n).length = n := by
  rw [pageCount_of_dvd (length_pagesOfA n ▸ Nat.dvd_mul_left _ _), div_pagesOfA]

/-! ### Hashing exactly the pages -/

/-- `compute_merkle` succeeds, leaf `j` is hashed from page `j` of the file, and the leaves behind
the last page from the filler page. -/
def HashesPages (sha3 : List Byte → Digest) (c : List Byte) : Prop :=
  ∀ mt, ∃ mt' s, computeMerkle sha3 .nul (some c) mt = .ok ⟨0, mt', .string s⟩ ∧
    (∀ j < pageCount c.length, ∃ d,
      (mt'.nodes (leafCount c.length + j)).data = some d ∧
      d.bytes = (c.drop (j * PAGE_LENGTH)).take PAGE_LENGTH ∧
      (mt'.nodes (leafCount c.length + j)).hash = some (leafHash sha3 d)) ∧
    ∀ j, pageCount c.length ≤ j → j < leafCount c.length →
      (mt'.nodes (leafCount c.length + j)).data = some filler ∧
      (mt'.nodes (leafCount c.length + j)).hash = some (leafHash sha3 filler)

theorem getElem?_leafStrings (c : List Byte) (i : ℕ) : (leafStrings c)[i]? =
    if i < pageCount c.length then some (pageOf c i)
    else if i < leafCount c.length then some filler else none := by
  have hsum := leafCount_eq c.length
  have hlen : ((List.range (pageCount c.length)).map (pageOf c)).length = pageCount c.length := by
    rw [List.length_map, List.length_range]
  unfold leafStrings
  split_ifs with hpage hleaf
  · rw [List.getElem?_append_left (by omega), List.getElem?_map, List.getElem?_range hpage,
      Option.map_some]
  · rw [List.getElem?_append_right (by omega), hlen, List.getElem?_replicate, if_pos (by omega)]
  · rw [List.getElem?_append_right (by omega), hlen, List.getElem?_replicate, if_neg (by omega)]

theorem builtTree_leaf (hm : n = 2 ^ (h - 1)) (hτ : Target sha3 heap h (leafAt n ss) τ) (hh : 1 ≤ h)
    {j : ℕ} (hj : j < n) {d : CStr} (hd : ss[j]? = some d) :
    ((builtTree h (leafAt n ss) τ).nodes (n + j)).data = some d ∧
      ((builtTree h (leafAt n ss) τ).nodes (n + j)).hash = some (leafHash sha3 d) := by
  have hp := BinTree.two_pow_pred hh
  have hleaf : leafAt n ss (n + j) = d := by
    rw [leafAt, Nat.add_sub_cancel_left, List.getD_eq_getElem?_getD, hd, Option.getD_some]
  have hhash : τ (n + j) = leafHash sha3 d := by
    rw [hτ.leaf _ (by omega) (by omega), hleaf]
  exact ⟨(if_pos ⟨by omega, by omega⟩).trans (congrArg some hleaf),
    (if_pos ⟨by omega, by omega⟩).trans (congrArg some hhash)⟩

/-- **`compute_merkle` hashes exactly the pages of a file when the file has no NUL and at most
`2^30` bytes.** -/
theorem hashesPages_iff (hn : 1 ≤ c.length) (hmax : c.length ≤ INT_MAX) :
    HashesPages sha3 c ↔ 0 ∉ c ∧ c.length ≤ 2 ^ 30 := by
  have hsum := leafCount_eq c.length
  constructor
  · intro hall
    obtain ⟨mt', s, hcompute, hpages, -⟩ := hall (.blank 0 0)
    have hn' : c.length ≤ 2 ^ 30 := by
      by_contra hlarge
      rw [computeMerkle_overflow (by omega) hmax] at hcompute
      cases hcompute
    refine ⟨fun hmem => ?_, hn'⟩
    -- the page with the NUL is not a string
    obtain ⟨i, hi, hget⟩ := List.getElem_of_mem hmem
    obtain ⟨d, -, hd, -⟩ := hpages (i / PAGE_LENGTH) (by unfold pageCount PAGE_LENGTH; omega)
    refine d.nulFree ?_
    rw [hd, List.mem_iff_getElem?]
    refine ⟨i % PAGE_LENGTH, ?_⟩
    have hmod := Nat.mod_lt i (show 0 < PAGE_LENGTH by unfold PAGE_LENGTH; norm_num)
    rw [List.getElem?_take, if_pos hmod, List.getElem?_drop, Nat.div_add_mod',
      List.getElem?_eq_getElem hi, hget]
  · rintro ⟨hfree, hn'⟩ mt
    have hleaf := fun {j : ℕ} (hj : j < leafCount c.length) {d : CStr} hd =>
      builtTree_leaf (j := j) (d := d) (leafCount_eq_pow _)
        (target_fileHashes sha3 c) (heightOf_pos _) hj hd
    refine ⟨_, _, computeMerkle_of_nulFree hfree hn hn', fun j hj => ?_, fun j hj hj' => ?_⟩
    · have := hleaf (j := j) (by omega) (by rw [getElem?_leafStrings, if_pos hj])
      exact ⟨pageOf c j, this.1, bytes_pageOf hfree, this.2⟩
    · exact hleaf hj' (by rw [getElem?_leafStrings, if_neg (by omega), if_pos hj'])

/-- A file of one character. -/
theorem hashesPages_a : HashesPages (fun _ => zeroDigest) [byteOf 'a'] :=
  (hashesPages_iff (by decide) (by decide)).2 ⟨by decide, by decide⟩

/-- The page of the file `a NUL b` is cut short. -/
theorem not_hashesPages_nul : ¬ ∀ (sha3 : List Byte → Digest) (c : List Byte), 1 ≤ c.length →
    c.length ≤ INT_MAX → HashesPages sha3 c := by
  intro hall
  obtain ⟨mt', s, -, hpages, -⟩ := hall (fun _ => zeroDigest) [byteOf 'a', 0, byteOf 'b']
    (by decide) (by decide) (.blank 0 0)
  obtain ⟨d, -, hd, -⟩ := hpages 0 (by decide)
  have hmem : 0 ∈ d.bytes := by rw [hd]; decide
  exact d.nulFree hmem

end MerkleFs
