import MerkleFs.Fs.Contents
import MerkleFs.Tree.Change

/-!
# The stored tree of a file

The attribute of a file is the string `compute_merkle` gives for it (`Gives`).  Read back with
`string_to_tree` it is a tree with the hashes of the file and without data (`Stored`), which
`quick_change` and `pages_in_need` start from.

* `gives_iff` : which string `compute_merkle` gives for a file without a NUL.
* `stored_of_gives` : the tree read back from it.
-/

namespace MerkleFs

/-- `compute_merkle` gives the string `s` for a file. -/
def Gives (sha3 : List Byte → Digest) (heap : Heap) (c : List Byte) (s : CStr) : Prop :=
  ∀ mt, ∃ mt', computeMerkle sha3 heap (some c) mt = .ok ⟨0, mt', .string s⟩

/-- The tree of a file without a NUL, as read back from its string, with the hashes `τ`. -/
structure Stored (sha3 : List Byte → Digest) (heap : Heap) (c : List Byte) (mt : MerkleTree)
    (τ : ℕ → CStr) : Prop where
  /-- The file has no NUL. -/
  nulFree : 0 ∉ c
  /-- It is not empty. -/
  pos : 1 ≤ c.length
  /-- It is not too large. -/
  le : c.length ≤ 2 ^ 30
  /-- The buffers of its inner nodes have a NUL. -/
  terminated : heap.Terminated (heightOf c.length)
  /-- The hashes are those of the file. -/
  target : Target sha3 heap (heightOf c.length) (leafAt (leafCount c.length) (leafStrings c)) τ
  /-- The tree has these hashes and no data. -/
  eq : mt = hashTree (2 ^ heightOf c.length) (heightOf c.length) τ

/-- The tree that `string_to_tree` reads back from the string of a tree with the leaves `leaf` and
the hashes `τ`: hashes and no data. -/
structure ReadBack (sha3 : List Byte → Digest) (heap : Heap) (h : ℕ) (mt : MerkleTree)
    (leaf τ : ℕ → CStr) : Prop where
  /-- There is a root. -/
  pos : 1 ≤ h
  /-- It is the tree of a file. -/
  le : h ≤ 15
  /-- The buffers of its inner nodes have a NUL. -/
  terminated : heap.Terminated h
  /-- The hashes are those of the leaves. -/
  target : Target sha3 heap h leaf τ
  /-- The tree has these hashes and no data. -/
  eq : mt = hashTree (2 ^ h) h τ

/-- `compute_merkle` gives a string for a file, and it hashes the leaves `ss` for it. -/
structure HasLeaves (c : List Byte) (ss : List CStr) : Prop where
  /-- A part of the file is read. -/
  pos : 1 ≤ intOf c.length
  /-- It is not too large. -/
  le : (readPart c).length ≤ 2 ^ 30
  /-- Nothing but blocks is freed. -/
  free : FreeOk (readPart c)
  /-- These are the strings it finds. -/
  walk : walk (slotsOf (readPart c)) (leafCount (readPart c).length) 0 = some ss

variable {sha3 : List Byte → Digest} {heap : Heap} {c : List Byte} {mt : MerkleTree} {s : CStr}
  {τ τ' : ℕ → CStr} {h : ℕ} {leaf leaf' : ℕ → CStr} {ss : List CStr}

/-! ### Strings of trees -/

theorem treeToString_of_settled (hs : Shape h mt) (hh : h ≤ 16) (hτ : Target sha3 heap h leaf τ)
    (hD : Settled τ (BinTree.Nodes h) mt) : treeToString mt = .ok (treeString (2 ^ h) τ) := by
  have hpow : 2 ^ h ≤ 2 ^ 16 := Nat.pow_le_pow_right (by norm_num) hh
  rw [← hs.nbNodes]
  refine treeToString_eq ?_ ?_ (fun j hj hj' => hD j ⟨hj, by rwa [← hs.nbNodes]⟩) fun j hj hj' =>
    isHash_target hτ hj (by rwa [← hs.nbNodes])
  · rw [hs.nbNodes]; exact Nat.one_le_two_pow
  · rw [hs.nbNodes]; unfold INT_MAX; omega

theorem treeString_target_congr (hh : 1 ≤ h) (hτ : Target sha3 heap h leaf τ)
    (hτ' : Target sha3 heap h leaf' τ')
    (hleaf : ∀ j, 2 ^ (h - 1) ≤ j → j < 2 ^ h → leaf j = leaf' j) :
    treeString (2 ^ h) τ = treeString (2 ^ h) τ' :=
  treeString_congr fun j hj hj' => BinTree.Solves.congr hh hτ hτ' j hj hj' fun i hi hi' _ => by
    rw [hleaf i hi hi']

theorem treeString_target_inj {h' : ℕ} {heap' : Heap} (hh : 1 ≤ h) (hh' : 1 ≤ h')
    (hτ : Target sha3 heap h leaf τ) (hτ' : Target sha3 heap' h' leaf' τ')
    (heq : treeString (2 ^ h) τ = treeString (2 ^ h') τ') :
    h = h' ∧ ∀ j, 1 ≤ j → j < 2 ^ h → τ j = τ' j :=
  treeString_inj hh hh' (fun _ hj hj' => isHash_target hτ hj hj')
    (fun _ hj hj' => isHash_target hτ' hj hj') heq

/-- Digests that tell the string `x` from all others. -/
def marking (x : CStr) (l : List Byte) : Digest := if l = x.bytes then zeroDigest else onesDigest

theorem leafHash_marking_ne {x y : CStr} (hxy : x ≠ y) :
    leafHash (marking x) x ≠ leafHash (marking x) y := by
  have hy : marking x y.bytes = onesDigest := if_neg fun h => hxy (CStr.ext h.symm)
  have hx : marking x x.bytes = zeroDigest := if_pos rfl
  rw [leafHash, leafHash, hx, hy]
  split_ifs with hfx hfy hfy
  · exact absurd (hfx.trans hfy.symm) hxy
  · decide
  · decide
  · decide

/-! ### Strings of files -/

theorem readPart_of_le (hmax : c.length ≤ INT_MAX) : readPart c = c := by
  rw [readPart, intOf_of_lt (Int.natCast_nonneg _) (by exact_mod_cast hmax), Int.toNat_natCast,
    List.take_length]

theorem nulFree_readPart (hfree : 0 ∉ c) : 0 ∉ readPart c :=
  fun h => hfree (List.mem_of_mem_take h)

/-- What a run of `compute_merkle` that does not fail has found. -/
theorem leaves_of_computeMerkle {o : Outcome} (ho : computeMerkle sha3 heap (some c) mt = .ok o)
    (hcode : o.code ≠ -1) : 1 ≤ intOf c.length ∧ Returns heap (readPart c) ∧
      ∃ ss τ, walk (slotsOf (readPart c)) (leafCount (readPart c).length) 0 = some ss ∧
        Target sha3 heap (heightOf (readPart c).length)
          (leafAt (leafCount (readPart c).length) ss) τ ∧
        o.result = .string (treeString (2 ^ heightOf (readPart c).length) τ) := by
  obtain ⟨hpos, hn, hr, ho⟩ := returns_of_computeMerkle ho
  have hwalk : WalkOk (readPart c) := by
    by_contra hno
    obtain ⟨mt', hfail⟩ := computeMerkle_of_not_walkOk sha3 mt hn hr.le hr.terminates hno
    rw [hfail] at ho
    cases ho
    exact hcode rfl
  obtain ⟨ss, τ, hss, hτ, hc⟩ := computeMerkle_of_returns sha3 mt hn hr hwalk
  rw [hc] at ho
  cases ho
  exact ⟨hpos, hr, ss, τ, hss, hτ, rfl⟩

/-- The string `compute_merkle` gives for a file. -/
theorem gives_iff_walk : Gives sha3 heap c s ↔ 1 ≤ intOf c.length ∧ Returns heap (readPart c) ∧
    ∃ ss τ, walk (slotsOf (readPart c)) (leafCount (readPart c).length) 0 = some ss ∧
      Target sha3 heap (heightOf (readPart c).length)
        (leafAt (leafCount (readPart c).length) ss) τ ∧
      s = treeString (2 ^ heightOf (readPart c).length) τ := by
  constructor
  · intro hg
    obtain ⟨mt', ho⟩ := hg (.blank 0 0)
    obtain ⟨hpos, hr, ss, τ, hss, hτ, hs⟩ :=
      leaves_of_computeMerkle ho (show (0 : ℤ) ≠ -1 by decide)
    exact ⟨hpos, hr, ss, τ, hss, hτ, Result.string.inj hs⟩
  · rintro ⟨hpos, hr, ss, τ, hss, hτ, rfl⟩ mt
    have hlen := length_readPart (c := c) (by omega)
    have hwalk : WalkOk (readPart c) := (walk_slotsOf_iff (by omega) hr.le).1 ⟨ss, hss⟩
    have hc := computeMerkle_of_walk mt (by omega) hr.le hr.terminates (hr.terminated hwalk) hss hτ
    rw [if_pos (hr.free hwalk)] at hc
    exact ⟨_, by rw [computeMerkle_readPart (by omega), hc]⟩

theorem code_of_computeMerkle {o : Outcome} (ho : computeMerkle sha3 heap (some c) mt = .ok o)
    (hwalk : WalkOk (readPart c)) : o.code = 0 := by
  obtain ⟨-, hn, hr, ho⟩ := returns_of_computeMerkle ho
  obtain ⟨ss, τ, -, -, hc⟩ := computeMerkle_of_returns sha3 mt hn hr hwalk
  rw [hc] at ho
  cases ho
  rfl

theorem gives_of_computeMerkle {o : Outcome} (ho : computeMerkle sha3 heap (some c) mt = .ok o)
    (hcode : o.code ≠ -1) : ∃ s, o.result = .string s ∧ Gives sha3 heap c s := by
  obtain ⟨hpos, hr, ss, τ, hss, hτ, hs⟩ := leaves_of_computeMerkle ho hcode
  exact ⟨_, hs, gives_iff_walk.2 ⟨hpos, hr, ss, τ, hss, hτ, rfl⟩⟩

/-- **The string `compute_merkle` gives for a file without a NUL.** -/
theorem gives_iff (hfree : 0 ∉ c) :
    Gives sha3 heap c s ↔ 1 ≤ intOf c.length ∧ Returns heap (readPart c) ∧
      ∃ τ, Target sha3 heap (heightOf (readPart c).length)
          (leafAt (leafCount (readPart c).length) (leafStrings (readPart c))) τ ∧
        s = treeString (2 ^ heightOf (readPart c).length) τ := by
  rw [gives_iff_walk, walk_slotsOf (nulFree_readPart hfree)]
  constructor
  · rintro ⟨hpos, hr, ss, τ, hss, hτ, hs⟩
    cases hss
    exact ⟨hpos, hr, τ, hτ, hs⟩
  · rintro ⟨hpos, hr, τ, hτ, hs⟩
    exact ⟨hpos, hr, _, τ, rfl, hτ, hs⟩

theorem Gives.hasLeaves (hg : Gives sha3 heap c s) : ∃ ss, HasLeaves c ss := by
  obtain ⟨hpos, hr, ss, τ, hss, -, -⟩ := gives_iff_walk.1 hg
  have hlen := length_readPart (c := c) (by omega)
  exact ⟨ss, hpos, hr.le, hr.free ((walk_slotsOf_iff (by omega) hr.le).1 ⟨ss, hss⟩), hss⟩

theorem hasLeaves_of_nulFree (hfree : 0 ∉ c) (hpos : 1 ≤ intOf c.length)
    (hle : (readPart c).length ≤ 2 ^ 30) : HasLeaves c (leafStrings (readPart c)) :=
  ⟨hpos, hle, freeOk_of_nulFree (nulFree_readPart hfree), walk_slotsOf (nulFree_readPart hfree)⟩

namespace ReadBack

theorem shape (hr : ReadBack sha3 heap h mt leaf τ) : Shape h mt := by
  have := hr.le
  rw [hr.eq]
  exact ⟨hr.pos, by omega, hashTree_nbNodes, hashTree_treeHeight⟩

theorem settled (hr : ReadBack sha3 heap h mt leaf τ) : Settled τ (BinTree.Nodes h) mt := by
  rw [hr.eq]
  exact fun j hj => hashTree_hash hj.1 hj.2

theorem data (hr : ReadBack sha3 heap h mt leaf τ) (j : ℕ) : (mt.nodes j).data = none := by
  rw [hr.eq, hashTree_data]

end ReadBack

namespace HasLeaves

theorem nonneg (hc : HasLeaves c ss) : 0 ≤ intOf c.length :=
  zero_le_one.trans hc.pos

theorem length_lt (hc : HasLeaves c ss) : (readPart c).length < 2 ^ 30 + PAGE_LENGTH :=
  hc.le.trans_lt (Nat.lt_add_of_pos_right PAGE_LENGTH_pos)

theorem length_pos (hc : HasLeaves c ss) : 1 ≤ (readPart c).length := by
  have hpos := hc.pos
  have := length_readPart hc.nonneg
  omega

theorem length (hc : HasLeaves c ss) : ss.length = leafCount (readPart c).length :=
  length_of_walk hc.walk

theorem walkOk (hc : HasLeaves c ss) : WalkOk (readPart c) :=
  (walk_slotsOf_iff hc.length_pos hc.le).1 ⟨ss, hc.walk⟩

/-- The string of such a file, when the byte behind the file is NUL. -/
theorem gives (hc : HasLeaves c ss) (htail : heap.fileTail = 0)
    (hheap : heap.Terminated (heightOf (readPart c).length))
    (hτ : Target sha3 heap (heightOf (readPart c).length)
      (leafAt (leafCount (readPart c).length) ss) τ) :
    Gives sha3 heap c (treeString (2 ^ heightOf (readPart c).length) τ) :=
  gives_iff_walk.2 ⟨hc.pos, ⟨hc.le, .inr (.inl htail), fun _ => hc.free, fun _ => hheap⟩,
    ss, τ, hc.walk, hτ, rfl⟩

theorem readBack (hc : HasLeaves c ss) (hg : Gives sha3 heap c s)
    (htree : stringToTree s = .ok mt) :
    ∃ τ, ReadBack sha3 heap (heightOf (readPart c).length) mt
        (leafAt (leafCount (readPart c).length) ss) τ ∧
      s = treeString (2 ^ heightOf (readPart c).length) τ := by
  obtain ⟨-, hr, ss', τ, hss, hτ, rfl⟩ := gives_iff_walk.1 hg
  obtain rfl := Option.some.inj (hc.walk.symm.trans hss)
  rw [stringToTree_treeString (heightOf_pos _) fun j hj hj' => isHash_target hτ hj hj'] at htree
  cases htree
  exact ⟨τ, ⟨heightOf_pos _, heightOf_le hc.le, hr.terminated hc.walkOk, hτ, rfl⟩, rfl⟩

end HasLeaves

/-- **The tree read back from the string of a file.** -/
theorem stored_of_gives (hfree : 0 ∉ c) (hg : Gives sha3 heap c s)
    (htree : stringToTree s = .ok mt) :
    1 ≤ intOf c.length ∧ Returns heap (readPart c) ∧ ∃ τ, Stored sha3 heap (readPart c) mt τ := by
  obtain ⟨hpos, hr, τ, hτ, rfl⟩ := (gives_iff hfree).1 hg
  have hlen := length_readPart (c := c) (by omega)
  have hfree' := nulFree_readPart hfree
  rw [stringToTree_treeString (heightOf_pos _) fun j hj hj' => isHash_target hτ hj hj'] at htree
  cases htree
  exact ⟨hpos, hr, τ, hfree', by omega, hr.le, hr.terminated (.inl hfree'), hτ, rfl⟩

theorem exists_stored (sha3 : List Byte → Digest) (hfree : 0 ∉ c) (hn : 1 ≤ c.length)
    (hn' : c.length ≤ 2 ^ 30) :
    ∃ mt, Gives sha3 .nul c (merkleString sha3 c) ∧ stringToTree (merkleString sha3 c) = .ok mt ∧
      Stored sha3 .nul c mt (fileHashes sha3 c) :=
  ⟨_, fun _ => ⟨_, computeMerkle_of_nulFree hfree hn hn'⟩,
    stringToTree_treeString (heightOf_pos _) fun _ hj hj' =>
      isHash_target (target_fileHashes _ _) hj hj',
    hfree, hn, hn', Heap.terminated_nul, target_fileHashes _ _, rfl⟩

namespace Stored

theorem readBack (hst : Stored sha3 heap c mt τ) : ReadBack sha3 heap (heightOf c.length) mt
    (leafAt (leafCount c.length) (leafStrings c)) τ :=
  ⟨heightOf_pos _, heightOf_le hst.le, hst.terminated, hst.target, hst.eq⟩

theorem shape (hst : Stored sha3 heap c mt τ) : Shape (heightOf c.length) mt := hst.readBack.shape

theorem settled (hst : Stored sha3 heap c mt τ) :
    Settled τ (BinTree.Nodes (heightOf c.length)) mt := hst.readBack.settled

end Stored

end MerkleFs
