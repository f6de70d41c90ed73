import MerkleFs.Parse.Compute

/-!
# What the tree of a file depends on

`compute_merkle` reads two blocks past the bytes that were written to them: the buffer of the file
behind the file itself, when there is a partial page, and the buffers of the inner nodes behind
the two child hashes.  What it returns depends on the prior contents of these blocks, and it may
run past their end.

* `heapFree_iff` : for which files all runs return the same.
-/

namespace MerkleFs

/-- All runs on a file return the same code and the same string, whatever was in the blocks that
`malloc` returned. -/
def HeapFree (sha3 : List Byte → Digest) (c : List Byte) : Prop :=
  ∀ heap heap' mt, ∃ o o', computeMerkle sha3 heap (some c) mt = .ok o ∧
    computeMerkle sha3 heap' (some c) mt = .ok o' ∧ o.code = o'.code ∧ o.result = o'.result

/-- Nothing that has not been written is read for a file. -/
structure Initialised (c : List Byte) : Prop where
  /-- Its size as an `int` is positive. -/
  pos : 1 ≤ intOf c.length
  /-- The size of the array is an `int`. -/
  le : (readPart c).length ≤ 2 ^ 30
  /-- The partial page, if any, contains a NUL. -/
  ends : PAGE_LENGTH ∣ (readPart c).length ∨
    0 ∈ (readPart c).drop ((readPart c).length / PAGE_LENGTH * PAGE_LENGTH)
  /-- The tree has no inner node, or is not built. -/
  leaf : leafCount (readPart c).length = 1 ∨ ¬ WalkOk (readPart c)

/-- Blocks without a NUL. -/
def Heap.ones : Heap := ⟨1, fun _ _ => 1⟩

/-- Blocks of NULs, but for one byte behind the child hashes of the root. -/
def Heap.mark : Heap := ⟨0, fun i k => if i = 1 ∧ k = 0 then 1 else 0⟩

variable {sha3 : List Byte → Digest} {heap heap' : Heap} {c : List Byte} {mt : MerkleTree}

/-! ### Two runs -/

theorem leafCount_eq_one_of_terminated (hheap : Heap.ones.Terminated (heightOf c.length)) :
    leafCount c.length = 1 := by
  by_contra hne
  have hpos := Nat.two_pow_pos (heightOf c.length - 1)
  rw [leafCount_eq_pow] at hne
  obtain ⟨k, -, hk⟩ := List.mem_map.1 (hheap 1 le_rfl (by omega))
  exact absurd hk (show (1 : Byte) ≠ 0 by decide)

theorem treeString_eq_of_leafCount {leaf τ τ' : ℕ → CStr} (hone : leafCount c.length = 1)
    (hτ : Target sha3 heap (heightOf c.length) leaf τ)
    (hτ' : Target sha3 heap' (heightOf c.length) leaf τ') :
    treeString (2 ^ heightOf c.length) τ = treeString (2 ^ heightOf c.length) τ' := by
  rw [leafCount_eq_pow] at hone
  exact treeString_congr fun j hj hj' => by
    rw [hτ.leaf j (by omega) hj', hτ'.leaf j (by omega) hj']

theorem Initialised.returns (hi : Initialised c) (heap : Heap) : Returns heap (readPart c) := by
  have hlen := length_readPart (c := c) (by have := hi.pos; omega)
  have hpos := hi.pos
  have hsum := leafCount_eq (readPart c).length
  have hcount := pageCount_pos (n := (readPart c).length) (by omega)
  refine ⟨hi.le, hi.ends.imp_right .inr, fun hw => ?_, fun hw i h₁ h₂ => ?_⟩
  · have hone := hi.leaf.resolve_right (not_not.2 hw)
    exact .inr (.inl (by omega))
  · have hone := hi.leaf.resolve_right (not_not.2 hw)
    rw [leafCount_eq_pow] at hone
    omega

/-- **For which files the runs on all heaps return the same**: those for which nothing
uninitialised is read. -/
theorem heapFree_iff : HeapFree sha3 c ↔ Initialised c := by
  constructor
  · intro hall
    obtain ⟨o, -, ho, -⟩ := hall .ones .ones (.blank 0 0)
    obtain ⟨hpos, -, hr, -⟩ := returns_of_computeMerkle ho
    refine ⟨hpos, hr.le, ?_, ?_⟩
    · exact hr.terminates.imp_right fun h => h.resolve_left (by decide)
    · rw [or_iff_not_imp_right, not_not]
      exact fun hw => leafCount_eq_one_of_terminated (hr.terminated hw)
  · intro hi heap heap' mt
    have hpos := hi.pos
    have hlen := length_readPart (c := c) (by omega)
    have hread : ∀ heap, computeMerkle sha3 heap (some c) mt =
        computeMerkle sha3 heap (some (readPart c)) mt := fun heap =>
      computeMerkle_readPart (by omega)
    rw [hread heap, hread heap']
    by_cases hw : WalkOk (readPart c)
    · have hone := hi.leaf.resolve_right (not_not.2 hw)
      obtain ⟨ss, τ, hss, hτ, hc⟩ := computeMerkle_of_returns sha3 mt (by omega)
        (hi.returns heap) hw
      obtain ⟨ss', τ', hss', hτ', hc'⟩ := computeMerkle_of_returns sha3 mt
        (by omega) (hi.returns heap') hw
      obtain rfl := Option.some.inj (hss.symm.trans hss')
      exact ⟨_, _, hc, hc', rfl, congrArg Result.string (treeString_eq_of_leafCount hone hτ hτ')⟩
    · obtain ⟨mt₁, hc⟩ := computeMerkle_of_not_walkOk sha3 mt (by omega) hi.le
        (hi.returns heap).terminates hw
      obtain ⟨mt₂, hc'⟩ := computeMerkle_of_not_walkOk sha3 mt (by omega) hi.le
        (hi.returns heap').terminates hw
      exact ⟨_, _, hc, hc', rfl, rfl⟩

theorem Heap.tail_eq (heap : Heap) (i : ℕ) :
    ∃ rest, heap.tail i = heap.concatTail i 0 :: heap.concatTail i 1 :: rest := by
  have hlen : PTR_SIZE * 2 * HASH_SIZE / BYTE_SIZE - 2 * (HASH_SIZE / BYTE_SIZE) = 446 + 1 + 1 :=
    rfl
  refine ⟨((List.range 446).map fun k => heap.concatTail i (k + 2)), ?_⟩
  rw [Heap.tail, hlen, List.range_succ_eq_map, List.range_succ_eq_map]
  simp

/-- Two pages of `a`, where one byte more is hashed at the root. -/
theorem not_heapFree_twoPages :
    ¬ ∀ (sha3 : List Byte → Digest) (c : List Byte), HeapFree sha3 c := by
  intro hall
  have hlen := length_pagesOfA 2
  unfold PAGE_LENGTH at hlen
  have hwalk : WalkOk (pagesOfA 2) := .inl (nulFree_pagesOfA 2)
  have hheight : heightOf (pagesOfA 2).length = 2 := by
    rw [heightOf, pageCount_pagesOfA]
    decide
  have hret := returns_of_nulFree (nulFree_pagesOfA 2) (by omega)
  have hret' : Returns .mark (pagesOfA 2) :=
    ⟨hret.le, .inr (.inl rfl), hret.free, fun _ i _ _ => List.mem_map.2 ⟨1, by decide, by
      simp [Heap.mark]⟩⟩
  obtain ⟨o, o', ho, ho', -, hresult⟩ :=
    hall (fun l => if l.length = 64 then zeroDigest else onesDigest) (pagesOfA 2) .nul .mark
      (.blank 0 0)
  obtain ⟨ss, τ, hss, hτ, hc⟩ := computeMerkle_of_returns _ (.blank 0 0) (by omega) hret hwalk
  obtain ⟨ss', τ', hss', hτ', hc'⟩ := computeMerkle_of_returns _ (.blank 0 0) (by omega) hret'
    hwalk
  rw [hc] at ho
  rw [hc'] at ho'
  cases ho
  cases ho'
  -- the root is hashed from 64 bytes with one heap, and from 65 with the other
  obtain ⟨-, hroot⟩ := treeString_inj (heightOf_pos _) (heightOf_pos _)
    (fun j hj hj' => isHash_target hτ hj hj') (fun j hj hj' => isHash_target hτ' hj hj')
    (Result.string.inj hresult)
  have hlength : ∀ {heap : Heap} {τ : ℕ → CStr} {leaf : ℕ → CStr}
      {H : List Byte → Digest}, Target H heap (heightOf (pagesOfA 2).length) leaf τ →
      (concat heap 1 (τ 2) (τ 3)).bytes.length = 64 + (CStr.ofBlock (heap.tail 1)).strlen := by
    intro heap τ leaf H hτ
    have h₂ := strlen_target hτ (i := 2) (by norm_num) (by rw [hheight]; norm_num)
    have h₃ := strlen_target hτ (i := 3) (by norm_num) (by rw [hheight]; norm_num)
    rw [bytes_concat h₂ h₃]
    unfold CStr.strlen at *
    simp only [List.length_append, List.length_take]
    omega
  have hinner := hτ.inner 1 le_rfl (by rw [hheight]; norm_num)
  have hinner' := hτ'.inner 1 le_rfl (by rw [hheight]; norm_num)
  have htail : (CStr.ofBlock (Heap.nul.tail 1)).strlen = 0 := by
    obtain ⟨rest, hrest⟩ := Heap.tail_eq .nul 1
    rw [hrest]
    rfl
  have htail' : (CStr.ofBlock (Heap.mark.tail 1)).strlen = 1 := by
    obtain ⟨rest, hrest⟩ := Heap.tail_eq .mark 1
    rw [hrest]
    rfl
  have heq := hroot 1 le_rfl (by rw [hheight]; norm_num)
  rw [hinner, hinner', parentHash, parentHash, if_pos (by rw [hlength hτ, htail]),
    if_neg (by rw [hlength hτ', htail']; norm_num)] at heq
  exact absurd heq (by decide)

end MerkleFs
