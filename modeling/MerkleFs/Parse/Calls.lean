import MerkleFs.Parse.Pages
import MerkleFs.Parse.Quick

/-!
# Which leaves a write changes

`bb_write` passes an offset and a size to `quick_change` and `pages_in_need`, which take `int`s.
From these they compute page numbers, and from the page numbers the indexes of the leaves to
change.

* `exactPages_iff` : the page numbers are right for the writes that end at an `int`.
* `onlyLeaves_iff` : the indexes are those of leaves when a page at a page boundary is in the
  doubled tree, and the last page of any other write is in the tree.
-/

namespace MerkleFs

variable {sha3 : List Byte → Digest} {heap : Heap} {mt mt' : MerkleTree} {h i : ℕ}
  {size offset fileSize : ℕ} {x : ℤ}

/-! ### Page numbers -/

/-- The narrowed offset and size of a write give its pages, and `quick_change` takes the write for
one at a page boundary when it is. -/
def ExactPages (size offset : ℕ) : Prop :=
  isFull (intOf offset) = decide (PAGE_LENGTH ∣ offset) ∧
    (PAGE_LENGTH ∣ offset → pageToChange (intOf offset) = (firstPage offset : ℕ)) ∧
    pageRange (intOf size) (intOf offset) =
      .ok ((firstPage offset : ℕ), (lastPage offset size : ℕ))

theorem intOf_emod (x : ℤ) : intOf x % 2 ^ 32 = x % 2 ^ 32 := Int.bmod_emod

theorem dvd_intOf (n : ℕ) : (PAGE_LENGTH : ℤ) ∣ intOf n ↔ PAGE_LENGTH ∣ n := by
  have := intOf_emod n
  unfold PAGE_LENGTH
  omega

theorem isFull_intOf (n : ℕ) : isFull (intOf n) = decide (PAGE_LENGTH ∣ n) := by
  rw [isFull]
  exact decide_eq_decide.2 (by rw [← Int.dvd_iff_tmod_eq_zero, dvd_intOf])

theorem le_of_lastPage (hx : x ≤ INT_MAX)
    (hpage : 32767 ≤ x.tdiv PAGE_LENGTH - (if isFull x then 1 else 0)) :
    32767 * (PAGE_LENGTH : ℤ) < x ∧ x.tdiv PAGE_LENGTH - (if isFull x then 1 else 0) = 32767 := by
  have hpos : 0 ≤ x := by
    by_contra hneg
    obtain ⟨n, hn⟩ := Int.eq_ofNat_of_zero_le (show 0 ≤ -x by omega)
    have hquot : 0 ≤ (-x).tdiv PAGE_LENGTH := by
      rw [hn]
      exact Int.natCast_nonneg (n / PAGE_LENGTH)
    rw [Int.neg_tdiv] at hquot
    split_ifs at hpage <;> omega
  obtain ⟨n, rfl⟩ := Int.eq_ofNat_of_zero_le hpos
  rw [isFull_eq, ← Int.ofNat_tdiv] at *
  unfold PAGE_LENGTH INT_MAX at *
  split_ifs at * with hfull <;> simp only [decide_eq_true_eq] at hfull <;> omega

theorem le_lastPage (hlarge : INT_MAX < offset + size) : 32767 ≤ lastPage offset size := by
  refine (Nat.le_div_iff_mul_le PAGE_LENGTH_pos).2 ?_
  unfold INT_MAX at hlarge
  unfold PAGE_LENGTH
  omega

theorem lt_of_lastPage_eq (hpage : lastPage offset size = 32767) : offset + size ≤ 2 ^ 31 := by
  have : offset + size - 1 < 32768 * PAGE_LENGTH :=
    (Nat.div_lt_iff_lt_mul PAGE_LENGTH_pos).1 (hpage.trans_lt (by norm_num))
  unfold PAGE_LENGTH at this
  omega

/-- **The page numbers are right for the writes that end at an `int`.** -/
theorem exactPages_iff (hsize : 1 ≤ size) : ExactPages size offset ↔ offset + size ≤ INT_MAX := by
  constructor
  · rintro ⟨-, -, hrange⟩
    by_contra hlarge
    obtain ⟨last, hlast, hpages⟩ := Run.bind_eq_ok.1 hrange
    obtain ⟨hlow, hhigh⟩ := checkInt_eq_ok hlast
    rw [checkInt, if_pos ⟨hlow, hhigh⟩] at hlast
    have hpage := (Prod.mk.inj (Except.ok.inj hpages)).2
    rw [← Except.ok.inj hlast] at hpage
    -- both last pages are number 32767, so the write ends at `2^31`
    have htrue := le_lastPage (not_le.1 hlarge)
    obtain ⟨hbyte, hlast⟩ := le_of_lastPage hhigh (by rw [hpage]; exact_mod_cast htrue)
    have hend := lt_of_lastPage_eq (by rw [hpage] at hlast; exact_mod_cast hlast)
    have hmod : (intOf offset + intOf size) % 2 ^ 32 = 2 ^ 31 := by
      rw [Int.add_emod, intOf_emod, intOf_emod, ← Int.add_emod, ← Nat.cast_add,
        show offset + size = 2 ^ 31 by unfold INT_MAX at hlarge; omega]
      norm_num
    unfold INT_MAX at hhigh
    unfold PAGE_LENGTH at hbyte
    omega
  · intro hmax
    have hint : ∀ n ≤ INT_MAX, intOf (n : ℕ) = (n : ℕ) := fun n hn =>
      intOf_of_lt (Int.natCast_nonneg n) (by exact_mod_cast hn)
    refine ⟨isFull_intOf offset, fun _ => ?_, ?_⟩
    · rw [hint offset (by omega)]
      exact tdiv_offset offset
    · rw [hint offset (by omega), hint size (by omega)]
      exact pageRange_eq hsize hmax

/-- A write to the first page of a file. -/
theorem exactPages_one : ExactPages 1 0 := (exactPages_iff le_rfl).2 (by decide)

/-- A write behind the first 4 GiB of a file is taken for one to its first page. -/
theorem not_exactPages_large :
    ¬ ∀ size offset : ℕ, 1 ≤ size → offset + size < 2 ^ 63 → ExactPages size offset := by
  intro hall
  obtain ⟨-, hpage, -⟩ := hall 1 (2 ^ 32) le_rfl (by norm_num)
  exact absurd (hpage (by decide)) (by decide)

/-! ### Indexes -/

/-- An index of a leaf of the tree. -/
def IsLeaf (mt : MerkleTree) (index : ℤ) : Prop :=
  (2 ^ (mt.treeHeight - 1) : ℕ) ≤ index ∧ index < (2 ^ mt.treeHeight : ℕ)

/-- For a tree with `h` levels and a file of `fileSize` bytes, both functions pass indexes of
leaves to `change_and_rebuild` only. -/
def OnlyLeaves (h fileSize size offset : ℕ) : Prop :=
  ∀ sha3 heap mt, Shape h mt →
    (∀ newMt index, quickCall sha3 heap offset mt = .ok (some (newMt, index)) →
      IsLeaf newMt index) ∧
    ∀ c indexes datas, c.length = fileSize →
      pagesCall heap size offset mt c = .ok (some (indexes, datas)) →
        ∀ index ∈ indexes, IsLeaf mt index

theorem Shape.isLeaf_iff (hs : Shape h mt) : IsLeaf mt i ↔ 2 ^ (h - 1) ≤ i ∧ i < 2 ^ h := by
  rw [IsLeaf, hs.treeHeight]
  exact and_congr Int.ofNat_le Int.ofNat_lt

theorem isLeaf_of_quickCall (hs : Shape h mt) (hp : PAGE_LENGTH ∣ offset → firstPage offset < 2 ^ h)
    {newMt : MerkleTree} {index : ℤ}
    (hcall : quickCall sha3 heap offset mt = .ok (some (newMt, index))) : IsLeaf newMt index := by
  have hpow := BinTree.two_pow_pred hs.pos
  by_cases hdvd : PAGE_LENGTH ∣ offset
  · rcases Nat.lt_or_ge (firstPage offset) (2 ^ (h - 1)) with hin | hout
    · rw [quickCall_of_lt hs hdvd hin] at hcall
      cases hcall
      exact hs.isLeaf_iff.2 ⟨by omega, by omega⟩
    · rw [quickCall_of_ge _ _ hs hdvd hout] at hcall
      obtain ⟨q, hbig, hcall⟩ := Run.bind_eq_ok.1 hcall
      have hheight := getBiggerTree_treeHeight hbig
      rw [hs.treeHeight] at hheight
      cases hcall
      have hpage := hp hdvd
      rw [IsLeaf, hheight, Nat.add_sub_cancel_left, Nat.pow_add, pow_one]
      exact ⟨Int.ofNat_le.2 (by omega), Int.ofNat_lt.2 (by omega)⟩
  · rw [quickCall, isFull_eq, decide_eq_false hdvd, if_neg (by decide)] at hcall
    cases hcall

theorem isLeaf_of_pagesCall (hs : Shape h mt) {c : List Byte} (hmax : c.length ≤ INT_MAX)
    (hsize : 1 ≤ size) (hend : offset + size ≤ c.length)
    (hp : 2 ^ (h - 1) < c.length / PAGE_LENGTH ∨ lastPage offset size < 2 ^ (h - 1))
    {indexes : List ℤ} {datas : ℕ → Ptr} {index : ℤ}
    (hcall : pagesCall heap size offset mt c = .ok (some (indexes, datas)))
    (hindex : index ∈ indexes) : IsLeaf mt index := by
  have hpow := BinTree.two_pow_pred hs.pos
  obtain ⟨⟨n, b⟩, hread, hcall⟩ := Run.bind_eq_ok.1 hcall
  have hn := (fileSize_of_readFile hmax hread).1
  simp only [hn] at hcall
  split_ifs at hcall with hroom
  · cases hcall
  rw [pageRange_eq hsize (hend.trans hmax), Run.ok_bind] at hcall
  simp only [hs.shl1_eq, Run.ok_bind] at hcall
  split_ifs at hcall with hrange
  obtain ⟨_, -, hcall⟩ := Run.bind_eq_ok.1 hcall
  obtain ⟨newDatas, -, hcall⟩ := Run.bind_eq_ok.1 hcall
  cases hcall
  obtain ⟨i, hi, rfl⟩ := List.mem_map.1 hindex
  rw [List.mem_range] at hi
  rw [hs.nbNodes] at hroom
  have hfirst := firstPage_le_lastPage offset hsize
  rw [← Nat.cast_add, ← Nat.cast_add, hs.isLeaf_iff]
  omega

/-- A tree of filler pages. -/
def fillerTree (h : ℕ) : MerkleTree := hashTree (2 ^ h) h fun _ => fillerHash

theorem shape_fillerTree (hh : 1 ≤ h) (hh' : h ≤ 30) : Shape h (fillerTree h) :=
  ⟨hh, hh', hashTree_nbNodes, hashTree_treeHeight⟩

theorem getBiggerTree_fillerTree (sha3 : List Byte → Digest) (hh : 1 ≤ h) (hh' : h + 1 ≤ 30) :
    ∃ newMt, getBiggerTree sha3 .nul (fillerTree h) = .ok (0, newMt) ∧ Shape (h + 1) newMt := by
  have hpow := BinTree.two_pow_pred hh
  obtain ⟨τ', hτ'⟩ := exists_target sha3 .nul (h + 1) fun _ => filler
  have hold : ∀ i < 2 ^ (h - 1), ((fillerTree h).nodes (2 ^ (h - 1) + i)).hash =
      some (τ' (2 ^ h + i)) := fun i hi => by
    rw [fillerTree, hashTree_hash (by omega) (by omega),
      hτ'.leaf _ (by rw [Nat.add_sub_cancel]; omega) (by rw [pow_succ]; omega), leafHash,
      if_pos rfl]
  obtain ⟨newMt, hbig, hs, -⟩ := getBiggerTree_eq (shape_fillerTree hh (by omega)) hh'
    Heap.terminated_nul hτ' hold fun _ _ _ => rfl
  exact ⟨newMt, hbig, hs⟩

/-- A write to a page behind the doubled tree changes a node that is no leaf. -/
theorem OnlyLeaves.firstPage_lt (hall : OnlyLeaves h fileSize size offset) (hh : 1 ≤ h)
    (hh' : h ≤ 30) (hmax : offset ≤ INT_MAX) (hdvd : PAGE_LENGTH ∣ offset) :
    firstPage offset < 2 ^ h := by
  by_contra hout
  have hpow := BinTree.two_pow_pred hh
  have hpage : firstPage offset < 2 ^ 15 := by
    unfold firstPage PAGE_LENGTH INT_MAX at *
    omega
  have hheight : h < 15 :=
    (Nat.pow_lt_pow_iff_right Nat.one_lt_two).1 ((not_lt.1 hout).trans_lt hpage)
  obtain ⟨newMt, hbig, hs⟩ := getBiggerTree_fillerTree (fun _ => zeroDigest) hh (by omega)
  have hcall := quickCall_of_ge (fun _ => zeroDigest) .nul
    (shape_fillerTree hh hh') hdvd (by omega)
  rw [hbig] at hcall
  have hleaf := (hall _ _ _ (shape_fillerTree hh hh')).1 _ _ hcall
  rw [hs.isLeaf_iff, pow_succ] at hleaf
  omega

/-- A write whose last page is behind the tree changes a node that is no leaf, unless the file has
too many full pages for the tree. -/
theorem OnlyLeaves.lastPage_lt (hall : OnlyLeaves h fileSize size offset) (hh : 1 ≤ h)
    (hh' : h ≤ 30) (hmax : fileSize ≤ INT_MAX) (hsize : 1 ≤ size) (hend : offset + size ≤ fileSize)
    (hroom : fileSize / PAGE_LENGTH ≤ 2 ^ (h - 1)) : lastPage offset size < 2 ^ (h - 1) := by
  by_contra hout
  have hpow := BinTree.two_pow_pred hh
  set c := List.replicate fileSize (byteOf 'a') with hc
  have hlen : c.length = fileSize := List.length_replicate
  have hfree : 0 ∉ c := fun h0 => absurd (List.eq_of_mem_replicate h0) (by decide)
  have hlast := lastPage_mul_lt hsize (by omega : offset + size ≤ c.length)
  obtain ⟨n, hn⟩ : ∃ n, lastPage offset size = firstPage offset + n :=
    ⟨_, lastPage_eq_add offset hsize⟩
  have hpage : lastPage offset size < 2 ^ 15 := by
    unfold PAGE_LENGTH INT_MAX at *
    omega
  have hleaves : 2 ^ (h - 1) ≤ 2 ^ 14 := by
    have : h - 1 < 15 := (Nat.pow_lt_pow_iff_right Nat.one_lt_two).1 (by omega)
    exact Nat.pow_le_pow_right (by norm_num) (by omega)
  have hmax' : c.length + PAGE_LENGTH < INT_MAX := by
    unfold PAGE_LENGTH INT_MAX at *
    omega
  have hcall := pagesCall_eq (shape_fillerTree hh hh') (rfl : Heap.nul.fileTail = 0) hmax'
    (by rwa [hlen]) hsize (by omega) hn
  have hleaf := (hall (fun _ => zeroDigest) _ _ (shape_fillerTree hh hh')).2 c _ _ hlen hcall
    (2 ^ (h - 1) + lastPage offset size : ℕ)
    (List.mem_map_of_mem (List.mem_range'_1.2 ⟨by omega, by omega⟩))
  rw [(shape_fillerTree hh hh').isLeaf_iff] at hleaf
  omega

/-- **When only indexes of leaves are passed to `change_and_rebuild`.** -/
theorem onlyLeaves_iff (hh : 1 ≤ h) (hh' : h ≤ 30) (hmax : fileSize ≤ INT_MAX) (hsize : 1 ≤ size)
    (hend : offset + size ≤ fileSize) : OnlyLeaves h fileSize size offset ↔
      (PAGE_LENGTH ∣ offset → firstPage offset < 2 ^ h) ∧
        (2 ^ (h - 1) < fileSize / PAGE_LENGTH ∨ lastPage offset size < 2 ^ (h - 1)) := by
  constructor
  · intro hall
    refine ⟨hall.firstPage_lt hh hh' (by omega), or_iff_not_imp_left.2 fun hroom => ?_⟩
    exact hall.lastPage_lt hh hh' hmax hsize hend (by omega)
  · rintro ⟨hfirst, hlast⟩ sha3 heap mt hs
    refine ⟨fun newMt index hcall => isLeaf_of_quickCall hs hfirst hcall, ?_⟩
    rintro c indexes datas rfl hcall index hindex
    exact isLeaf_of_pagesCall hs hmax hsize hend hlast hcall hindex

/-- A write to the only page of a file, for a tree with one leaf. -/
theorem onlyLeaves_one : OnlyLeaves 1 1 1 0 :=
  (onlyLeaves_iff le_rfl (by norm_num) (by decide) le_rfl le_rfl).2
    ⟨fun _ => by decide, .inr (by decide)⟩

/-- A write to the second page of a file, for a tree with one leaf. -/
theorem not_onlyLeaves_secondPage : ¬ ∀ h fileSize size offset : ℕ, 1 ≤ h → h ≤ 30 →
    fileSize ≤ INT_MAX → 1 ≤ size → offset + size ≤ fileSize →
      OnlyLeaves h fileSize size offset := by
  intro hall
  have hlt := (hall 1 65538 1 65537 le_rfl (by norm_num) (by decide) le_rfl le_rfl).lastPage_lt
    le_rfl (by norm_num) (by decide) le_rfl le_rfl (by decide)
  exact absurd hlt (by decide)

end MerkleFs
