import MerkleFs.Parse.Compute

/-!
# Files with the same leaves

The filler pages behind the last page of a file are the string `" "`, which is also the last page
of a file that ends in a single space on a page of its own.  This file proves that this is the
only way in which two files without a NUL get the same leaves.

* `leafStrings_eq_iff` : when the pages and filler pages of two files are the same.
* `hands_eq_iff` : the same for what `compute_merkle` hands to `build_tree`.
-/

namespace MerkleFs

/-- The strings `compute_merkle` hands to `build_tree` for the leaves of a file. -/
def Hands (heap : Heap) (c : List Byte) (ss : List CStr) : Prop :=
  ∃ fileSize fileString p, readFile heap c = .ok (fileSize, fileString) ∧
    parsePages fileSize fileString = .ok p ∧ walk p.slots p.treeSize 0 = some ss

/-- `c'` has one space more than `c`, where `c` has only full pages and needs filler pages. -/
def SpaceBehind (c c' : List Byte) : Prop :=
  c' = c ++ filler.bytes ∧ PAGE_LENGTH ∣ c.length ∧ padding c.length ≠ 0

variable {heap heap' : Heap} {c c' : List Byte} {ss ss' : List CStr} {i j n : ℕ}

/-! ### Pages -/

theorem PAGE_LENGTH_pos : 0 < PAGE_LENGTH := by
  unfold PAGE_LENGTH
  norm_num

theorem getElem?_pageOf (hfree : 0 ∉ c) (j : ℕ) :
    (pageOf c (j / PAGE_LENGTH)).bytes[j % PAGE_LENGTH]? = (c)[j]? := by
  rw [bytes_pageOf hfree, List.getElem?_take, if_pos (Nat.mod_lt _ PAGE_LENGTH_pos),
    List.getElem?_drop, Nat.div_add_mod']

theorem eq_of_pageOf (hfree : 0 ∉ c) (hfree' : 0 ∉ c') (hpage : ∀ i, pageOf c i = pageOf c' i) :
    c = c' := by
  refine List.ext_getElem? fun j => ?_
  rw [← getElem?_pageOf hfree, ← getElem?_pageOf hfree', hpage]

theorem strlen_pageOf (hfree : 0 ∉ c) :
    (pageOf c i).strlen = min PAGE_LENGTH (c.length - i * PAGE_LENGTH) := by
  rw [CStr.strlen, bytes_pageOf hfree, List.length_take, List.length_drop]

theorem strlen_pageOf_eq_iff (hfree : 0 ∉ c) :
    (pageOf c i).strlen = PAGE_LENGTH ↔ (i + 1) * PAGE_LENGTH ≤ c.length := by
  have hpos := PAGE_LENGTH_pos
  rw [strlen_pageOf hfree, Nat.succ_mul]
  omega

theorem pageOf_of_pageCount_le (hi : pageCount c.length ≤ i) : pageOf c i = .nil :=
  pageOf_of_le (pageCount_le_iff.1 hi)

theorem pageOf_append_self (hc : PAGE_LENGTH ∣ c.length) {t : CStr} (ht : t.strlen ≤ PAGE_LENGTH) :
    pageOf (c ++ t.bytes) (c.length / PAGE_LENGTH) = t := by
  rw [pageOf, Nat.div_mul_cancel hc, List.drop_left, List.take_of_length_le ht, CStr.ofBlock_bytes]

/-! ### Leaves -/

theorem length_leafStrings (c : List Byte) : (leafStrings c).length = leafCount c.length := by
  rw [leafStrings, List.length_append, List.length_map, List.length_range, List.length_replicate,
    leafCount_eq]

theorem pageOf_eq_of_leafStrings (heq : leafStrings c = leafStrings c')
    (hi : i < pageCount c.length) (hi' : i < pageCount c'.length) : pageOf c i = pageOf c' i := by
  have := congrArg (·[i]?) heq
  simpa only [getElem?_leafStrings, if_pos hi, if_pos hi', Option.some.injEq] using this

theorem eq_of_leafStrings_of_pageCount (hfree : 0 ∉ c) (hfree' : 0 ∉ c')
    (heq : leafStrings c = leafStrings c') (hcount : pageCount c.length = pageCount c'.length) :
    c = c' := by
  refine eq_of_pageOf hfree hfree' fun i => ?_
  rcases Nat.lt_or_ge i (pageCount c.length) with hi | hi
  · exact pageOf_eq_of_leafStrings heq hi (hcount ▸ hi)
  · rw [pageOf_of_pageCount_le hi, pageOf_of_pageCount_le (hcount ▸ hi)]

/-- A file with more pages has exactly one more, which is the filler page. -/
theorem spaceBehind_of_pageCount_lt (hfree : 0 ∉ c) (hfree' : 0 ∉ c') (hn : 1 ≤ c.length)
    (heq : leafStrings c = leafStrings c') (hcount : pageCount c.length < pageCount c'.length) :
    SpaceBehind c c' := by
  have hleaf : leafCount c.length = leafCount c'.length := by
    rw [← length_leafStrings, heq, length_leafStrings]
  have hpos := pageCount_pos hn
  have hle' := pageCount_le_leafCount c'.length
  have hspace : filler.strlen = 1 := rfl
  -- the page of `c'` behind the pages of `c` is a filler page of `c`
  have hfill : pageOf c' (pageCount c.length) = filler := by
    have := congrArg (·[pageCount c.length]?) heq
    rw [getElem?_leafStrings, getElem?_leafStrings, if_neg (by omega), if_pos (by omega),
      if_pos hcount] at this
    exact (Option.some.inj this).symm
  have hend : c'.length = pageCount c.length * PAGE_LENGTH + 1 := by
    have hlen := strlen_pageOf (i := pageCount c.length) hfree'
    rw [hfill, hspace] at hlen
    unfold PAGE_LENGTH at *
    omega
  -- so the pages before it are full, in both files
  have hfull : c.length = pageCount c.length * PAGE_LENGTH := by
    have hlast := pageOf_eq_of_leafStrings (i := pageCount c.length - 1) heq (by omega) (by omega)
    have hlen' := (strlen_pageOf_eq_iff (i := pageCount c.length - 1) hfree').2
      (by rw [Nat.sub_add_cancel hpos]; omega)
    rw [← hlast, strlen_pageOf_eq_iff hfree, Nat.sub_add_cancel hpos] at hlen'
    exact le_antisymm (pageCount_le_iff.1 le_rfl) hlen'
  have hdvd : PAGE_LENGTH ∣ c.length := hfull ▸ Nat.dvd_mul_left _ _
  refine ⟨?_, hdvd, by unfold padding; omega⟩
  have hfree'' : 0 ∉ c ++ filler.bytes := fun h0 =>
    (List.mem_append.1 h0).elim hfree filler.nulFree
  have hcount' : pageCount (c ++ filler.bytes).length = pageCount c.length + 1 := by
    have : (c ++ filler.bytes).length = c.length + 1 := List.length_append
    rw [this, pageCount_of_not_dvd (by unfold PAGE_LENGTH at *; omega), pageCount_of_dvd hdvd]
    unfold PAGE_LENGTH at *
    omega
  refine eq_of_pageOf hfree' hfree'' fun i => ?_
  rcases Nat.lt_trichotomy i (pageCount c.length) with hi | rfl | hi
  · rw [← pageOf_eq_of_leafStrings heq hi (by omega), pageOf_append]
    rw [hfull]
    exact Nat.mul_le_mul_right _ hi
  · rw [hfill, pageCount_of_dvd hdvd,
      pageOf_append_self hdvd (by rw [hspace]; exact PAGE_LENGTH_pos)]
  · rw [pageOf_of_le (by rw [hend]; unfold PAGE_LENGTH at *; omega),
      pageOf_of_pageCount_le (by rw [hcount']; exact hi)]

/-- A space on a page of its own takes the place of a filler page. -/
theorem leafStrings_eq_of_spaceBehind (hs : SpaceBehind c c') :
    leafStrings c = leafStrings c' := by
  obtain ⟨rfl, hdvd, hpad⟩ := hs
  have hspace : filler.strlen ≤ PAGE_LENGTH := PAGE_LENGTH_pos
  have hlen : (c ++ filler.bytes).length = c.length + 1 := List.length_append
  have hcount := pageCount_of_dvd hdvd
  have hcount' : pageCount (c.length + 1) = pageCount c.length + 1 := by
    rw [pageCount_of_not_dvd (by unfold PAGE_LENGTH at *; omega), hcount]
    unfold PAGE_LENGTH at *
    omega
  have hleaf : leafCount (c.length + 1) = leafCount c.length := by
    have hclog : Nat.clog 2 (pageCount c.length + 1) = Nat.clog 2 (pageCount c.length) := by
      refine le_antisymm ?_ (Nat.clog_mono_right 2 (by omega))
      have hle : pageCount c.length + 1 ≤ leafCount c.length := by
        have := leafCount_eq c.length
        omega
      exact (Nat.clog_le_iff_le_pow Nat.one_lt_two).2 hle
    rw [leafCount, leafCount, hcount', hclog]
  refine List.ext_getElem? fun i => ?_
  have hsum := leafCount_eq c.length
  rw [getElem?_leafStrings, getElem?_leafStrings, hlen, hleaf, hcount']
  rcases Nat.lt_trichotomy i (pageCount c.length) with hi | rfl | hi
  · rw [if_pos hi, if_pos (by omega), pageOf_append]
    exact (Nat.mul_le_mul_right _ (hcount ▸ hi)).trans (Nat.div_mul_le_self _ _)
  · rw [if_neg (by omega), if_pos (by omega), if_pos (by omega)]
    rw [hcount, pageOf_append_self hdvd hspace]
  · rw [if_neg (show ¬ i < pageCount c.length by omega),
      if_neg (show ¬ i < pageCount c.length + 1 by omega)]

/-- **When two files without a NUL have the same leaves.** -/
theorem leafStrings_eq_iff (hfree : 0 ∉ c) (hfree' : 0 ∉ c') (hn : 1 ≤ c.length)
    (hn' : 1 ≤ c'.length) :
    leafStrings c = leafStrings c' ↔ c = c' ∨ SpaceBehind c c' ∨ SpaceBehind c' c := by
  constructor
  · intro heq
    rcases Nat.lt_trichotomy (pageCount c.length) (pageCount c'.length) with hlt | heq' | hgt
    · exact .inr (.inl (spaceBehind_of_pageCount_lt hfree hfree' hn heq hlt))
    · exact .inl (eq_of_leafStrings_of_pageCount hfree hfree' heq heq')
    · exact .inr (.inr (spaceBehind_of_pageCount_lt hfree' hfree hn' heq.symm hgt))
  · rintro (rfl | hs | hs)
    · rfl
    · exact leafStrings_eq_of_spaceBehind hs
    · exact (leafStrings_eq_of_spaceBehind hs).symm

/-! ### What `compute_merkle` hands over -/

theorem hands_leafStrings (hfree : 0 ∉ c) (hn : 1 ≤ c.length) (hn' : c.length ≤ 2 ^ 30)
    (hterm : Terminates heap c) : Hands heap c (leafStrings c) :=
  ⟨_, _, _, readFile_eq hn', parsePages_eq hn hn' hterm, walk_slotsOf hfree⟩

/-- Nothing else is. -/
theorem Hands.eq (hs : Hands heap c ss) (hfree : 0 ∉ c) (hn : 1 ≤ c.length)
    (hmax : c.length ≤ INT_MAX) : ss = leafStrings c := by
  obtain ⟨fileSize, fileString, p, hread, hparse, hwalk⟩ := hs
  have hn' : c.length ≤ 2 ^ 30 := by
    by_contra hlarge
    obtain ⟨rfl, -⟩ := fileSize_of_readFile hmax hread
    rw [parsePages_overflow (by omega) (by unfold INT_MAX at hmax; omega)] at hparse
    cases hparse
  rw [readFile_eq hn'] at hread
  cases hread
  by_cases hterm : Terminates heap c
  · rw [parsePages_eq hn hn' hterm] at hparse
    cases hparse
    rw [walk_slotsOf hfree] at hwalk
    exact (Option.some.inj hwalk).symm
  · rw [parsePages_bounds hn hn' hterm] at hparse
    cases hparse

/-- **Two files without a NUL get the same leaves only if they are the same**, or one has one
space more than the other on a page of its own, in the place of a filler page. -/
theorem hands_eq_iff (hfree : 0 ∉ c) (hfree' : 0 ∉ c') (hn : 1 ≤ c.length) (hn' : 1 ≤ c'.length)
    (hmax : c.length ≤ INT_MAX) (hmax' : c'.length ≤ INT_MAX) (hs : Hands heap c ss)
    (hs' : Hands heap' c' ss') : ss = ss' ↔ c = c' ∨ SpaceBehind c c' ∨ SpaceBehind c' c := by
  rw [hs.eq hfree hn hmax, hs'.eq hfree' hn' hmax', leafStrings_eq_iff hfree hfree' hn hn']

/-- The files `a` and `b`. -/
theorem hands_a_b : leafStrings [byteOf 'a'] = leafStrings [byteOf 'b'] ↔
    [byteOf 'a'] = [byteOf 'b'] ∨ SpaceBehind [byteOf 'a'] [byteOf 'b'] ∨
      SpaceBehind [byteOf 'b'] [byteOf 'a'] :=
  hands_eq_iff (by decide) (by decide) (by decide) (by decide) (by decide) (by decide)
    (hands_leafStrings (by decide) (by decide) (by decide) terminates_nul)
    (hands_leafStrings (by decide) (by decide) (by decide) terminates_nul)

/-- Three pages of `a` have the same leaves with and without a space behind them. -/
theorem not_hands_ne_space : ¬ ∀ (heap : Heap) (c c' : List Byte) (ss ss' : List CStr), 0 ∉ c →
    0 ∉ c' → 1 ≤ c.length → 1 ≤ c'.length → c.length ≤ INT_MAX → c'.length ≤ INT_MAX → c ≠ c' →
    Hands heap c ss → Hands heap c' ss' → ss ≠ ss' := by
  intro hall
  obtain ⟨c, hc⟩ : ∃ c, c = pagesOfA 3 := ⟨_, rfl⟩
  have hlen : c.length = 3 * PAGE_LENGTH := hc ▸ length_pagesOfA 3
  have hfree : 0 ∉ c := hc ▸ nulFree_pagesOfA 3
  have hlen' : (c ++ filler.bytes).length = 3 * PAGE_LENGTH + 1 := by
    rw [List.length_append, hlen]
    rfl
  have hfree' : 0 ∉ c ++ filler.bytes := fun h0 =>
    (List.mem_append.1 h0).elim hfree filler.nulFree
  have hdvd : PAGE_LENGTH ∣ c.length := hlen ▸ Nat.dvd_mul_left _ _
  have hpad : padding c.length ≠ 0 := by
    rw [padding, leafCount, hc, pageCount_pagesOfA]
    decide
  have hhands := hands_leafStrings hfree (by rw [hlen]; unfold PAGE_LENGTH; norm_num)
    (by rw [hlen]; unfold PAGE_LENGTH; norm_num) (terminates_nul (c := c))
  have hhands' := hands_leafStrings hfree' (by rw [hlen']; unfold PAGE_LENGTH; norm_num)
    (by rw [hlen']; unfold PAGE_LENGTH; norm_num) (terminates_nul (c := c ++ filler.bytes))
  refine hall .nul c (c ++ filler.bytes) _ _ hfree hfree' ?_ ?_ ?_ ?_ ?_ hhands hhands'
    (leafStrings_eq_of_spaceBehind ⟨rfl, hdvd, hpad⟩)
  · rw [hlen]; unfold PAGE_LENGTH; norm_num
  · rw [hlen']; unfold PAGE_LENGTH; norm_num
  · rw [hlen]; unfold PAGE_LENGTH INT_MAX; norm_num
  · rw [hlen']; unfold PAGE_LENGTH INT_MAX; norm_num
  · intro heq
    have := congrArg List.length heq
    omega

end MerkleFs
