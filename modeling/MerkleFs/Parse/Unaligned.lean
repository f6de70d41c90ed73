import MerkleFs.Parse.Aligned
import MerkleFs.Parse.Pages

/-!
# Writes inside a page

`pages_in_need` agrees with `compute_merkle` on the file after a write when the last page of the
write is the last page of the file and not full: a full page is put into its leaf without its last
byte.

* `newLeaf_eq` : then the leaves are those of the file after the write.
* `agreesUnaligned_iff` : when `pages_in_need` agrees with `compute_merkle`.
-/

namespace MerkleFs

/-- Whenever `pages_in_need` returns `0` for a write to a file with a stored tree, it gives the
string that `compute_merkle` gives for the file after the write.  The byte behind the buffer a
file is read into is NUL. -/
def AgreesUnaligned (c data : List Byte) (offset : ℕ) : Prop :=
  ∀ sha3 heap s mt o, heap.fileTail = 0 → Gives sha3 heap c s → stringToTree s = .ok mt →
    pagesInNeed sha3 heap data.length offset mt (some (pwrite c data offset)) = .ok o →
      o.code = 0 → ∃ s', o.result = .string s' ∧ Gives sha3 heap (pwrite c data offset) s'

variable {sha3 : List Byte → Digest} {heap : Heap} {c c' data : List Byte} {offset i f n : ℕ}
  {mt : MerkleTree} {τ : ℕ → CStr} {o : Outcome}

/-! ### The new leaves -/

theorem getElem?_newStrings (hi : f ≤ i) (hi' : i ≤ f + n) : (newStrings c f n)[i - f]? =
    some (if i = f + n then cutPage c i else pageOf c i) := by
  have hlen : ((List.range' f n).map (pageOf c)).length = n := by
    rw [List.length_map, List.length_range']
  unfold newStrings
  split_ifs with hlast
  · rw [List.getElem?_append_right (by omega), hlen, hlast, show f + n - f - n = 0 by omega]
    rfl
  · rw [List.getElem?_append_left (by omega), List.getElem?_map,
      List.getElem?_range' (by omega), Option.map_some]
    congr 2
    omega

theorem newLeaf_page (hi : f ≤ i) (hi' : i ≤ f + n) : newLeaf c c' f n (leafCount c.length + i) =
    if i = f + n then cutPage c' i else pageOf c' i := by
  rw [newLeaf, if_pos (by omega), leafAt, List.getD_eq_getElem?_getD,
    show leafCount c.length + i - (leafCount c.length + f) = i - f by omega,
    getElem?_newStrings hi hi', Option.getD_some]

theorem newLeaf_old (hi : i < f ∨ f + n < i) : newLeaf c c' f n (leafCount c.length + i) =
    leafAt (leafCount c.length) (leafStrings c) (leafCount c.length + i) := by
  rw [newLeaf, if_neg (by omega)]

/-- **The leaves of the file after a write**, when its last page is not full. -/
theorem newLeaf_eq (hfree : 0 ∉ pwrite c data offset) (hoff : offset ≤ c.length)
    (hsize : 1 ≤ data.length)
    (hroom : (pwrite c data offset).length ≤ leafCount c.length * PAGE_LENGTH)
    (hn : lastPage offset data.length = firstPage offset + n)
    (hcut : (pwrite c data offset).length < (lastPage offset data.length + 1) * PAGE_LENGTH) :
    newLeaf c (pwrite c data offset) (firstPage offset) n (leafCount c.length + i) =
      leafAt (leafCount c.length) (leafStrings (pwrite c data offset))
        (leafCount c.length + i) := by
  have hlen := length_pwrite data hoff
  rw [leafAt_add]
  by_cases hi : firstPage offset ≤ i ∧ i ≤ firstPage offset + n
  · have hcount := lastPage_lt_pageCount hsize
      (by omega : offset + data.length ≤ (pwrite c data offset).length)
    rw [newLeaf_page hi.1 hi.2, getElem?_leafStrings_page (by omega), Option.getD_some]
    split_ifs with hlast
    · exact cutPage_eq hfree (by rwa [hlast, ← hn])
    · rfl
  · rw [newLeaf_old (by omega), leafAt_add,
      getElem?_leafStrings_pwrite hoff hsize hroom (by omega)]

/-! ### Agreement -/

/-- What the write must be for `pages_in_need` to agree with `compute_merkle`: there is no stored
tree, or the tree has no room for the file, or the last page of the write is not full, or the run
of its pages overruns the tree. -/
def PagesWhole (c data : List Byte) (offset : ℕ) : Prop :=
  2 ^ 30 < c.length ∨ leafCount c.length * PAGE_LENGTH < (pwrite c data offset).length ∨
    (pwrite c data offset).length < (lastPage offset data.length + 1) * PAGE_LENGTH ∨
    PastEnd c (firstPage offset) (lastPage offset data.length - firstPage offset)

/-- A tree without room for the file. -/
theorem gives_of_room (hst : Stored sha3 heap c mt τ) (htail : heap.fileTail = 0)
    (hfree : 0 ∉ pwrite c data offset) (hoff : offset ≤ c.length) (hsize : 1 ≤ data.length)
    (hmax : (pwrite c data offset).length ≤ INT_MAX)
    (hroom : leafCount c.length * PAGE_LENGTH < (pwrite c data offset).length)
    (ho : pagesInNeed sha3 heap data.length offset mt (some (pwrite c data offset)) = .ok o)
    (hcode : o.code = 0) :
    ∃ s', o.result = .string s' ∧ Gives sha3 heap (pwrite c data offset) s' := by
  have hlen := length_pwrite data hoff
  rcases Nat.lt_or_ge (leafCount c.length) ((pwrite c data offset).length / PAGE_LENGTH) with h | h
  · refine gives_of_computeMerkle (computeMerkle_of_pagesInNeed hst.shape ?_ ho) (by omega)
    rwa [readPart_of_le hmax, ← leafCount_eq_pow]
  · -- the write ends behind the last leaf
    have hle := pageCount_le_iff.1 (pageCount_le_leafCount c.length)
    have hlast : leafCount c.length ≤ lastPage offset data.length := by
      unfold lastPage PAGE_LENGTH at *
      omega
    have hn := lastPage_eq_add offset hsize
    obtain ⟨mt', hfail⟩ := pagesInNeed_fail hst hfree htail h hsize (by omega) hn
      (.inl (hlast.trans hn.le))
    rw [hfail] at ho
    cases ho
    cases hcode

/-- A write whose last page is not full gives the string of the file. -/
theorem gives_of_pagesInNeed (hst : Stored sha3 heap c mt τ) (htail : heap.fileTail = 0)
    (hfree : 0 ∉ pwrite c data offset) (hoff : offset ≤ c.length) (hsize : 1 ≤ data.length)
    (hroom : (pwrite c data offset).length ≤ leafCount c.length * PAGE_LENGTH)
    (hn : lastPage offset data.length = firstPage offset + n)
    (hcut : (pwrite c data offset).length < (lastPage offset data.length + 1) * PAGE_LENGTH)
    (hpast : ¬ PastEnd c (firstPage offset) n) :
    ∃ mt' s', pagesInNeed sha3 heap data.length offset mt (some (pwrite c data offset)) =
      .ok ⟨0, mt', .string s'⟩ ∧ Gives sha3 heap (pwrite c data offset) s' := by
  have hlen := length_pwrite data hoff
  have hheight := heightOf_eq_of_le (by omega : c.length ≤ _) hroom
  have hleaf := leafCount_eq_of_le (by omega : c.length ≤ _) hroom
  have hle : (pwrite c data offset).length ≤ 2 ^ 30 := by
    have := Nat.mul_le_mul_right PAGE_LENGTH (leafCount_le hst.le)
    unfold PAGE_LENGTH at *
    omega
  obtain ⟨σ, hσ⟩ := exists_target sha3 heap (heightOf c.length)
    (newLeaf c (pwrite c data offset) (firstPage offset) n)
  obtain ⟨mt', hq⟩ := pagesInNeed_eq hst hfree htail hroom hsize (by omega) hn hpast hσ
  have hread : readPart (pwrite c data offset) = pwrite c data offset :=
    readPart_of_le (by unfold INT_MAX; omega)
  obtain ⟨τ', hτ'⟩ := exists_target sha3 heap (heightOf (pwrite c data offset).length)
    (leafAt (leafCount (pwrite c data offset).length) (leafStrings (pwrite c data offset)))
  have hgives := gives_of_target hfree (by
    rw [intOf_of_lt (Int.natCast_nonneg _) (by unfold INT_MAX; omega)]
    omega) (by rwa [hread]) htail (by rw [hread, hheight]; exact hst.terminated)
    (by rw [hread]; exact hτ')
  refine ⟨mt', _, hq, ?_⟩
  rw [hread, hheight] at hgives
  rw [hheight, hleaf] at hτ'
  rwa [treeString_target_congr (heightOf_pos _) hσ hτ' fun j hj _ => by
    obtain ⟨i, rfl⟩ := Nat.exists_eq_add_of_le hj
    rw [← leafCount_eq_pow]
    exact newLeaf_eq hfree hoff hsize hroom hn hcut]

/-- Without one of the conditions the strings differ for some digests. -/
theorem AgreesUnaligned.pagesWhole (hag : AgreesUnaligned c data offset) (hfree : 0 ∉ c)
    (hdata : 0 ∉ data) (hsize : 1 ≤ data.length) (hoff : offset ≤ c.length) (hpos : 1 ≤ c.length)
    (hmax : (pwrite c data offset).length ≤ INT_MAX) : PagesWhole c data offset := by
  by_contra hno
  simp only [PagesWhole, not_or, not_lt] at hno
  obtain ⟨hle, hroom, hfull, hpast⟩ := hno
  have hlen := length_pwrite data hoff
  have hfree' := nulFree_pwrite hoff hfree hdata
  have hn := lastPage_eq_add offset hsize
  set n := lastPage offset data.length - firstPage offset
  have hheight := heightOf_eq_of_le (by omega : c.length ≤ _) hroom
  have hpages := lastPage_lt_pageCount hsize
    (by omega : offset + data.length ≤ (pwrite c data offset).length)
  have hcount := pageCount_le_iff.2 hroom
  set x := cutPage (pwrite c data offset) (lastPage offset data.length) with hx
  obtain ⟨mt, hg, htree, hst⟩ := exists_stored (marking x) hfree hpos hle
  obtain ⟨σ, hσ⟩ := exists_target (marking x) .nul (heightOf c.length)
    (newLeaf c (pwrite c data offset) (firstPage offset) n)
  obtain ⟨mt', hq⟩ := pagesInNeed_eq hst hfree' rfl hroom hsize (by omega) hn hpast hσ
  obtain ⟨s', hs', hgives⟩ := hag _ _ _ _ _ rfl hg htree hq rfl
  obtain ⟨-, -, τ', hτ', hstring⟩ := (gives_iff hfree').1 hgives
  rw [readPart_of_le hmax] at hτ' hstring
  rw [leafCount_eq_pow] at hτ'
  have hpage := getElem?_of_treeString (p := lastPage offset data.length) (heightOf_pos c.length)
    (heightOf_pos _) (leafCount_eq_pow _) (by omega) hσ
    (by rw [newLeaf_page (by omega) hn.le, if_pos hn]) hτ'
    (by rw [length_leafStrings, leafCount_eq_pow]) ((Result.string.inj hs').trans hstring)
  rw [getElem?_leafStrings_page hpages] at hpage
  exact cutPage_ne hfree' hfull (Option.some.inj hpage).symm

/-- **When `pages_in_need` agrees with `compute_merkle`.** -/
theorem agreesUnaligned_iff (hfree : 0 ∉ c) (hpos : 1 ≤ c.length) (hdata : 0 ∉ data)
    (hsize : 1 ≤ data.length) (hoff : offset ≤ c.length)
    (hmax : (pwrite c data offset).length ≤ INT_MAX) :
    AgreesUnaligned c data offset ↔ PagesWhole c data offset := by
  have hlen := length_pwrite data hoff
  have hfree' := nulFree_pwrite hoff hfree hdata
  have hn := lastPage_eq_add offset hsize
  refine ⟨fun hag => hag.pagesWhole hfree hdata hsize hoff hpos hmax, fun hwhole => ?_⟩
  intro sha3 heap s mt o htail hg htree ho hcode
  obtain ⟨-, hr, τ, hst⟩ := stored_of_gives hfree hg htree
  rw [readPart_of_le (by omega)] at hr hst
  rcases Nat.lt_or_ge (leafCount c.length * PAGE_LENGTH) (pwrite c data offset).length
    with hroom | hroom
  · exact gives_of_room hst htail hfree' hoff hsize hmax hroom ho hcode
  by_cases hpast : PastEnd c (firstPage offset) (lastPage offset data.length - firstPage offset)
  · obtain ⟨mt', hq⟩ := pagesInNeed_fail hst hfree' htail (div_le_of_room hroom) hsize (by omega) hn
      (.inr hpast)
    rw [hq] at ho
    cases ho
    cases hcode
  · have hcut : (pwrite c data offset).length <
        (lastPage offset data.length + 1) * PAGE_LENGTH := by
      rcases hwhole with h | h | h | h
      · have := hr.le; omega
      · omega
      · exact h
      · exact absurd h hpast
    obtain ⟨mt', s', hq, hgives⟩ := gives_of_pagesInNeed hst htail hfree' hoff hsize hroom hn hcut
      hpast
    rw [hq] at ho
    cases ho
    exact ⟨s', rfl, hgives⟩

/-- A character is appended to the file `a`. -/
theorem agreesUnaligned_a_b : AgreesUnaligned [byteOf 'a'] [byteOf 'b'] 1 :=
  (agreesUnaligned_iff (by decide) (by decide) (by decide) (by decide) (by decide) (by decide)).2
    (.inr (.inr (.inl (by decide))))

/-- A write fills the page of a file. -/
theorem not_agreesUnaligned_fullPage : ¬ ∀ (c data : List Byte) (offset : ℕ), 1 ≤ c.length →
    0 ∉ c → 1 ≤ data.length → 0 ∉ data → offset ≤ c.length → ¬ PAGE_LENGTH ∣ offset →
    (pwrite c data offset).length ≤ INT_MAX → AgreesUnaligned c data offset := by
  intro hall
  set c := List.replicate (PAGE_LENGTH - 1) (byteOf 'a') with hc
  have hlen : c.length = PAGE_LENGTH - 1 := List.length_replicate
  have hfree : 0 ∉ c := fun h0 => absurd (List.eq_of_mem_replicate h0) (by decide)
  have hlen' : (pwrite c [byteOf 'b'] (PAGE_LENGTH - 1)).length = PAGE_LENGTH := by
    rw [length_pwrite _ hlen.ge, hlen]
    rfl
  have hmax : (pwrite c [byteOf 'b'] (PAGE_LENGTH - 1)).length ≤ INT_MAX := by rw [hlen']; decide
  have hpos : 1 ≤ c.length := by rw [hlen]; decide
  have hwhole := (hall c [byteOf 'b'] (PAGE_LENGTH - 1) hpos hfree (by decide) (by decide) hlen.ge
    (by decide) hmax).pagesWhole hfree (by decide) (by decide) hlen.ge hpos hmax
  rw [PagesWhole, hlen', hlen] at hwhole
  exact absurd hwhole (by unfold PastEnd; rw [hlen]; decide)

end MerkleFs
