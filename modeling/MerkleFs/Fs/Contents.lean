import MerkleFs.Parse.Leaves

/-!
# Writing to a file

The contents of a file are a list of bytes, `pwrite` and `ftruncate` as specified by POSIX.

* `pageOf_pwrite` : pages outside the range of a write do not change.
* `getElem?_leafStrings_pwrite` : neither do the leaves, as long as the tree has room for the file.
-/

namespace MerkleFs

/-- `pwrite`, when it succeeds in full.  A gap behind the old end is filled with NULs. -/
def pwrite (c data : List Byte) (offset : ℕ) : List Byte :=
  if data = [] then c
  else (c ++ List.replicate (offset - c.length) 0).take offset ++ data ++
    c.drop (offset + data.length)

/-- `truncate` and `ftruncate`. -/
def ftruncate (c : List Byte) (size : ℕ) : List Byte :=
  (c ++ List.replicate (size - c.length) 0).take size

/-- The first page a write touches. -/
def firstPage (offset : ℕ) : ℕ := offset / PAGE_LENGTH

/-- The last page a write of `size` bytes touches. -/
def lastPage (offset size : ℕ) : ℕ := (offset + size - 1) / PAGE_LENGTH

variable {c data data' : List Byte} {offset offset' i j n m : ℕ}

theorem pwrite_eq (hoff : offset ≤ c.length) :
    pwrite c data offset = c.take offset ++ data ++ c.drop (offset + data.length) := by
  unfold pwrite
  split_ifs with hdata
  · rw [hdata, List.append_nil, List.length_nil, Nat.add_zero, List.take_append_drop]
  · rw [Nat.sub_eq_zero_of_le hoff, List.replicate_zero, List.append_nil]

theorem length_pwrite (data : List Byte) (hoff : offset ≤ c.length) :
    (pwrite c data offset).length = max c.length (offset + data.length) := by
  rw [pwrite_eq hoff]
  simp only [List.length_append, List.length_take, List.length_drop]
  omega

theorem getElem?_pwrite (hoff : offset ≤ c.length) (j : ℕ) : (pwrite c data offset)[j]? =
    if offset ≤ j ∧ j < offset + data.length then data[j - offset]? else (c)[j]? := by
  have htake : (c.take offset).length = offset := by rw [List.length_take]; omega
  rw [pwrite_eq hoff, List.append_assoc]
  rcases Nat.lt_or_ge j offset with hj | hj
  · rw [List.getElem?_append_left (by omega), if_neg (by omega), List.getElem?_take, if_pos hj]
  · rw [List.getElem?_append_right (by omega), htake]
    by_cases hj' : j < offset + data.length
    · rw [if_pos ⟨hj, hj'⟩, List.getElem?_append_left (by omega)]
    · rw [if_neg (by omega), List.getElem?_append_right (by omega), List.getElem?_drop]
      congr 1
      omega

@[simp] theorem pwrite_nil (c : List Byte) (offset : ℕ) : pwrite c [] offset = c := if_pos rfl

/-- The bytes of a file after a write, also behind its end. -/
theorem getElem?_pwrite_ne_nil (hdata : data ≠ []) (j : ℕ) : (pwrite c data offset)[j]? =
    if j < offset then some ((c)[j]?.getD 0)
    else if j < offset + data.length then data[j - offset]? else (c)[j]? := by
  have htake : ((c ++ List.replicate (offset - c.length) 0).take offset).length = offset := by
    rw [List.length_take, List.length_append, List.length_replicate]
    omega
  rw [pwrite, if_neg hdata, List.append_assoc]
  split_ifs with hj hj'
  · rw [List.getElem?_append_left (by omega), List.getElem?_take, if_pos hj]
    rcases Nat.lt_or_ge j c.length with hc | hc
    · rw [List.getElem?_append_left hc, List.getElem?_eq_getElem hc, Option.getD_some]
    · rw [List.getElem?_append_right hc, List.getElem?_replicate, if_pos (by omega),
        List.getElem?_eq_none hc, Option.getD_none]
  · rw [List.getElem?_append_right (by omega), htake, List.getElem?_append_left (by omega)]
  · rw [List.getElem?_append_right (by omega), htake, List.getElem?_append_right (by omega),
      List.getElem?_drop]
    congr 1
    omega

/-- Writes that do not overlap commute. -/
theorem pwrite_comm (hdisj : offset + data.length ≤ offset') :
    pwrite (pwrite c data offset) data' offset' = pwrite (pwrite c data' offset') data offset := by
  by_cases hdata : data = []
  · rw [hdata, pwrite_nil, pwrite_nil]
  by_cases hdata' : data' = []
  · rw [hdata', pwrite_nil, pwrite_nil]
  refine List.ext_getElem? fun j => ?_
  rw [getElem?_pwrite_ne_nil hdata', getElem?_pwrite_ne_nil hdata, getElem?_pwrite_ne_nil hdata,
    getElem?_pwrite_ne_nil hdata']
  rcases Nat.lt_or_ge j offset with hj | hj
  · rw [if_pos (by omega), if_pos hj, if_pos hj, if_pos (by omega)]
  rcases Nat.lt_or_ge j (offset + data.length) with hj' | hj'
  · have hlt : j - offset < data.length := by omega
    rw [if_pos (by omega), if_neg (by omega), if_pos hj', if_neg (by omega), if_pos hj',
      List.getElem?_eq_getElem hlt, Option.getD_some]
  · simp only [if_neg (not_lt.2 hj), if_neg (not_lt.2 hj')]

theorem nulFree_pwrite (hoff : offset ≤ c.length) (hfree : 0 ∉ c) (hdata : 0 ∉ data) :
    0 ∉ pwrite c data offset := by
  rw [pwrite_eq hoff]
  simp only [List.mem_append, not_or]
  exact ⟨⟨fun h => hfree (List.mem_of_mem_take h), hdata⟩, fun h => hfree (List.mem_of_mem_drop h)⟩

/-! ### Pages -/

/-- **Pages outside the range of a write do not change.** -/
theorem pageOf_pwrite (hoff : offset ≤ c.length)
    (hi : (i + 1) * PAGE_LENGTH ≤ offset ∨ offset + data.length ≤ i * PAGE_LENGTH) :
    pageOf (pwrite c data offset) i = pageOf c i := by
  rw [Nat.succ_mul] at hi
  refine congrArg CStr.ofBlock (List.ext_getElem? fun k => ?_)
  rw [List.getElem?_take, List.getElem?_take]
  refine ite_congr rfl (fun hk => ?_) fun _ => rfl
  rw [List.getElem?_drop, List.getElem?_drop, getElem?_pwrite hoff, if_neg (by omega)]

theorem pageCount_mono (h : n ≤ m) : pageCount n ≤ pageCount m :=
  Nat.div_le_div_right (by omega)

theorem heightOf_eq_of_le (h : n ≤ m) (hm : m ≤ leafCount n * PAGE_LENGTH) :
    heightOf m = heightOf n := by
  have hle : pageCount m ≤ 2 ^ Nat.clog 2 (pageCount n) := pageCount_le_iff.2 hm
  have hclog := (Nat.clog_le_iff_le_pow Nat.one_lt_two).2 hle
  have hmono := Nat.clog_mono_right 2 (pageCount_mono h)
  rw [heightOf, heightOf, le_antisymm hclog hmono]

theorem leafCount_eq_of_le (h : n ≤ m) (hm : m ≤ leafCount n * PAGE_LENGTH) :
    leafCount m = leafCount n := by
  rw [leafCount_eq_pow, leafCount_eq_pow, heightOf_eq_of_le h hm]

theorem firstPage_le_lastPage (offset : ℕ) {size : ℕ} (hsize : 1 ≤ size) :
    firstPage offset ≤ lastPage offset size :=
  Nat.div_le_div_right (by omega)

theorem lastPage_eq_add (offset : ℕ) {size : ℕ} (hsize : 1 ≤ size) :
    lastPage offset size = firstPage offset + (lastPage offset size - firstPage offset) :=
  (Nat.add_sub_cancel' (firstPage_le_lastPage offset hsize)).symm

theorem lastPage_lt_pageCount {size : ℕ} (hsize : 1 ≤ size) (h : offset + size ≤ n) :
    lastPage offset size < pageCount n := by
  unfold lastPage pageCount PAGE_LENGTH
  omega

theorem pageCount_le_of_lastPage_lt {size : ℕ} (hsize : 1 ≤ size)
    (hi : lastPage offset size < i) (hi' : pageCount n ≤ i) :
    pageCount (max n (offset + size)) ≤ i := by
  rw [pageCount_le_iff] at hi' ⊢
  unfold lastPage at hi
  unfold PAGE_LENGTH at *
  omega

/-- **Leaves outside the pages of a write do not change**, as long as there are no more pages
than leaves. -/
theorem getElem?_leafStrings_pwrite (hoff : offset ≤ c.length) (hdata : 1 ≤ data.length)
    (hroom : (pwrite c data offset).length ≤ leafCount c.length * PAGE_LENGTH)
    (hi : i < firstPage offset ∨ lastPage offset data.length < i) :
    (leafStrings (pwrite c data offset))[i]? = (leafStrings c)[i]? := by
  have hlen := length_pwrite data hoff
  have hleaf := leafCount_eq_of_le (by omega : c.length ≤ _) hroom
  have hpage : pageOf (pwrite c data offset) i = pageOf c i := by
    refine pageOf_pwrite hoff (hi.imp (fun h => ?_) fun h => ?_)
    · exact (Nat.mul_le_mul_right _ h).trans (Nat.div_mul_le_self _ _)
    · unfold lastPage PAGE_LENGTH at *
      omega
  have hcount : i < pageCount (pwrite c data offset).length ↔ i < pageCount c.length := by
    refine ⟨fun h => ?_, fun h => h.trans_le (pageCount_mono (by omega))⟩
    by_contra hle
    rcases hi with hi | hi
    · unfold firstPage pageCount PAGE_LENGTH at *
      omega
    · have := pageCount_le_of_lastPage_lt hdata hi (not_lt.1 hle)
      rw [← hlen] at this
      omega
  rw [getElem?_leafStrings, getElem?_leafStrings, hleaf, hpage]
  simp only [hcount]

theorem getElem?_leafStrings_page (hi : i < pageCount c.length) :
    (leafStrings c)[i]? = some (pageOf c i) := by
  rw [getElem?_leafStrings, if_pos hi]

end MerkleFs
