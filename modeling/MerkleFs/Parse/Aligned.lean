import MerkleFs.Parse.Quick

/-!
# Writes at page boundaries

`quick_change` agrees with `compute_merkle` on the file after a write when the string in the write
buffer is the page after the write: it neither stops at the end of the data written, nor looks at
the rest of the page in the file, nor changes a second page.

* `leaves_changed` : then the other leaves are those of the file after the write, too.
* `agreesAligned_iff` : when `quick_change` agrees with `compute_merkle`.
-/

namespace MerkleFs

/-- Whenever `quick_change` returns `0` for a write to a file with a stored tree, it gives the
string that `compute_merkle` gives for the file after the write.  The buffer holds the data and
some more bytes `rest`; the byte behind the buffer a file is read into is NUL. -/
def AgreesAligned (c data rest : List Byte) (offset : ℕ) : Prop :=
  ∀ sha3 heap s mt o, heap.fileTail = 0 → Gives sha3 heap c s → stringToTree s = .ok mt →
    quickChange sha3 heap data.length offset (data ++ rest) mt = .ok o → o.code = 0 →
      ∃ s', o.result = .string s' ∧ Gives sha3 heap (pwrite c data offset) s'

/-- The write does not get as far as changing a page: there is no stored tree, or no string in the
buffer, or no room for it in the block of a leaf, or the page is behind the doubled tree. -/
def NoChange (c buf : List Byte) (offset : ℕ) : Prop :=
  ¬ (1 ≤ intOf c.length ∧ (readPart c).length ≤ 2 ^ 30) ∨ 0 ∉ buf ∨
    PTR_SIZE * 2 * PAGE_LENGTH < 1 + (CStr.ofBlock buf).strlen ∨
    2 * leafCount (readPart c).length ≤ firstPage offset

/-- The string in the buffer is the page of the file after the write. -/
def PageInBuffer (c data rest : List Byte) (offset : ℕ) : Prop :=
  1 ≤ intOf (pwrite c data offset).length ∧ (readPart (pwrite c data offset)).length ≤ 2 ^ 30 ∧
    (leafStrings (readPart (pwrite c data offset)))[firstPage offset]? =
      some (CStr.ofBlock (data ++ rest))

variable {sha3 : List Byte → Digest} {heap : Heap} {c data rest : List Byte} {offset i : ℕ}
  {mt : MerkleTree} {τ : ℕ → CStr} {x : CStr} {h : ℕ} {ss ss' : List CStr}

/-! ### The read part of a file after a write -/

theorem intOf_neg {n : ℕ} (hn : INT_MAX < n) (hn' : n < 2 ^ 32) : intOf n < 0 := by
  unfold INT_MAX at hn
  unfold intOf
  rw [Int.bmod_def]
  push_cast
  split_ifs <;> omega

theorem take_pwrite {r : ℕ} (hoff : offset ≤ r) (hr : r ≤ c.length) :
    (pwrite c data offset).take r = pwrite (c.take r) (data.take (r - offset)) offset := by
  refine List.ext_getElem? fun j => ?_
  have hlen : (c.take r).length = r := by rw [List.length_take]; omega
  rw [List.getElem?_take, getElem?_pwrite (by omega), getElem?_pwrite (by omega),
    List.length_take, List.getElem?_take, List.getElem?_take]
  split_ifs <;> first | rfl | omega

theorem take_pwrite_of_le {r : ℕ} (hoff : r ≤ offset) (hoff' : offset ≤ c.length) :
    (pwrite c data offset).take r = c.take r := by
  refine List.ext_getElem? fun j => ?_
  rw [List.getElem?_take, List.getElem?_take]
  split_ifs with hj
  · rw [getElem?_pwrite hoff', if_neg (by omega)]
  · rfl

theorem length_readPart_le (c : List Byte) : (readPart c).length ≤ c.length :=
  List.length_take_le' _ _

theorem length_readPart_toNat (hpos : 1 ≤ intOf c.length) :
    (readPart c).length = (intOf c.length).toNat := by
  rw [← length_readPart (by omega), Int.toNat_natCast]

theorem take_length_readPart (hpos : 1 ≤ intOf c.length) :
    c.take (readPart c).length = readPart c := by
  rw [length_readPart_toNat hpos]
  rfl

/-- The read part after a write: unchanged, or with a part of the write in it. -/
theorem readPart_pwrite (hsize' : data.length ≤ INT_MAX) (hoff : offset ≤ c.length)
    (hoff' : offset ≤ INT_MAX) (hpos : 1 ≤ intOf c.length)
    (hpos' : 1 ≤ intOf (pwrite c data offset).length) :
    readPart (pwrite c data offset) = readPart c ∨
      offset ≤ (readPart c).length ∧ ∃ k, readPart (pwrite c data offset) =
        pwrite (readPart c) (data.take k) offset := by
  have hlen := length_pwrite data hoff
  by_cases hsmall : c.length ≤ INT_MAX
  · -- then the file after the write is not larger, since `2^31 … 2^32` is negative
    have hsmall' : (pwrite c data offset).length ≤ INT_MAX := by
      by_contra hlarge
      have := intOf_neg (n := (pwrite c data offset).length) (by omega)
        (by unfold INT_MAX at *; omega)
      omega
    rw [readPart_of_le hsmall, readPart_of_le hsmall']
    exact .inr ⟨hoff, data.length, by rw [List.take_length]⟩
  · have hsame : (pwrite c data offset).length = c.length := by
      by_contra hne
      have := intOf_neg (n := c.length) (by omega) (by unfold INT_MAX at *; omega)
      omega
    rcases Nat.le_total (readPart c).length offset with hout | hin
    · refine .inl ?_
      rw [readPart, hsame, ← length_readPart_toNat hpos, take_pwrite_of_le hout hoff,
        take_length_readPart hpos]
    · refine .inr ⟨hin, (readPart c).length - offset, ?_⟩
      rw [readPart, hsame, ← length_readPart_toNat hpos,
        take_pwrite hin (length_readPart_le c), take_length_readPart hpos]

/-! ### Leaves after a write to one page -/

/-- A file that fills its tree needs a tree of double size for one page more. -/
theorem heightOf_grow {n m : ℕ} (hn : leafCount n * PAGE_LENGTH ≤ n)
    (hm : pageCount m = pageCount n + 1) : heightOf m = heightOf n + 1 := by
  have hcount : pageCount n = leafCount n := by
    have hle := pageCount_le_leafCount n
    have hle' := pageCount_le_iff.1 (le_refl (pageCount n))
    unfold PAGE_LENGTH at *
    omega
  have hpow : pageCount n = 2 ^ (heightOf n - 1) := by rw [hcount, leafCount_eq_pow]
  have hpos := heightOf_pos n
  rw [heightOf, hm]
  refine congrArg (· + 1) (le_antisymm ?_ ?_)
  · rw [Nat.clog_le_iff_le_pow Nat.one_lt_two, BinTree.two_pow_pred hpos, hpow]
    have := Nat.two_pow_pos (heightOf n - 1)
    omega
  · have : heightOf n - 1 < Nat.clog 2 (pageCount n + 1) := by
      rw [Nat.lt_clog_iff_pow_lt Nat.one_lt_two, hpow]
      omega
    omega

theorem lastPage_eq {size : ℕ} (hdvd : PAGE_LENGTH ∣ offset) (hsize : 1 ≤ size)
    (hsize' : size ≤ PAGE_LENGTH) : lastPage offset size = firstPage offset := by
  unfold lastPage firstPage PAGE_LENGTH at *
  omega

theorem firstPage_lt_pageCount (hsize : 1 ≤ data.length) (hoff : offset ≤ c.length) :
    firstPage offset < pageCount (pwrite c data offset).length := by
  have hlen := length_pwrite data hoff
  unfold firstPage pageCount PAGE_LENGTH
  omega

theorem length_le_of_page (hsize : 1 ≤ data.length) (hoff : offset ≤ c.length)
    (hx : (leafStrings (pwrite c data offset))[firstPage offset]? = some x)
    (hlen : data.length ≤ x.strlen) : data.length ≤ PAGE_LENGTH := by
  rw [getElem?_leafStrings_page (firstPage_lt_pageCount hsize hoff)] at hx
  cases hx
  exact hlen.trans (strlen_pageOf_le _ _)

/-- **The leaves after a write to a page of the tree.** -/
theorem leaves_fit (hdvd : PAGE_LENGTH ∣ offset) (hsize : 1 ≤ data.length)
    (hoff : offset ≤ c.length) (hp : firstPage offset < leafCount c.length)
    (hsize' : data.length ≤ PAGE_LENGTH) :
    heightOf (pwrite c data offset).length = heightOf c.length ∧
      ∀ i ≠ firstPage offset, (leafStrings (pwrite c data offset))[i]? = (leafStrings c)[i]? := by
  have hlen := length_pwrite data hoff
  have hroom : (pwrite c data offset).length ≤ leafCount c.length * PAGE_LENGTH := by
    have hle := pageCount_le_iff.1 (pageCount_le_leafCount c.length)
    unfold firstPage PAGE_LENGTH at *
    omega
  refine ⟨heightOf_eq_of_le (by omega) hroom, fun i hi => ?_⟩
  refine getElem?_leafStrings_pwrite hoff hsize hroom ?_
  rw [lastPage_eq hdvd hsize hsize']
  omega

/-- **The leaves after a write to the page behind the last leaf.** -/
theorem leaves_grow (hdvd : PAGE_LENGTH ∣ offset) (hsize : 1 ≤ data.length)
    (hoff : offset ≤ c.length) (hp : leafCount c.length ≤ firstPage offset)
    (hsize' : data.length ≤ PAGE_LENGTH) :
    heightOf (pwrite c data offset).length = heightOf c.length + 1 ∧
      ∀ i ≠ firstPage offset,
        (leafStrings (pwrite c data offset))[i]? = (biggerStrings c)[i]? := by
  have hlen := length_pwrite data hoff
  have hle := pageCount_le_leafCount c.length
  have hle' := pageCount_le_iff.1 (le_refl (pageCount c.length))
  have hfull : leafCount c.length * PAGE_LENGTH ≤ c.length := by
    have : firstPage offset * PAGE_LENGTH ≤ offset := Nat.div_mul_le_self _ _
    have := Nat.mul_le_mul_right PAGE_LENGTH hp
    omega
  have hcount : pageCount c.length = leafCount c.length ∧
      firstPage offset = leafCount c.length := by
    unfold firstPage PAGE_LENGTH at *
    omega
  have hcount' : pageCount (pwrite c data offset).length = pageCount c.length + 1 := by
    have hlow := lastPage_lt_pageCount hsize
      (by omega : offset + data.length ≤ (pwrite c data offset).length)
    rw [lastPage_eq hdvd hsize hsize'] at hlow
    have hhigh : pageCount (pwrite c data offset).length ≤ pageCount c.length + 1 := by
      rw [pageCount_le_iff, Nat.succ_mul, hcount.1]
      unfold firstPage PAGE_LENGTH at *
      omega
    omega
  have hheight := heightOf_grow hfull hcount'
  have hleaf : leafCount (pwrite c data offset).length = 2 * leafCount c.length := by
    rw [leafCount_eq_pow, leafCount_eq_pow, hheight, Nat.add_sub_cancel]
    exact BinTree.two_pow_pred (heightOf_pos _)
  refine ⟨hheight, fun i hi => ?_⟩
  rw [getElem?_biggerStrings, getElem?_leafStrings, getElem?_leafStrings, hcount', hleaf]
  rcases Nat.lt_or_ge i (leafCount c.length) with hold | hnew
  · have hpage : (i + 1) * PAGE_LENGTH ≤ offset := by
      rw [← Nat.div_mul_cancel hdvd]
      exact Nat.mul_le_mul_right _ (hold.trans_le hp)
    rw [if_pos (by omega), if_pos hold, if_pos (by omega), pageOf_pwrite hoff (.inl hpage)]
  · rw [if_neg (show ¬ i < pageCount c.length + 1 by omega),
      if_neg (show ¬ i < leafCount c.length by omega)]

/-! ### Comparing trees that differ in one leaf -/

theorem treeString_update {n p : ℕ} {τ' : ℕ → CStr} (hh : 1 ≤ h) (hn : n = 2 ^ (h - 1))
    (hτ : Target sha3 heap h (Function.update (leafAt n ss) (n + p) x) τ)
    (hτ' : Target sha3 heap h (leafAt n ss') τ') (hx : ss'[p]? = some x)
    (hsame : ∀ i ≠ p, ss'[i]? = ss[i]?) : treeString (2 ^ h) τ = treeString (2 ^ h) τ' := by
  refine treeString_target_congr hh hτ hτ' fun j hj _ => ?_
  obtain ⟨i, rfl⟩ := Nat.exists_eq_add_of_le (hn ▸ hj)
  by_cases hi : i = p
  · rw [hi, Function.update_self, leafAt_add, hx, Option.getD_some]
  · rw [Function.update_of_ne (by omega), leafAt_add, leafAt_add, hsame i hi]

/-- With digests that tell the string of a changed leaf from all others, only trees with this
string in the leaf have the same string. -/
theorem getElem?_of_treeString {n p h' : ℕ} {leaf τ' : ℕ → CStr} (hh : 1 ≤ h) (hh' : 1 ≤ h')
    (hn : n = 2 ^ (h - 1)) (hp : p < n) (hτ : Target (marking x) heap h leaf τ)
    (hleaf : leaf (n + p) = x) (hτ' : Target (marking x) heap h' (leafAt (2 ^ (h' - 1)) ss') τ')
    (hss : ss'.length = 2 ^ (h' - 1)) (heq : treeString (2 ^ h) τ = treeString (2 ^ h') τ') :
    ss'[p]? = some x := by
  obtain ⟨rfl, hhash⟩ := treeString_target_inj hh hh' hτ hτ' heq
  have hp' := BinTree.two_pow_pred hh
  rw [← hn] at hτ'
  have hnode := hhash (n + p) (by omega) (by omega)
  rw [hτ.leaf _ (by omega) (by omega), hτ'.leaf _ (by omega) (by omega), hleaf, leafAt_add] at hnode
  by_contra hne
  refine leafHash_marking_ne (y := (ss'[p]?).getD .nil) (fun h => hne ?_) hnode
  have hlt : p < ss'.length := by omega
  have hsome : ss'[p]? = some ss'[p] := List.getElem?_eq_getElem _
  rw [h, hsome, Option.getD_some]

/-! ### Agreement -/

theorem length_le_strlen_buffer (hdata : 0 ∉ data) (rest : List Byte) :
    data.length ≤ (CStr.ofBlock (data ++ rest)).strlen := by
  rw [CStr.strlen, CStr.bytes_ofBlock_append hdata, List.length_append]
  omega

theorem gives_of_target (hfree : 0 ∉ c) (hpos : 1 ≤ intOf c.length)
    (hle : (readPart c).length ≤ 2 ^ 30) (htail : heap.fileTail = 0)
    (hheap : heap.Terminated (heightOf (readPart c).length))
    (hτ : Target sha3 heap (heightOf (readPart c).length)
      (leafAt (leafCount (readPart c).length) (leafStrings (readPart c))) τ) :
    Gives sha3 heap c (treeString (2 ^ heightOf (readPart c).length) τ) :=
  (gives_iff hfree).2 ⟨hpos, ⟨hle, .inr (.inl htail),
    fun _ => freeOk_of_nulFree (nulFree_readPart hfree), fun _ => hheap⟩, τ, hτ, rfl⟩

/-- The other leaves of a changed tree are those of the file after the write. -/
theorem leaves_changed (hsize' : data.length ≤ INT_MAX) (hoff : offset ≤ c.length)
    (hoff' : offset ≤ INT_MAX) (hdvd : PAGE_LENGTH ∣ offset) (hdata : 0 ∉ data)
    (hpos : 1 ≤ intOf c.length) (hpage : PageInBuffer c data rest offset) :
    heightOf (readPart (pwrite c data offset)).length =
        changedHeight (readPart c) (firstPage offset) ∧
      ∀ i ≠ firstPage offset, (leafStrings (readPart (pwrite c data offset)))[i]? =
        (changedStrings (readPart c) (firstPage offset))[i]? := by
  obtain ⟨hpos', -, hx⟩ := hpage
  have hbuffer := length_le_strlen_buffer hdata rest
  have hsame : readPart (pwrite c data offset) = readPart c →
      heightOf (readPart (pwrite c data offset)).length =
          changedHeight (readPart c) (firstPage offset) ∧
        ∀ i ≠ firstPage offset, (leafStrings (readPart (pwrite c data offset)))[i]? =
          (changedStrings (readPart c) (firstPage offset))[i]? := fun heq => by
    rw [heq] at hx
    have hlt := (List.getElem?_eq_some_iff.1 hx).1
    rw [length_leafStrings] at hlt
    rw [heq, changedHeight, changedStrings, if_pos hlt, if_pos hlt]
    exact ⟨rfl, fun _ _ => rfl⟩
  rcases readPart_pwrite hsize' hoff hoff' hpos hpos' with heq | ⟨hoff₂, k, heq⟩
  · exact hsame heq
  rcases Nat.eq_zero_or_pos (data.take k).length with hnil | hk
  · exact hsame (by rw [heq, pwrite, if_pos (List.length_eq_zero_iff.1 hnil)])
  -- the page in the buffer is at least as long as what has been written
  have htake : (data.take k).length ≤ data.length := List.length_take_le' _ _
  rw [heq] at hx ⊢
  have hle := length_le_of_page hk hoff₂ hx (by omega)
  unfold changedHeight changedStrings
  split_ifs with hin
  · exact leaves_fit hdvd hk hoff₂ hin hle
  · exact leaves_grow hdvd hk hoff₂ (by omega) hle

/-- A buffer with the page of the file in it gives the string of the file. -/
theorem agreesAligned_of_pageInBuffer (hdata : 0 ∉ data) (hsize' : data.length ≤ INT_MAX)
    (hoff : offset ≤ c.length) (hoff' : offset ≤ INT_MAX) (hdvd : PAGE_LENGTH ∣ offset)
    (hfree : 0 ∉ c) (hpage : PageInBuffer c data rest offset) :
    AgreesAligned c data rest offset := by
  intro sha3 heap s mt o htail hg htree hq hcode
  obtain ⟨hpos, -, τ, hst⟩ := stored_of_gives hfree hg htree
  obtain ⟨⟨hmem, hlen⟩, hp, hheap⟩ := quickChange_eq_ok hst hdvd hq hcode
  obtain ⟨hheight, hsame⟩ := leaves_changed hsize' hoff hoff' hdvd hdata hpos hpage
  obtain ⟨σ, hσ⟩ := exists_target sha3 heap (changedHeight (readPart c) (firstPage offset))
    (changedLeaf (readPart c) (firstPage offset) (.ofBlock (data ++ rest)))
  obtain ⟨mt', hq'⟩ := quickChange_eq data.length hst hdvd hp hheap hmem hlen hσ
  rw [hq'] at hq
  cases hq
  obtain ⟨τ', hτ'⟩ := exists_target sha3 heap
    (heightOf (readPart (pwrite c data offset)).length)
    (leafAt (leafCount (readPart (pwrite c data offset)).length)
      (leafStrings (readPart (pwrite c data offset))))
  have hgives := gives_of_target (nulFree_pwrite hoff hfree hdata) hpage.1 hpage.2.1 htail
    (by rwa [hheight]) hτ'
  refine ⟨_, rfl, ?_⟩
  rw [leafCount_eq_pow] at hτ'
  rw [hheight] at hτ' hgives
  rwa [treeString_update (changedHeight_pos _ _) rfl hσ hτ' hpage.2.2 hsame]

/-- Without it the strings differ for some digests. -/
theorem AgreesAligned.pageInBuffer (hag : AgreesAligned c data rest offset) (hdata : 0 ∉ data)
    (hoff : offset ≤ c.length) (hdvd : PAGE_LENGTH ∣ offset) (hfree : 0 ∉ c)
    (hno : ¬ NoChange c (data ++ rest) offset) : PageInBuffer c data rest offset := by
  simp only [NoChange, not_or, not_not, not_lt, not_le] at hno
  obtain ⟨⟨hpos, hle⟩, hmem, hlen, hp⟩ := hno
  have hread := length_readPart (c := c) (by omega)
  obtain ⟨mt, hg, htree, hst⟩ := exists_stored (marking (CStr.ofBlock (data ++ rest)))
    (nulFree_readPart hfree) (by omega) hle
  have hg' : Gives (marking (CStr.ofBlock (data ++ rest))) .nul c _ :=
    gives_of_target hfree hpos hle rfl Heap.terminated_nul (target_fileHashes _ _)
  obtain ⟨σ, hσ⟩ := exists_target (marking (CStr.ofBlock (data ++ rest))) .nul
    (changedHeight (readPart c) (firstPage offset))
    (changedLeaf (readPart c) (firstPage offset) (.ofBlock (data ++ rest)))
  obtain ⟨mt', hq⟩ := quickChange_eq data.length hst hdvd hp Heap.terminated_nul hmem hlen
    hσ
  obtain ⟨s', hs', hgives⟩ := hag _ _ _ _ _ rfl hg' htree hq rfl
  obtain ⟨hpos', hr, τ', hτ', hstring⟩ := (gives_iff (nulFree_pwrite hoff hfree hdata)).1 hgives
  refine ⟨hpos', hr.le, ?_⟩
  rw [leafCount_eq_pow] at hτ'
  exact getElem?_of_treeString (changedHeight_pos _ _) (heightOf_pos _) rfl (lt_changedHeight hp) hσ
    (Function.update_self _ _ _) hτ' (by rw [length_leafStrings, leafCount_eq_pow])
    ((Result.string.inj hs').trans hstring)

/-- **When `quick_change` agrees with `compute_merkle`.** -/
theorem agreesAligned_iff (hfree : 0 ∉ c) (hdata : 0 ∉ data)
    (hsize' : data.length ≤ INT_MAX) (hoff : offset ≤ c.length) (hoff' : offset ≤ INT_MAX)
    (hdvd : PAGE_LENGTH ∣ offset) : AgreesAligned c data rest offset ↔
      NoChange c (data ++ rest) offset ∨ PageInBuffer c data rest offset := by
  constructor
  · exact fun hag => or_iff_not_imp_left.2 (hag.pageInBuffer hdata hoff hdvd hfree)
  · rintro (hno | hpage)
    · intro sha3 heap s mt o _ hg htree hq hcode
      obtain ⟨hpos, hr, τ, hst⟩ := stored_of_gives hfree hg htree
      obtain ⟨⟨hmem, hlen⟩, hp, -⟩ := quickChange_eq_ok hst hdvd hq hcode
      rcases hno with h | h | h | h
      · exact absurd ⟨hpos, hr.le⟩ h
      · exact absurd hmem h
      · omega
      · omega
    · exact agreesAligned_of_pageInBuffer hdata hsize' hoff hoff' hdvd hfree hpage

/-- The file `a` is overwritten with `b`. -/
theorem agreesAligned_a_b : AgreesAligned [byteOf 'a'] [byteOf 'b'] [0] 0 := by
  refine (agreesAligned_iff (by decide) (by decide) (by decide) (by decide) (by decide)
    (Nat.dvd_zero _)).2 (.inr ?_)
  have hwrite : pwrite [byteOf 'a'] [byteOf 'b'] 0 = [byteOf 'b'] := rfl
  have hread : readPart [byteOf 'b'] = [byteOf 'b'] := readPart_of_le (by decide)
  rw [PageInBuffer, hwrite, hread]
  refine ⟨by decide, by decide, ?_⟩
  rw [show firstPage 0 = 0 from rfl, getElem?_leafStrings_page (by decide)]
  rfl

/-- The first character of the file `ab` is overwritten. -/
theorem not_agreesAligned_ab : ¬ ∀ (c data rest : List Byte) (offset : ℕ), 1 ≤ c.length → 0 ∉ c →
    1 ≤ data.length → 0 ∉ data → data.length ≤ INT_MAX → offset ≤ c.length → offset ≤ INT_MAX →
    PAGE_LENGTH ∣ offset → AgreesAligned c data rest offset := by
  intro hall
  have hwrite : pwrite [byteOf 'a', byteOf 'b'] [byteOf 'c'] 0 = [byteOf 'c', byteOf 'b'] := rfl
  have hread : readPart [byteOf 'a', byteOf 'b'] = [byteOf 'a', byteOf 'b'] :=
    readPart_of_le (by decide)
  have hread' : readPart [byteOf 'c', byteOf 'b'] = [byteOf 'c', byteOf 'b'] :=
    readPart_of_le (by decide)
  obtain ⟨-, -, hx⟩ := (hall [byteOf 'a', byteOf 'b'] [byteOf 'c'] [0] 0 (by decide) (by decide)
    (by decide) (by decide) (by decide) (by decide) (by decide) (Nat.dvd_zero _)).pageInBuffer
      (by decide) (by decide) (Nat.dvd_zero _) (by decide)
      (by rw [NoChange, hread]; decide)
  rw [hwrite, hread', show firstPage 0 = 0 from rfl, getElem?_leafStrings_page (by decide)] at hx
  have hlen := congrArg CStr.strlen (Option.some.inj hx)
  exact absurd hlen (by decide)

end MerkleFs
