import MerkleFs.Fs.Write
import MerkleFs.Parse.Found
import MerkleFs.Parse.Unaligned

/-!
# Writes that fail

`bb_write` does not look at what `pwrite` returned: it changes the tree of a file that has not been
written to.  At a page boundary it takes the page from the caller's buffer, so that the attribute
describes data that are not in the file.  Elsewhere it takes the pages from the file, and loses the
last byte of a full one.

`keepsAttr_iff` : the failed writes that leave the attribute as it was.
-/

namespace MerkleFs

/-- Whenever a write to a file fails, leaves it as it was and returns, the attribute is still the
string of the file.  That string was the attribute before, and is read back as it was written. -/
def KeepsAttr (c buf : List Byte) (size offset : ℕ) : Prop :=
  ∀ sha3 heap sched treeString s k r file, k < 0 → Gives sha3 heap c s →
    readTree (setxattr s) treeString = (do
      let mt ← stringToTree s
      return some mt) →
    bbWrite sha3 heap sched treeString (fun c => (k, c)) buf size offset ⟨c, setxattr s⟩ =
      .ok (r, file) → file.attr = setxattr s

/-- The string in the buffer of a write to a page boundary is what the leaf of the page holds
already, or `quick_change` does not get as far as changing a leaf. -/
def LeafInBuffer (c buf : List Byte) (ss : List CStr) (offset : ℕ) : Prop :=
  0 ∉ buf ∨ PTR_SIZE * 2 * PAGE_LENGTH < 1 + (CStr.ofBlock buf).strlen ∨
    pageToChange (intOf offset) < 0 ∨
    (2 * leafCount (readPart c).length : ℕ) ≤ pageToChange (intOf offset) ∨
    ss[(pageToChange (intOf offset)).toNat]? = some (CStr.ofBlock buf)

/-- The pages that `pages_in_need` takes from the file are what their leaves hold already, or it
does not get as far as changing leaves. -/
def LeavesInFile (c : List Byte) (ss : List CStr) (size offset : ℕ) : Prop :=
  ∀ f n : ℕ, pageRange (intOf size) (intOf offset) = .ok ((f : ℕ), (f + n : ℕ)) →
    (f + n) * PAGE_LENGTH ≤ (readPart c).length → f + n < leafCount (readPart c).length →
    ¬ PastEnd (readPart c) f n →
    (∀ j, f ≤ j → j < f + n → (pageOf (readPart c) j).strlen = PAGE_LENGTH) →
      ∀ j, f ≤ j → j ≤ f + n → ss[j]? =
        some (if j = f + n then cutPage (readPart c) j else pageOf (readPart c) j)

variable {sha3 : List Byte → Digest} {heap : Heap} {sched : Scheduler ℕ} {c buf : List Byte}
  {size offset h f n p : ℕ} {mt : MerkleTree} {ss : List CStr} {leaf τ : ℕ → CStr} {o : Outcome}
  {x : CStr} {k r : ℤ} {s : CStr} {file : File}

/-! ### Leaves that hold their strings already -/

theorem replaced_eq {ss' : List CStr}
    (hsame : ∀ i < ss'.length, leaf (p + i) = leafAt p ss' (p + i)) :
    replaced leaf p ss' = leaf := by
  funext j
  unfold replaced
  split_ifs with hj
  · obtain ⟨i, rfl⟩ := Nat.exists_eq_add_of_le hj.1
    exact (hsame i (by omega)).symm
  · rfl

/-- A page of the buffer that is in its leaf already. -/
theorem string_of_leaf (hr : ReadBack sha3 heap (heightOf (readPart c).length) mt
      (leafAt (leafCount (readPart c).length) ss) τ) (hc : HasLeaves c ss)
    (hoff : PAGE_LENGTH ∣ offset) (hleaf : LeafInBuffer c buf ss offset)
    (hin : pageToChange (intOf offset) < (2 ^ heightOf (readPart c).length : ℕ))
    (hq : quickChange sha3 heap (intOf size) (intOf offset) buf mt = .ok o) :
    o.result = .string (treeString (2 ^ heightOf (readPart c).length) τ) := by
  have hpow := leafCount_eq_pow (readPart c).length
  have hp₂ := BinTree.two_pow_pred (heightOf_pos (readPart c).length)
  have hfull : isFull (intOf offset) = true := by
    rw [isFull_intOf, decide_eq_true hoff]
  obtain ⟨hmem, hlen⟩ := buffer_of_quickChange hfull hq
  rcases lt_or_ge (pageToChange (intOf offset)) 0 with hneg | hpage
  · exact (quickChange_neg hr hfull hneg hq).2
  obtain ⟨m, hm, hdvd, hpage'⟩ := exists_intOf_offset hoff hpage
  rw [hm] at hq
  have hx : ss[firstPage m]? = some (CStr.ofBlock buf) := by
    rw [LeafInBuffer, hpage', Int.toNat_natCast] at hleaf
    rcases hleaf with h | h | h | h | h
    · exact absurd hmem h
    · omega
    · omega
    · omega
    · exact h
  have hlt : firstPage m < 2 ^ (heightOf (readPart c).length - 1) := by
    have := (List.getElem?_eq_some_iff.1 hx).1
    rwa [hc.length, hpow] at this
  have hself : Function.update (leafAt (leafCount (readPart c).length) ss)
      (2 ^ (heightOf (readPart c).length - 1) + firstPage m) (.ofBlock buf) =
        leafAt (leafCount (readPart c).length) ss := by
    rw [← hpow, Function.update_eq_self_iff, leafAt_add, hx, Option.getD_some]
  obtain ⟨mt', hq'⟩ := quickChange_fit hr hdvd hlt hmem hlen (by rw [hself]; exact hr.target)
  rw [hq'] at hq
  cases hq
  rfl

/-- `pages_in_need` assigns nothing for a page at a boundary behind the doubled tree: it does not
find the page in the file. -/
theorem unset_of_beyond (hr : ReadBack sha3 heap (heightOf (readPart c).length) mt
      (leafAt (leafCount (readPart c).length) ss) τ) (hc : HasLeaves c ss)
    (hout : (2 ^ heightOf (readPart c).length : ℕ) ≤ pageToChange (intOf offset))
    (hrest : pagesInNeed sha3 heap (intOf size) (intOf offset) mt (some c) = .ok o) :
    o.result = .unset := by
  by_contra hne
  have hpow := leafCount_eq_pow (readPart c).length
  have hp₂ := BinTree.two_pow_pred (heightOf_pos (readPart c).length)
  rw [pagesInNeed_readPart hc.nonneg] at hrest
  have hroom := pageCount_le_iff.1 (pageCount_le_leafCount (readPart c).length)
  have hpos : 0 < leafCount (readPart c).length := Nat.two_pow_pos _
  obtain ⟨f, n, _, _, hrange, hf, -⟩ := found_of_pagesInNeed hr (length_lt_max hc.length_lt)
    (by rw [← hpow]; exact div_le_of_room hroom) hrest hne
  have hfirst := pageRange_fst hrange
  have hlast := hf.last
  -- the page would start in the file
  have hle : (f + n) * PAGE_LENGTH ≤ leafCount (readPart c).length * PAGE_LENGTH :=
    hlast.trans hroom
  have := Nat.le_of_mul_le_mul_right hle PAGE_LENGTH_pos
  omega

theorem string_of_buffer (hr : ReadBack sha3 heap (heightOf (readPart c).length) mt
      (leafAt (leafCount (readPart c).length) ss) τ) (hc : HasLeaves c ss)
    (hoff : PAGE_LENGTH ∣ offset) (hleaf : LeafInBuffer c buf ss offset)
    (hu : updateTree sha3 heap sched buf size offset c (some mt) = .ok o)
    (hne : o.result ≠ .unset) :
    o.result = .string (treeString (2 ^ heightOf (readPart c).length) τ) := by
  rcases lt_or_ge (pageToChange (intOf offset)) (2 ^ heightOf (readPart c).length : ℕ)
    with hin | hout
  · rw [updateTree_inside hr hoff hin] at hu
    exact string_of_leaf hr hc hoff hleaf hin hu
  · exact absurd (unset_of_beyond hr hc hout (updateTree_beyond hr hoff hout hu)) hne

theorem leaves_eq_nil (hc : HasLeaves c ss) (hn : PAGE_LENGTH ≤ (readPart c).length)
    (hcount : 1 < leafCount (readPart c).length) (hnil : pageOf (readPart c) 0 = .nil) :
    ss = List.replicate (leafCount (readPart c).length) .nil := by
  have hstart : 0 * PAGE_LENGTH < padStart (readPart c) := by
    have := Nat.div_mul_le_self (readPart c).length PAGE_LENGTH
    have := Nat.mul_le_mul_right PAGE_LENGTH
      ((Nat.le_div_iff_mul_le PAGE_LENGTH_pos).2 ((Nat.one_mul _).trans_le hn))
    have := PAGE_LENGTH_pos
    unfold padStart
    omega
  have hslot : (slotsOf (readPart c) 0).str = some .nil := by
    rw [← Nat.zero_mul PAGE_LENGTH, slotsOf_page (by omega) (.inl hstart), hnil]
    rfl
  exact Option.some.inj (hc.walk.symm.trans (walk_nil hslot))

/-- Pages of the file that are in their leaves already. -/
theorem string_of_file (hr : ReadBack sha3 heap (heightOf (readPart c).length) mt
      (leafAt (leafCount (readPart c).length) ss) τ) (hc : HasLeaves c ss)
    (hoff : ¬ PAGE_LENGTH ∣ offset) (hleaves : LeavesInFile c ss size offset)
    (hu : updateTree sha3 heap sched buf size offset c (some mt) = .ok o)
    (hne : o.result ≠ .unset) :
    o.result = .string (treeString (2 ^ heightOf (readPart c).length) τ) := by
  have hpow := leafCount_eq_pow (readPart c).length
  have hroom := pageCount_le_iff.1 (pageCount_le_leafCount (readPart c).length)
  rw [updateTree_unaligned hoff, pagesInNeed_readPart hc.nonneg] at hu
  obtain ⟨f, n, ss', τ', hrange, hf, hτ', -, hresult⟩ := found_of_pagesInNeed hr
    (length_lt_max hc.length_lt) (by rw [← hpow]; exact div_le_of_room hroom) hu hne
  rw [← hpow] at hτ'
  have hfit := hf.fit
  have hlast := hf.last
  have hsame : ∀ i < ss'.length, leafAt (leafCount (readPart c).length) ss
      (leafCount (readPart c).length + f + i) =
        leafAt (leafCount (readPart c).length + f) ss'
          (leafCount (readPart c).length + f + i) := by
    intro i hi
    rw [hf.length] at hi
    rw [Nat.add_assoc, leafAt_add, ← Nat.add_assoc, leafAt_add]
    rcases hf.full_or hr.pos with hfull | ⟨rfl, rfl, hnil, rfl⟩
    · have hj := hleaves f n hrange hlast (by rw [hpow]; exact hfit)
        (fun h => hf.notPast (pastEnd_iff.1 h)) hfull (f + i) (by omega) (by omega)
      have hnew := getElem?_newStrings (c := readPart c) (f := f) (n := n) (i := f + i)
        (by omega) (by omega)
      rw [Nat.add_sub_cancel_left, ← hf.eq_newStrings hfull] at hnew
      rw [hj, hnew]
    · rw [leaves_eq_nil hc (by rwa [Nat.zero_add, Nat.one_mul] at hlast) (by omega) hnil,
        List.getElem?_replicate, if_pos (by omega)]
      have : i = 0 ∨ i = 1 := by omega
      rcases this with rfl | rfl <;> rfl
  rw [replaced_eq hsame] at hτ'
  rw [hresult, treeString_target_congr hr.pos hτ' hr.target fun _ _ _ => rfl]

/-! ### Keeping the attribute -/

theorem keepsAttr_of_leaves
    (hbuffer : ∀ ss, HasLeaves c ss → PAGE_LENGTH ∣ offset → LeafInBuffer c buf ss offset)
    (hfile : ∀ ss, HasLeaves c ss → ¬ PAGE_LENGTH ∣ offset → LeavesInFile c ss size offset) :
    KeepsAttr c buf size offset := by
  intro sha3 heap sched treeString s k r file _ hg hread hrun
  obtain ⟨tree, o, htree, hu, hstore, -⟩ := bbWrite_eq_ok hrun
  rw [hread] at htree
  obtain ⟨mt, hmt, htree⟩ := Run.bind_eq_ok.1 htree
  cases htree
  obtain ⟨ss, hc⟩ := hg.hasLeaves
  obtain ⟨τ, hr, hs⟩ := hc.readBack hg hmt
  have hne := ne_unset_of_storeResult hstore
  have hresult : o.result = .string s := by
    rw [hs]
    by_cases hoff : PAGE_LENGTH ∣ offset
    · exact string_of_buffer hr hc hoff (hbuffer ss hc hoff) hu hne
    · exact string_of_file hr hc hoff (hfile ss hc hoff) hu hne
  rcases storeResult_eq_ok hstore with h | ⟨s', hs', h, -⟩
  · exact h
  · rw [h, Result.string.inj (hs'.symm.trans hresult)]

/-- A string that such a run puts into a leaf is there already. -/
theorem KeepsAttr.getElem? {h' : ℕ} (hk : KeepsAttr c buf size offset) (hc : HasLeaves c ss)
    (hh' : 1 ≤ h') (hp : p < 2 ^ (h' - 1))
    (hrun : ∀ mt τ, ReadBack (marking x) .nul (heightOf (readPart c).length) mt
      (leafAt (leafCount (readPart c).length) ss) τ →
        ∃ mt' leaf σ, Target (marking x) .nul h' leaf σ ∧ leaf (2 ^ (h' - 1) + p) = x ∧
          updateTree (marking x) .nul (.sequential ℕ) buf size offset c (some mt) =
            .ok ⟨0, mt', .string (treeString (2 ^ h') σ)⟩) : ss[p]? = some x := by
  have hpow := leafCount_eq_pow (readPart c).length
  obtain ⟨s, block, mt, τ, hg, hread, htree, hr, rfl⟩ := hc.exists_attr (marking x)
  obtain ⟨mt', leaf, σ, hσ, hleaf, hu⟩ := hrun mt τ hr
  have hkeep := hk _ _ _ _ _ (-1) _ _ (by decide) hg hread
    (bbWrite_of_updateTree (by rw [hread, htree]; rfl) hu)
  have hτ := hr.target
  rw [hpow] at hτ
  exact getElem?_of_treeString hh' (heightOf_pos _) rfl hp hσ hleaf hτ (hc.length.trans hpow)
    (setxattr_inj hkeep)

/-- A page of the buffer must be in its leaf already. -/
theorem KeepsAttr.leafInBuffer (hk : KeepsAttr c buf size offset) (hc : HasLeaves c ss)
    (hoff : PAGE_LENGTH ∣ offset) : LeafInBuffer c buf ss offset := by
  have hpow := leafCount_eq_pow (readPart c).length
  have hp₂ := BinTree.two_pow_pred (heightOf_pos (readPart c).length)
  by_contra hno
  simp only [LeafInBuffer, not_or, not_not, not_lt, not_le] at hno
  obtain ⟨hmem, hlen, hpage, hin, hx⟩ := hno
  obtain ⟨m, hm, hdvd, hpage'⟩ := exists_intOf_offset hoff hpage
  rw [hpage', Int.toNat_natCast] at hx
  rw [hpage', hpow, ← hp₂, Int.ofNat_lt] at hin
  apply hx
  rcases Nat.lt_or_ge (firstPage m) (leafCount (readPart c).length) with hlt | hge
  · refine hk.getElem? hc (heightOf_pos (readPart c).length) (by rwa [← hpow]) fun mt τ hr => ?_
    obtain ⟨σ, hσ⟩ := exists_target (marking (CStr.ofBlock buf)) .nul _
      (Function.update (leafAt (leafCount (readPart c).length) ss)
        (2 ^ (heightOf (readPart c).length - 1) + firstPage m) (.ofBlock buf))
    obtain ⟨mt', hq⟩ := quickChange_fit hr hdvd (by rwa [← hpow]) hmem hlen hσ
    rw [← hm] at hq
    exact ⟨mt', _, σ, hσ, Function.update_self _ _ _, updateTree_of_code hq rfl⟩
  · refine hk.getElem? hc (Nat.le_add_left 1 (heightOf (readPart c).length))
      (by rwa [Nat.add_sub_cancel]) fun mt τ hr => ?_
    obtain ⟨σ, hσ⟩ := exists_target (marking (CStr.ofBlock buf)) .nul _
      (Function.update (biggerLeaf (heightOf (readPart c).length)
        (leafAt (leafCount (readPart c).length) ss))
        (2 ^ heightOf (readPart c).length + firstPage m) (.ofBlock buf))
    have hq : quickChange (marking (CStr.ofBlock buf)) .nul (intOf size) (intOf offset) buf mt =
        .ok ⟨0, mt, .string (treeString (2 ^ (heightOf (readPart c).length + 1)) σ)⟩ := by
      rw [hm, quickChange_grow hr hdvd (by rwa [← hpow]) hin Heap.terminated_nul hmem hlen hσ]
    refine ⟨mt, _, σ, hσ, ?_, updateTree_of_code hq rfl⟩
    rw [Nat.add_sub_cancel, Function.update_self]

/-- The pages of the file must be in their leaves already. -/
theorem KeepsAttr.leavesInFile (hk : KeepsAttr c buf size offset) (hc : HasLeaves c ss)
    (hoff : ¬ PAGE_LENGTH ∣ offset) : LeavesInFile c ss size offset := by
  have hpow := leafCount_eq_pow (readPart c).length
  have hroom := pageCount_le_iff.1 (pageCount_le_leafCount (readPart c).length)
  intro f n hrange hlast hfit hpast hfull j hj hj'
  have hnew := getElem?_newStrings (c := readPart c) hj hj'
  refine hk.getElem? hc (heightOf_pos (readPart c).length) (by rw [← hpow]; omega)
    fun mt τ hr => ?_
  obtain ⟨σ, hσ⟩ := exists_target (marking (if j = f + n then cutPage (readPart c) j
      else pageOf (readPart c) j)) .nul (heightOf (readPart c).length)
    (replaced (leafAt (leafCount (readPart c).length) ss)
      (2 ^ (heightOf (readPart c).length - 1) + f) (newStrings (readPart c) f n))
  obtain ⟨mt', hq⟩ := pagesInNeed_full hr rfl hc.length_lt
    (by rw [← hpow]; exact div_le_of_room hroom)
    hrange hlast (by rwa [← hpow]) (fun h => hpast (pastEnd_iff.2 h)) hfull hσ
  refine ⟨mt', _, σ, hσ, ?_, by
    rw [updateTree_unaligned hoff, pagesInNeed_readPart hc.nonneg, hq]⟩
  rw [replaced, if_pos (by rw [length_newStrings]; omega), leafAt, List.getD_eq_getElem?_getD,
    show 2 ^ (heightOf (readPart c).length - 1) + j -
      (2 ^ (heightOf (readPart c).length - 1) + f) = j - f by omega, hnew, Option.getD_some]

/-- **The failed writes that leave the attribute as it was.** -/
theorem keepsAttr_iff : KeepsAttr c buf size offset ↔ ∀ ss, HasLeaves c ss →
    (PAGE_LENGTH ∣ offset → LeafInBuffer c buf ss offset) ∧
      (¬ PAGE_LENGTH ∣ offset → LeavesInFile c ss size offset) :=
  ⟨fun hk _ hc => ⟨hk.leafInBuffer hc, hk.leavesInFile hc⟩, fun hall =>
    keepsAttr_of_leaves (fun ss hc => (hall ss hc).1) fun ss hc => (hall ss hc).2⟩

/-- A write of `b` over the file `a` fails. -/
theorem not_keepsAttr_a_b :
    ¬ ∀ (c buf : List Byte) (size offset : ℕ), KeepsAttr c buf size offset := by
  intro hall
  have hread : readPart [byteOf 'a'] = [byteOf 'a'] := readPart_of_le (by decide)
  have hleaf := (hall [byteOf 'a'] [byteOf 'b', 0] 1 0).leafInBuffer
    (hasLeaves_of_nulFree (by decide) (by decide) (by rw [hread]; decide)) (Nat.dvd_zero _)
  have hpage : pageToChange (intOf (0 : ℕ)) = (0 : ℕ) := by decide
  rw [LeafInBuffer, hread, hpage, Int.toNat_natCast, getElem?_leafStrings_page (by decide)] at hleaf
  exact absurd hleaf (by decide)

end MerkleFs
