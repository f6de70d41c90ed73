import MerkleFs.Fs.Attribute
import MerkleFs.Parse.Calls
import MerkleFs.Parse.Threads

/-!
# Writing through the file system

`bb_write` writes to a file, reads the tree of the file back from its attribute, changes the pages
that were written in it, and stores its string in the attribute.  For a file without the attribute
it computes the tree with `m_compute_merkle`.  `bb_truncate` and `bb_ftruncate` leave the attribute
alone.

* `bbWrite` : `bb_write`, for any outcome of `pwrite`; its steps after `pwrite` are `readTree`,
  `updateTree` and `storeResult`.
* `readTree_setxattr` : a stored string is read back as it was written, if a NUL follows it.
-/

namespace MerkleFs

/-- A file, as far as the tree is concerned. -/
@[ext]
structure File where
  /-- The contents. -/
  contents : List Byte
  /-- The attribute `merkle`. -/
  attr : Option (List Byte)

/-- `string_to_tree`, after `getxattr` has returned; `none` when there was no attribute. -/
def attrTree : ℤ × List Byte → Run (Option MerkleTree)
  | (attrSize, treeString) =>
    if 0 < attrSize then do
      let s ← readStr treeString
      let mt ← stringToTree s
      return some mt
    else return none

variable (sha3 : List Byte → Digest) (heap : Heap) (sched : Scheduler ℕ)

/-- The part of `bb_write` that computes the new tree: `quick_change`, `pages_in_need` if that
fails, or `m_compute_merkle` for a file without a tree. -/
def updateTree (buf : List Byte) (size offset : ℕ) (contents : List Byte) :
    Option MerkleTree → Run Outcome
  | some mt => do
    let o ← quickChange sha3 heap (intOf size) (intOf offset) buf mt
    if o.code ≠ -2 ∧ o.code ≠ -1 then return o
    else pagesInNeed sha3 heap (intOf size) (intOf offset) o.mt (some contents)
  | none => mComputeMerkle sha3 heap sched (some contents) (.blank 0 0) 8

/-- The end of `bb_write`: `setxattr`, unless no tree was computed, and `free(result)`. -/
def storeResult (attr : Option (List Byte)) (o : Outcome) : Run (Option (List Byte)) :=
  match o.result with
  | .unset => .error .unset
  | .block => if o.code = -1 then .ok attr else .error .bounds
  | .string s => .ok (if o.code = -1 then attr else setxattr s)

/-- `bb_write`.  `pw` is the call of `pwrite`, which returns a number of bytes or an error and
leaves the contents it leaves; `treeString` is the block the attribute is read into. -/
def bbWrite (treeString : List Byte) (pw : List Byte → ℤ × List Byte) (buf : List Byte)
    (size offset : ℕ) (file : File) : Run (ℤ × File) := do
  let (k, contents) := pw file.contents
  let mt ← readTree file.attr treeString
  let o ← updateTree sha3 heap sched buf size offset contents mt
  let attr ← storeResult file.attr o
  return (k, ⟨contents, attr⟩)

/-- What `bb_truncate` and `bb_ftruncate` return for a negative size, `-EINVAL`. -/
def EINVAL : ℤ := 22

/-- `bb_truncate`. -/
def bbTruncate (newsize : ℤ) (file : File) : ℤ × File :=
  if newsize < 0 then (-EINVAL, file)
  else (0, { file with contents := ftruncate file.contents newsize.toNat })

/-- `bb_ftruncate`. -/
def bbFtruncate (offset : ℤ) (file : File) : ℤ × File :=
  if offset < 0 then (-EINVAL, file)
  else (0, { file with contents := ftruncate file.contents offset.toNat })

variable {sha3 heap sched} {c buf block : List Byte} {size offset h n : ℕ}
  {mt : MerkleTree} {s : CStr} {ss : List CStr} {o : Outcome} {τ leaf : ℕ → CStr}
  {attr attr' : Option (List Byte)}

theorem readTree_eq_attrTree (attr : Option (List Byte)) (treeString : List Byte) :
    readTree attr treeString = attrTree (getxattr attr treeString MAX_TREE_SIZE) := rfl

theorem storeResult_eq_ok (hs : storeResult attr o = .ok attr') :
    attr' = attr ∨ ∃ s, o.result = .string s ∧ attr' = setxattr s ∧ o.code ≠ -1 := by
  unfold storeResult at hs
  split at hs
  · cases hs
  · split_ifs at hs
    cases hs
    exact .inl rfl
  · split_ifs at hs with hcode <;> cases hs
    · exact .inl rfl
    · exact .inr ⟨_, ‹_›, rfl, hcode⟩

theorem ne_unset_of_storeResult (hs : storeResult attr o = .ok attr') : o.result ≠ .unset := by
  intro hunset
  rw [storeResult, hunset] at hs
  cases hs

theorem storeResult_string (attr : Option (List Byte)) (mt : MerkleTree) (s : CStr) :
    storeResult attr ⟨0, mt, .string s⟩ = .ok (setxattr s) := rfl

theorem bbWrite_eq_ok {treeString : List Byte} {pw : List Byte → ℤ × List Byte} {file file' : File}
    {r : ℤ} (hrun : bbWrite sha3 heap sched treeString pw buf size offset file = .ok (r, file')) :
    ∃ tree o, readTree file.attr treeString = .ok tree ∧
      updateTree sha3 heap sched buf size offset (pw file.contents).2 tree = .ok o ∧
      storeResult file.attr o = .ok file'.attr ∧ file'.contents = (pw file.contents).2 := by
  obtain ⟨tree, htree, hrun⟩ := Run.bind_eq_ok.1 hrun
  obtain ⟨o, ho, hrun⟩ := Run.bind_eq_ok.1 hrun
  obtain ⟨attr, hattr, hrun⟩ := Run.bind_eq_ok.1 hrun
  cases hrun
  exact ⟨tree, o, htree, ho, hattr, rfl⟩

theorem bbWrite_of_updateTree {treeString : List Byte} {pw : List Byte → ℤ × List Byte}
    {file : File} {tree : Option MerkleTree} (hread : readTree file.attr treeString = .ok tree)
    (hu : updateTree sha3 heap sched buf size offset (pw file.contents).2 tree =
      .ok ⟨0, mt, .string s⟩) :
    bbWrite sha3 heap sched treeString pw buf size offset file =
      .ok ((pw file.contents).1, ⟨(pw file.contents).2, setxattr s⟩) := by
  refine Run.bind_eq_ok.2 ⟨_, hread, Run.bind_eq_ok.2 ⟨_, hu,
    Run.bind_eq_ok.2 ⟨setxattr s, ?_, ?_⟩⟩⟩
  · exact storeResult_string _ _ _
  · rfl

theorem setxattr_inj {s s' : CStr} (heq : setxattr s = setxattr s') : s = s' :=
  CStr.ext (Option.some.inj heq)

/-! ### Changing the tree -/

theorem pagesInNeed_readPart {size offset : ℤ} (hpos : 0 ≤ intOf c.length) :
    pagesInNeed sha3 heap size offset mt (some c) =
      pagesInNeed sha3 heap size offset mt (some (readPart c)) := by
  simp only [pagesInNeed, pagesCall, ← readFile_readPart hpos, computeMerkle_readPart hpos]

theorem updateTree_unaligned (hoff : ¬ PAGE_LENGTH ∣ offset) :
    updateTree sha3 heap sched buf size offset c (some mt) =
      pagesInNeed sha3 heap (intOf size) (intOf offset) mt (some c) := by
  have hq : quickChange sha3 heap (intOf size) (intOf offset) buf mt = .ok ⟨-2, mt, .unset⟩ := by
    rw [quickChange, quickCall, isFull_intOf, decide_eq_false hoff, if_neg (by decide)]
    rfl
  rw [updateTree, hq, Run.ok_bind]
  exact if_neg fun h => h.1 rfl

theorem exists_intOf_offset (hoff : PAGE_LENGTH ∣ offset)
    (hpage : 0 ≤ pageToChange (intOf offset)) : ∃ m : ℕ, intOf offset = m ∧ PAGE_LENGTH ∣ m ∧
      pageToChange (intOf offset) = (firstPage m : ℕ) := by
  obtain ⟨q, hq⟩ := (dvd_intOf offset).2 hoff
  have hne : (PAGE_LENGTH : ℤ) ≠ 0 := by have := PAGE_LENGTH_pos; omega
  have hpage' : pageToChange (intOf offset) = q := by
    rw [pageToChange, hq, Int.mul_tdiv_cancel_left _ hne]
  rw [hpage'] at hpage ⊢
  obtain ⟨q, rfl⟩ := Int.eq_ofNat_of_zero_le hpage
  refine ⟨PAGE_LENGTH * q, by rw [hq, Nat.cast_mul], Nat.dvd_mul_right _ _, ?_⟩
  rw [firstPage, Nat.mul_div_cancel_left _ PAGE_LENGTH_pos]

theorem pageRange_fst {size offset a b : ℤ} (hrange : pageRange size offset = .ok (a, b)) :
    a = pageToChange offset := by
  obtain ⟨_, -, hrange⟩ := Run.bind_eq_ok.1 hrange
  cases hrange
  rfl

theorem updateTree_of_code (hq : quickChange sha3 heap (intOf size) (intOf offset) buf mt = .ok o)
    (hcode : o.code = 0) : updateTree sha3 heap sched buf size offset c (some mt) = .ok o := by
  rw [updateTree, hq, Run.ok_bind, if_pos (by rw [hcode]; decide)]
  rfl

/-- `quick_change` does not fail at a page boundary in the doubled tree. -/
theorem code_of_quickChange (hr : ReadBack sha3 heap h mt leaf τ) (hoff : PAGE_LENGTH ∣ offset)
    (hpage : pageToChange (intOf offset) < (2 ^ h : ℕ))
    (hq : quickChange sha3 heap (intOf size) (intOf offset) buf mt = .ok o) : o.code = 0 := by
  have hfull : isFull (intOf offset) = true := by
    rw [isFull_intOf, decide_eq_true hoff]
  obtain ⟨hmem, hlen⟩ := buffer_of_quickChange hfull hq
  rcases lt_or_ge (pageToChange (intOf offset)) 0 with hneg | hpos
  · exact (quickChange_neg hr hfull hneg hq).1
  obtain ⟨m, hm, hdvd, hpage'⟩ := exists_intOf_offset hoff hpos
  rw [hm] at hq
  rw [hpage', Int.ofNat_lt] at hpage
  rcases Nat.lt_or_ge (firstPage m) (2 ^ (h - 1)) with hlt | hge
  · obtain ⟨σ, hσ⟩ := exists_target sha3 heap h
      (Function.update leaf (2 ^ (h - 1) + firstPage m) (.ofBlock buf))
    obtain ⟨mt', hq'⟩ := quickChange_fit hr hdvd hlt hmem hlen hσ
    rw [hq'] at hq
    cases hq
    rfl
  · have hheap : heap.Terminated (h + 1) := by
      rw [quickChange_of_ge hr.shape hdvd hge] at hq
      obtain ⟨q, hbig, -⟩ := Run.bind_eq_ok.1 hq
      exact (shape_of_getBiggerTree hr hbig).1
    obtain ⟨σ, hσ⟩ := exists_target sha3 heap (h + 1)
      (Function.update (biggerLeaf h leaf) (2 ^ h + firstPage m) (.ofBlock buf))
    rw [quickChange_grow hr hdvd hge hpage hheap hmem hlen hσ] at hq
    cases hq
    rfl

theorem updateTree_inside (hr : ReadBack sha3 heap h mt leaf τ) (hoff : PAGE_LENGTH ∣ offset)
    (hpage : pageToChange (intOf offset) < (2 ^ h : ℕ)) :
    updateTree sha3 heap sched buf size offset c (some mt) =
      quickChange sha3 heap (intOf size) (intOf offset) buf mt := by
  cases hq : quickChange sha3 heap (intOf size) (intOf offset) buf mt with
  | error e => rw [updateTree, hq]; rfl
  | ok o => exact updateTree_of_code hq (code_of_quickChange hr hoff hpage hq)

theorem updateTree_beyond (hr : ReadBack sha3 heap h mt leaf τ) (hoff : PAGE_LENGTH ∣ offset)
    (hpage : (2 ^ h : ℕ) ≤ pageToChange (intOf offset))
    (hu : updateTree sha3 heap sched buf size offset c (some mt) = .ok o) :
    pagesInNeed sha3 heap (intOf size) (intOf offset) mt (some c) = .ok o := by
  obtain ⟨m, hm, hdvd, hpage'⟩ := exists_intOf_offset hoff
    ((Int.natCast_nonneg _).trans hpage)
  rw [hpage', Int.ofNat_le] at hpage
  obtain ⟨q, hq, hu⟩ := Run.bind_eq_ok.1 hu
  rw [hm] at hq
  obtain ⟨hcode, hmt⟩ := quickChange_beyond hr hdvd hpage hq
  have hfail : ¬ (q.code ≠ -2 ∧ q.code ≠ -1) := fun h => h.2 hcode
  rw [if_neg hfail, hmt] at hu
  exact hu

theorem storeResult_of_code (hcode : o.code = 0) (hresult : o.result = .string s) :
    storeResult attr o = .ok (setxattr s) := by
  rw [storeResult, hresult]
  simp only
  rw [if_neg (by rw [hcode]; decide)]

/-! ### Reading the attribute -/

theorem readTree_none (treeString : List Byte) : readTree none treeString = .ok none := rfl

/-- A stored string is read back from a block whose bytes behind it are NUL. -/
theorem readTree_setxattr (hpos : 0 < s.strlen) (hmax : s.strlen ≤ MAX_TREE_SIZE)
    (hblock : (block.drop s.strlen).head? = some 0) :
    readTree (setxattr s) block = (do
      let mt ← stringToTree s
      return some mt) := by
  obtain ⟨rest, hrest⟩ := List.head?_eq_some_iff.1 hblock
  have hread : readStr (s.bytes ++ block.drop s.bytes.length) = .ok s := by
    rw [CStr.strlen] at hrest
    rw [hrest, readStr_append_zero s.nulFree]
  unfold CStr.strlen at hpos hmax
  simp only [readTree, setxattr, getxattr, if_neg (not_lt.2 hmax), Int.natCast_pos, if_pos hpos,
    hread, Run.ok_bind]

theorem strlen_treeString_readBack (hr : ReadBack sha3 heap h mt leaf τ) :
    0 < (treeString (2 ^ h) τ).strlen ∧ (treeString (2 ^ h) τ).strlen ≤ MAX_TREE_SIZE := by
  have hpow : 2 ^ h ≤ 2 ^ 15 := Nat.pow_le_pow_right (by norm_num) hr.le
  have hpow' : 2 ^ 1 ≤ 2 ^ h := Nat.pow_le_pow_right (by norm_num) hr.pos
  refine ⟨strlen_treeString_pos hpow', ?_⟩
  have hle : (treeString (2 ^ h) τ).strlen ≤ 74 * (2 ^ h - 1) :=
    strlen_treeString_le (by omega) fun j hj hj' => isHash_target hr.target hj hj'
  unfold MAX_TREE_SIZE
  omega

/-- A file with leaves has an attribute, which is read back from a block that ends behind it. -/
theorem HasLeaves.exists_attr (sha3 : List Byte → Digest) (hc : HasLeaves c ss) :
    ∃ s block mt τ, Gives sha3 .nul c s ∧
      readTree (setxattr s) block = (do
        let mt ← stringToTree s
        return some mt) ∧
      stringToTree s = .ok mt ∧
      ReadBack sha3 .nul (heightOf (readPart c).length) mt
        (leafAt (leafCount (readPart c).length) ss) τ ∧
      s = treeString (2 ^ heightOf (readPart c).length) τ := by
  obtain ⟨τ, hτ⟩ := exists_target sha3 .nul (heightOf (readPart c).length)
    (leafAt (leafCount (readPart c).length) ss)
  have hr : ReadBack sha3 .nul (heightOf (readPart c).length) _ _ τ :=
    ⟨heightOf_pos _, heightOf_le hc.le, Heap.terminated_nul, hτ, rfl⟩
  obtain ⟨hpos, hmax⟩ := strlen_treeString_readBack hr
  set s := treeString (2 ^ heightOf (readPart c).length) τ
  have hblock : ((s.bytes ++ [0]).drop s.strlen).head? = some 0 := by
    rw [CStr.strlen, List.drop_left]
    rfl
  exact ⟨s, _, _, τ, hc.gives rfl Heap.terminated_nul hτ, readTree_setxattr hpos hmax hblock,
    stringToTree_treeString (heightOf_pos _) fun j hj hj' => isHash_target hτ hj hj', hr, rfl⟩

theorem readTree_of_gives (hg : Gives sha3 heap c s)
    (hblock : ∀ n ≤ MAX_TREE_SIZE, (block.drop n).head? = some 0) :
    ∃ ss mt τ, HasLeaves c ss ∧ ReadBack sha3 heap (heightOf (readPart c).length) mt
        (leafAt (leafCount (readPart c).length) ss) τ ∧
      readTree (setxattr s) block = .ok (some mt) := by
  obtain ⟨ss, hc⟩ := hg.hasLeaves
  obtain ⟨-, hr, ss', τ, hss, hτ, rfl⟩ := gives_iff_walk.1 hg
  obtain rfl := Option.some.inj (hc.walk.symm.trans hss)
  have htree := stringToTree_treeString (τ := τ) (heightOf_pos (readPart c).length)
    fun j hj hj' => isHash_target hτ hj hj'
  have hr' : ReadBack sha3 heap (heightOf (readPart c).length) _ _ τ :=
    ⟨heightOf_pos _, heightOf_le hc.le, hr.terminated hc.walkOk, hτ, rfl⟩
  obtain ⟨hpos, hmax⟩ := strlen_treeString_readBack hr'
  exact ⟨ss, _, τ, hc, hr', by rw [readTree_setxattr hpos hmax (hblock _ hmax), htree]; rfl⟩

end MerkleFs
