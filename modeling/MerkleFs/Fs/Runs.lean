import MerkleFs.Fs.Write
import MerkleFs.Parse.Found
import MerkleFs.Parse.Unaligned

/-!
# Runs

A file starts empty and without the attribute.  Its first write computes the tree; later writes
change it.  `bb_truncate` and `bb_ftruncate` leave the attribute as it is.

* `Step` : one call on a file.
* `intact_of_reached` : in a run in which the calls leave the right leaves, the attribute is always
  the string of the file.
-/

namespace MerkleFs

/-- The block that `bb_write` reads the attribute into, with NULs in it. -/
def treeBlock : List Byte := List.replicate (PTR_SIZE * MAX_TREE_SIZE) 0

/-- A call on a file. -/
inductive Op where
  /-- `bb_write`, with more bytes `rest` behind the data in its buffer. -/
  | write (data rest : List Byte) (offset : ℕ)
  /-- `bb_truncate`. -/
  | truncate (newsize : ℤ)
  /-- `bb_ftruncate`. -/
  | ftruncate (offset : ℤ)

/-- What a call leaves of a file.  Every `pwrite` succeeds in full. -/
def exec (sha3 : List Byte → Digest) (sched : Scheduler ℕ) (file : File) : Op → Run File
  | .write data rest offset => do
    let (_, file) ← bbWrite sha3 .nul sched treeBlock
      (fun c => (data.length, pwrite c data offset)) (data ++ rest) data.length offset file
    return file
  | .truncate newsize => .ok (bbTruncate newsize file).2
  | .ftruncate offset => .ok (bbFtruncate offset file).2

/-- A call that meets a condition, and returns. -/
def Step (sha3 : List Byte → Digest) (ok : File → Op → Prop) (file file' : File) : Prop :=
  ∃ sched op, ok file op ∧ exec sha3 sched file op = .ok file'

/-- The attribute, if present, is the string that `compute_merkle` gives for the file. -/
def Intact (sha3 : List Byte → Digest) (file : File) : Prop :=
  ∀ v, file.attr = some v → ∃ s, Gives sha3 .nul file.contents s ∧ v = s.bytes

/-- The leaves of a tree after `quick_change` has put `x` into the leaf of page `p`.  If there is
none, the tree has been doubled before. -/
def putPage (ss : List CStr) (p : ℕ) (x : CStr) : List CStr :=
  (if p < ss.length then ss else ss ++ List.replicate ss.length filler).set p x

/-- The leaves of a tree after `pages_in_need` has put `xs` into those from page `f` on. -/
def putPages (ss : List CStr) (f : ℕ) (xs : List CStr) : List CStr :=
  ss.take f ++ xs ++ ss.drop (f + xs.length)

/-- The same leaves are hashed for both files. -/
def SameLeaves (c c' : List Byte) : Prop := ∀ ss, HasLeaves c ss → HasLeaves c' ss

/-- The string in the buffer of a write at a page boundary is the page of the new file `c'`, and
the write changes no other leaf. -/
def PageSound (c c' buf : List Byte) (offset : ℕ) : Prop :=
  ∀ ss, HasLeaves c ss → 0 ∈ buf →
    1 + (CStr.ofBlock buf).strlen ≤ PTR_SIZE * 2 * PAGE_LENGTH →
      HasLeaves c' (if pageToChange (intOf offset) < 0 then ss
        else putPage ss (pageToChange (intOf offset)).toNat (.ofBlock buf))

/-- The pages of the range of a write, the last one without its last byte if it is full, are the
pages of the new file `c'`, and the write changes no other leaf. -/
def PagesSound (c c' : List Byte) (size offset : ℕ) : Prop :=
  0 ≤ intOf c'.length →
    if leafCount (readPart c).length < (readPart c').length / PAGE_LENGTH then WalkOk (readPart c')
    else ∀ ss, HasLeaves c ss → ∀ f n : ℕ,
      pageRange (intOf size) (intOf offset) = .ok ((f : ℕ), (f + n : ℕ)) →
      (f + n) * PAGE_LENGTH ≤ (readPart c').length → f + n < leafCount (readPart c).length →
      ¬ PastEnd (readPart c) f n →
        ((∀ j, f ≤ j → j < f + n → (pageOf (readPart c') j).strlen = PAGE_LENGTH) →
          HasLeaves c' (putPages ss f (newStrings (readPart c') f n))) ∧
        -- two pages of a file that starts with a NUL
        (f = 0 → n = 1 → pageOf (readPart c') 0 = .nil → HasLeaves c' (putPages ss 0 [.nil, .nil]))

/-- What a write to a file with the attribute needs: at a page boundary in the doubled tree the
page is taken from the buffer, else the pages are taken from the file. -/
def WriteSound (c data rest : List Byte) (offset : ℕ) : Prop :=
  if PAGE_LENGTH ∣ offset ∧
      pageToChange (intOf offset) < (2 * leafCount (readPart c).length : ℕ) then
    PageSound c (pwrite c data offset) (data ++ rest) offset
  else PagesSound c (pwrite c data offset) data.length offset

/-- The calls that keep the attribute right: all when there is none, else the writes that change
the leaves to those of the new file, and the truncations that do not change the leaves.  A write
that frees a result which has not been set, or that reads a buffer without a NUL, meets this as
well: what it leaves behind is not defined, and `exec` returns no file. -/
def Sound (file : File) : Op → Prop
  | .write data rest offset => file.attr = none ∨ WriteSound file.contents data rest offset
  | .truncate newsize => file.attr = none ∨ newsize < 0 ∨
      SameLeaves file.contents (ftruncate file.contents newsize.toNat)
  | .ftruncate offset => file.attr = none ∨ offset < 0 ∨
      SameLeaves file.contents (ftruncate file.contents offset.toNat)

variable {sha3 : List Byte → Digest} {heap : Heap} {sched : Scheduler ℕ} {c c' buf : List Byte}
  {mt : MerkleTree} {o : Outcome} {t h i p f size offset : ℕ} {ss xs : List CStr} {x : CStr}
  {leaf τ σ : ℕ → CStr} {attr attr' : Option (List Byte)} {file file' : File} {op : Op}

/-! ### The first write -/

theorem mComputeMerkle_readPart {T : ℕ} (hpos : 0 ≤ intOf c.length) :
    mComputeMerkle sha3 heap sched (some c) mt T =
      mComputeMerkle sha3 heap sched (some (readPart c)) mt T := by
  simp only [mComputeMerkle, ← readFile_readPart hpos, computeMerkle_readPart hpos]

/-- The files that the threads of `m_compute_merkle` do not fail on. -/
theorem cases_of_mComputeMerkle (hn : 1 ≤ c.length) (hmax : c.length ≤ INT_MAX)
    (hge : 2 ^ t ≤ c.length / PAGE_LENGTH)
    (ho : mComputeMerkle sha3 .nul sched (some c) mt (2 ^ t) = .ok o) :
    c.length ≤ 2 ^ 30 ∧ WalkOk c ∧ leafCount c.length ≠ 2 ^ t ∧ FreeOk c := by
  have hle : c.length ≤ 2 ^ 30 := by
    by_contra hlarge
    rw [mComputeMerkle] at ho
    obtain ⟨⟨n, b⟩, hread, ho⟩ := Run.bind_eq_ok.1 ho
    simp only [(fileSize_of_readFile hmax hread).1] at ho
    rw [if_neg (by omega), parsePages_overflow (by omega) (by unfold INT_MAX at hmax; omega)] at ho
    cases ho
  have hwalk : WalkOk c := by
    by_contra hno
    rw [mComputeMerkle_null hn hle terminates_nul hno hge] at ho
    cases ho
  refine ⟨hle, hwalk, fun heq => ?_, ?_⟩
  · rw [← heq] at hge ho
    rw [mComputeMerkle_shift hn hle terminates_nul hwalk hge] at ho
    cases ho
  · by_contra hno
    rw [mComputeMerkle_eq hn hle terminates_nul hge] at ho
    obtain ⟨q, -, ho⟩ := Run.bind_eq_ok.1 ho
    obtain ⟨s, -, ho⟩ := Run.bind_eq_ok.1 ho
    have hfree : freePages (parsedOf c) = .error .invalidFree :=
      (freePages_eq c).trans (if_neg hno)
    rw [hfree] at ho
    cases ho

/-- What `m_compute_merkle` does not fail on has a string, and it returns it. -/
theorem gives_of_mComputeMerkle
    (ho : mComputeMerkle sha3 .nul sched (some c) mt (2 ^ t) = .ok o) (hcode : o.code ≠ -1) :
    ∃ s, o.result = .string s ∧ Gives sha3 .nul c s := by
  have hint : 0 ≤ intOf c.length := by
    obtain ⟨_, hread, -⟩ := Run.bind_eq_ok.1 ho
    exact (readFile_eq_ok hread).1
  have hlen := length_readPart hint
  have hmax : (readPart c).length ≤ INT_MAX := by
    have := intOf_le c.length
    omega
  rw [mComputeMerkle_readPart hint] at ho
  rcases Nat.lt_or_ge ((readPart c).length / PAGE_LENGTH) (2 ^ t) with hlt | hge
  · rw [mComputeMerkle] at ho
    obtain ⟨⟨n, b⟩, hread, ho⟩ := Run.bind_eq_ok.1 ho
    simp only [(fileSize_of_readFile hmax hread).1] at ho
    rw [if_pos hlt, ← computeMerkle_readPart hint] at ho
    exact gives_of_computeMerkle ho hcode
  have hn : 1 ≤ (readPart c).length := by
    have := Nat.two_pow_pos t
    have := Nat.div_mul_le_self (readPart c).length PAGE_LENGTH
    have := Nat.mul_pos (by omega : 0 < (readPart c).length / PAGE_LENGTH) PAGE_LENGTH_pos
    omega
  obtain ⟨hle, hwalk, hne, hfree⟩ := cases_of_mComputeMerkle hn hmax hge ho
  have hr : Returns .nul (readPart c) :=
    ⟨hle, terminates_nul, fun _ => hfree, fun _ => Heap.terminated_nul⟩
  obtain ⟨ss, τ, hss, hτ, -⟩ := computeMerkle_of_returns sha3 mt hn hr hwalk
  rw [mComputeMerkle_of_walk hn hr hwalk hge hne hss hτ] at ho
  cases ho
  exact ⟨_, rfl, gives_iff_walk.2 ⟨by omega, hr, ss, τ, hss, hτ, rfl⟩⟩

/-! ### Changed leaves -/

/-- The string of a tree with the leaves of a file. -/
theorem gives_of_leaves (hc : HasLeaves c ss) (hh : 1 ≤ h) (hlen : ss.length = 2 ^ (h - 1))
    (hσ : Target sha3 .nul h leaf σ)
    (hleaf : ∀ i < 2 ^ (h - 1),
      leaf (2 ^ (h - 1) + i) = leafAt (2 ^ (h - 1)) ss (2 ^ (h - 1) + i)) :
    Gives sha3 .nul c (treeString (2 ^ h) σ) := by
  have hpow := leafCount_eq_pow (readPart c).length
  have hpos := heightOf_pos (readPart c).length
  have hheight : h = heightOf (readPart c).length := by
    have heq : 2 ^ (h - 1) = 2 ^ (heightOf (readPart c).length - 1) :=
      hlen.symm.trans (hc.length.trans hpow)
    have := Nat.pow_right_injective le_rfl heq
    omega
  rw [← hheight] at hpow
  have hτ : Target sha3 .nul h (leafAt (leafCount (readPart c).length) ss) σ :=
    hσ.congr_leaf fun j hj hj' => by
      obtain ⟨i, rfl⟩ := Nat.exists_eq_add_of_le hj
      have := BinTree.two_pow_pred hh
      rw [hpow, hleaf i (by omega)]
  rw [hheight] at hτ ⊢
  exact hc.gives rfl Heap.terminated_nul hτ

theorem Gives.sameLeaves {s : CStr} (hg : Gives sha3 .nul c s) (hs : SameLeaves c c') :
    Gives sha3 .nul c' s := by
  obtain ⟨hpos, hr, ss, τ, hss, hτ, rfl⟩ := gives_iff_walk.1 hg
  have hlen := length_readPart (c := c) (by omega)
  have hc : HasLeaves c ss :=
    ⟨hpos, hr.le, hr.free ((walk_slotsOf_iff (by omega) hr.le).1 ⟨ss, hss⟩), hss⟩
  have hpow := leafCount_eq_pow (readPart c).length
  rw [hpow] at hτ
  exact gives_of_leaves (hs ss hc) (heightOf_pos _) (hc.length.trans hpow) hτ fun _ _ => rfl

theorem leafAt_set (hp : p < ss.length) :
    Function.update (leafAt t ss) (t + p) x (t + i) = leafAt t (ss.set p x) (t + i) := by
  rw [leafAt_add, List.getElem?_set]
  by_cases hi : p = i
  · rw [hi, Function.update_self, if_pos rfl, if_pos (by omega), Option.getD_some]
  · rw [Function.update_of_ne (by omega), if_neg hi, leafAt_add]

theorem length_putPages (hfit : f + xs.length ≤ ss.length) :
    (putPages ss f xs).length = ss.length := by
  simp only [putPages, List.length_append, List.length_take, List.length_drop]
  omega

theorem leafAt_putPages (hfit : f + xs.length ≤ ss.length) :
    replaced (leafAt t ss) (t + f) xs (t + i) = leafAt t (putPages ss f xs) (t + i) := by
  have htake : (ss.take f).length = f := by
    rw [List.length_take]
    omega
  rw [leafAt_add, replaced, putPages]
  split_ifs with hi
  · rw [List.getElem?_append_left (by rw [List.length_append]; omega),
      List.getElem?_append_right (by omega), htake, leafAt, List.getD_eq_getElem?_getD]
    congr 2
    omega
  · rw [leafAt_add]
    congr 1
    rcases Nat.lt_or_ge i f with hlow | hhigh
    · rw [List.getElem?_append_left (by rw [List.length_append]; omega),
        List.getElem?_append_left (by omega), List.getElem?_take, if_pos hlow]
    · rw [List.getElem?_append_right (by rw [List.length_append]; omega), List.getElem?_drop,
        List.length_append, htake]
      congr 1
      omega

/-! ### Later writes -/

/-- A page that is taken from the buffer. -/
theorem gives_of_page (hr : ReadBack sha3 .nul (heightOf (readPart c).length) mt
      (leafAt (leafCount (readPart c).length) ss) τ) (hc : HasLeaves c ss)
    (hoff : PAGE_LENGTH ∣ offset)
    (hin : pageToChange (intOf offset) < (2 * leafCount (readPart c).length : ℕ))
    (hsound : PageSound c c' buf offset)
    (hq : quickChange sha3 .nul (intOf size) (intOf offset) buf mt = .ok o) :
    o.code = 0 ∧ ∃ s, o.result = .string s ∧ Gives sha3 .nul c' s := by
  have hfull : isFull (intOf offset) = true := by
    rw [isFull_intOf, decide_eq_true hoff]
  have hpow := leafCount_eq_pow (readPart c).length
  have hpos := heightOf_pos (readPart c).length
  have hlen := hc.length.trans hpow
  obtain ⟨hmem, hfit⟩ := buffer_of_quickChange hfull hq
  have hleaves := hsound ss hc hmem hfit
  rw [hpow] at hr hin
  rw [← BinTree.two_pow_pred hpos] at hin
  rcases lt_or_ge (pageToChange (intOf offset)) 0 with hneg | hpage
  · obtain ⟨hcode, hresult⟩ := quickChange_neg hr hfull hneg hq
    rw [if_pos hneg] at hleaves
    exact ⟨hcode, _, hresult, gives_of_leaves hleaves hpos hlen hr.target fun _ _ => rfl⟩
  obtain ⟨m, hm, hdvd, hpage'⟩ := exists_intOf_offset hoff hpage
  rw [hm] at hq
  rw [hpage', Int.ofNat_lt] at hin
  rw [if_neg (not_lt.2 hpage), hpage', Int.toNat_natCast, putPage] at hleaves
  rcases Nat.lt_or_ge (firstPage m) (2 ^ (heightOf (readPart c).length - 1)) with hlt | hge
  · rw [if_pos (by rwa [hlen])] at hleaves
    obtain ⟨σ, hσ⟩ := exists_target sha3 .nul _ (Function.update
      (leafAt (2 ^ (heightOf (readPart c).length - 1)) ss)
      (2 ^ (heightOf (readPart c).length - 1) + firstPage m) (.ofBlock buf))
    obtain ⟨mt', hq'⟩ := quickChange_fit hr hdvd hlt hmem hfit hσ
    rw [hq'] at hq
    cases hq
    exact ⟨rfl, _, rfl, gives_of_leaves hleaves hpos (by rw [List.length_set, hlen]) hσ
      fun i _ => leafAt_set (by rwa [hlen])⟩
  · rw [if_neg (by rw [hlen]; exact not_lt.2 hge)] at hleaves
    obtain ⟨σ, hσ⟩ := exists_target sha3 .nul _ (Function.update
      (biggerLeaf (heightOf (readPart c).length)
        (leafAt (2 ^ (heightOf (readPart c).length - 1)) ss))
      (2 ^ heightOf (readPart c).length + firstPage m) (.ofBlock buf))
    rw [quickChange_grow hr hdvd hge hin Heap.terminated_nul hmem hfit hσ] at hq
    cases hq
    have hbig : (ss ++ List.replicate ss.length filler).length =
        2 ^ heightOf (readPart c).length := by
      rw [List.length_append, List.length_replicate, hlen, BinTree.two_pow_pred hpos, Nat.two_mul]
    refine ⟨rfl, _, rfl, gives_of_leaves hleaves (Nat.le_add_left 1 _)
      (by rw [List.length_set, hbig, Nat.add_sub_cancel]) hσ fun i hi => ?_⟩
    rw [Nat.add_sub_cancel] at hi ⊢
    rw [← leafAt_set (by rwa [hbig]), Function.update_apply, Function.update_apply,
      biggerLeaf_append hpos hlen hi]

/-- Pages that are taken from the file. -/
theorem gives_of_pages (hr : ReadBack sha3 .nul (heightOf (readPart c).length) mt
      (leafAt (leafCount (readPart c).length) ss) τ) (hc : HasLeaves c ss)
    (hsound : PagesSound c c' size offset)
    (hu : pagesInNeed sha3 .nul (intOf size) (intOf offset) mt (some c') = .ok o)
    (hne : o.result ≠ .unset) :
    o.code = 0 ∧ ∃ s, o.result = .string s ∧ Gives sha3 .nul c' s := by
  have hint := nonneg_of_pagesInNeed hu
  have hpow := leafCount_eq_pow (readPart c).length
  have hpos := heightOf_pos (readPart c).length
  have hp := BinTree.two_pow_pred hpos
  have hlen := hc.length.trans hpow
  have hsound' := hsound hint
  split_ifs at hsound' with hroom
  · -- the tree has no room for the file
    replace hu := computeMerkle_of_pagesInNeed hr.shape (by rwa [← hpow]) hu
    have hcode := code_of_computeMerkle hu hsound'
    exact ⟨hcode, gives_of_computeMerkle hu (by omega)⟩
  · rw [not_lt] at hroom
    rw [pagesInNeed_readPart hint] at hu
    obtain ⟨f, n, xs, σ, hrange, hf, hσ, hcode, hresult⟩ := found_of_pagesInNeed hr
      (length_lt_max (length_lt_of_div_le hc.le hroom)) (by rwa [← hpow]) hu hne
    have hfit := hf.fit
    have hxs : f + xs.length ≤ ss.length := by
      rw [hf.length]
      omega
    have hleaves : HasLeaves c' (putPages ss f xs) := by
      obtain ⟨hall, hnil⟩ := hsound' ss hc f n hrange hf.last (by rwa [hpow])
        fun h => hf.notPast (pastEnd_iff.1 h)
      rcases hf.full_or hpos with hfull | ⟨rfl, rfl, hzero, rfl⟩
      · rw [hf.eq_newStrings hfull]
        exact hall hfull
      · exact hnil rfl rfl hzero
    refine ⟨hcode, _, hresult, gives_of_leaves hleaves hpos
      ((length_putPages hxs).trans hlen) hσ fun i _ => ?_⟩
    rw [hpow, leafAt_putPages hxs]

/-! ### A run -/

/-- **A write to a file with the attribute.** -/
theorem gives_of_updateTree {data rest : List Byte}
    (hr : ReadBack sha3 .nul (heightOf (readPart c).length) mt
      (leafAt (leafCount (readPart c).length) ss) τ) (hc : HasLeaves c ss)
    (hsound : WriteSound c data rest offset)
    (hu : updateTree sha3 .nul sched (data ++ rest) data.length offset (pwrite c data offset)
      (some mt) = .ok o) (hne : o.result ≠ .unset) :
    o.code = 0 ∧ ∃ s, o.result = .string s ∧ Gives sha3 .nul (pwrite c data offset) s := by
  rw [WriteSound] at hsound
  split_ifs at hsound with hquick
  · obtain ⟨q, hq, -⟩ := Run.bind_eq_ok.1 hu
    have hgives := gives_of_page hr hc hquick.1 hquick.2 hsound hq
    rw [updateTree_of_code hq hgives.1] at hu
    cases hu
    exact hgives
  · refine gives_of_pages hr hc hsound ?_ hne
    by_cases hoff : PAGE_LENGTH ∣ offset
    · have hout : (2 * leafCount (readPart c).length : ℕ) ≤ pageToChange (intOf offset) :=
        not_lt.1 fun h => hquick ⟨hoff, h⟩
      rw [leafCount_eq_pow, ← BinTree.two_pow_pred hr.pos] at hout
      exact updateTree_beyond hr hoff hout hu
    · rwa [updateTree_unaligned hoff] at hu

theorem treeBlock_drop (n : ℕ) (hn : n ≤ MAX_TREE_SIZE) : (treeBlock.drop n).head? = some 0 := by
  have hlen : PTR_SIZE * MAX_TREE_SIZE - n ≠ 0 := by
    unfold PTR_SIZE MAX_TREE_SIZE at *
    omega
  rw [treeBlock, List.drop_replicate, List.head?_replicate, if_neg hlen]

theorem Intact.truncate {newsize : ℤ} (hi : Intact sha3 file)
    (hs : file.attr = none ∨ newsize < 0 ∨
      SameLeaves file.contents (ftruncate file.contents newsize.toNat)) :
    Intact sha3 (bbTruncate newsize file).2 := by
  unfold bbTruncate
  split_ifs with hneg
  · exact hi
  intro v hv
  obtain ⟨s, hg, rfl⟩ := hi v hv
  refine ⟨s, ?_, rfl⟩
  rcases hs with h | h | h
  · rw [h] at hv
    cases hv
  · exact absurd h hneg
  · exact hg.sameLeaves h

/-- **One call** keeps the attribute right. -/
theorem Intact.exec (hi : Intact sha3 file) (hs : Sound file op)
    (hx : exec sha3 sched file op = .ok file') : Intact sha3 file' := by
  cases op with
  | write data rest offset =>
    obtain ⟨⟨k, file₁⟩, hw, hx⟩ := Run.bind_eq_ok.1 hx
    cases hx
    obtain ⟨tree, o, htree, hu, hstore, hcontents⟩ := bbWrite_eq_ok hw
    simp only at hu hcontents
    have hne := ne_unset_of_storeResult hstore
    cases hattr : file.attr with
    | none =>
      rw [hattr] at htree hstore
      cases htree
      rcases storeResult_eq_ok hstore with h | ⟨s, hs', h, hcode⟩
      · intro v hv
        rw [h] at hv
        cases hv
      · have hm : mComputeMerkle sha3 .nul sched (some (pwrite file.contents data offset))
            (.blank 0 0) (2 ^ 3) = .ok o := hu
        obtain ⟨s', hresult, hg⟩ := gives_of_mComputeMerkle hm hcode
        obtain rfl := Result.string.inj (hs'.symm.trans hresult)
        intro v hv
        rw [h] at hv
        cases hv
        exact ⟨s, by rwa [hcontents], rfl⟩
    | some v =>
      obtain ⟨s, hg, rfl⟩ := hi v hattr
      obtain ⟨ss, mt, τ, hc, hr, hread⟩ := readTree_of_gives hg treeBlock_drop
      rw [hattr] at htree
      rw [show some s.bytes = setxattr s from rfl, hread] at htree
      cases htree
      have hsound : WriteSound file.contents data rest offset :=
        hs.resolve_left fun h => by rw [hattr] at h; cases h
      obtain ⟨hcode, s', hresult, hg'⟩ := gives_of_updateTree hr hc hsound hu hne
      rw [storeResult_of_code hcode hresult] at hstore
      intro v hv
      rw [← Except.ok.inj hstore] at hv
      cases hv
      exact ⟨s', by rwa [hcontents], rfl⟩
  | truncate newsize =>
    cases hx
    exact hi.truncate hs
  | ftruncate offset =>
    cases hx
    exact hi.truncate hs

/-- **The attribute is the string of the file** throughout a run whose calls are sound. -/
theorem intact_of_reached
    (hrun : Relation.ReflTransGen (Step sha3 Sound) ⟨[], none⟩ file) : Intact sha3 file := by
  induction hrun with
  | refl =>
    intro v hv
    cases hv
  | tail _ hstep ih =>
    obtain ⟨sched, op, hs, hx⟩ := hstep
    exact ih.exec hs hx

/-! ### Files without a NUL -/

theorem HasLeaves.eq (hc : HasLeaves c ss) (hfree : 0 ∉ c) : ss = leafStrings (readPart c) :=
  Option.some.inj (hc.walk.symm.trans (walk_slotsOf (nulFree_readPart hfree)))

theorem eq_of_leafAt (hlen : ss.length = xs.length)
    (hleaf : ∀ i, leafAt t ss (t + i) = leafAt t xs (t + i)) : ss = xs := by
  refine List.ext_getElem hlen fun i hi hi' => ?_
  have h := hleaf i
  rwa [leafAt_add, leafAt_add, List.getElem?_eq_getElem hi, List.getElem?_eq_getElem hi',
    Option.getD_some, Option.getD_some] at h

/-- A write at a page boundary is sound when the string in its buffer is the page of the new
file. -/
theorem writeSound_of_pageInBuffer {data rest : List Byte} (hfree : 0 ∉ c)
    (hpos : 1 ≤ intOf c.length) (hdata : 0 ∉ data) (hsize : data.length ≤ INT_MAX)
    (hoff : offset ≤ c.length)
    (hoff' : offset ≤ INT_MAX) (hdvd : PAGE_LENGTH ∣ offset)
    (hpage : PageInBuffer c data rest offset) : WriteSound c data rest offset := by
  obtain ⟨hheight, hsame⟩ := leaves_changed hsize hoff hoff' hdvd hdata hpos hpage
  obtain ⟨hpos', hle', hx⟩ := hpage
  have hlen := length_leafStrings (readPart c)
  have hlength : (leafStrings (readPart (pwrite c data offset))).length =
      (changedStrings (readPart c) (firstPage offset)).length := by
    rw [length_leafStrings, leafCount_eq_pow, hheight, length_changedStrings]
  have hp : firstPage offset < (changedStrings (readPart c) (firstPage offset)).length :=
    hlength ▸ (List.getElem?_eq_some_iff.1 hx).1
  have hput : leafStrings (readPart (pwrite c data offset)) =
      putPage (leafStrings (readPart c)) (firstPage offset) (.ofBlock (data ++ rest)) := by
    refine List.ext_getElem? fun i => ?_
    rw [putPage, hlen, ← biggerStrings, ← changedStrings, List.getElem?_set]
    split_ifs with hi
    · rw [← hi, hx]
    · exact hsame i fun h => hi h.symm
  have hpage : pageToChange (intOf offset) = (firstPage offset : ℕ) := by
    rw [intOf_of_lt (Int.natCast_nonneg _) (by exact_mod_cast hoff')]
    exact tdiv_offset offset
  have hin : firstPage offset < 2 * leafCount (readPart c).length := by
    rw [changedStrings] at hp
    split_ifs at hp
    · omega
    · rwa [biggerStrings, List.length_append, List.length_replicate, hlen, ← Nat.two_mul] at hp
  rw [WriteSound, if_pos ⟨hdvd, by rw [hpage]; exact_mod_cast hin⟩]
  intro ss hc _ _
  rw [hpage, if_neg (not_lt.2 (Int.natCast_nonneg _)), Int.toNat_natCast, hc.eq hfree, ← hput]
  exact hasLeaves_of_nulFree (nulFree_pwrite hoff hfree hdata) hpos' hle'

/-- The leaves of the file after a write that fits the tree and whose last page is not full. -/
theorem leafStrings_pwrite {data : List Byte} (hfree : 0 ∉ pwrite c data offset)
    (hoff : offset ≤ c.length) (hsize : 1 ≤ data.length)
    (hroom : (pwrite c data offset).length ≤ leafCount c.length * PAGE_LENGTH)
    (hfit : firstPage offset + n < leafCount c.length)
    (hn : lastPage offset data.length = firstPage offset + n)
    (hcut : (pwrite c data offset).length < (lastPage offset data.length + 1) * PAGE_LENGTH) :
    leafStrings (pwrite c data offset) = putPages (leafStrings c) (firstPage offset)
      (newStrings (pwrite c data offset) (firstPage offset) n) := by
  have hlen := length_pwrite data hoff
  have hlength := length_leafStrings c
  have hnew : (newStrings (pwrite c data offset) (firstPage offset) n).length = n + 1 :=
    length_newStrings
  refine eq_of_leafAt (t := leafCount c.length) ?_ fun i => ?_
  · rw [length_putPages (by omega), hlength, length_leafStrings,
      leafCount_eq_of_le (by omega) hroom]
  · rw [← newLeaf_eq hfree hoff hsize hroom hn hcut, newLeaf_eq_replaced, ← leafCount_eq_pow,
      leafAt_putPages (by omega)]

/-- Any other write is sound when its last page is not full, or the tree has no room for the new
file, or is not changed. -/
theorem writeSound_of_pagesWhole {data rest : List Byte} (hfree : 0 ∉ c) (hpos : 1 ≤ c.length)
    (hdata : 0 ∉ data) (hsize : 1 ≤ data.length) (hoff : offset ≤ c.length)
    (hmax : (pwrite c data offset).length ≤ INT_MAX) (hdvd : ¬ PAGE_LENGTH ∣ offset)
    (hwhole : PagesWhole c data offset) : WriteSound c data rest offset := by
  have hlen := length_pwrite data hoff
  have hfree' := nulFree_pwrite hoff hfree hdata
  have hread := readPart_of_le hmax
  have hread' : readPart c = c := readPart_of_le (by omega)
  rw [WriteSound, if_neg fun h => hdvd h.1, PagesSound, hread, hread']
  intro _
  split_ifs with hroom
  · exact .inl hfree'
  rw [not_lt] at hroom
  intro ss hc f n hrange hlast hfit hpast
  rw [intOf_of_lt (Int.natCast_nonneg _) (by exact_mod_cast (by omega : data.length ≤ INT_MAX)),
    intOf_of_lt (Int.natCast_nonneg _) (by exact_mod_cast (by omega : offset ≤ INT_MAX)),
    pageRange_eq hsize (by omega)] at hrange
  obtain ⟨hf, hn⟩ := Prod.mk.inj (Except.ok.inj hrange)
  rw [Int.ofNat_inj] at hf hn
  have hss := hc.eq hfree
  have hle := hc.le
  rw [hread'] at hss hle
  have hfull : (pwrite c data offset).length ≤ leafCount c.length * PAGE_LENGTH := by
    by_contra hlarge
    have := pageCount_le_iff.1 (pageCount_le_leafCount c.length)
    have : leafCount c.length ≤ lastPage offset data.length := by
      unfold lastPage
      rw [Nat.le_div_iff_mul_le PAGE_LENGTH_pos]
      omega
    omega
  have hcut : (pwrite c data offset).length < (lastPage offset data.length + 1) * PAGE_LENGTH := by
    rcases hwhole with h | h | h | h
    · omega
    · omega
    · exact h
    · rw [hf, hn, Nat.add_sub_cancel_left] at h
      exact absurd h hpast
  subst hf
  constructor
  · intro _
    rw [hss, ← leafStrings_pwrite hfree' hoff hsize hfull (by omega) hn hcut]
    have hleaves := hasLeaves_of_nulFree hfree' (by
      rw [intOf_of_lt (Int.natCast_nonneg _) (by exact_mod_cast hmax)]
      omega) (by
      rw [hread]
      have := Nat.mul_le_mul_right PAGE_LENGTH (leafCount_le hle)
      unfold PAGE_LENGTH at *
      omega)
    rwa [hread] at hleaves
  · rintro h₀ rfl hnil
    rw [h₀] at hlast
    have hpage := strlen_pageOf_of_lt hfree' hlast 0 le_rfl Nat.one_pos
    rw [hnil, CStr.strlen_nil] at hpage
    exact absurd hpage PAGE_LENGTH_pos.ne

/-- The first write to an empty file. -/
theorem exec_first {data rest : List Byte} (hfree : 0 ∉ data) (hn : 1 ≤ data.length)
    (hn' : data.length < 8 * PAGE_LENGTH) : exec sha3 sched ⟨[], none⟩ (.write data rest 0) =
      .ok ⟨data, setxattr (merkleString sha3 data)⟩ := by
  have hwrite : pwrite [] data 0 = data := (pwrite_eq (Nat.zero_le _)).trans (by simp)
  have hle : data.length ≤ 2 ^ 30 := by
    unfold PAGE_LENGTH at hn'
    omega
  obtain ⟨mt, hu⟩ : ∃ mt, updateTree sha3 .nul sched (data ++ rest) data.length 0
      (pwrite [] data 0) none = .ok ⟨0, mt, .string (merkleString sha3 data)⟩ :=
    ⟨_, by rw [hwrite, updateTree, mComputeMerkle_of_lt hle
      ((Nat.div_lt_iff_lt_mul PAGE_LENGTH_pos).2 hn'), computeMerkle_of_nulFree hfree hn hle]⟩
  have hw : bbWrite sha3 .nul sched treeBlock (fun c => (data.length, pwrite c data 0))
      (data ++ rest) data.length 0 ⟨[], none⟩ =
        .ok (data.length, ⟨pwrite [] data 0, setxattr (merkleString sha3 data)⟩) :=
    bbWrite_of_updateTree (readTree_none treeBlock) hu
  rw [exec, hw, Run.ok_bind, hwrite]
  rfl

/-- A character is written to an empty file, and another one behind it. -/
theorem intact_a_b : ∃ file, file.contents = [byteOf 'a', byteOf 'b'] ∧ file.attr ≠ none ∧
    Intact (fun _ => zeroDigest) file := by
  obtain ⟨_, hg, -⟩ := exists_stored (fun _ => zeroDigest) (c := [byteOf 'a']) (by decide)
    (by decide) (by decide)
  obtain ⟨ss, mt, τ, -, hr, hread⟩ := readTree_of_gives hg treeBlock_drop
  have hpart : readPart [byteOf 'a'] = [byteOf 'a'] := readPart_of_le (by decide)
  have hheight : heightOf [byteOf 'a'].length = 1 := by decide
  rw [hpart, hheight] at hr
  obtain ⟨σ, hσ⟩ := exists_target (fun _ => zeroDigest) .nul 1
    (replaced (leafAt (leafCount [byteOf 'a'].length) ss) (2 ^ (1 - 1) + 0)
      (newStrings [byteOf 'a', byteOf 'b'] 0 0))
  have hrange : pageRange (intOf (1 : ℕ)) (intOf (1 : ℕ)) = .ok ((0 : ℕ), (0 + 0 : ℕ)) := rfl
  obtain ⟨mt', hq⟩ := pagesInNeed_full hr rfl (by decide) (by decide) hrange (by decide) (by decide)
    (by decide) (fun j hj hj' => absurd hj' (by omega)) hσ
  have hfirst : Step (fun _ => zeroDigest) Sound ⟨[], none⟩
      ⟨[byteOf 'a'], setxattr (merkleString (fun _ => zeroDigest) [byteOf 'a'])⟩ :=
    ⟨.sequential ℕ, .write [byteOf 'a'] [] 0, .inl rfl,
      exec_first (by decide) (by decide) (by decide)⟩
  have hsecond : Step (fun _ => zeroDigest) Sound
      ⟨[byteOf 'a'], setxattr (merkleString (fun _ => zeroDigest) [byteOf 'a'])⟩
      ⟨[byteOf 'a', byteOf 'b'], setxattr (treeString (2 ^ 1) σ)⟩ := by
    refine ⟨.sequential ℕ, .write [byteOf 'b'] [] 1, .inr ?_, ?_⟩
    · exact writeSound_of_pagesWhole (by decide) (by decide) (by decide) (by decide) (by decide)
        (by decide) (by decide) (.inr (.inr (.inl (by decide))))
    · have hu : updateTree (fun _ => zeroDigest) .nul (.sequential ℕ) [byteOf 'b'] 1 1
          [byteOf 'a', byteOf 'b'] (some mt) = .ok ⟨0, mt', .string (treeString (2 ^ 1) σ)⟩ := by
        rw [updateTree_unaligned (by decide), hq]
      exact Run.bind_eq_ok.2 ⟨_, bbWrite_of_updateTree hread hu, rfl⟩
  exact ⟨_, rfl, Option.some_ne_none _, intact_of_reached (.tail (.single hfirst) hsecond)⟩

/-- The file `ab` is truncated to `a`. -/
theorem not_intact_truncate : ¬ ∀ (sha3 : List Byte → Digest) (file : File),
    Relation.ReflTransGen (Step sha3 fun _ _ => True) ⟨[], none⟩ file → Intact sha3 file := by
  intro hall
  set x := CStr.ofBlock [byteOf 'a', byteOf 'b'] with hx
  have hwrite : Step (marking x) (fun _ _ => True) ⟨[], none⟩
      ⟨[byteOf 'a', byteOf 'b'], setxattr (merkleString (marking x) [byteOf 'a', byteOf 'b'])⟩ :=
    ⟨.sequential ℕ, .write [byteOf 'a', byteOf 'b'] [] 0, trivial,
      exec_first (by decide) (by decide) (by decide)⟩
  have htruncate : Step (marking x) (fun _ _ => True)
      ⟨[byteOf 'a', byteOf 'b'], setxattr (merkleString (marking x) [byteOf 'a', byteOf 'b'])⟩
      ⟨[byteOf 'a'], setxattr (merkleString (marking x) [byteOf 'a', byteOf 'b'])⟩ :=
    ⟨.sequential ℕ, .truncate 1, trivial, rfl⟩
  obtain ⟨s, hg, hs⟩ := hall _ _ (.tail (.single hwrite) htruncate) _ rfl
  obtain ⟨-, -, τ, hτ, rfl⟩ := (gives_iff (by decide)).1 hg
  have hread : readPart [byteOf 'a'] = [byteOf 'a'] := readPart_of_le (by decide)
  have hτ₂ := target_fileHashes (marking x) [byteOf 'a', byteOf 'b']
  have hheight : heightOf [byteOf 'a'].length = 1 := by decide
  have hheight₂ : heightOf [byteOf 'a', byteOf 'b'].length = 1 := by decide
  have hcount : leafCount [byteOf 'a'].length = 2 ^ (1 - 1) := by decide
  have hleaf : leafAt (leafCount [byteOf 'a', byteOf 'b'].length)
      (leafStrings [byteOf 'a', byteOf 'b']) (1 + 0) = x := by
    rw [show leafCount [byteOf 'a', byteOf 'b'].length = 1 by decide, leafAt_add,
      getElem?_leafStrings_page (by decide)]
    rfl
  rw [hread, hheight, hcount] at hτ
  rw [hheight₂] at hτ₂
  have heq : treeString (2 ^ 1) (fileHashes (marking x) [byteOf 'a', byteOf 'b']) =
      treeString (2 ^ 1) τ := by
    rw [← hheight₂]
    refine CStr.ext (hs.trans ?_)
    rw [hread, hheight, hheight₂]
  have hpage := getElem?_of_treeString le_rfl le_rfl (show 1 = 2 ^ (1 - 1) from rfl) Nat.one_pos
    hτ₂ hleaf hτ (by rw [length_leafStrings, hcount]) heq
  rw [getElem?_leafStrings_page (by decide)] at hpage
  exact absurd (congrArg CStr.strlen (Option.some.inj hpage)) (by decide)

end MerkleFs
