import MerkleFs.Parse.Stored

/-!
# Changing the pages of a write

`pages_in_need` handles writes that do not start at a page boundary: it reads the file, cuts out
the pages between the first and the last byte written and puts them into the leaves of the stored
tree.  The last of these pages is copied with `strlcpy`, which leaves room for a terminator, so
that a full page loses its last byte.

* `pagesInNeed_eq` : what `pages_in_need` does on a stored tree with room for the file.
* `pagesInNeed_fail` : when a page is behind the last leaf, or the run of pages overruns the tree,
  it returns `-1`.
-/

namespace MerkleFs

variable (sha3 : List Byte → Digest) (heap : Heap)

/-! ### The code -/

/-- The slots in which `n` strings, at `strlen` strides from slot `k` on, are found. -/
def dataSlots (datas : ℕ → Ptr) : ℕ → ℕ → List ℕ
  | 0, _ => []
  | n + 1, k =>
    match (datas k).str with
    | none => [k]
    | some s => k :: dataSlots datas n (k + s.strlen)

/-- `free_merkle` on a tree whose leaves from node `index` on have their data in the blocks of
the given slots.  The data of the first leaf are not freed. -/
def freeMerkle (mt : MerkleTree) (index : ℤ) (slots : List ℕ) : Run Unit :=
  let freed := slots.zipIdx.filter fun p =>
    (mt.nbNodes / 2 : ℕ) < index + p.2 ∧ index + p.2 < mt.nbNodes
  if (freed.map Prod.fst).Nodup then .ok () else .error .invalidFree

/-- The part of `pages_in_need` that copies `number` pages from page `firstPage` on. -/
def copyNewDatas (fileString : List Byte) (firstPage number : ℕ) : Run (ℕ → Ptr) := do
  let newDatas := allocPages number 0 fun _ => .null
  let newDatas ← copyPages (number - 1) 0 (fileString.drop (firstPage * PAGE_LENGTH)) newDatas
  -- the last page of the file is copied like any other last page
  let page ← strlcpy (fileString.drop ((firstPage + (number - 1)) * PAGE_LENGTH)) PAGE_LENGTH
  return setSlot newDatas ((number - 1) * PAGE_LENGTH) (.heap page)

/-- The end of `pages_in_need`, after `change_and_rebuild`. -/
def finishPages (index : ℤ) (slots : List ℕ) : ℤ × MerkleTree → Run Outcome
  | (code, mt) =>
    if code = -1 then return ⟨-1, mt, .unset⟩
    else do
      let _ ← checkInt (HASH_SIZE * mt.nbNodes : ℕ)
      let s ← treeToString mt
      freeMerkle mt index slots
      return ⟨0, mt, .string s⟩

/-- The first and the last page of a write as `pages_in_need` computes them. -/
def pageRange (size offset : ℤ) : Run (ℤ × ℤ) := do
  let last ← checkInt (offset + size)
  return (offset.tdiv PAGE_LENGTH, last.tdiv PAGE_LENGTH - (if isFull last then 1 else 0))

/-- What `pages_in_need` passes to `change_and_rebuild` together with the tree: the indexes and
the new pages.  With `none` it calls `compute_merkle`. -/
def pagesCall (size offset : ℤ) (mt : MerkleTree) (contents : List Byte) :
    Run (Option (List ℤ × (ℕ → Ptr))) := do
  let (fileSize, fileString) ← readFile heap contents
  if mt.nbNodes / 2 < fileSize / PAGE_LENGTH then return none
  else do
    let (firstPage, lastPage) ← pageRange size offset
    let number := lastPage - firstPage + 1
    let leafStartIndex ← shl1 (mt.treeHeight - 1)
    -- an array without entries, or a read in front of the file
    if number < 1 ∨ firstPage < 0 then .error .bounds
    else do
      let _ ← checkInt (number * PAGE_LENGTH)
      let newDatas ← copyNewDatas fileString firstPage.toNat number.toNat
      return some ((List.range number.toNat).map fun (i : ℕ) =>
        (leafStartIndex : ℤ) + firstPage + i, newDatas)

/-- `pages_in_need`. -/
def pagesInNeed (size offset : ℤ) (mt : MerkleTree) (fp : Option (List Byte)) : Run Outcome :=
  match fp with
  | none => .ok ⟨-1, mt, .unset⟩
  | some contents => do
    match ← pagesCall heap size offset mt contents with
    | none => computeMerkle sha3 heap fp mt
    | some (indexes, newDatas) => do
      let changed ← changeAndRebuild sha3 heap mt indexes newDatas .fileMode
      finishPages (indexes.headD 0) (dataSlots newDatas indexes.length 0) changed

variable {sha3 heap} {c c' : List Byte} {mt mt' : MerkleTree} {h i k n f l : ℕ} {ss : List CStr}
  {τ τ' : ℕ → CStr} {leaf leaf' : ℕ → CStr} {datas : ℕ → Ptr}

/-! ### The new pages -/

/-- The last page of a write, as it is copied. -/
def cutPage (c : List Byte) (i : ℕ) : CStr :=
  (CStr.ofBlock (c.drop (i * PAGE_LENGTH))).take (PAGE_LENGTH - 1)

/-- The strings for the pages `f … f + n` of a write. -/
def newStrings (c : List Byte) (f n : ℕ) : List CStr :=
  (List.range' f n).map (pageOf c) ++ [cutPage c (f + n)]

theorem length_newStrings : (newStrings c f n).length = n + 1 := by
  rw [newStrings, List.length_append, List.length_map, List.length_range', List.length_singleton]

theorem bytes_cutPage (hfree : 0 ∉ c) :
    (cutPage c i).bytes = (c.drop (i * PAGE_LENGTH)).take (PAGE_LENGTH - 1) := by
  rw [cutPage, CStr.bytes_take, CStr.ofBlock_of_nulFree fun h => hfree (List.mem_of_mem_drop h)]

theorem cutPage_eq (hfree : 0 ∉ c) (hi : c.length < (i + 1) * PAGE_LENGTH) :
    cutPage c i = pageOf c i := by
  refine CStr.ext ?_
  rw [Nat.succ_mul] at hi
  have hlen : (c.drop (i * PAGE_LENGTH)).length = c.length - i * PAGE_LENGTH := List.length_drop
  rw [bytes_cutPage hfree, bytes_pageOf hfree, List.take_of_length_le (by omega),
    List.take_of_length_le (by omega)]

theorem cutPage_ne (hfree : 0 ∉ c) (hi : (i + 1) * PAGE_LENGTH ≤ c.length) :
    cutPage c i ≠ pageOf c i := by
  intro heq
  have hlen := (strlen_pageOf_eq_iff hfree).2 hi
  rw [← heq, CStr.strlen, bytes_cutPage hfree, List.length_take] at hlen
  have := PAGE_LENGTH_pos
  omega

theorem pageOf_drop (b : List Byte) (f i : ℕ) :
    pageOf (b.drop (f * PAGE_LENGTH)) i = pageOf b (f + i) := by
  rw [pageOf, pageOf, List.drop_drop, Nat.add_mul]

/-- The array of the new pages. -/
def newSlots (c : List Byte) (f n : ℕ) : ℕ → Ptr :=
  setSlot (fun k => if PAGE_LENGTH ∣ k ∧ k / PAGE_LENGTH < n then
      .heap (pageOf c (f + k / PAGE_LENGTH))
    else allocPages (n + 1) 0 (fun _ => .null) k) (n * PAGE_LENGTH) (.heap (cutPage c (f + n)))

theorem copyNewDatas_eq (htail : heap.fileTail = 0)
    (hn : (f + n) * PAGE_LENGTH ≤ c.length) :
    copyNewDatas (c ++ [heap.fileTail]) f (n + 1) = .ok (newSlots c f n) := by
  have hcopy := copyPages_eq (n := n) (a := 0) (b := (c ++ [heap.fileTail]).drop (f * PAGE_LENGTH))
    (allocPages (n + 1) 0 fun _ => .null) (by
      rw [Nat.add_mul] at hn
      rw [List.length_drop, List.length_append, List.length_singleton, Nat.zero_add]
      omega)
  simp only [Nat.zero_mul, List.drop_zero, Nat.zero_le, true_and, Nat.zero_add, pageOf_drop]
    at hcopy
  have hdrop : (c ++ [heap.fileTail]).drop ((f + n) * PAGE_LENGTH) =
      c.drop ((f + n) * PAGE_LENGTH) ++ 0 :: [] := by
    rw [List.drop_append_of_le_length hn, htail]
  have hread : strlcpy (c.drop ((f + n) * PAGE_LENGTH) ++ 0 :: []) PAGE_LENGTH =
      .ok (cutPage c (f + n)) := by
    rw [strlcpy, readStr_of_mem (by simp), CStr.ofBlock_append_zero_cons, Run.ok_bind]
    rfl
  rw [copyNewDatas, Nat.add_sub_cancel, hcopy, Run.ok_bind, hdrop, hread, Run.ok_bind]
  refine congrArg (fun slots => Except.ok (setSlot slots _ _)) (funext fun k => ?_)
  refine ite_congr rfl (fun hk => ?_) fun _ => rfl
  rw [pageOf_append]
  exact (Nat.mul_le_mul_right _ (by omega : f + k / PAGE_LENGTH + 1 ≤ f + n)).trans hn

theorem newSlots_page (hi : i < n) :
    newSlots c f n (i * PAGE_LENGTH) = .heap (pageOf c (f + i)) := by
  have hdiv : i * PAGE_LENGTH / PAGE_LENGTH = i := Nat.mul_div_cancel _ PAGE_LENGTH_pos
  have hlt : i * PAGE_LENGTH < n * PAGE_LENGTH := Nat.mul_lt_mul_of_pos_right hi PAGE_LENGTH_pos
  rw [newSlots, setSlot, if_neg (by omega), hdiv, if_pos ⟨Nat.dvd_mul_left _ _, hi⟩]

theorem newSlots_cut : newSlots c f n (n * PAGE_LENGTH) = .heap (cutPage c (f + n)) := by
  rw [newSlots, setSlot, if_pos rfl]

theorem strlen_cutPage_le (c : List Byte) (i : ℕ) : (cutPage c i).strlen ≤ PAGE_LENGTH := by
  rw [cutPage, CStr.strlen, CStr.bytes_take, List.length_take]
  exact (Nat.min_le_left _ _).trans (Nat.sub_le _ _)

theorem strlen_newSlots_le {s : CStr} (hs : (newSlots c f n k).str = some s) :
    s.strlen ≤ PAGE_LENGTH := by
  simp only [newSlots, setSlot] at hs
  split_ifs at hs
  · obtain rfl := Option.some.inj hs
    exact strlen_cutPage_le c _
  · obtain rfl := Option.some.inj hs
    exact strlen_pageOf_le c _
  · rw [allocPages_zero] at hs
    split_ifs at hs <;> cases hs
    exact Nat.zero_le _

theorem layout_full {m : ℕ} (hm : i + m ≤ n)
    (hfull : ∀ j, f + i ≤ j → j < f + i + m → (pageOf c j).strlen = PAGE_LENGTH)
    (hl : Layout (newSlots c f n) ((i + m) * PAGE_LENGTH) ss) :
    Layout (newSlots c f n) (i * PAGE_LENGTH) ((List.range' (f + i) m).map (pageOf c) ++ ss) := by
  induction m generalizing i with
  | zero => exact hl
  | succ m ih =>
    rw [List.range'_succ, List.map_cons, List.cons_append]
    refine ⟨by rw [newSlots_page (by omega)]; rfl, ?_⟩
    rw [hfull _ (by omega) (by omega), ← Nat.succ_mul]
    refine ih (by omega) (fun j hj hj' => hfull j (by omega) (by omega)) ?_
    rwa [show i.succ + m = i + (m + 1) by omega]

theorem layout_newStrings (hfull : ∀ j, f ≤ j → j < f + n → (pageOf c j).strlen = PAGE_LENGTH) :
    Layout (newSlots c f n) 0 (newStrings c f n) := by
  have hcut : Layout (newSlots c f n) ((0 + n) * PAGE_LENGTH) [cutPage c (f + n)] :=
    ⟨by rw [Nat.zero_add, newSlots_cut]; rfl, trivial⟩
  have := layout_full (Nat.zero_add n).le hfull hcut
  rwa [Nat.zero_mul] at this

theorem strlen_pageOf_of_lt (hfree : 0 ∉ c) (hn : (f + n) * PAGE_LENGTH ≤ c.length) :
    ∀ j, f ≤ j → j < f + n → (pageOf c j).strlen = PAGE_LENGTH := fun _ _ hj =>
  (strlen_pageOf_eq_iff hfree).2 ((Nat.mul_le_mul_right _ hj).trans hn)

theorem fits_of_pages (hss : ∀ s ∈ ss, s.strlen ≤ PAGE_LENGTH)
    (hk : k + ss.length * PAGE_LENGTH ≤ INT_MAX) : Fits k ss := by
  induction ss generalizing k with
  | nil => trivial
  | cons s ss ih =>
    have hs := hss s List.mem_cons_self
    rw [List.length_cons, Nat.succ_mul] at hk
    refine ⟨by unfold PTR_SIZE PAGE_LENGTH at *; omega, by omega,
      ih (fun t ht => hss t (List.mem_cons_of_mem _ ht)) (by omega)⟩

theorem strlen_newStrings_le {s : CStr} (hs : s ∈ newStrings c f n) : s.strlen ≤ PAGE_LENGTH := by
  rcases List.mem_append.1 hs with hs | hs
  · obtain ⟨i, -, rfl⟩ := List.mem_map.1 hs
    exact strlen_pageOf_le _ _
  · obtain rfl := List.mem_singleton.1 hs
    exact strlen_cutPage_le c _

theorem strlen_newStrings_pos
    (hfull : ∀ j, f ≤ j → j < f + n → (pageOf c j).strlen = PAGE_LENGTH) {s : CStr}
    (hs : s ∈ (newStrings c f n).dropLast) : 1 ≤ s.strlen := by
  rw [newStrings, List.dropLast_concat] at hs
  obtain ⟨i, hi, rfl⟩ := List.mem_map.1 hs
  rw [List.mem_range'_1] at hi
  rw [hfull i hi.1 hi.2]
  exact PAGE_LENGTH_pos

/-! ### Freeing -/

theorem le_of_mem_dataSlots {j : ℕ} (hj : j ∈ dataSlots datas n k) : k ≤ j := by
  induction n generalizing k with
  | zero => cases hj
  | succ n ih =>
    rw [dataSlots] at hj
    cases hk : (datas k).str with
    | none => rw [hk] at hj; exact (List.mem_singleton.1 hj).ge
    | some s =>
      rw [hk] at hj
      rcases List.mem_cons.1 hj with rfl | hj
      · exact le_rfl
      · exact (Nat.le_add_right _ _).trans (ih hj)

theorem nodup_dataSlots (hl : Layout datas k ss) (hpos : ∀ s ∈ ss.dropLast, 1 ≤ s.strlen) :
    (dataSlots datas ss.length k).Nodup := by
  induction ss generalizing k with
  | nil => exact List.nodup_nil
  | cons s ss ih =>
    rw [List.length_cons, dataSlots, hl.1]
    cases ss with
    | nil => exact List.nodup_singleton k
    | cons t ss =>
      rw [List.dropLast_cons_cons] at hpos
      have hs := hpos s List.mem_cons_self
      refine List.nodup_cons.2 ⟨fun hmem => ?_,
        ih hl.2 fun t ht => hpos t (List.mem_cons_of_mem _ ht)⟩
      have := le_of_mem_dataSlots hmem
      omega

theorem freeMerkle_eq (index : ℤ) {slots : List ℕ} (hslots : slots.Nodup) :
    freeMerkle mt index slots = .ok () := by
  refine if_pos (List.Nodup.sublist ((List.filter_sublist).map _) ?_)
  rwa [List.zipIdx_map_fst]

/-! ### `pages_in_need` on a stored tree -/

variable {size offset : ℕ} {o : Outcome}

theorem lastPage_int (hsize : 1 ≤ size) :
    ((offset + size : ℕ) : ℤ).tdiv PAGE_LENGTH - (if isFull (offset + size : ℕ) then 1 else 0) =
      (lastPage offset size : ℕ) := by
  rw [← Int.ofNat_tdiv, isFull_eq]
  unfold lastPage PAGE_LENGTH
  split_ifs with h <;> simp only [decide_eq_true_eq] at h <;> omega

theorem length_lt_of_div_le (hle : c.length ≤ 2 ^ 30)
    (hroom : c'.length / PAGE_LENGTH ≤ leafCount c.length) :
    c'.length < 2 ^ 30 + PAGE_LENGTH := by
  have hleaf := leafCount_le hle
  unfold PAGE_LENGTH at *
  omega

theorem length_lt_max (hlen : c'.length < 2 ^ 30 + PAGE_LENGTH) :
    c'.length + PAGE_LENGTH < INT_MAX := by
  unfold INT_MAX PAGE_LENGTH at *
  omega

theorem div_le_of_room (hroom : c'.length ≤ n * PAGE_LENGTH) : c'.length / PAGE_LENGTH ≤ n := by
  unfold PAGE_LENGTH at *
  omega

theorem total_le_of_pages (hss : ∀ s ∈ ss, s.strlen ≤ PAGE_LENGTH)
    (hn : ss.length ≤ 2 ^ 14 + 1) : total ss.dropLast ≤ INT_MAX := by
  refine (fits_of_pages hss ?_).total_le
  have := Nat.mul_le_mul_right PAGE_LENGTH hn
  unfold INT_MAX PAGE_LENGTH at *
  omega

theorem reads_of_pages {datas : ℕ → Ptr} (hint : total ss.dropLast ≤ INT_MAX)
    (hl : Layout datas 0 ss) : Reads datas 0 ss := by
  rw [← Nat.zero_add (total _)] at hint
  exact reads_of_layout hint hl

theorem total_newStrings_le (hn : f + n ≤ 2 ^ 14) : total (newStrings c' f n).dropLast ≤ INT_MAX :=
  total_le_of_pages (fun _ hs => strlen_newStrings_le hs) (by rw [length_newStrings]; omega)

theorem two_pow_le_of_le (hh : h ≤ 15) : 2 ^ (h - 1) ≤ 2 ^ 14 :=
  Nat.pow_le_pow_right (by norm_num) (by omega)

theorem lastPage_mul_lt (hsize : 1 ≤ size) (hend : offset + size ≤ c'.length) :
    lastPage offset size * PAGE_LENGTH < c'.length := by
  have := Nat.div_mul_le_self (offset + size - 1) PAGE_LENGTH
  unfold lastPage
  omega

theorem nonneg_of_pagesInNeed {size offset : ℤ}
    (hq : pagesInNeed sha3 heap size offset mt (some c') = .ok o) : 0 ≤ intOf c'.length := by
  rw [pagesInNeed] at hq
  obtain ⟨_, hcall, -⟩ := Run.bind_eq_ok.1 hq
  obtain ⟨_, hread, -⟩ := Run.bind_eq_ok.1 hcall
  exact (readFile_eq_ok hread).1

theorem computeMerkle_of_pagesInNeed (hs : Shape h mt) {size offset : ℤ}
    (hroom : 2 ^ (h - 1) < (readPart c').length / PAGE_LENGTH)
    (hq : pagesInNeed sha3 heap size offset mt (some c') = .ok o) :
    computeMerkle sha3 heap (some c') mt = .ok o := by
  have hp := BinTree.two_pow_pred hs.pos
  rw [pagesInNeed] at hq
  obtain ⟨call, hcall, hq⟩ := Run.bind_eq_ok.1 hq
  obtain ⟨⟨fileSize, fileString⟩, hread, hcall⟩ := Run.bind_eq_ok.1 hcall
  simp only [(readFile_eq_ok hread).2, hs.nbNodes] at hcall
  rw [if_pos (by omega)] at hcall
  cases hcall
  exact hq

theorem pageRange_eq (hsize : 1 ≤ size) (hmax : offset + size ≤ INT_MAX) :
    pageRange size offset = .ok ((firstPage offset : ℕ), (lastPage offset size : ℕ)) := by
  rw [pageRange, ← Nat.cast_add, checkInt_of_le (Int.natCast_nonneg _) (by exact_mod_cast hmax),
    Run.ok_bind, lastPage_int hsize, ← Int.ofNat_tdiv]
  rfl

theorem pageRange_of_lt (hsize : 1 ≤ size) (hend : offset + size ≤ c'.length)
    (hmax : c'.length < 2 ^ 30 + PAGE_LENGTH) (hn : lastPage offset size = firstPage offset + n) :
    pageRange size offset = .ok ((firstPage offset : ℕ), (firstPage offset + n : ℕ)) := by
  have := length_lt_max hmax
  rw [pageRange_eq hsize (by omega), hn]

/-- **What `pages_in_need` passes to `change_and_rebuild`**, for a range of pages that starts in the
file. -/
theorem pagesCall_of_range (hs : Shape h mt) (htail : heap.fileTail = 0)
    (hmax : c'.length + PAGE_LENGTH < INT_MAX) (hroom : c'.length / PAGE_LENGTH ≤ 2 ^ (h - 1))
    {size offset : ℤ} (hrange : pageRange size offset = .ok ((f : ℕ), (f + n : ℕ)))
    (hlast : (f + n) * PAGE_LENGTH ≤ c'.length) :
    pagesCall heap size offset mt c' =
      .ok (some ((List.range' (2 ^ (h - 1) + f) (n + 1)).map Nat.cast, newSlots c' f n)) := by
  have hp := BinTree.two_pow_pred hs.pos
  have hle : (n + 1) * PAGE_LENGTH ≤ INT_MAX := by
    have := Nat.mul_le_mul_right PAGE_LENGTH (Nat.le_add_left n f)
    rw [Nat.succ_mul]
    omega
  have hnumber : ((f + n : ℕ) : ℤ) - (f : ℕ) + 1 = (n + 1 : ℕ) := by
    push_cast
    ring
  have hint : ((n + 1 : ℕ) : ℤ) * PAGE_LENGTH = ((n + 1) * PAGE_LENGTH : ℕ) :=
    (Nat.cast_mul _ _).symm
  have hindexes : (List.range (n + 1)).map (fun (i : ℕ) =>
      ((2 ^ (h - 1) : ℕ) : ℤ) + (f : ℕ) + i) =
        (List.range' (2 ^ (h - 1) + f) (n + 1)).map Nat.cast := by
    rw [List.range'_eq_map_range, List.map_map]
    refine List.map_congr_left fun i _ => ?_
    simp
  rw [pagesCall, readFile_of_lt (by omega), Run.ok_bind]
  simp only
  rw [if_neg (by rw [hs.nbNodes]; omega), hrange, Run.ok_bind]
  simp only
  rw [hnumber, hs.shl1_eq, Run.ok_bind, if_neg (by omega), hint,
    checkInt_of_le (Int.natCast_nonneg _) (by exact_mod_cast hle), Run.ok_bind, Int.toNat_natCast,
    Int.toNat_natCast, hindexes, copyNewDatas_eq htail hlast]
  rfl

theorem pagesCall_eq (hs : Shape h mt) (htail : heap.fileTail = 0)
    (hmax : c'.length + PAGE_LENGTH < INT_MAX) (hroom : c'.length / PAGE_LENGTH ≤ 2 ^ (h - 1))
    (hsize : 1 ≤ size) (hend : offset + size ≤ c'.length)
    (hn : lastPage offset size = firstPage offset + n) :
    pagesCall heap size offset mt c' =
      .ok (some ((List.range' (2 ^ (h - 1) + firstPage offset) (n + 1)).map Nat.cast,
        newSlots c' (firstPage offset) n)) := by
  have hlast := lastPage_mul_lt hsize hend
  rw [hn] at hlast
  exact pagesCall_of_range hs htail hmax hroom
    (by rw [pageRange_eq hsize (hend.trans (by omega)), hn]) hlast.le

/-! ### On a tree as it is read back -/

/-- The leaves of a tree after the strings `ss` have been put into those from `start` on. -/
def replaced (leaf : ℕ → CStr) (start : ℕ) (ss : List CStr) : ℕ → CStr := fun j =>
  if start ≤ j ∧ j < start + ss.length then leafAt start ss j else leaf j

theorem update_replaced (hr : ReadBack sha3 heap h mt leaf τ) (hne : ss ≠ [])
    (hlow : 2 ^ (h - 1) ≤ k) (hhigh : k + ss.length ≤ 2 ^ h)
    (hτ' : Target sha3 heap h (replaced leaf k ss) τ') :
    Update sha3 heap h mt k ss leaf (replaced leaf k ss) τ τ' := by
  refine ⟨hr.shape, hr.target, hτ', hr.settled, hne, hlow, hhigh, fun j _ _ hj => ?_,
    fun j hj hj' => ?_⟩
  · rw [replaced, if_neg (by omega)]
  · rw [replaced, if_pos ⟨hj, hj'⟩]

theorem pagesInNeed_of_range (hs : Shape h mt) (htail : heap.fileTail = 0)
    (hmax : c'.length + PAGE_LENGTH < INT_MAX) (hroom : c'.length / PAGE_LENGTH ≤ 2 ^ (h - 1))
    {size offset : ℤ} (hrange : pageRange size offset = .ok ((f : ℕ), (f + n : ℕ)))
    (hlast : (f + n) * PAGE_LENGTH ≤ c'.length) :
    pagesInNeed sha3 heap size offset mt (some c') = (do
      let changed ← changeAndRebuild sha3 heap mt
        ((List.range' (2 ^ (h - 1) + f) (n + 1)).map Nat.cast) (newSlots c' f n) .fileMode
      finishPages (2 ^ (h - 1) + f : ℕ) (dataSlots (newSlots c' f n) (n + 1) 0) changed) := by
  rw [pagesInNeed, pagesCall_of_range hs htail hmax hroom hrange hlast, Run.ok_bind]
  simp only [List.range'_succ, List.map_cons, List.headD_cons, List.length_cons, List.length_map,
    List.length_range']

/-- The run of pages overruns the tree, and the first leaf is not among its pages. -/
def PastLeaves (h f n : ℕ) : Prop := f ≠ 0 ∧ BinTree.Overruns h (2 ^ (h - 1) + f) (n + 1)

instance (h f n : ℕ) : Decidable (PastLeaves h f n) := inferInstanceAs (Decidable (_ ∧ _))

/-- **Pages are changed**, whatever strings are found for them. -/
theorem pagesInNeed_changed (hr : ReadBack sha3 heap h mt leaf τ) (htail : heap.fileTail = 0)
    (hmax : c'.length + PAGE_LENGTH < INT_MAX) (hroom : c'.length / PAGE_LENGTH ≤ 2 ^ (h - 1))
    {size offset : ℤ} (hrange : pageRange size offset = .ok ((f : ℕ), (f + n : ℕ)))
    (hlast : (f + n) * PAGE_LENGTH ≤ c'.length) (hfit : f + n < 2 ^ (h - 1))
    (hpast : ¬ PastLeaves h f n) (hl : Layout (newSlots c' f n) 0 ss) (hss : ss.length = n + 1)
    (hint : total ss.dropLast ≤ INT_MAX)
    (hτ' : Target sha3 heap h (replaced leaf (2 ^ (h - 1) + f) ss) τ') :
    ∃ mt', mt'.nbNodes = 2 ^ h ∧ pagesInNeed sha3 heap size offset mt (some c') = (do
      freeMerkle mt' (2 ^ (h - 1) + f : ℕ) (dataSlots (newSlots c' f n) (n + 1) 0)
      return ⟨0, mt', .string (treeString (2 ^ h) τ')⟩) := by
  have hp := BinTree.two_pow_pred hr.pos
  have hle := hr.le
  have hc := (update_replaced hr (by rintro rfl; simp at hss) (by omega) (by omega) hτ').change
    hr.terminated
  have hchange := changeAndRebuild_fileMode (reads_of_pages hint hl) hc fun ho => hc.first (by
    by_contra hne
    rw [hss] at ho
    exact hpast ⟨by omega, ho⟩)
  rw [hss] at hchange
  have hs' := (hr.shape.setDatas (2 ^ (h - 1) + f) ss).setHashes τ'
    (BinTree.levels h (2 ^ (h - 1) + f) (n + 1) ++ [1])
  have hD' := settled_fileMode hc
  rw [hss] at hD'
  have hbuffer : ((HASH_SIZE * 2 ^ h : ℕ) : ℤ) ≤ INT_MAX := by
    have : 2 ^ h ≤ 2 ^ 15 := Nat.pow_le_pow_right (by norm_num) hle
    unfold HASH_SIZE INT_MAX
    omega
  refine ⟨_, hs'.nbNodes, ?_⟩
  rw [pagesInNeed_of_range hr.shape htail hmax hroom hrange hlast, hchange, Run.ok_bind,
    finishPages, if_neg (by decide), hs'.nbNodes, checkInt_of_le (Int.natCast_nonneg _) hbuffer,
    Run.ok_bind, treeToString_of_settled hs' (by omega) hτ' hD', Run.ok_bind]

/-- **The pages of the file are put into the tree**, when all but the last are full. -/
theorem pagesInNeed_full (hr : ReadBack sha3 heap h mt leaf τ) (htail : heap.fileTail = 0)
    (hmax : c'.length < 2 ^ 30 + PAGE_LENGTH) (hroom : c'.length / PAGE_LENGTH ≤ 2 ^ (h - 1))
    {size offset : ℤ} (hrange : pageRange size offset = .ok ((f : ℕ), (f + n : ℕ)))
    (hlast : (f + n) * PAGE_LENGTH ≤ c'.length) (hfit : f + n < 2 ^ (h - 1))
    (hpast : ¬ PastLeaves h f n)
    (hfull : ∀ j, f ≤ j → j < f + n → (pageOf c' j).strlen = PAGE_LENGTH)
    (hτ' : Target sha3 heap h (replaced leaf (2 ^ (h - 1) + f) (newStrings c' f n)) τ') :
    ∃ mt', pagesInNeed sha3 heap size offset mt (some c') =
      .ok ⟨0, mt', .string (treeString (2 ^ h) τ')⟩ := by
  obtain ⟨mt', -, hq⟩ := pagesInNeed_changed hr htail (length_lt_max hmax) hroom hrange hlast hfit
    hpast (layout_newStrings hfull) length_newStrings
    (total_newStrings_le (hfit.le.trans (two_pow_le_of_le hr.le))) hτ'
  have hslots := nodup_dataSlots (layout_newStrings hfull) fun s hs =>
    strlen_newStrings_pos hfull hs
  rw [length_newStrings] at hslots
  exact ⟨mt', by rw [hq, freeMerkle_eq _ hslots]; rfl⟩

/-- When the run of pages overruns the tree, `pages_in_need` fails. -/
theorem pagesInNeed_past (hr : ReadBack sha3 heap h mt leaf τ) (htail : heap.fileTail = 0)
    (hmax : c'.length + PAGE_LENGTH < INT_MAX) (hroom : c'.length / PAGE_LENGTH ≤ 2 ^ (h - 1))
    {size offset : ℤ} (hrange : pageRange size offset = .ok ((f : ℕ), (f + n : ℕ)))
    (hlast : (f + n) * PAGE_LENGTH ≤ c'.length) (hfit : f + n < 2 ^ (h - 1))
    (hpast : PastLeaves h f n) (hl : Layout (newSlots c' f n) 0 ss) (hss : ss.length = n + 1)
    (hint : total ss.dropLast ≤ INT_MAX) :
    ∃ mt', pagesInNeed sha3 heap size offset mt (some c') = .ok ⟨-1, mt', .unset⟩ := by
  have hp := BinTree.two_pow_pred hr.pos
  obtain ⟨τ', hτ'⟩ := exists_target sha3 heap h (replaced leaf (2 ^ (h - 1) + f) ss)
  obtain ⟨mt', hchange⟩ := changeAndRebuild_fileMode_fail (reads_of_pages hint hl)
    ((update_replaced hr (by rintro rfl; simp at hss) (by omega) (by omega) hτ').change
      hr.terminated) (by rw [hss]; exact hpast.2) (by
      have hne := hpast.1
      rw [MerkleTree.setDatas_data, if_neg (by omega), hr.data])
  rw [hss] at hchange
  refine ⟨mt', ?_⟩
  rw [pagesInNeed_of_range hr.shape htail hmax hroom hrange hlast, hchange, Run.ok_bind]
  rfl

/-- `pages_in_need` fails when the last page is behind the last leaf. -/
theorem pagesInNeed_behind (hs : Shape h mt) (htail : heap.fileTail = 0)
    (hmax : c'.length + PAGE_LENGTH < INT_MAX) (hroom : c'.length / PAGE_LENGTH ≤ 2 ^ (h - 1))
    {size offset : ℤ} (hrange : pageRange size offset = .ok ((f : ℕ), (f + n : ℕ)))
    (hlast : (f + n) * PAGE_LENGTH ≤ c'.length) (hout : 2 ^ (h - 1) ≤ f + n)
    (hl : Layout (newSlots c' f n) 0 ss) (hss : ss.length = n + 1)
    (hint : total ss.dropLast ≤ INT_MAX) :
    ∃ mt', pagesInNeed sha3 heap size offset mt (some c') = .ok ⟨-1, mt', .unset⟩ := by
  have hp := BinTree.two_pow_pred hs.pos
  have hle : f + n ≤ 2 ^ (h - 1) := by
    unfold PAGE_LENGTH at *
    omega
  obtain ⟨mt', hchange⟩ := changeAndRebuild_behind sha3 heap (reads_of_pages hint hl) hs
    (f := 2 ^ (h - 1) + f) (by omega) (by omega) (by omega)
  rw [hss] at hchange
  refine ⟨mt', ?_⟩
  rw [pagesInNeed_of_range hs htail hmax hroom hrange hlast, hchange, Run.ok_bind]
  rfl

/-- **`pages_in_need` fails** when a page has no leaf, or the run of pages overruns the tree. -/
theorem pagesInNeed_gives_up (hr : ReadBack sha3 heap h mt leaf τ) (htail : heap.fileTail = 0)
    (hmax : c'.length + PAGE_LENGTH < INT_MAX) (hroom : c'.length / PAGE_LENGTH ≤ 2 ^ (h - 1))
    {size offset : ℤ} (hrange : pageRange size offset = .ok ((f : ℕ), (f + n : ℕ)))
    (hlast : (f + n) * PAGE_LENGTH ≤ c'.length)
    (hout : 2 ^ (h - 1) ≤ f + n ∨ PastLeaves h f n) (hl : Layout (newSlots c' f n) 0 ss)
    (hss : ss.length = n + 1) (hint : total ss.dropLast ≤ INT_MAX) :
    ∃ mt', pagesInNeed sha3 heap size offset mt (some c') = .ok ⟨-1, mt', .unset⟩ := by
  rcases Nat.lt_or_ge (f + n) (2 ^ (h - 1)) with hfit | hge
  · exact pagesInNeed_past hr htail hmax hroom hrange hlast hfit (hout.resolve_left (by omega)) hl
      hss hint
  · exact pagesInNeed_behind hr.shape htail hmax hroom hrange hlast hge hl hss hint

/-! ### On the stored tree of a file -/

/-- The leaves of a stored tree after new pages have been put into them. -/
def newLeaf (c c' : List Byte) (f n : ℕ) : ℕ → CStr := fun j =>
  if leafCount c.length + f ≤ j ∧ j < leafCount c.length + f + (n + 1) then
    leafAt (leafCount c.length + f) (newStrings c' f n) j
  else leafAt (leafCount c.length) (leafStrings c) j

theorem newLeaf_eq_replaced (c c' : List Byte) (f n : ℕ) : newLeaf c c' f n =
    replaced (leafAt (leafCount c.length) (leafStrings c))
      (2 ^ (heightOf c.length - 1) + f) (newStrings c' f n) := by
  unfold newLeaf replaced
  rw [length_newStrings, ← leafCount_eq_pow]

/-- The run of pages overruns the tree of a file, and the first leaf is not among its pages. -/
def PastEnd (c : List Byte) (f n : ℕ) : Prop :=
  f ≠ 0 ∧ BinTree.Overruns (heightOf c.length) (leafCount c.length + f) (n + 1)

instance (c : List Byte) (f n : ℕ) : Decidable (PastEnd c f n) :=
  inferInstanceAs (Decidable (_ ∧ _))

theorem pastEnd_iff : PastEnd c f n ↔ PastLeaves (heightOf c.length) f n := by
  rw [PastEnd, PastLeaves, leafCount_eq_pow]

/-- **The pages of a write are changed.** -/
theorem pagesInNeed_eq (hst : Stored sha3 heap c mt τ) (hfree : 0 ∉ c')
    (htail : heap.fileTail = 0) (hroom : c'.length ≤ leafCount c.length * PAGE_LENGTH)
    (hsize : 1 ≤ size) (hend : offset + size ≤ c'.length)
    (hn : lastPage offset size = firstPage offset + n) (hpast : ¬ PastEnd c (firstPage offset) n)
    (hτ' : Target sha3 heap (heightOf c.length) (newLeaf c c' (firstPage offset) n) τ') :
    ∃ mt', pagesInNeed sha3 heap size offset mt (some c') =
      .ok ⟨0, mt', .string (treeString (2 ^ heightOf c.length) τ')⟩ := by
  have hpow := leafCount_eq_pow c.length
  have hpages := lastPage_lt_pageCount hsize hend
  have hcount := pageCount_le_iff.2 hroom
  have hlast := lastPage_mul_lt hsize hend
  rw [hn] at hlast
  have hdiv := div_le_of_room hroom
  have hmax := length_lt_of_div_le hst.le hdiv
  rw [newLeaf_eq_replaced] at hτ'
  exact pagesInNeed_full hst.readBack htail hmax (by omega) (pageRange_of_lt hsize hend hmax hn)
    hlast.le (by omega) (by rwa [← pastEnd_iff]) (strlen_pageOf_of_lt hfree hlast.le) hτ'

/-- When the last page has no leaf, or the run of pages overruns the tree, `pages_in_need` fails. -/
theorem pagesInNeed_fail (hst : Stored sha3 heap c mt τ) (hfree : 0 ∉ c')
    (htail : heap.fileTail = 0) (hroom : c'.length / PAGE_LENGTH ≤ leafCount c.length)
    (hsize : 1 ≤ size) (hend : offset + size ≤ c'.length)
    (hn : lastPage offset size = firstPage offset + n)
    (hout : leafCount c.length ≤ firstPage offset + n ∨ PastEnd c (firstPage offset) n) :
    ∃ mt', pagesInNeed sha3 heap size offset mt (some c') = .ok ⟨-1, mt', .unset⟩ := by
  have hpow := leafCount_eq_pow c.length
  have hlast := lastPage_mul_lt hsize hend
  rw [hn] at hlast
  rw [hpow, pastEnd_iff] at hout
  have hmax := length_lt_of_div_le hst.le hroom
  have hcount : firstPage offset + n ≤ 2 ^ 14 := by
    have := leafCount_le hst.le
    unfold PAGE_LENGTH at *
    omega
  exact pagesInNeed_gives_up hst.readBack htail (length_lt_max hmax) (by omega)
    (pageRange_of_lt hsize hend hmax hn) hlast.le hout
    (layout_newStrings (strlen_pageOf_of_lt hfree hlast.le)) length_newStrings
    (total_newStrings_le hcount)

end MerkleFs
