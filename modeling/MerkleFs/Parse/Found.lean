import MerkleFs.Parse.Pages

/-!
# What `pages_in_need` finds

`pages_in_need` follows the new pages by their lengths.  Behind a page that a NUL cuts short it
meets a slot without a string, or the same slot again, which it frees twice in the end.

* `cases_of_pagesInNeed` : how it returns, and `found_of_pagesInNeed` : what it has found when it
  returns a string.
* `Found.full_or` : the pages of the file, all full but the last, unless the first two pages of a
  file that starts with a NUL are changed.
-/

namespace MerkleFs

/-- `pages_in_need` finds the strings `ss` for the pages `f … f + n` of a file, in a tree with `h`
levels, and frees them. -/
structure Found (c : List Byte) (h f n : ℕ) (ss : List CStr) : Prop where
  /-- The last page does not start behind the end of the file. -/
  last : (f + n) * PAGE_LENGTH ≤ c.length
  /-- It has a leaf. -/
  fit : f + n < 2 ^ (h - 1)
  /-- The run does not overrun the tree. -/
  notPast : ¬ PastLeaves h f n
  /-- The strings are found at `strlen` strides. -/
  layout : Layout (newSlots c f n) 0 ss
  /-- There is one for each page. -/
  length : ss.length = n + 1
  /-- They are in different blocks, as far as they are freed. -/
  freed : ∃ mt : MerkleTree, mt.nbNodes = 2 ^ h ∧
    freeMerkle mt (2 ^ (h - 1) + f : ℕ) (dataSlots (newSlots c f n) (n + 1) 0) = .ok ()

variable {sha3 : List Byte → Digest} {heap : Heap} {c : List Byte} {h f n i j k a : ℕ}
  {mt : MerkleTree} {ss : List CStr} {leaf τ : ℕ → CStr} {o : Outcome} {size offset : ℤ}
  {datas : ℕ → Ptr}

/-! ### Returning -/

theorem le_of_copyNewDatas {b : Byte} (hd : copyNewDatas (c ++ [b]) f (n + 1) = .ok datas) :
    (f + n) * PAGE_LENGTH ≤ c.length := by
  obtain ⟨_, -, hd⟩ := Run.bind_eq_ok.1 hd
  obtain ⟨page, hpage, -⟩ := Run.bind_eq_ok.1 hd
  obtain ⟨s, hs, -⟩ := Run.bind_eq_ok.1 hpage
  rw [Nat.add_sub_cancel, readStr] at hs
  split_ifs at hs with hmem
  have hne := List.length_pos_of_mem hmem
  rw [List.length_drop, List.length_append, List.length_singleton] at hne
  omega

/-- A heap with a NUL behind the buffer of a file. -/
def Heap.close (heap : Heap) : Heap := { heap with fileTail := 0 }

/-- The pages are the same with a NUL behind the file, if they are read without one. -/
theorem copyNewDatas_close {b : Byte} (hd : copyNewDatas (c ++ [b]) f (n + 1) = .ok datas) :
    copyNewDatas (c ++ [0]) f (n + 1) = .ok datas := by
  have hlast := le_of_copyNewDatas hd
  have hcopy : ∀ t slots, copyPages n 0 ((c ++ t).drop (f * PAGE_LENGTH)) slots =
      copyPages n 0 (c.drop (f * PAGE_LENGTH)) slots := fun t slots => by
    have hn : n * PAGE_LENGTH ≤ (c.drop (f * PAGE_LENGTH)).length := by
      rw [List.length_drop]
      rw [Nat.add_mul] at hlast
      omega
    rw [List.drop_append_of_le_length (by rw [Nat.add_mul] at hlast; omega),
      copyPages_append t hn]
  have hdrop : ∀ t, (c ++ t).drop ((f + n) * PAGE_LENGTH) =
      c.drop ((f + n) * PAGE_LENGTH) ++ t := fun t => List.drop_append_of_le_length hlast
  simp only [copyNewDatas, Nat.add_sub_cancel, hcopy, hdrop] at hd ⊢
  obtain ⟨slots, hslots, hd⟩ := Run.bind_eq_ok.1 hd
  obtain ⟨page, hpage, hd⟩ := Run.bind_eq_ok.1 hd
  obtain ⟨s, hs, hpage⟩ := Run.bind_eq_ok.1 hpage
  have hread : readStr (c.drop ((f + n) * PAGE_LENGTH) ++ [0]) = .ok s := by
    rw [readStr] at hs
    split_ifs at hs with hmem
    cases hs
    rw [readStr_of_mem (by simp)]
    congr 1
    rcases List.mem_append.1 hmem with hmem | hmem
    · rw [CStr.ofBlock_append_of_mem hmem, CStr.ofBlock_append_of_mem hmem]
    · rw [List.mem_singleton.1 hmem]
  rw [hslots, Run.ok_bind, strlcpy, hread, Run.ok_bind, hpage, Run.ok_bind, hd]

/-- What `pages_in_need` passes on is the same with a NUL behind the file. -/
theorem pagesCall_close {x : List ℤ × (ℕ → Ptr)}
    (hcall : pagesCall heap size offset mt c = .ok (some x)) :
    pagesCall heap.close size offset mt c = .ok (some x) := by
  obtain ⟨⟨fileSize, fileString⟩, hread, hcall⟩ := Run.bind_eq_ok.1 hcall
  obtain ⟨_, hint, hread⟩ := Run.bind_eq_ok.1 hread
  split_ifs at hread with hneg
  obtain ⟨rfl, rfl⟩ := Prod.mk.inj (Except.ok.inj hread)
  simp only at hcall
  split_ifs at hcall with hroom
  · cases hcall
  obtain ⟨⟨firstPage, lastPage⟩, hrange, hcall⟩ := Run.bind_eq_ok.1 hcall
  obtain ⟨leafStartIndex, hstart, hcall⟩ := Run.bind_eq_ok.1 hcall
  split_ifs at hcall with hbounds
  obtain ⟨_, hnumber, hcall⟩ := Run.bind_eq_ok.1 hcall
  obtain ⟨datas, hdatas, hcall⟩ := Run.bind_eq_ok.1 hcall
  obtain ⟨n, hn⟩ : ∃ n, (lastPage - firstPage + 1).toNat = n + 1 :=
    ⟨(lastPage - firstPage).toNat, by omega⟩
  rw [hn] at hdatas
  have hdatas' := copyNewDatas_close hdatas
  rw [← hn] at hdatas'
  rw [pagesCall, readFile, hint, Run.ok_bind, if_neg hneg, Run.pure_eq, Run.ok_bind]
  simp only
  rw [if_neg hroom, hrange, Run.ok_bind]
  simp only
  rw [hstart, Run.ok_bind, if_neg hbounds, hnumber, Run.ok_bind, Heap.close, hdatas', Run.ok_bind,
    hcall]

/-- The range of pages that `pages_in_need` has passed on. -/
theorem range_of_pagesCall (hs : Shape h mt) (hmax : c.length + PAGE_LENGTH < INT_MAX)
    (hroom : c.length / PAGE_LENGTH ≤ 2 ^ (h - 1)) {call : Option (List ℤ × (ℕ → Ptr))}
    (hcall : pagesCall heap size offset mt c = .ok call) :
    ∃ f n : ℕ, pageRange size offset = .ok ((f : ℕ), (f + n : ℕ)) ∧
      (f + n) * PAGE_LENGTH ≤ c.length := by
  have hp := BinTree.two_pow_pred hs.pos
  rw [pagesCall, readFile_of_lt (by omega), Run.ok_bind] at hcall
  simp only at hcall
  rw [if_neg (by rw [hs.nbNodes]; omega)] at hcall
  obtain ⟨⟨first, last⟩, hrange, hcall⟩ := Run.bind_eq_ok.1 hcall
  obtain ⟨_, -, hcall⟩ := Run.bind_eq_ok.1 hcall
  split_ifs at hcall with hbounds
  obtain ⟨_, -, hcall⟩ := Run.bind_eq_ok.1 hcall
  obtain ⟨datas, hdatas, -⟩ := Run.bind_eq_ok.1 hcall
  obtain ⟨f, rfl⟩ := Int.eq_ofNat_of_zero_le (show 0 ≤ first by omega)
  obtain ⟨n, hn⟩ := Int.eq_ofNat_of_zero_le (show 0 ≤ last - f by omega)
  obtain rfl : last = (f + n : ℕ) := by push_cast; omega
  refine ⟨f, n, hrange, @le_of_copyNewDatas _ _ _ datas heap.fileTail ?_⟩
  rwa [show ((f + n : ℕ) : ℤ) - (f : ℕ) + 1 = ((n + 1 : ℕ) : ℤ) by push_cast; ring,
    Int.toNat_natCast, Int.toNat_natCast] at hdatas

theorem hashLevels_close {l : ℕ} :
    hashLevels sha3 heap.close l i k mt = hashLevels sha3 heap l i k mt := by
  induction l generalizing i k mt with
  | zero => rfl
  | succ l ih =>
    have hk : hashLevels sha3 heap.close l (i / 2) (k / 2 + 1) =
        hashLevels sha3 heap l (i / 2) (k / 2 + 1) := funext fun mt => ih
    rw [hashLevels, hk]
    rfl

theorem changeAndRebuild_close {indexes : List ℤ} :
    changeAndRebuild sha3 heap.close mt indexes datas .fileMode =
      changeAndRebuild sha3 heap mt indexes datas .fileMode := by
  have hnode : hashNode sha3 heap.close = hashNode sha3 heap := rfl
  simp only [changeAndRebuild, hashLevels_close, hnode]

/-- A run that returns a string does not depend on the byte behind the file. -/
theorem pagesInNeed_close (hs : Shape h mt) (hroom : c.length / PAGE_LENGTH ≤ 2 ^ (h - 1))
    (hmax : c.length < INT_MAX) (hq : pagesInNeed sha3 heap size offset mt (some c) = .ok o) :
    pagesInNeed sha3 heap.close size offset mt (some c) = .ok o := by
  have hp := BinTree.two_pow_pred hs.pos
  rw [pagesInNeed] at hq ⊢
  obtain ⟨call, hcall, hq⟩ := Run.bind_eq_ok.1 hq
  cases call with
  | none =>
    rw [pagesCall, readFile_of_lt hmax, Run.ok_bind] at hcall
    simp only at hcall
    rw [if_neg (by rw [hs.nbNodes]; omega)] at hcall
    obtain ⟨⟨firstPage, lastPage⟩, -, hcall⟩ := Run.bind_eq_ok.1 hcall
    obtain ⟨_, -, hcall⟩ := Run.bind_eq_ok.1 hcall
    split_ifs at hcall
    obtain ⟨_, -, hcall⟩ := Run.bind_eq_ok.1 hcall
    obtain ⟨_, -, hcall⟩ := Run.bind_eq_ok.1 hcall
    cases hcall
  | some x =>
    rw [pagesCall_close hcall, Run.ok_bind]
    simp only [changeAndRebuild_close]
    exact hq

theorem ReadBack.close (hr : ReadBack sha3 heap h mt leaf τ) :
    ReadBack sha3 heap.close h mt leaf τ :=
  ⟨hr.pos, hr.le, hr.terminated, hr.target, hr.eq⟩

/-- **How `pages_in_need` returns**, for a tree with room for the file.  It has found a string for
each page.  If one of the leaves is behind the tree, or the run of leaves overruns the tree, it
leaves `*result` as it was. -/
theorem cases_of_pagesInNeed (hr : ReadBack sha3 heap h mt leaf τ)
    (hmax : c.length + PAGE_LENGTH < INT_MAX) (hroom : c.length / PAGE_LENGTH ≤ 2 ^ (h - 1))
    (hq : pagesInNeed sha3 heap size offset mt (some c) = .ok o) :
    ∃ f n ss, pageRange size offset = .ok ((f : ℕ), (f + n : ℕ)) ∧
      (f + n) * PAGE_LENGTH ≤ c.length ∧ Layout (newSlots c f n) 0 ss ∧ ss.length = n + 1 ∧
      ((2 ^ (h - 1) ≤ f + n ∨ PastLeaves h f n) ∧ o.result = .unset ∨
        Found c h f n ss ∧ ∃ τ', Target sha3 heap h (replaced leaf (2 ^ (h - 1) + f) ss) τ' ∧
          o.code = 0 ∧ o.result = .string (treeString (2 ^ h) τ')) := by
  replace hq := pagesInNeed_close hr.shape hroom (by omega) hq
  replace hr := hr.close
  have htail : heap.close.fileTail = 0 := rfl
  have hcall := hq
  rw [pagesInNeed] at hcall
  obtain ⟨call, hcall, -⟩ := Run.bind_eq_ok.1 hcall
  obtain ⟨f, n, hrange, hlast⟩ := range_of_pagesCall hr.shape hmax hroom hcall
  -- the strings that the data loop has found
  have hchange := hq
  rw [pagesInNeed_of_range hr.shape htail hmax hroom hrange hlast] at hchange
  obtain ⟨_, hchange, -⟩ := Run.bind_eq_ok.1 hchange
  obtain ⟨mt₁, hdatas, -⟩ := Run.bind_eq_ok.1 hchange
  obtain ⟨ss, hreads, hss⟩ := changeDatas_eq_ok hdatas
  rw [List.length_map, List.length_range'] at hss
  obtain ⟨hl, hint⟩ := layout_of_reads (k := 0) (Nat.zero_le _) (fun s hs => by
    obtain ⟨k, hk⟩ := hreads.exists_slot (List.mem_of_mem_dropLast hs)
    exact (strlen_newSlots_le hk).trans (by decide)) hreads
  rw [Nat.zero_add] at hint
  refine ⟨f, n, ss, hrange, hlast, hl, hss, ?_⟩
  by_cases hout : 2 ^ (h - 1) ≤ f + n ∨ PastLeaves h f n
  · obtain ⟨mt', hfail⟩ := pagesInNeed_gives_up hr htail hmax hroom hrange hlast hout hl hss hint
    rw [hfail] at hq
    cases hq
    exact .inl ⟨hout, rfl⟩
  · rw [not_or, not_le] at hout
    obtain ⟨hfit, hpast⟩ := hout
    obtain ⟨τ', hτ'⟩ := exists_target sha3 heap.close h (replaced leaf (2 ^ (h - 1) + f) ss)
    obtain ⟨mt', hnodes, hrun⟩ := pagesInNeed_changed hr htail hmax hroom hrange hlast hfit hpast
      hl hss hint hτ'
    rw [hrun] at hq
    obtain ⟨_, hfreed, hq⟩ := Run.bind_eq_ok.1 hq
    cases hq
    exact .inr ⟨⟨hlast, hfit, hpast, hl, hss, mt', hnodes, hfreed⟩, τ', hτ', rfl, rfl⟩

/-- **What `pages_in_need` has found** when it returns with a result. -/
theorem found_of_pagesInNeed (hr : ReadBack sha3 heap h mt leaf τ)
    (hmax : c.length + PAGE_LENGTH < INT_MAX) (hroom : c.length / PAGE_LENGTH ≤ 2 ^ (h - 1))
    (hq : pagesInNeed sha3 heap size offset mt (some c) = .ok o) (hresult : o.result ≠ .unset) :
    ∃ f n ss τ', pageRange size offset = .ok ((f : ℕ), (f + n : ℕ)) ∧ Found c h f n ss ∧
      Target sha3 heap h (replaced leaf (2 ^ (h - 1) + f) ss) τ' ∧ o.code = 0 ∧
      o.result = .string (treeString (2 ^ h) τ') := by
  obtain ⟨f, n, ss, hrange, -, -, -, ⟨-, hunset⟩ | ⟨hf, τ', hτ', hcode, hstring⟩⟩ :=
    cases_of_pagesInNeed hr hmax hroom hq
  · exact absurd hunset hresult
  · exact ⟨f, n, ss, τ', hrange, hf, hτ', hcode, hstring⟩

/-! ### Pages that are not full -/

theorem Layout.unique {ss' : List CStr} (hl : Layout datas k ss) (hl' : Layout datas k ss')
    (hlen : ss.length = ss'.length) : ss = ss' :=
  Option.some.inj ((walk_eq_some_iff.2 ⟨hl, hlen⟩).symm.trans (walk_eq_some_iff.2 ⟨hl', rfl⟩))

/-- There is nothing between the slots of the new pages. -/
theorem newSlots_null (hk : ¬ PAGE_LENGTH ∣ k) : newSlots c f n k = .null := by
  have hlast : k ≠ n * PAGE_LENGTH := by
    rintro rfl
    exact hk (Nat.dvd_mul_left _ _)
  rw [newSlots, setSlot, if_neg hlast, if_neg fun h => hk h.1, allocPages_zero,
    if_neg fun h => hk h.1]

/-- The pages of a run are full up to the last one, or up to an empty one. -/
def FullOrEmpty (c : List Byte) (f n : ℕ) : Prop :=
  ∃ m ≤ n, (∀ j, f ≤ j → j < f + m → (pageOf c j).strlen = PAGE_LENGTH) ∧
    (m < n → pageOf c (f + m) = .nil)

/-- Behind a page that is neither full nor empty nothing is found. -/
theorem Layout.exists_nil (hl : Layout (newSlots c f n) (i * PAGE_LENGTH) ss)
    (hss : ss.length = k + 1) (hk : i + k = n) :
    ∃ m ≤ k, (∀ j, f + i ≤ j → j < f + i + m → (pageOf c j).strlen = PAGE_LENGTH) ∧
      (m < k → pageOf c (f + i + m) = .nil) := by
  induction k generalizing i ss with
  | zero => exact ⟨0, le_rfl, fun j hj hj' => by omega, fun h => by omega⟩
  | succ k ih =>
    obtain ⟨s, ss, rfl⟩ : ∃ s t, ss = s :: t := List.exists_cons_of_length_pos (by omega)
    rw [List.length_cons] at hss
    have hslot := newSlots_page (c := c) (f := f) (n := n) (i := i) (by omega)
    obtain ⟨hs, hl⟩ := hl
    rw [hslot] at hs
    obtain rfl : pageOf c (f + i) = s := Option.some.inj hs
    by_cases hfull : (pageOf c (f + i)).strlen = PAGE_LENGTH
    · rw [hfull, ← Nat.succ_mul] at hl
      obtain ⟨m, hm, hpages, hnil⟩ := ih hl (by omega) (by omega)
      refine ⟨m + 1, by omega, fun j hj hj' => ?_, fun h => ?_⟩
      · rcases Nat.eq_or_lt_of_le hj with rfl | hj
        · exact hfull
        · exact hpages j hj (by omega)
      · rw [show f + i + (m + 1) = f + (i + 1) + m by omega]
        exact hnil (by omega)
    · refine ⟨0, by omega, fun j hj hj' => by omega, fun _ => ?_⟩
      rw [Nat.add_zero]
      refine CStr.strlen_eq_zero.1 ?_
      have hle := strlen_pageOf_le c (f + i)
      obtain ⟨t, ss, rfl⟩ : ∃ t u, ss = t :: u := List.exists_cons_of_length_pos (by omega)
      by_contra hpos
      have hdvd : ¬ PAGE_LENGTH ∣ i * PAGE_LENGTH + (pageOf c (f + i)).strlen := by
        rw [Nat.dvd_add_right (Nat.dvd_mul_left _ _)]
        exact Nat.not_dvd_of_pos_of_lt (by omega) (by omega)
      have ht := hl.1
      rw [newSlots_null hdvd] at ht
      cases ht

/-- The strings of such pages can be found. -/
theorem exists_layout (hpages : FullOrEmpty c f n) : ∃ ss, Layout (newSlots c f n) 0 ss ∧
    ss.length = n + 1 ∧ ∀ s ∈ ss, s.strlen ≤ PAGE_LENGTH := by
  obtain ⟨m, hm, hfull, hnil⟩ := hpages
  rcases Nat.eq_or_lt_of_le hm with rfl | hlt
  · exact ⟨_, layout_newStrings hfull, length_newStrings, fun s hs => strlen_newStrings_le hs⟩
  -- from the empty page on the same slot is found
  have hempty : (newSlots c f n ((0 + m) * PAGE_LENGTH)).str = some .nil := by
    rw [Nat.zero_add, newSlots_page hlt, hnil hlt]
    rfl
  have hl := layout_full (by omega) hfull (walk_eq_some_iff.1 (walk_nil (r := n + 1 - m) hempty)).1
  rw [Nat.zero_mul] at hl
  refine ⟨_, hl, ?_, fun s hs => ?_⟩
  · rw [List.length_append, List.length_map, List.length_range', List.length_replicate]
    omega
  · rcases List.mem_append.1 hs with hs | hs
    · obtain ⟨j, -, rfl⟩ := List.mem_map.1 hs
      exact strlen_pageOf_le c j
    · rw [List.eq_of_mem_replicate hs]
      exact Nat.zero_le _

/-- **The pages whose strings are found.** -/
theorem exists_layout_iff :
    (∃ ss, Layout (newSlots c f n) 0 ss ∧ ss.length = n + 1) ↔ FullOrEmpty c f n := by
  refine ⟨fun ⟨ss, hl, hss⟩ => ?_, fun hpages => ?_⟩
  · rw [← Nat.zero_mul PAGE_LENGTH] at hl
    exact hl.exists_nil hss (Nat.zero_add n)
  · obtain ⟨ss, hl, hss, -⟩ := exists_layout hpages
    exact ⟨ss, hl, hss⟩

/-- The slots of full pages. -/
theorem dataSlots_full {m : ℕ} (hm : i + m ≤ n)
    (hfull : ∀ j, f + i ≤ j → j < f + i + m → (pageOf c j).strlen = PAGE_LENGTH) :
    dataSlots (newSlots c f n) (m + k) (i * PAGE_LENGTH) =
      (List.range' i m).map (· * PAGE_LENGTH) ++
        dataSlots (newSlots c f n) k ((i + m) * PAGE_LENGTH) := by
  induction m generalizing i with
  | zero => rw [Nat.zero_add]; rfl
  | succ m ih =>
    have hstr : (newSlots c f n (i * PAGE_LENGTH)).str = some (pageOf c (f + i)) := by
      rw [newSlots_page (by omega)]
      rfl
    rw [show m + 1 + k = m + k + 1 by omega, dataSlots, hstr]
    simp only
    rw [hfull _ le_rfl (by omega), ← Nat.succ_mul,
      ih (by omega) fun j hj hj' => hfull j (by omega) (by omega), List.range'_succ, List.map_cons,
      List.cons_append, show i.succ + m = i + (m + 1) by omega]

theorem dataSlots_nil (hk : (datas k).str = some .nil) :
    dataSlots datas n k = List.replicate n k := by
  induction n with
  | zero => rfl
  | succ n ih =>
    rw [dataSlots, hk]
    simp only
    rw [CStr.strlen_nil, Nat.add_zero, ih, List.replicate_succ]

/-- Two leaves with the same block are not both freed. -/
theorem eq_of_freeMerkle {slots : List ℕ} (hfreed : freeMerkle mt i slots = .ok ()) {b : ℕ}
    (ha : slots[a]? = some k) (hb : slots[b]? = some k) (hlow : mt.nbNodes / 2 < i + a)
    (hhigh : i + a < mt.nbNodes) (hlow' : mt.nbNodes / 2 < i + b) (hhigh' : i + b < mt.nbNodes) :
    a = b := by
  unfold freeMerkle at hfreed
  simp only at hfreed
  split_ifs at hfreed with hnodup
  have hmem : ∀ x : ℕ, slots[x]? = some k → mt.nbNodes / 2 < i + x → i + x < mt.nbNodes →
      (k, x) ∈ slots.zipIdx.filter fun p =>
        (mt.nbNodes / 2 : ℕ) < (i : ℤ) + p.2 ∧ (i : ℤ) + p.2 < mt.nbNodes := by
    intro x hx hlow hhigh
    rw [List.mem_filter, List.mk_mem_zipIdx_iff_getElem?]
    refine ⟨hx, ?_⟩
    simp only [decide_eq_true_eq]
    omega
  have hinj := List.inj_on_of_nodup_map hnodup (hmem a ha hlow hhigh) (hmem b hb hlow' hhigh') rfl
  exact (Prod.mk.inj hinj).2

namespace Found

/-- **All pages but the last are full**, unless there are two, the first is that of the first leaf,
and it is empty. -/
theorem full_or (hf : Found c h f n ss) (hh : 1 ≤ h) :
    (∀ j, f ≤ j → j < f + n → (pageOf c j).strlen = PAGE_LENGTH) ∨
      (f = 0 ∧ n = 1 ∧ pageOf c 0 = .nil ∧ ss = [.nil, .nil]) := by
  obtain ⟨m, hm, hfull, hnil⟩ := exists_layout_iff.1 ⟨ss, hf.layout, hf.length⟩
  rcases Nat.eq_or_lt_of_le hm with rfl | hlt
  · exact .inl hfull
  right
  replace hnil := hnil hlt
  have hp := BinTree.two_pow_pred hh
  have hfit := hf.fit
  have hempty : (newSlots c f n (m * PAGE_LENGTH)).str = some .nil := by
    rw [newSlots_page hlt, hnil]
    rfl
  have hslots := dataSlots_full (k := n + 1 - m) (by omega : 0 + m ≤ n) hfull
  rw [Nat.zero_mul, show m + (n + 1 - m) = n + 1 by omega, Nat.zero_add, dataSlots_nil hempty]
    at hslots
  obtain ⟨mt, hnodes, hfreed⟩ := hf.freed
  rw [hslots] at hfreed
  have hget : ∀ x, m ≤ x → x ≤ n → ((List.range' 0 m).map (· * PAGE_LENGTH) ++
      List.replicate (n + 1 - m) (m * PAGE_LENGTH))[x]? = some (m * PAGE_LENGTH) := by
    intro x hx hx'
    rw [List.getElem?_append_right (by simpa using hx), List.getElem?_replicate, if_pos (by
      simp only [List.length_map, List.length_range']; omega)]
  -- two pages that are freed have the same slot, unless one of them is the first leaf
  have htwo : ∀ x y, m ≤ x → x < y → y ≤ n → ¬ 1 ≤ f + x := fun x y hx hxy hy hpos => by
    have := eq_of_freeMerkle hfreed (hget x hx (by omega)) (hget y (by omega) hy) (by omega)
      (by omega) (by omega) (by omega)
    omega
  have h₀ := htwo m (m + 1) le_rfl (by omega) (by omega)
  have hn : n = 1 := by
    by_contra hne
    exact htwo (m + 1) (m + 2) (by omega) (by omega) (by omega) (by omega)
  obtain ⟨rfl, rfl⟩ : f = 0 ∧ m = 0 := ⟨by omega, by omega⟩
  refine ⟨rfl, hn, hnil, ?_⟩
  subst hn
  rw [Nat.zero_mul] at hempty
  exact hf.layout.unique (walk_eq_some_iff.1 (walk_nil (r := 2) hempty)).1 hf.length

theorem eq_newStrings (hf : Found c h f n ss)
    (hfull : ∀ j, f ≤ j → j < f + n → (pageOf c j).strlen = PAGE_LENGTH) :
    ss = newStrings c f n :=
  hf.layout.unique (layout_newStrings hfull) (hf.length.trans length_newStrings.symm)

end Found

end MerkleFs
