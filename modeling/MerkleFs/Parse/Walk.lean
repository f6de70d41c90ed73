import MerkleFs.Parse.Layout

/-!
# Reading the array back

`build_tree` walks through the array that `parsePages` fills by adding up the lengths of the
strings it finds.  A NUL in the file makes a page shorter than its slot, so that the walk leaves
the layout.

* `walk_slotsOf` : without a NUL it reads the pages of the file and then the filler pages
  (`leafStrings`).
* `walk_slotsOf_iff` : it meets no NULL slot exactly for the files that are `WalkOk`.
* `freePages_eq` : all pages that are freed are blocks exactly for the files that are `FreeOk`.
-/

namespace MerkleFs

/-- The strings of the leaves for a file without a NUL. -/
def leafStrings (c : List Byte) : List CStr :=
  (List.range (pageCount c.length)).map (pageOf c) ++ List.replicate (padding c.length) filler

/-- The position of the first NUL of a file, or its end. -/
def firstNul (c : List Byte) : ℕ := (CStr.ofBlock c).strlen

/-- The walk through the array of a file meets no NULL slot: there is no NUL, or the first one is
at the start of a full page, or inside the partial page, or in the page of the last leaf. -/
def WalkOk (c : List Byte) : Prop :=
  0 ∉ c ∨
    (firstNul c / PAGE_LENGTH < c.length / PAGE_LENGTH ∧ firstNul c % PAGE_LENGTH = 0) ∨
    (firstNul c / PAGE_LENGTH = c.length / PAGE_LENGTH ∧ firstNul c % PAGE_LENGTH ≠ 0) ∨
    firstNul c / PAGE_LENGTH + 1 = leafCount c.length

/-- No filler page has replaced the partial page: there is no partial page, or no filler page, or
the partial page does not start with a NUL. -/
def FreeOk (c : List Byte) : Prop :=
  PAGE_LENGTH ∣ c.length ∨ padding c.length = 0 ∨
    (c.drop (c.length / PAGE_LENGTH * PAGE_LENGTH)).head? ≠ some 0

instance (c : List Byte) : Decidable (WalkOk c) := inferInstanceAs (Decidable (_ ∨ _))

instance (c : List Byte) : Decidable (FreeOk c) := inferInstanceAs (Decidable (_ ∨ _))

variable {c : List Byte} {i k n r : ℕ} {datas : ℕ → Ptr}

/-! ### The slots -/

theorem bytes_pageOf (hfree : 0 ∉ c) :
    (pageOf c i).bytes = (c.drop (i * PAGE_LENGTH)).take PAGE_LENGTH :=
  CStr.ofBlock_of_nulFree fun h0 => hfree (List.mem_of_mem_drop (List.mem_of_mem_take h0))

theorem slotsOf_page (hi : i < leafCount c.length)
    (hpad : i * PAGE_LENGTH < padStart c ∨ padding c.length = 0) :
    slotsOf c (i * PAGE_LENGTH) = .heap (pageOf c i) := by
  have hdiv : i * PAGE_LENGTH / PAGE_LENGTH = i :=
    Nat.mul_div_cancel _ (by unfold PAGE_LENGTH; norm_num)
  rw [slotsOf, if_neg (by omega), hdiv, if_pos ⟨Nat.dvd_mul_left _ _, hi⟩]

theorem slotsOf_filler (hr : r < padding c.length) : slotsOf c (padStart c + r) = .lit filler := by
  rw [slotsOf, if_pos ⟨by omega, by omega⟩]

theorem slotsOf_null (hk : ¬ PAGE_LENGTH ∣ k)
    (hpad : k < padStart c ∨ padStart c + padding c.length ≤ k) : slotsOf c k = .null := by
  rw [slotsOf, if_neg (by omega), if_neg fun h => hk h.1]

theorem padStart_le (c : List Byte) : padStart c ≤ c.length := by
  have hle := CStr.strlen_ofBlock_le
    ((c.drop (c.length / PAGE_LENGTH * PAGE_LENGTH)).take PAGE_LENGTH)
  rw [List.length_take, List.length_drop] at hle
  have := Nat.div_mul_le_self c.length PAGE_LENGTH
  have hlen : (pageOf c (c.length / PAGE_LENGTH)).strlen ≤
      c.length - c.length / PAGE_LENGTH * PAGE_LENGTH := hle.trans (Nat.min_le_right _ _)
  unfold padStart
  omega

/-- All strings of the array have room. -/
theorem room_slotsOf (hn : 1 ≤ c.length) (hn' : c.length ≤ 2 ^ 30) : Room (slotsOf c) := by
  have hleaf := leafCount_le hn'
  have hstart := padStart_le c
  have hsum := leafCount_eq c.length
  intro k s hs
  unfold slotsOf at hs
  split_ifs at hs with hfill hpage
  · obtain rfl := Option.some.inj hs
    have hone : filler.strlen = 1 := rfl
    unfold PTR_SIZE PAGE_LENGTH INT_MAX
    omega
  · obtain rfl := Option.some.inj hs
    have hlen := strlen_pageOf_le c (k / PAGE_LENGTH)
    have hk := hpage.2
    unfold PAGE_LENGTH at *
    unfold PTR_SIZE INT_MAX
    omega
  · cases hs

/-! ### Walks -/

/-- A walk over full pages. -/
theorem walk_pages {a m : ℕ} (hfull : ∀ i, a ≤ i → i < a + m → (pageOf c i).strlen = PAGE_LENGTH)
    (hm : a + m ≤ c.length / PAGE_LENGTH) :
    walk (slotsOf c) (m + r) (a * PAGE_LENGTH) =
      (walk (slotsOf c) r ((a + m) * PAGE_LENGTH)).map ((List.range' a m).map (pageOf c) ++ ·) := by
  induction m generalizing a with
  | zero => simp
  | succ m ih =>
    have hsum := leafCount_eq c.length
    have hcount := pageCount_eq c.length
    have hslot : slotsOf c (a * PAGE_LENGTH) = .heap (pageOf c a) := by
      refine slotsOf_page (by split_ifs at hcount <;> omega) (.inl ?_)
      have : (a + 1) * PAGE_LENGTH ≤ c.length / PAGE_LENGTH * PAGE_LENGTH :=
        Nat.mul_le_mul_right _ (by omega)
      unfold padStart
      unfold PAGE_LENGTH at *
      omega
    rw [show m + 1 + r = m + r + 1 by omega, walk_succ (s := pageOf c a) (by rw [hslot]; rfl),
      hfull a le_rfl (by omega), ← Nat.succ_mul, ih (fun i hi hi' => hfull i (by omega) (by omega))
      (by omega), Option.map_map, show a.succ + m = a + (m + 1) by omega, List.range'_succ]
    rfl

theorem walk_filler {j : ℕ} (hj : j < padding c.length) :
    walk (slotsOf c) (r + 1) (padStart c + j) =
      (walk (slotsOf c) r (padStart c + (j + 1))).map (filler :: ·) := by
  have hone : filler.strlen = 1 := rfl
  rw [walk_succ (s := filler) (by rw [slotsOf_filler hj]; rfl), hone, Nat.add_assoc]

theorem walk_fillers {j : ℕ} (hr : j + r ≤ padding c.length) :
    walk (slotsOf c) r (padStart c + j) = some (List.replicate r filler) := by
  induction r generalizing j with
  | zero => rfl
  | succ r ih =>
    rw [walk_filler (by omega), ih (by omega)]
    rfl

theorem walk_nil (hk : (datas k).str = some .nil) :
    walk datas r k = some (List.replicate r .nil) := by
  induction r with
  | zero => rfl
  | succ r ih => rw [walk_succ hk, CStr.strlen_nil, Nat.add_zero, ih]; rfl

theorem strlen_pageOf_of_le {u v : List Byte} (hu : 0 ∉ u) (hi : (i + 1) * PAGE_LENGTH ≤ u.length) :
    (pageOf (u ++ v) i).strlen = PAGE_LENGTH := by
  have hle : PAGE_LENGTH ≤ (u.drop (i * PAGE_LENGTH)).length := by
    rw [Nat.succ_mul] at hi
    rw [List.length_drop]
    omega
  have hfree : 0 ∉ (u.drop (i * PAGE_LENGTH)).take PAGE_LENGTH :=
    fun h0 => hu (List.mem_of_mem_drop (List.mem_of_mem_take h0))
  rw [pageOf_append hi, CStr.strlen, pageOf, CStr.ofBlock_of_nulFree hfree, List.length_take]
  exact Nat.min_eq_left hle

theorem pageOf_first {u : List Byte} (hu : 0 ∉ u) (v : List Byte) :
    (pageOf (u ++ 0 :: v) (u.length / PAGE_LENGTH)).bytes =
      u.drop (u.length / PAGE_LENGTH * PAGE_LENGTH) := by
  have hle := Nat.div_mul_le_self u.length PAGE_LENGTH
  have hlen : (u.drop (u.length / PAGE_LENGTH * PAGE_LENGTH)).length < PAGE_LENGTH := by
    rw [List.length_drop]
    unfold PAGE_LENGTH
    omega
  obtain ⟨d, hd⟩ := Nat.exists_eq_add_of_lt hlen
  have hfree : 0 ∉ u.drop (u.length / PAGE_LENGTH * PAGE_LENGTH) :=
    fun h0 => hu (List.mem_of_mem_drop h0)
  rw [pageOf, List.drop_append_of_le_length hle, List.take_append, List.take_of_length_le hlen.le,
    show PAGE_LENGTH - (u.drop (u.length / PAGE_LENGTH * PAGE_LENGTH)).length = d + 1 by omega,
    List.take_succ_cons, CStr.ofBlock_append_zero hfree]

/-- **Without a NUL the walk reads the pages and the filler pages.** -/
theorem walk_slotsOf (hfree : 0 ∉ c) :
    walk (slotsOf c) (leafCount c.length) 0 = some (leafStrings c) := by
  have hsum := leafCount_eq c.length
  have hpages : ∀ r, walk (slotsOf c) (c.length / PAGE_LENGTH + r) 0 =
      (walk (slotsOf c) r (c.length / PAGE_LENGTH * PAGE_LENGTH)).map
        ((List.range (c.length / PAGE_LENGTH)).map (pageOf c) ++ ·) := by
    intro r
    have := walk_pages (c := c) (a := 0) (m := c.length / PAGE_LENGTH) (r := r) (fun i _ hi => by
      have := strlen_pageOf_of_le (u := c) (v := []) (i := i) hfree
        ((Nat.mul_le_mul_right _ (by omega : i + 1 ≤ c.length / PAGE_LENGTH)).trans
          (Nat.div_mul_le_self _ _))
      rwa [List.append_nil] at this) (by omega)
    rwa [Nat.zero_mul, Nat.zero_add, ← List.range_eq_range'] at this
  unfold leafStrings
  by_cases hc : PAGE_LENGTH ∣ c.length
  · have hcount := pageCount_of_dvd hc
    have hstart : padStart c = c.length / PAGE_LENGTH * PAGE_LENGTH := by
      rw [padStart, pageOf_div le_rfl hc, CStr.strlen_nil, Nat.add_zero]
    have hfill := walk_fillers (c := c) (j := 0) (r := padding c.length) (by omega)
    rw [Nat.add_zero, hstart] at hfill
    rw [← hsum, hcount, hpages, hfill, Option.map_some]
  · have hcount := pageCount_of_not_dvd hc
    have hpos : 0 < (pageOf c (c.length / PAGE_LENGTH)).strlen := by
      have hlen : 0 < ((c.drop (c.length / PAGE_LENGTH * PAGE_LENGTH)).take
          PAGE_LENGTH).length := by
        rw [List.length_take, List.length_drop]
        unfold PAGE_LENGTH at *
        omega
      rwa [CStr.strlen, bytes_pageOf hfree]
    have hslot := slotsOf_page (c := c) (i := c.length / PAGE_LENGTH) (by omega)
      (.inl (by unfold padStart; omega))
    have hfill := walk_fillers (c := c) (j := 0) (r := padding c.length) (by omega)
    rw [Nat.add_zero] at hfill
    rw [← hsum, hcount, Nat.add_assoc, hpages, Nat.add_comm 1,
      walk_succ (s := pageOf c (c.length / PAGE_LENGTH)) (by rw [hslot]; rfl)]
    rw [show c.length / PAGE_LENGTH * PAGE_LENGTH + (pageOf c (c.length / PAGE_LENGTH)).strlen =
      padStart c from rfl, hfill, List.range_succ, List.map_append, List.append_assoc]
    rfl

theorem walk_fillers_null (hnull : slotsOf c (padStart c + padding c.length) = .null) {j : ℕ}
    (hr : j + r = padding c.length) : walk (slotsOf c) (r + 1) (padStart c + j) = none := by
  induction r generalizing j with
  | zero =>
    refine walk_succ_none ?_
    rw [show padStart c + j = padStart c + padding c.length by omega, hnull]
    rfl
  | succ r ih =>
    rw [walk_filler (by omega), ih (by omega)]
    rfl

/-- The walk from the page of the first NUL on, when this is a full page. -/
theorem walk_first_full {q m : ℕ} (hq : q < c.length / PAGE_LENGTH)
    (hlen : (pageOf c q).strlen = m) (hm : m < PAGE_LENGTH) :
    (∃ ss, walk (slotsOf c) (r + 1) (q * PAGE_LENGTH) = some ss) ↔ m = 0 ∨ r = 0 := by
  have hsum := leafCount_eq c.length
  have hcount := pageCount_eq c.length
  have hstart : (q + 1) * PAGE_LENGTH ≤ padStart c :=
    (Nat.mul_le_mul_right _ hq).trans (Nat.le_add_right _ _)
  rw [Nat.succ_mul] at hstart
  have hslot := slotsOf_page (c := c) (i := q) (by split_ifs at hcount <;> omega)
    (.inl (by unfold PAGE_LENGTH at *; omega))
  rw [walk_succ (s := pageOf c q) (by rw [hslot]; rfl), hlen]
  rcases Nat.eq_zero_or_pos m with rfl | hpos
  · have hnil : pageOf c q = .nil := CStr.strlen_eq_zero.1 hlen
    rw [Nat.add_zero, walk_nil (by rw [hslot, hnil]; rfl)]
    simp
  · have hnull : slotsOf c (q * PAGE_LENGTH + m) = .null :=
      slotsOf_null (by unfold PAGE_LENGTH at *; omega) (.inl (by omega))
    cases r with
    | zero => simp [walk]
    | succ r =>
      rw [walk_succ_none (by rw [hnull]; rfl)]
      simp
      omega

/-- The walk from the page of the first NUL on, when this is the partial page. -/
theorem walk_partial_first {q m : ℕ} (hn' : c.length ≤ 2 ^ 30)
    (hc : ¬ PAGE_LENGTH ∣ c.length) (hq : q = c.length / PAGE_LENGTH)
    (hlen : (pageOf c q).strlen = m) (hr : r = padding c.length) :
    (∃ ss, walk (slotsOf c) (r + 1) (q * PAGE_LENGTH) = some ss) ↔ m ≠ 0 ∨ r = 0 := by
  have hsum := leafCount_eq c.length
  have hcount := pageCount_of_not_dvd hc
  have hleaf := leafCount_le hn'
  have hstart : padStart c = q * PAGE_LENGTH + m := by rw [padStart, ← hq, hlen]
  by_cases hok : m ≠ 0 ∨ r = 0
  · simp only [hok, iff_true]
    have hslot := slotsOf_page (c := c) (i := q) (by omega) (by omega)
    have hfill := walk_fillers (c := c) (j := 0) (r := r) (by omega)
    rw [Nat.add_zero] at hfill
    rw [walk_succ (s := pageOf c q) (by rw [hslot]; rfl), hlen, ← hstart, hfill]
    exact ⟨_, rfl⟩
  · obtain ⟨hm, hr0⟩ := not_or.1 hok
    have hm0 : m = 0 := by omega
    have hnull : slotsOf c (padStart c + padding c.length) = .null := by
      refine slotsOf_null ?_ (.inr le_rfl)
      rw [hstart, hm0]
      unfold PAGE_LENGTH
      omega
    have hwalk := walk_fillers_null (c := c) (j := 0) (r := r) hnull (by omega)
    simp only [hstart, hm0, Nat.add_zero] at hwalk
    rw [hwalk]
    simp [hm0, hr0]

/-- **When the walk meets no NULL slot.** -/
theorem walk_slotsOf_iff (hn : 1 ≤ c.length) (hn' : c.length ≤ 2 ^ 30) :
    (∃ ss, walk (slotsOf c) (leafCount c.length) 0 = some ss) ↔ WalkOk c := by
  by_cases hmem : 0 ∈ c
  · obtain ⟨u, v, hc, hu⟩ := List.eq_append_cons_of_mem hmem
    obtain ⟨q, hq⟩ : ∃ q, q = u.length / PAGE_LENGTH := ⟨_, rfl⟩
    have hfirst : firstNul c = u.length := by
      rw [firstNul, CStr.strlen, hc, CStr.ofBlock_append_zero hu]
    have hlen : c.length = u.length + 1 + v.length := by
      rw [hc, List.length_append, List.length_cons]; omega
    have hpage : (pageOf c q).strlen = u.length % PAGE_LENGTH := by
      rw [CStr.strlen, hc, hq, pageOf_first hu, List.length_drop]
      unfold PAGE_LENGTH
      omega
    have hsum := leafCount_eq c.length
    have hle : c.length ≤ pageCount c.length * PAGE_LENGTH := pageCount_le_iff.1 le_rfl
    obtain ⟨r, hr⟩ : ∃ r, leafCount c.length = q + (r + 1) := by
      refine ⟨leafCount c.length - q - 1, ?_⟩
      unfold PAGE_LENGTH at *
      omega
    have hnb : q ≤ c.length / PAGE_LENGTH := hq ▸ Nat.div_le_div_right (by omega)
    have hprefix := walk_pages (c := c) (a := 0) (m := q) (r := r + 1) (fun i _ hi => by
      rw [hc]
      refine strlen_pageOf_of_le hu ((Nat.mul_le_mul_right _ (by omega : i + 1 ≤ q)).trans ?_)
      rw [hq]
      exact Nat.div_mul_le_self _ _) (by omega)
    rw [Nat.zero_mul, Nat.zero_add] at hprefix
    have hsome : (∃ ss, walk (slotsOf c) (leafCount c.length) 0 = some ss) ↔
        ∃ ss, walk (slotsOf c) (r + 1) (q * PAGE_LENGTH) = some ss := by
      rw [hr, hprefix]
      cases walk (slotsOf c) (r + 1) (q * PAGE_LENGTH) <;> simp
    have hmod := Nat.mod_lt u.length (show 0 < PAGE_LENGTH by unfold PAGE_LENGTH; norm_num)
    rw [hsome, WalkOk, hfirst, ← hq]
    rcases Nat.lt_or_ge q (c.length / PAGE_LENGTH) with hlt | hge
    · rw [walk_first_full hlt hpage hmod]
      simp only [hmem, not_true_eq_false, false_or, hlt, true_and]
      omega
    · have hqnb : q = c.length / PAGE_LENGTH := by omega
      have hpartial : ¬ PAGE_LENGTH ∣ c.length := by
        unfold PAGE_LENGTH at *
        omega
      have hcount := pageCount_of_not_dvd hpartial
      rw [walk_partial_first hn' hpartial hqnb hpage (by omega)]
      simp only [hmem, not_true_eq_false, false_or]
      omega
  · exact ⟨fun _ => .inl hmem, fun _ => ⟨_, walk_slotsOf hmem⟩⟩

/-! ### Freeing the pages -/

theorem freeFullPages_eq {a m : ℕ} (hm : a + m ≤ c.length / PAGE_LENGTH) :
    freeFullPages (slotsOf c) m (a * PAGE_LENGTH) = .ok () := by
  induction m generalizing a with
  | zero => rfl
  | succ m ih =>
    have hsum := leafCount_eq c.length
    have hcount := pageCount_eq c.length
    have hstart : (a + 1) * PAGE_LENGTH ≤ padStart c :=
      (Nat.mul_le_mul_right _ (by omega)).trans (Nat.le_add_right _ _)
    rw [freeFullPages, slotsOf_page (by split_ifs at hcount <;> omega)
      (.inl (by unfold PAGE_LENGTH at *; omega)), ← Nat.succ_mul, ih (by omega)]
    rfl

/-- The partial page is empty when it starts with a NUL. -/
theorem pageOf_partial_eq_nil_iff (hc : ¬ PAGE_LENGTH ∣ c.length) :
    pageOf c (c.length / PAGE_LENGTH) = .nil ↔
      (c.drop (c.length / PAGE_LENGTH * PAGE_LENGTH)).head? = some 0 := by
  have hlen : (c.drop (c.length / PAGE_LENGTH * PAGE_LENGTH)).length ≠ 0 := by
    rw [List.length_drop]
    unfold PAGE_LENGTH at *
    omega
  obtain ⟨P, hP⟩ : ∃ P, PAGE_LENGTH = P + 1 := ⟨65535, rfl⟩
  rw [pageOf]
  generalize c.drop (c.length / PAGE_LENGTH * PAGE_LENGTH) = l at hlen
  cases l with
  | nil => simp at hlen
  | cons b l =>
    rw [hP, List.take_succ_cons, CStr.ext_iff]
    by_cases hb : b = 0
    · simp [CStr.ofBlock, hb]
    · simp [CStr.ofBlock, hb]

/-- **Freeing the pages succeeds exactly for the files that are `FreeOk`.** -/
theorem freePages_eq (c : List Byte) :
    freePages ⟨leafCount c.length, c.length / PAGE_LENGTH, isFull c.length, slotsOf c⟩ =
      if FreeOk c then .ok () else .error .invalidFree := by
  have hfull := freeFullPages_eq (c := c) (a := 0) (m := c.length / PAGE_LENGTH) (by omega)
  rw [Nat.zero_mul] at hfull
  rw [freePages, hfull, Run.ok_bind, isFull_eq]
  by_cases hc : PAGE_LENGTH ∣ c.length
  · simp [hc, FreeOk]
  · have hsum := leafCount_eq c.length
    have hcount := pageCount_of_not_dvd hc
    have hnil := pageOf_partial_eq_nil_iff hc
    simp only [hc, decide_false, Bool.false_eq_true, if_false]
    by_cases hfree : FreeOk c
    · rw [if_pos hfree, slotsOf_page (by omega)]
      · rfl
      · rcases hfree with h | h | h
        · exact absurd h hc
        · exact .inr h
        · left
          have : (pageOf c (c.length / PAGE_LENGTH)).strlen ≠ 0 := fun h0 =>
            h (hnil.1 (CStr.strlen_eq_zero.1 h0))
          unfold padStart
          omega
    · rw [if_neg hfree]
      simp only [FreeOk, not_or, ne_eq, not_not] at hfree
      have hstart : padStart c = c.length / PAGE_LENGTH * PAGE_LENGTH := by
        rw [padStart, hnil.2 hfree.2.2, CStr.strlen_nil, Nat.add_zero]
      have hslot := slotsOf_filler (c := c) (r := 0) (by omega)
      rw [Nat.add_zero, hstart] at hslot
      rw [hslot]
      rfl

end MerkleFs
