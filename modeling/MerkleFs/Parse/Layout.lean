import Mathlib.Tactic.IntervalCases
import MerkleFs.Bits.RoundUp
import MerkleFs.Tree.Build

/-!
# Laying out the pages of a file

`compute_merkle` and `m_compute_merkle` read a file into a buffer and cut it into pages.  The
pointers to the pages go into an array in which `build_tree` finds them again by adding up
`strlen`s: full pages at strides of `PAGE_LENGTH`, then the partial page, then filler pages at
strides of one.  Both functions contain the same code for this (`parsePages`).

* `parsePages_eq` : the array (`slotsOf`), for files of 1 to `2^30` bytes.
* `parsePages_overflow` : in larger files the size of the array is no `int`.
-/

namespace MerkleFs

/-- `compute_tree_size`. -/
def computeTreeSize (index : ℤ) : ℤ :=
  let v := UInt32.ofInt index
  let v := v - 1
  let v := v ||| v >>> 1
  let v := v ||| v >>> 2
  let v := v ||| v >>> 4
  let v := v ||| v >>> 8
  let v := v ||| v >>> 16
  let v := v + 1
  intOf v.toNat

/-- `is_full`. -/
def isFull (fileSize : ℤ) : Bool := fileSize.tmod PAGE_LENGTH = 0

/-- Reading a file: its size, as far as it is an `int`, and the buffer it is read into. -/
def readFile (heap : Heap) (contents : List Byte) : Run (ℕ × List Byte) := do
  let fileSize := intOf contents.length
  let _ ← checkInt (fileSize + 1)
  if fileSize < 0 then .error .bounds
  else return (fileSize.toNat, contents.take fileSize.toNat ++ [heap.fileTail])

/-- `array[k] = p`. -/
def setSlot (slots : ℕ → Ptr) (k : ℕ) (p : Ptr) : ℕ → Ptr := fun j => if j = k then p else slots j

/-- The loop that allocates `n` pages. -/
def allocPages : ℕ → ℕ → (ℕ → Ptr) → ℕ → Ptr
  | 0, _, slots => slots
  | n + 1, cursor, slots => allocPages n (cursor + PAGE_LENGTH) (setSlot slots cursor (.heap .nil))

/-- The loop that copies `n` full pages. -/
def copyPages : ℕ → ℕ → List Byte → (ℕ → Ptr) → Run (ℕ → Ptr)
  | 0, _, _, slots => .ok slots
  | n + 1, cursor, fileString, slots => do
    let page ← strncpy fileString PAGE_LENGTH
    copyPages n (cursor + PAGE_LENGTH) (fileString.drop PAGE_LENGTH)
      (setSlot slots cursor (.heap page))

/-- The loop that adds `n` filler pages. -/
def padPages : ℕ → ℕ → (ℕ → Ptr) → ℕ → Ptr
  | 0, _, slots => slots
  | n + 1, cursor, slots => padPages n (cursor + 1) (setSlot slots cursor (.lit filler))

/-- A file cut into pages. -/
structure Parsed where
  /-- `tree_size` : the number of leaves. -/
  treeSize : ℕ
  /-- `nb_of_pages` : the number of full pages. -/
  nbOfPages : ℕ
  /-- `page_full` : there is no partial page. -/
  pageFull : Bool
  /-- `parsed_file`, after the pointer is back at its initial value. -/
  slots : ℕ → Ptr

/-- Cutting a file into pages. -/
def parsePages (fileSize : ℕ) (fileString : List Byte) : Run Parsed := do
  let pageFull := isFull fileSize
  let full : ℕ := if pageFull then 1 else 0
  let nbOfPages := fileSize / PAGE_LENGTH
  let treeSize := (computeTreeSize (nbOfPages + 1 - full)).toNat
  let slots := allocPages treeSize 0 fun _ => .null
  let _ ← checkInt (treeSize * PAGE_LENGTH : ℕ)
  let slots ← copyPages nbOfPages 0 fileString slots
  let cursor := nbOfPages * PAGE_LENGTH
  let (len, slots) ←
    if pageFull then pure (0, slots)
    else do
      let s ← readStr (fileString.drop cursor)
      pure (s.strlen, setSlot slots cursor (.heap s))
  let padding := treeSize - (nbOfPages + 1 - full)
  let slots := padPages padding (cursor + len) slots
  let cursor := cursor + len + padding
  -- the pointer goes back to its initial value
  let cursor :=
    if nbOfPages < treeSize then cursor - (treeSize - nbOfPages - 1 + full) else cursor
  let cursor := if pageFull then cursor else cursor - len
  let cursor := cursor - nbOfPages * PAGE_LENGTH
  return ⟨treeSize, nbOfPages, pageFull, fun k => slots (cursor + k)⟩

/-- `free`. -/
def free : Ptr → Run Unit
  | .lit _ => .error .invalidFree
  | _ => .ok ()

/-- The loop that frees `n` full pages. -/
def freeFullPages (slots : ℕ → Ptr) : ℕ → ℕ → Run Unit
  | 0, _ => .ok ()
  | n + 1, cursor => do
    free (slots cursor)
    freeFullPages slots n (cursor + PAGE_LENGTH)

/-- Freeing the pages of a file. -/
def freePages (p : Parsed) : Run Unit := do
  freeFullPages p.slots p.nbOfPages 0
  if p.pageFull then return () else free (p.slots (p.nbOfPages * PAGE_LENGTH))

/-! ### Sizes -/

/-- The number of pages of a file of `n` bytes. -/
def pageCount (n : ℕ) : ℕ := (n + PAGE_LENGTH - 1) / PAGE_LENGTH

/-- The number of leaves for a file of `n` bytes. -/
def leafCount (n : ℕ) : ℕ := 2 ^ Nat.clog 2 (pageCount n)

/-- The number of filler pages of a file of `n` bytes. -/
def padding (n : ℕ) : ℕ := leafCount n - pageCount n

variable {heap : Heap} {n k : ℕ} {c b : List Byte} {slots : ℕ → Ptr}

/-- `compute_tree_size` computes the least power of two that is at least `n`. -/
theorem computeTreeSize_eq (hn : 1 ≤ n) (hn' : n ≤ 2 ^ 30) :
    computeTreeSize n = (2 ^ Nat.clog 2 n : ℕ) := by
  have hpow : 2 ^ Nat.clog 2 n ≤ 2 ^ 30 :=
    Nat.pow_le_pow_right (by norm_num) ((Nat.clog_le_iff_le_pow Nat.one_lt_two).2 hn')
  have hindex : (UInt32.ofInt (n : ℤ)).toNat = n := by
    rw [UInt32.ofInt]
    simp
    omega
  have hv : (UInt32.ofInt (n : ℤ) - 1).toNat = n - 1 := by
    rw [UInt32.toNat_sub_of_le _ _ (by rw [UInt32.le_iff_toNat_le, hindex]; exact hn), hindex]
    rfl
  have hbits : ∀ {w : ℕ} {u : UInt32}, Bits.Smears w (n - 1) u.toNat → w < 32 →
      Bits.Smears (2 * w) (n - 1) (u ||| u >>> UInt32.ofNat w).toNat := fun {w u} hu hw => by
    have hshift : (UInt32.ofNat w).toNat % 32 = w := by
      rw [UInt32.toNat_ofNat']
      omega
    rw [UInt32.toNat_or, UInt32.toNat_shiftRight, hshift]
    exact hu.step
  have h₁ := hbits (w := 1) (by rw [hv]; exact Bits.Smears.self _) (by norm_num)
  have h₃₂ := hbits (hbits (hbits (hbits h₁ (by norm_num)) (by norm_num)) (by norm_num))
    (by norm_num)
  have hround := h₃₂.add_one_eq (by omega)
  rw [Nat.sub_add_cancel hn] at hround
  have hcast : ∀ u : UInt32, u.toNat + 1 = 2 ^ Nat.clog 2 n →
      intOf (u + 1).toNat = (2 ^ Nat.clog 2 n : ℕ) := fun u hu => by
    have hadd : (u + 1).toNat = 2 ^ Nat.clog 2 n := by
      have hone : (1 : UInt32).toNat = 1 := rfl
      rw [UInt32.toNat_add, hone, hu]
      exact Nat.mod_eq_of_lt (by omega)
    rw [hadd, intOf_of_lt (Int.natCast_nonneg _) (by unfold INT_MAX; omega)]
  exact hcast _ hround

theorem isFull_eq (n : ℕ) : isFull n = decide (PAGE_LENGTH ∣ n) := by
  rw [isFull, Int.tmod_eq_emod_of_nonneg (Int.natCast_nonneg n)]
  exact decide_eq_decide.2 (by rw [← Int.dvd_iff_emod_eq_zero, Int.natCast_dvd_natCast])

theorem pageCount_eq (n : ℕ) :
    n / PAGE_LENGTH + 1 - (if isFull n then 1 else 0) = pageCount n := by
  rw [isFull_eq, pageCount]
  unfold PAGE_LENGTH
  split_ifs with h <;> simp only [decide_eq_true_eq] at h <;> omega

theorem pageCount_le_iff {a : ℕ} : pageCount n ≤ a ↔ n ≤ a * PAGE_LENGTH := by
  unfold pageCount PAGE_LENGTH
  omega

theorem pageCount_pos (hn : 1 ≤ n) : 1 ≤ pageCount n := by
  unfold pageCount PAGE_LENGTH
  omega

theorem pageCount_le_leafCount (n : ℕ) : pageCount n ≤ leafCount n :=
  (Nat.clog_le_iff_le_pow Nat.one_lt_two).1 le_rfl

theorem leafCount_eq (n : ℕ) : pageCount n + padding n = leafCount n := by
  have := pageCount_le_leafCount n
  unfold padding
  omega

theorem leafCount_le (hn : n ≤ 2 ^ 30) : leafCount n ≤ 2 ^ 14 := by
  have : pageCount n ≤ 2 ^ 14 := pageCount_le_iff.2 (by unfold PAGE_LENGTH; omega)
  exact Nat.pow_le_pow_right (by norm_num) ((Nat.clog_le_iff_le_pow Nat.one_lt_two).2 this)

theorem leafCount_gt (hn : 2 ^ 30 < n) : 2 ^ 15 ≤ leafCount n := by
  have : 2 ^ 14 < pageCount n := by
    by_contra hle
    rw [not_lt, pageCount_le_iff] at hle
    unfold PAGE_LENGTH at hle
    omega
  exact Nat.pow_le_pow_right (by norm_num) ((Nat.lt_clog_iff_pow_lt Nat.one_lt_two).2 this)

/-! ### The array -/

/-- Page `i` of a file, as far as it is a string. -/
def pageOf (c : List Byte) (i : ℕ) : CStr := .ofBlock ((c.drop (i * PAGE_LENGTH)).take PAGE_LENGTH)

/-- The first slot behind the pages of a file. -/
def padStart (c : List Byte) : ℕ :=
  c.length / PAGE_LENGTH * PAGE_LENGTH + (pageOf c (c.length / PAGE_LENGTH)).strlen

/-- The array for a file. -/
def slotsOf (c : List Byte) (k : ℕ) : Ptr :=
  if padStart c ≤ k ∧ k < padStart c + padding c.length then .lit filler
  else if PAGE_LENGTH ∣ k ∧ k / PAGE_LENGTH < leafCount c.length then
    .heap (pageOf c (k / PAGE_LENGTH))
  else .null

/-- The partial page of a file ends in the buffer. -/
def Terminates (heap : Heap) (c : List Byte) : Prop :=
  PAGE_LENGTH ∣ c.length ∨ heap.fileTail = 0 ∨
    0 ∈ c.drop (c.length / PAGE_LENGTH * PAGE_LENGTH)

theorem strlen_pageOf_le (c : List Byte) (i : ℕ) : (pageOf c i).strlen ≤ PAGE_LENGTH :=
  (CStr.strlen_ofBlock_le _).trans (List.length_take_le _ _)

theorem pageOf_of_le {i : ℕ} (hi : c.length ≤ i * PAGE_LENGTH) : pageOf c i = .nil := by
  rw [pageOf, List.drop_eq_nil_of_le hi, List.take_nil]
  rfl

theorem allocPages_apply {a : ℕ} (slots : ℕ → Ptr) : allocPages n (a * PAGE_LENGTH) slots k =
    if PAGE_LENGTH ∣ k ∧ a ≤ k / PAGE_LENGTH ∧ k / PAGE_LENGTH < a + n then .heap .nil
    else slots k := by
  induction n generalizing a slots with
  | zero => rw [if_neg (by omega)]; rfl
  | succ n ih =>
    rw [allocPages, ← Nat.succ_mul, ih, setSlot]
    unfold PAGE_LENGTH
    by_cases hk : 65536 ∣ k ∧ a ≤ k / 65536 ∧ k / 65536 < a + (n + 1)
    · rw [if_pos hk]
      by_cases ha : k = a * 65536
      · rw [if_neg (by omega), if_pos ha]
      · rw [if_pos (by omega)]
    · rw [if_neg (by omega), if_neg (by omega), if_neg hk]

/-- The full pages of a buffer. -/
theorem copyPages_eq {a : ℕ} (slots : ℕ → Ptr) (hb : (a + n) * PAGE_LENGTH ≤ b.length) :
    copyPages n (a * PAGE_LENGTH) (b.drop (a * PAGE_LENGTH)) slots = .ok fun k =>
      if PAGE_LENGTH ∣ k ∧ a ≤ k / PAGE_LENGTH ∧ k / PAGE_LENGTH < a + n then
        .heap (pageOf b (k / PAGE_LENGTH))
      else slots k := by
  induction n generalizing a slots with
  | zero =>
    refine congrArg Except.ok (funext fun k => ?_)
    rw [if_neg (by omega)]
  | succ n ih =>
    have hlen : PAGE_LENGTH ≤ (b.drop (a * PAGE_LENGTH)).length := by
      rw [List.length_drop]
      unfold PAGE_LENGTH at *
      omega
    rw [copyPages, strncpy_of_le hlen, Run.ok_bind, List.drop_drop, ← Nat.succ_mul,
      ih _ (by rwa [show a.succ + n = a + (n + 1) by omega])]
    refine congrArg Except.ok (funext fun k => ?_)
    rw [setSlot]
    unfold PAGE_LENGTH
    by_cases hk : 65536 ∣ k ∧ a ≤ k / 65536 ∧ k / 65536 < a + (n + 1)
    · rw [if_pos hk]
      by_cases ha : k = a * 65536
      · rw [if_neg (by omega), if_pos ha, show k / 65536 = a by omega]
        rfl
      · rw [if_pos (by omega)]
    · rw [if_neg (by omega), if_neg (by omega), if_neg hk]

theorem copyPages_append (t : List Byte) {a : ℕ} {slots : ℕ → Ptr}
    (hb : n * PAGE_LENGTH ≤ b.length) :
    copyPages n a (b ++ t) slots = copyPages n a b slots := by
  induction n generalizing a b slots with
  | zero => rfl
  | succ n ih =>
    rw [Nat.succ_mul] at hb
    have hlen : PAGE_LENGTH ≤ b.length := by omega
    rw [copyPages, copyPages, strncpy_of_le hlen, strncpy_of_le (by rw [List.length_append]; omega),
      List.take_append_of_le_length hlen, List.drop_append_of_le_length hlen, Run.ok_bind,
      Run.ok_bind, ih (by rw [List.length_drop]; omega)]

theorem padPages_apply {a : ℕ} :
    padPages n a slots k = if a ≤ k ∧ k < a + n then .lit filler else slots k := by
  induction n generalizing a slots with
  | zero => rw [if_neg (by omega)]; rfl
  | succ n ih =>
    rw [padPages, ih, setSlot]
    by_cases hk : a ≤ k ∧ k < a + (n + 1)
    · rw [if_pos hk]
      by_cases ha : k = a
      · rw [if_neg (by omega), if_pos ha]
      · rw [if_pos (by omega)]
    · rw [if_neg (by omega), if_neg (by omega), if_neg hk]

theorem pageOf_append {i : ℕ} (hi : (i + 1) * PAGE_LENGTH ≤ c.length) (t : List Byte) :
    pageOf (c ++ t) i = pageOf c i := by
  rw [Nat.succ_mul] at hi
  rw [pageOf, pageOf, List.drop_append_of_le_length (by omega), List.take_append_of_le_length]
  rw [List.length_drop]
  omega

/-- The string the partial page is read as. -/
theorem readStr_partialPage (hc : ¬ PAGE_LENGTH ∣ c.length) (hterm : Terminates heap c) :
    readStr ((c ++ [heap.fileTail]).drop (c.length / PAGE_LENGTH * PAGE_LENGTH)) =
      .ok (pageOf c (c.length / PAGE_LENGTH)) := by
  have hle : c.length / PAGE_LENGTH * PAGE_LENGTH ≤ c.length := Nat.div_mul_le_self _ _
  have htake : (c.drop (c.length / PAGE_LENGTH * PAGE_LENGTH)).take PAGE_LENGTH =
      c.drop (c.length / PAGE_LENGTH * PAGE_LENGTH) := by
    refine List.take_of_length_le ?_
    rw [List.length_drop]
    unfold PAGE_LENGTH
    omega
  rw [List.drop_append_of_le_length hle, pageOf, htake]
  rcases hterm with hd | htail | hmem
  · exact absurd hd hc
  · rw [htail, readStr_of_mem (List.mem_append_right _ (List.mem_singleton_self 0)),
      CStr.ofBlock_append_zero_cons]
  · rw [readStr_of_mem (List.mem_append_left _ hmem)]
    obtain ⟨u, v, huv⟩ := List.append_of_mem hmem
    rw [huv, List.append_assoc, List.cons_append, CStr.ofBlock_append_zero_cons,
      CStr.ofBlock_append_zero_cons]

/-! ### What the code lays out -/

theorem pageCount_of_dvd (hc : PAGE_LENGTH ∣ n) : pageCount n = n / PAGE_LENGTH := by
  unfold pageCount PAGE_LENGTH at *
  omega

theorem pageCount_of_not_dvd (hc : ¬ PAGE_LENGTH ∣ n) : pageCount n = n / PAGE_LENGTH + 1 := by
  unfold pageCount PAGE_LENGTH at *
  omega

theorem computeTreeSize_pages (hn : 1 ≤ n) (hn' : n ≤ 2 ^ 46) :
    computeTreeSize (((n / PAGE_LENGTH : ℕ) : ℤ) + 1 -
      ((if isFull n then 1 else 0 : ℕ) : ℤ)) = (leafCount n : ℕ) := by
  have hpos := pageCount_pos hn
  have hcast : ((n / PAGE_LENGTH : ℕ) : ℤ) + 1 - ((if isFull n then 1 else 0 : ℕ) : ℤ) =
      (pageCount n : ℕ) := by
    rw [← pageCount_eq n]
    generalize n / PAGE_LENGTH = q
    split_ifs <;> omega
  rw [hcast, computeTreeSize_eq hpos (pageCount_le_iff.2 (by unfold PAGE_LENGTH; omega))]
  rfl

theorem treeSize_eq (hn : 1 ≤ n) (hn' : n ≤ 2 ^ 46) :
    (computeTreeSize (((n / PAGE_LENGTH : ℕ) : ℤ) + 1 -
      ((if isFull n then 1 else 0 : ℕ) : ℤ))).toNat = leafCount n := by
  rw [computeTreeSize_pages hn hn', Int.toNat_natCast]

theorem allocPages_zero : allocPages n 0 (fun _ => .null) k =
    if PAGE_LENGTH ∣ k ∧ k / PAGE_LENGTH < n then .heap .nil else .null := by
  have := allocPages_apply (n := n) (k := k) (a := 0) fun _ => .null
  simpa using this

theorem copyPages_zero (t : List Byte) :
    copyPages (c.length / PAGE_LENGTH) 0 (c ++ t) slots = .ok fun k =>
      if PAGE_LENGTH ∣ k ∧ k / PAGE_LENGTH < c.length / PAGE_LENGTH then
        .heap (pageOf c (k / PAGE_LENGTH)) else slots k := by
  have hle := Nat.div_mul_le_self c.length PAGE_LENGTH
  have := copyPages_eq (n := c.length / PAGE_LENGTH) (b := c ++ t) (a := 0) slots
    (by rw [List.length_append, Nat.zero_add]; omega)
  simp only [Nat.zero_mul, List.drop_zero, Nat.zero_le, true_and, Nat.zero_add] at this
  rw [this]
  refine congrArg Except.ok (funext fun k => ite_congr rfl (fun h => ?_) fun _ => rfl)
  rw [pageOf_append ((Nat.mul_le_mul_right _ h.2).trans hle)]

theorem pageOf_div (hk : c.length ≤ k) (hdvd : PAGE_LENGTH ∣ k) :
    pageOf c (k / PAGE_LENGTH) = .nil :=
  pageOf_of_le (by rwa [Nat.div_mul_cancel hdvd])

theorem slots_eq_pageOf (hk : PAGE_LENGTH ∣ c.length ∨ k ≠ c.length / PAGE_LENGTH * PAGE_LENGTH)
    (hle : c.length / PAGE_LENGTH ≤ leafCount c.length) :
    (if PAGE_LENGTH ∣ k ∧ k / PAGE_LENGTH < c.length / PAGE_LENGTH then
        Ptr.heap (pageOf c (k / PAGE_LENGTH))
      else if PAGE_LENGTH ∣ k ∧ k / PAGE_LENGTH < leafCount c.length then .heap .nil else .null) =
      if PAGE_LENGTH ∣ k ∧ k / PAGE_LENGTH < leafCount c.length then
        .heap (pageOf c (k / PAGE_LENGTH)) else .null := by
  by_cases h₁ : PAGE_LENGTH ∣ k ∧ k / PAGE_LENGTH < c.length / PAGE_LENGTH
  · rw [if_pos h₁, if_pos ⟨h₁.1, by omega⟩]
  · rw [if_neg h₁]
    refine ite_congr rfl (fun h₂ => ?_) fun _ => rfl
    rw [pageOf_div _ h₂.1]
    unfold PAGE_LENGTH at *
    omega

theorem slotsOf_full (hc : PAGE_LENGTH ∣ c.length) :
    padPages (leafCount c.length - c.length / PAGE_LENGTH)
        (c.length / PAGE_LENGTH * PAGE_LENGTH)
        (fun k => if PAGE_LENGTH ∣ k ∧ k / PAGE_LENGTH < c.length / PAGE_LENGTH then
          .heap (pageOf c (k / PAGE_LENGTH))
          else allocPages (leafCount c.length) 0 (fun _ => .null) k) k =
      slotsOf c k := by
  have hcount := pageCount_of_dvd hc
  have hsum := leafCount_eq c.length
  have hnil : pageOf c (c.length / PAGE_LENGTH) = .nil := pageOf_div le_rfl hc
  rw [padPages_apply, slotsOf, padStart, hnil, CStr.strlen_nil, Nat.add_zero, allocPages_zero,
    padding, hcount]
  exact if_congr Iff.rfl rfl (slots_eq_pageOf (.inl hc) (by omega))

/-- The array when there is one. -/
theorem slotsOf_partialPage (hc : ¬ PAGE_LENGTH ∣ c.length) :
    padPages (leafCount c.length - (c.length / PAGE_LENGTH + 1))
        (c.length / PAGE_LENGTH * PAGE_LENGTH + (pageOf c (c.length / PAGE_LENGTH)).strlen)
        (setSlot (fun k => if PAGE_LENGTH ∣ k ∧ k / PAGE_LENGTH < c.length / PAGE_LENGTH then
            .heap (pageOf c (k / PAGE_LENGTH))
            else allocPages (leafCount c.length) 0 (fun _ => .null) k)
          (c.length / PAGE_LENGTH * PAGE_LENGTH) (.heap (pageOf c (c.length / PAGE_LENGTH)))) k =
      slotsOf c k := by
  have hcount := pageCount_of_not_dvd hc
  have hsum := leafCount_eq c.length
  rw [padPages_apply, slotsOf, padStart, setSlot, allocPages_zero, padding, hcount]
  refine if_congr Iff.rfl rfl ?_
  by_cases h₀ : k = c.length / PAGE_LENGTH * PAGE_LENGTH
  · have hdiv : k / PAGE_LENGTH = c.length / PAGE_LENGTH := by
      rw [h₀]; exact Nat.mul_div_cancel _ (by unfold PAGE_LENGTH; norm_num)
    rw [if_pos h₀, if_pos ⟨h₀ ▸ Nat.dvd_mul_left _ _, by omega⟩, hdiv]
  · rw [if_neg h₀]
    exact slots_eq_pageOf (.inr h₀) (by omega)

theorem leafCount_mul_le (hn : n ≤ 2 ^ 30) :
    ((leafCount n * PAGE_LENGTH : ℕ) : ℤ) ≤ INT_MAX := by
  have hleaf := leafCount_le hn
  unfold PAGE_LENGTH INT_MAX
  omega

/-- **The array for a file of 1 to `2^30` bytes.** -/
theorem parsePages_eq (hn : 1 ≤ c.length) (hn' : c.length ≤ 2 ^ 30) (hterm : Terminates heap c) :
    parsePages c.length (c ++ [heap.fileTail]) =
      .ok ⟨leafCount c.length, c.length / PAGE_LENGTH, isFull c.length, slotsOf c⟩ := by
  have hsum := leafCount_eq c.length
  simp only [parsePages, treeSize_eq hn (by omega), pageCount_eq,
    checkInt_of_le (Int.natCast_nonneg _) (leafCount_mul_le hn'), Run.ok_bind, copyPages_zero]
  -- in both cases the pointer is back at slot 0
  by_cases hfull : PAGE_LENGTH ∣ c.length
  · have hcount := pageCount_of_dvd hfull
    simp only [isFull_eq, hfull, decide_true, if_true, Run.pure_eq, Run.ok_bind, hcount]
    rw [Nat.add_zero]
    refine congrArg (fun slots => Except.ok (Parsed.mk _ _ _ slots)) (funext fun k => ?_)
    rw [← slotsOf_full hfull]
    congr 1
    split_ifs <;> omega
  · have hcount := pageCount_of_not_dvd hfull
    simp only [isFull_eq, hfull, decide_false, Bool.false_eq_true, if_false,
      readStr_partialPage hfull hterm, Run.pure_eq, Run.ok_bind, hcount]
    refine congrArg (fun slots => Except.ok (Parsed.mk _ _ _ slots)) (funext fun k => ?_)
    rw [← slotsOf_partialPage hfull]
    congr 1
    split_ifs <;> omega

/-- Above `2^30` bytes the number of slots is no `int`. -/
theorem parsePages_overflow (hn : 2 ^ 30 < n) (hn' : n ≤ 2 ^ 46) :
    parsePages n b = .error .overflow := by
  have hleaf := leafCount_gt hn
  have hint : (INT_MAX : ℤ) < (leafCount n * PAGE_LENGTH : ℕ) := by
    unfold PAGE_LENGTH INT_MAX
    omega
  simp only [parsePages, treeSize_eq (by omega : 1 ≤ n) hn', checkInt_of_gt hint, Run.error_bind]

theorem parsePages_bounds (hn : 1 ≤ c.length) (hn' : c.length ≤ 2 ^ 30)
    (hterm : ¬ Terminates heap c) :
    parsePages c.length (c ++ [heap.fileTail]) = .error .bounds := by
  simp only [Terminates, not_or] at hterm
  obtain ⟨hfull, htail, hmem⟩ := hterm
  have hread : readStr ((c ++ [heap.fileTail]).drop (c.length / PAGE_LENGTH * PAGE_LENGTH)) =
      .error .bounds := by
    rw [List.drop_append_of_le_length (Nat.div_mul_le_self _ _), readStr, if_neg]
    simp only [List.mem_append, List.mem_singleton, not_or]
    exact ⟨hmem, fun h => htail h.symm⟩
  simp only [parsePages, treeSize_eq hn (by omega),
    checkInt_of_le (Int.natCast_nonneg _) (leafCount_mul_le hn'), Run.ok_bind, copyPages_zero]
  simp only [isFull_eq, hfull, decide_false, Bool.false_eq_true, if_false, hread, Run.error_bind]

theorem readFile_of_lt (hc : c.length < INT_MAX) :
    readFile heap c = .ok (c.length, c ++ [heap.fileTail]) := by
  have hint : intOf (c.length : ℕ) = (c.length : ℕ) :=
    intOf_of_lt (Int.natCast_nonneg _) (by omega)
  rw [readFile, hint, checkInt_of_le (by omega) (by omega), Run.ok_bind, if_neg (by omega),
    Int.toNat_natCast, List.take_length]
  rfl

theorem readFile_eq (hc : c.length ≤ 2 ^ 30) :
    readFile heap c = .ok (c.length, c ++ [heap.fileTail]) :=
  readFile_of_lt (by unfold INT_MAX; omega)

theorem fileSize_of_readFile (hc : c.length ≤ INT_MAX) (hread : readFile heap c = .ok (n, b)) :
    n = c.length ∧ b = c ++ [heap.fileTail] := by
  have hint : intOf (c.length : ℕ) = (c.length : ℕ) :=
    intOf_of_lt (Int.natCast_nonneg _) (by exact_mod_cast hc)
  rw [readFile, hint] at hread
  obtain ⟨_, -, hread⟩ := Run.bind_eq_ok.1 hread
  rw [if_neg (by omega), Int.toNat_natCast, List.take_length] at hread
  cases hread
  exact ⟨rfl, rfl⟩

end MerkleFs
