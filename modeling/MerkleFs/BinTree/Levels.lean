import MerkleFs.BinTree.Difference

/-!
# The levels above a run of leaves

A program goes up from the leaves `f … f + n - 1`, and halves the first node and the number of
nodes from one level to the next; the number is rounded down and one is added.  `level f n i` are
the nodes it visits `i` levels above the leaves.

`coversRun` : these are the nodes above the run, with at most one more at the end of each level, and
each is visited after what it depends on.
-/

namespace BinTree

/-- The number of nodes visited `i` levels above `n` leaves. -/
def levelCount (n : ℕ) : ℕ → ℕ
  | 0 => n
  | i + 1 => levelCount n i / 2 + 1

/-- The nodes visited `i` levels above the leaves. -/
def level (f n i : ℕ) : List ℕ := List.range' (f / 2 ^ i) (levelCount n i)

/-- Node `j` is a leaf of the run, or above one. -/
def AboveRun (f n j : ℕ) : Prop := ∃ x, f ≤ x ∧ x < f + n ∧ Below j x

/-- The levels cover what is above a run of leaves, from the leaves to the root. -/
structure CoversRun (h f n : ℕ) : Prop where
  /-- The node above a leaf is visited on its level. -/
  covers : ∀ i < h, ∀ x, f ≤ x → x < f + n → x / 2 ^ i ∈ level f n i
  /-- All nodes of a level are above leaves of the run, except perhaps the last. -/
  extra : ∀ i < h, ∀ j ∈ level f n i,
    (∃ x, f ≤ x ∧ x < f + n ∧ x / 2 ^ i = j) ∨ j + 1 = f / 2 ^ i + levelCount n i
  /-- They are nodes of the tree. -/
  range : ∀ i < h, ∀ j ∈ level f n i, 1 ≤ j ∧ j ≤ 2 ^ h - 1
  /-- Before a node its children above the run are visited. -/
  before : ∀ i < h, ∀ c, AboveRun f n c → 1 ≤ c / 2 → c / 2 ∈ level f n i →
    ∃ i' < i, c ∈ level f n i'
  /-- After a node above the run its parent is visited, if it is not the root. -/
  after : ∀ i < h, ∀ c, AboveRun f n c → 1 ≤ c / 2 → c ∈ level f n i →
    c / 2 = 1 ∨ ∃ i', i < i' ∧ i' < h ∧ c / 2 ∈ level f n i'

variable {h f n i x c j : ℕ}

theorem mem_level : j ∈ level f n i ↔ f / 2 ^ i ≤ j ∧ j < f / 2 ^ i + levelCount n i :=
  List.mem_range'_1

theorem div_two_pow_succ (x i : ℕ) : x / 2 ^ (i + 1) = x / 2 ^ i / 2 := by
  rw [pow_succ, Nat.div_div_eq_div_mul]

theorem levelCount_bounds (hn : 1 ≤ n) (f i : ℕ) :
    (f + n - 1) / 2 ^ i + 1 ≤ f / 2 ^ i + levelCount n i ∧
      f / 2 ^ i + levelCount n i ≤ (f + n - 1) / 2 ^ i + if i = 0 then 1 else 2 := by
  induction i with
  | zero =>
    rw [pow_zero, Nat.div_one, Nat.div_one, levelCount, if_pos rfl]
    omega
  | succ i ih =>
    have hover : f / 2 ^ i + levelCount n i ≤ (f + n - 1) / 2 ^ i + 2 := by
      refine ih.2.trans ?_
      split_ifs <;> omega
    have hstep := levels_step ih.1 hover
    rwa [← div_two_pow_succ, ← div_two_pow_succ, ← levelCount] at hstep

theorem div_bounds (hx : 2 ^ (h - 1) ≤ x) (hx' : x < 2 ^ h) (hi : i < h) :
    2 ^ (h - 1 - i) ≤ x / 2 ^ i ∧ x / 2 ^ i < 2 ^ (h - i) := by
  constructor
  · refine (Nat.le_div_iff_mul_le (Nat.two_pow_pos i)).2 ?_
    rwa [← pow_add, show h - 1 - i + i = h - 1 by omega]
  · refine (Nat.div_lt_iff_lt_mul (Nat.two_pow_pos i)).2 ?_
    rwa [← pow_add, show h - i + i = h by omega]

theorem covers_level (hx : f ≤ x) (hx' : x < f + n) : x / 2 ^ i ∈ level f n i := by
  have hbounds := (levelCount_bounds (show 1 ≤ n by omega) f i).1
  have hlow : f / 2 ^ i ≤ x / 2 ^ i := Nat.div_le_div_right hx
  have hhigh : x / 2 ^ i ≤ (f + n - 1) / 2 ^ i := Nat.div_le_div_right (by omega)
  rw [mem_level]
  omega

theorem level_end (hf : 2 ^ (h - 1) ≤ f) (hn : 1 ≤ n) (hfn : f + n ≤ 2 ^ h) (hi : i < h) :
    f / 2 ^ i + levelCount n i ≤ 2 ^ (h - i) + if i = 0 then 0 else 1 := by
  have hbounds := (levelCount_bounds hn f i).2
  have hhigh := (div_bounds (x := f + n - 1) (by omega) (by omega) hi).2
  split_ifs at hbounds ⊢ <;> omega

theorem le_of_mem_level (hf : 2 ^ (h - 1) ≤ f) (hn : 1 ≤ n) (hfn : f + n ≤ 2 ^ h) (hi : i < h)
    (hj : j ∈ level f n i) : 2 ^ (h - 1 - i) ≤ j := by
  have hlow := (div_bounds hf (by omega) hi).1
  rw [mem_level] at hj
  exact hlow.trans hj.1

theorem AboveRun.exists_level (hf : 2 ^ (h - 1) ≤ f) (hfn : f + n ≤ 2 ^ h)
    (hc : AboveRun f n c) (hpar : 1 ≤ c / 2) :
    ∃ s, s + 1 < h ∧ (∃ x, f ≤ x ∧ x < f + n ∧ x / 2 ^ s = c) ∧ 2 ^ (h - 1 - s) ≤ c ∧
      c < 2 ^ (h - s) := by
  obtain ⟨x, hx, hx', s, rfl⟩ := hc
  have hs : s + 1 < h := by
    by_contra hno
    -- the nodes that many levels up are the root and what is above it
    have hzero : x / 2 ^ (s + 1) = 0 := Nat.div_eq_of_lt
      (by have := Nat.pow_le_pow_right Nat.two_pos (not_lt.1 hno); omega)
    rw [div_two_pow_succ] at hzero
    omega
  have hbounds := div_bounds (show 2 ^ (h - 1) ≤ x by omega) (by omega) (show s < h by omega)
  exact ⟨s, hs, ⟨x, hx, hx', rfl⟩, hbounds.1, hbounds.2⟩

theorem exists_leaf (hn : 1 ≤ n) (hj : f / 2 ^ i ≤ j) (hj' : j ≤ (f + n - 1) / 2 ^ i) :
    ∃ x, f ≤ x ∧ x < f + n ∧ x / 2 ^ i = j := by
  rcases Nat.eq_or_lt_of_le hj with rfl | hlt
  · exact ⟨f, le_rfl, by omega, rfl⟩
  · -- the first leaf below `j`
    have hlow := (Nat.div_lt_iff_lt_mul (Nat.two_pow_pos i)).1 hlt
    have hhigh := (Nat.le_div_iff_mul_le (Nat.two_pow_pos i)).1 hj'
    exact ⟨j * 2 ^ i, by omega, by omega, Nat.mul_div_cancel _ (Nat.two_pow_pos i)⟩

theorem lt_of_le_half {s i : ℕ} (hi : 2 ^ (h - 1 - i) ≤ c / 2) (hs : s + 1 < h)
    (hc : c < 2 ^ (h - s)) : s < i := by
  have hpow : 2 ^ (h - s) = 2 * 2 ^ (h - 1 - s) := by
    rw [show h - s = h - 1 - s + 1 by omega, pow_succ, Nat.mul_comm]
  have hlt : 2 ^ (h - 1 - i) < 2 ^ (h - 1 - s) := by omega
  have := (Nat.pow_lt_pow_iff_right Nat.one_lt_two).1 hlt
  omega

theorem half_mem_level (hend : c + 1 = f / 2 ^ i + levelCount n i) (hc : 2 ∣ c)
    (hlow : f / 2 ^ i ≤ c) : c / 2 ∈ level f n (i + 1) := by
  rw [mem_level, div_two_pow_succ, levelCount]
  omega

/-- **The levels cover what is above the run.** -/
theorem coversRun (hf : 2 ^ (h - 1) ≤ f) (hn : 1 ≤ n) (hfn : f + n ≤ 2 ^ h) : CoversRun h f n where
  covers i _ x hx hx' := covers_level hx hx'
  extra i hi j hj := by
    have hbounds := (levelCount_bounds hn f i).2
    rw [mem_level] at hj
    rcases Nat.lt_or_ge (j + 1) (f / 2 ^ i + levelCount n i) with hlt | hge
    · refine .inl (exists_leaf hn hj.1 ?_)
      split_ifs at hbounds <;> omega
    · exact .inr (by omega)
  range i hi j hj := by
    have hlow := le_of_mem_level hf hn hfn hi hj
    have hend := level_end hf hn hfn hi
    have hpos := Nat.two_pow_pos (h - 1 - i)
    rw [mem_level] at hj
    refine ⟨by omega, ?_⟩
    split_ifs at hend with h0
    · rw [h0, Nat.sub_zero] at hend
      rw [h0] at hj
      omega
    · have hpow : 2 ^ (h - i) ≤ 2 ^ (h - 1) := Nat.pow_le_pow_right Nat.two_pos (by omega)
      have hp := two_pow_pred (show 1 ≤ h by omega)
      have := Nat.two_pow_pos (h - 1)
      omega
  before i hi c hc hpar hmem := by
    obtain ⟨s, hs, ⟨x, hx, hx', rfl⟩, -, hhigh⟩ := hc.exists_level hf hfn hpar
    have hlow := le_of_mem_level hf hn hfn hi hmem
    exact ⟨s, lt_of_le_half hlow hs hhigh, covers_level hx hx'⟩
  after i hi c hc hpar hmem := by
    obtain ⟨s, hs, ⟨x, hx, hx', hxc⟩, hlow, hhigh⟩ := hc.exists_level hf hfn hpar
    rcases Nat.lt_or_ge s i with hlt | hge
    · -- `c` is the node too many on the level of its parent
      have hend := level_end hf hn hfn hi
      have hmem' := mem_level.1 hmem
      have hpow : 2 ^ (h - i) ≤ c := (Nat.pow_le_pow_right Nat.two_pos (by omega)).trans hlow
      have htwo : 2 ^ (h - i) = 2 * 2 ^ (h - i - 1) := two_pow_pred (by omega)
      rw [if_neg (by omega)] at hend
      rcases Nat.lt_or_ge (i + 1) h with hlt' | hge
      · exact .inr ⟨i + 1, Nat.lt_succ_self i, hlt',
          half_mem_level (by omega) ⟨2 ^ (h - i - 1), by omega⟩ hmem'.1⟩
      · rw [show h - i - 1 = 0 by omega, pow_zero] at htwo
        exact .inl (by omega)
    · refine .inr ⟨s + 1, by omega, hs, ?_⟩
      rw [← hxc, ← div_two_pow_succ]
      exact covers_level hx hx'

end BinTree
