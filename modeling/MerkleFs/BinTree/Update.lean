import MerkleFs.BinTree.Order

/-!
# Updating a run of leaves

When the leaves `f … e` of a finished tree change, only the nodes above them need a new value.
`Untouched` is the rest of the tree, and an update order has to be bottom-up once these nodes
are done.

* `path i` : node `i` and the nodes above it, from `i` to the root (`bottomUp_path`).
* `levels l a k` : `l` levels of the tree, of which the first starts with `k` nodes from `a` on,
  and each further one has one node more than half of the level before (`bottomUp_levels`).
  The node too many may be the first one of the level before; it is a leaf only if the run
  `Overruns` the tree (`mem_levels_leaf`).
-/

namespace BinTree

variable {h f e : ℕ}

/-- The nodes above none of the leaves `f … e`. -/
def Untouched (h f e : ℕ) : Set ℕ :=
  {j | 1 ≤ j ∧ j < 2 ^ h ∧ ∀ x, f ≤ x → x ≤ e → ¬ Below j x}

/-- Node `i` and the nodes above it. -/
def path (i : ℕ) : List ℕ := if i = 0 then [] else i :: path (i / 2)

/-- `l` levels from `k` nodes at `a` on. -/
def levels : ℕ → ℕ → ℕ → List ℕ
  | 0, _, _ => []
  | l + 1, a, k => List.range' a k ++ levels l (a / 2) (k / 2 + 1)

/-- The run is an even number of leaves up to the end of the tree: the level above it has one
node too many, the first leaf. -/
def Overruns (h f n : ℕ) : Prop := 2 ∣ f ∧ 2 ∣ n ∧ f + n = 2 ^ h

instance (h f n : ℕ) : Decidable (Overruns h f n) := inferInstanceAs (Decidable (_ ∧ _ ∧ _))

theorem Below.of_div_two {i j : ℕ} (hb : Below j (i / 2)) : Below j i := by
  obtain ⟨k, hk⟩ := hb
  exact ⟨k + 1, by rw [pow_succ', ← Nat.div_div_eq_div_mul, hk]⟩

theorem Below.eq_or {i j : ℕ} (hb : Below j i) : j = i ∨ Below j (i / 2) := by
  obtain ⟨k, hk⟩ := hb
  cases k with
  | zero => exact .inl (by simpa using hk.symm)
  | succ k => exact .inr ⟨k, by rw [Nat.div_div_eq_div_mul, ← pow_succ', hk]⟩

theorem Below.le {i j : ℕ} (hb : Below j i) : j ≤ i := by
  obtain ⟨k, rfl⟩ := hb
  exact Nat.div_le_self _ _

theorem Below.eq_div {l j x : ℕ} (hb : Below j x) (hl : l < h) (hj : 2 ^ l ≤ j)
    (hj' : j < 2 ^ (l + 1)) (hx : 2 ^ (h - 1) ≤ x) (hx' : x < 2 ^ h) :
    j = x / 2 ^ (h - 1 - l) := by
  obtain ⟨k, rfl⟩ := hb
  have hlow : 2 ^ (l + k) ≤ x := by
    rw [pow_add]; exact (Nat.le_div_iff_mul_le (Nat.two_pow_pos k)).1 hj
  have hhigh : x < 2 ^ (l + 1 + k) := by
    rw [pow_add]; exact (Nat.div_lt_iff_lt_mul (Nat.two_pow_pos k)).1 hj'
  have h₁ : l + k < h := (Nat.pow_lt_pow_iff_right (by norm_num)).1 (hlow.trans_lt hx')
  have h₂ : h - 1 < l + 1 + k := (Nat.pow_lt_pow_iff_right (by norm_num)).1 (hx.trans_lt hhigh)
  rw [show h - 1 - l = k by omega]

/-! ### Paths -/

theorem path_of_pos {i : ℕ} (hi : 1 ≤ i) : path i = i :: path (i / 2) := by
  rw [path, if_neg (by omega)]

theorem mem_path {i j : ℕ} : j ∈ path i ↔ 1 ≤ j ∧ Below j i := by
  induction i using Nat.strong_induction_on with
  | _ i ih =>
    rcases Nat.eq_zero_or_pos i with rfl | hi
    · have : path 0 = [] := by rw [path, if_pos rfl]
      rw [this]
      simp only [List.not_mem_nil, false_iff, not_and]
      exact fun hj hb => by have := hb.le; omega
    · rw [path_of_pos hi, List.mem_cons, ih _ (by omega)]
      constructor
      · rintro (rfl | ⟨hj, hb⟩)
        · exact ⟨hi, below_self _⟩
        · exact ⟨hj, hb.of_div_two⟩
      · rintro ⟨hj, hb⟩
        exact hb.eq_or.imp_right fun hb => ⟨hj, hb⟩

theorem mem_path_of_not_untouched {i j : ℕ} (hj : j ∈ Nodes h) (hu : j ∉ Untouched h i i) :
    j ∈ path i := by
  by_contra hno
  rw [mem_path] at hno
  refine hu ⟨hj.1, hj.2, fun x hx hx' hb => hno ⟨hj.1, ?_⟩⟩
  obtain rfl : x = i := by omega
  exact hb

/-- Going up from a node is bottom-up when the rest of the tree is done. -/
theorem bottomUp_path (hh : 1 ≤ h) {i : ℕ} (hi : i < 2 ^ h) :
    BottomUp h (Untouched h i i) (path i) := by
  have hp := two_pow_pred hh
  induction i using Nat.strong_induction_on with
  | _ i ih =>
    rcases Nat.eq_zero_or_pos i with rfl | hpos
    · rw [path, if_pos rfl]; trivial
    · have hchild : ∀ j, i < j → j < 2 ^ h → j ∈ Untouched h i i := fun j hj hj' =>
        ⟨by omega, hj', fun x hx hx' hb => by have := hb.le; omega⟩
      rw [path_of_pos hpos]
      refine ⟨⟨hpos, hi, fun hin =>
        ⟨hchild _ (by omega) (by omega), hchild _ (by omega) (by omega)⟩⟩,
        (ih (i / 2) (by omega) (by omega)).mono ?_⟩
      rintro j ⟨hj, hj', hb⟩
      by_cases hji : j = i
      · exact .inl hji
      · refine .inr ⟨hj, hj', fun x hx hx' hbx => ?_⟩
        obtain rfl : x = i := by omega
        exact hb _ le_rfl le_rfl (hbx.eq_or.resolve_left hji)

/-! ### Levels -/

theorem levels_step {a k e : ℕ} (hle : e + 1 ≤ a + k) (hle' : a + k ≤ e + 2) :
    e / 2 + 1 ≤ a / 2 + (k / 2 + 1) ∧ a / 2 + (k / 2 + 1) ≤ e / 2 + 2 := by
  omega

theorem Below.between {l j x : ℕ} (hb : Below j x) (hl : l + 1 ≤ h) (hj : 2 ^ l ≤ j)
    (hj' : j < 2 ^ (l + 1)) (hf : 2 ^ (h - 1) ≤ f) (he : e < 2 ^ h) (hx : f ≤ x) (hx' : x ≤ e) :
    f / 2 ^ (h - (l + 1)) ≤ j ∧ j ≤ e / 2 ^ (h - (l + 1)) := by
  have hjx := hb.eq_div (h := h) (by omega) hj hj' (by omega) (by omega)
  rw [show h - 1 - l = h - (l + 1) by omega] at hjx
  exact ⟨hjx ▸ Nat.div_le_div_right hx, hjx ▸ Nat.div_le_div_right hx'⟩

theorem bottomUp_levels_aux (hf : 2 ^ (h - 1) ≤ f) (hfe : f ≤ e) (he : e < 2 ^ h) :
    ∀ {l k : ℕ}, l ≤ h → e / 2 ^ (h - l) + 1 ≤ f / 2 ^ (h - l) + k →
      f / 2 ^ (h - l) + k ≤ e / 2 ^ (h - l) + (if l = h then 1 else 2) →
      BottomUp h (Untouched h f e ∪ {j | 2 ^ l ≤ j ∧ j < 2 ^ h})
        (levels l (f / 2 ^ (h - l)) k) := by
  intro l
  induction l with
  | zero => intros; trivial
  | succ l ih =>
    intro k hl hcov hover
    have hdiv : ∀ x, x / 2 ^ (h - (l + 1)) / 2 = x / 2 ^ (h - l) := fun x => by
      rw [Nat.div_div_eq_div_mul, ← pow_succ, show h - (l + 1) + 1 = h - l by omega]
    have hpow : 2 ^ l * 2 ^ (h - (l + 1)) = 2 ^ (h - 1) := by rw [← pow_add]; congr 1; omega
    have hpow' : 2 ^ (l + 1) * 2 ^ (h - (l + 1)) = 2 ^ h := by rw [← pow_add]; congr 1; omega
    have hlow : 2 ^ l ≤ f / 2 ^ (h - (l + 1)) :=
      (Nat.le_div_iff_mul_le (Nat.two_pow_pos _)).2 (hpow ▸ hf)
    have hhigh : e / 2 ^ (h - (l + 1)) < 2 ^ (l + 1) :=
      (Nat.div_lt_iff_lt_mul (Nat.two_pow_pos _)).2 (hpow' ▸ he)
    have hpos := Nat.two_pow_pos l
    have hmono : f / 2 ^ (h - (l + 1)) ≤ e / 2 ^ (h - (l + 1)) := Nat.div_le_div_right hfe
    have hle : 2 ^ (l + 1) ≤ 2 ^ h := Nat.pow_le_pow_right (by norm_num) hl
    have hsucc : 2 ^ (l + 1) = 2 * 2 ^ l := by rw [pow_succ]; ring
    have hp := two_pow_pred (show 1 ≤ h by omega)
    rw [levels]
    refine (bottomUp_of_ready fun i hi => ?_).append ?_
    · -- the children of a node of this level are among the nodes that are done
      rw [List.mem_range'_1] at hi
      have hi' : i < 2 ^ h := by
        by_cases hlh : l + 1 = h
        · rw [if_pos hlh] at hover; omega
        · have : 2 ^ (l + 1) < 2 ^ h := Nat.pow_lt_pow_right (by norm_num) (by omega)
          rw [if_neg hlh] at hover
          omega
      refine ⟨by omega, hi', fun hin => ⟨.inr ⟨by omega, by omega⟩, .inr ⟨by omega, by omega⟩⟩⟩
    · have hstep := levels_step hcov (by split_ifs at hover <;> omega)
      rw [hdiv, hdiv] at hstep
      rw [hdiv]
      refine (ih (by omega) hstep.1 (by rw [if_neg (by omega)]; exact hstep.2)).mono ?_
      rintro j (hj | ⟨hj, hj'⟩)
      · exact .inl (.inl hj)
      by_cases hnext : 2 ^ (l + 1) ≤ j
      · exact .inl (.inr ⟨hnext, hj'⟩)
      by_cases hb : ∀ x, f ≤ x → x ≤ e → ¬ Below j x
      · exact .inl (.inl ⟨by omega, hj', hb⟩)
      -- a node of this level above one of the leaves
      push Not at hb
      obtain ⟨x, hx, hx', hbx⟩ := hb
      have hbetween := hbx.between hl hj (by omega) hf he hx hx'
      refine .inr ?_
      show j ∈ List.range' _ _
      rw [List.mem_range'_1]
      omega

/-- **Going up level by level from a run of leaves is bottom-up** when the rest of the tree is
done. -/
theorem bottomUp_levels {n : ℕ} (hn : 1 ≤ n) (hf : 2 ^ (h - 1) ≤ f) (hfn : f + n ≤ 2 ^ h) :
    BottomUp h (Untouched h f (f + n - 1)) (levels h f n) := by
  have := bottomUp_levels_aux (l := h) (k := n) hf (e := f + n - 1) (by omega) (by omega) le_rfl
    (by simp; omega) (by simp; omega)
  simp only [Nat.sub_self, pow_zero, Nat.div_one] at this
  refine this.mono ?_
  rintro j (hj | hj)
  · exact hj
  · exact absurd hj.1 (by have := hj.2; omega)

theorem mem_levels_aux (hf : 2 ^ (h - 1) ≤ f) (he : e < 2 ^ h) {j x : ℕ} (hj : 1 ≤ j)
    (hx : f ≤ x) (hx' : x ≤ e) (hb : Below j x) :
    ∀ {l k : ℕ}, l ≤ h → j < 2 ^ l → e / 2 ^ (h - l) + 1 ≤ f / 2 ^ (h - l) + k →
      j ∈ levels l (f / 2 ^ (h - l)) k := by
  intro l
  induction l with
  | zero => intro k _ hlt; simp at hlt; omega
  | succ l ih =>
    intro k hl hlt hcov
    have hdiv : ∀ x, x / 2 ^ (h - (l + 1)) / 2 = x / 2 ^ (h - l) := fun x => by
      rw [Nat.div_div_eq_div_mul, ← pow_succ, show h - (l + 1) + 1 = h - l by omega]
    rw [levels, List.mem_append]
    by_cases hjl : 2 ^ l ≤ j
    · have hbetween := hb.between hl hjl hlt hf he hx hx'
      exact .inl (by rw [List.mem_range'_1]; omega)
    · refine .inr ?_
      rw [hdiv]
      refine ih (by omega) (by omega) ?_
      rw [← hdiv, ← hdiv]
      omega

/-- The levels reach every node above the run. -/
theorem mem_levels {n : ℕ} (hn : 1 ≤ n) (hf : 2 ^ (h - 1) ≤ f) (hfn : f + n ≤ 2 ^ h) {j : ℕ}
    (hj : j ∈ Nodes h) (hu : j ∉ Untouched h f (f + n - 1)) : j ∈ levels h f n := by
  have hb : ∃ x, f ≤ x ∧ x ≤ f + n - 1 ∧ Below j x := by
    by_contra hno
    push Not at hno
    exact hu ⟨hj.1, hj.2, hno⟩
  obtain ⟨x, hx, hx', hb⟩ := hb
  have := mem_levels_aux (l := h) (k := n) hf (by omega) hj.1 hx hx' hb le_rfl hj.2
    (by simp; omega)
  simpa using this

theorem le_of_mem_levels {l a k j : ℕ} (hak : a + k ≤ 2 ^ l + 1) (hj : j ∈ levels l a k) :
    j ≤ 2 ^ l := by
  induction l generalizing a k with
  | zero => cases hj
  | succ l ih =>
    have hsucc : 2 ^ (l + 1) = 2 * 2 ^ l := by rw [pow_succ]; ring
    rw [levels, List.mem_append] at hj
    rcases hj with hj | hj
    · rw [List.mem_range'_1] at hj; omega
    · have := ih (by omega) hj
      omega

/-- The leaves the levels reach are those of the run, and the first leaf when the run
overruns. -/
theorem mem_levels_leaf {n : ℕ} (hh : 1 ≤ h) (hfn : f + n ≤ 2 ^ h) {j : ℕ}
    (hj : j ∈ levels h f n) (hleaf : 2 ^ (h - 1) ≤ j) :
    (f ≤ j ∧ j < f + n) ∨ (j = 2 ^ (h - 1) ∧ Overruns h f n) := by
  obtain ⟨l, rfl⟩ := Nat.exists_eq_add_of_le' hh
  have hp : 2 ^ (l + 1) = 2 * 2 ^ l := by rw [pow_succ]; ring
  rw [Nat.add_sub_cancel] at hleaf ⊢
  rw [levels, List.mem_append] at hj
  rcases hj with hj | hj
  · exact .inl (by rwa [List.mem_range'_1] at hj)
  · have hle := le_of_mem_levels (by omega) hj
    obtain rfl : j = 2 ^ l := by omega
    refine .inr ⟨rfl, ?_⟩
    cases l with
    | zero => cases hj
    | succ l =>
      have hp' : 2 ^ (l + 1) = 2 * 2 ^ l := by rw [pow_succ]; ring
      have hpos := Nat.two_pow_pos l
      rw [levels, List.mem_append] at hj
      rcases hj with hj | hj
      · rw [List.mem_range'_1] at hj
        exact ⟨by omega, by omega, by omega⟩
      · have := le_of_mem_levels (by omega) hj
        omega

theorem BottomUp.of_append {D : Set ℕ} {is js : List ℕ} (hb : BottomUp h D (is ++ js)) :
    BottomUp h D is := by
  induction is generalizing D with
  | nil => trivial
  | cons i is ih => exact ⟨hb.1, ih hb.2⟩

theorem levels_of_overruns {n : ℕ} (hf : 2 ^ (h - 1) ≤ f) (hn : 1 ≤ n) (ho : Overruns h f n) :
    ∃ post, levels h f n =
      (List.range' f n ++ List.range' (f / 2) (n / 2)) ++ 2 ^ (h - 1) :: post := by
  obtain ⟨hf2, hn2, hfn⟩ := ho
  obtain ⟨l, rfl⟩ : ∃ l, h = l + 2 := by
    rcases h with _ | _ | l
    · simp at hf hfn; omega
    · simp at hf hfn; omega
    · exact ⟨l, rfl⟩
  have hp : 2 ^ (l + 2) = 2 * 2 ^ (l + 1) := by rw [pow_succ]; ring
  refine ⟨levels l (f / 2 / 2) ((n / 2 + 1) / 2 + 1), ?_⟩
  rw [levels, levels, List.range'_concat, show l + 2 - 1 = l + 1 by omega,
    show f / 2 + 1 * (n / 2) = 2 ^ (l + 1) by omega]
  simp

end BinTree
