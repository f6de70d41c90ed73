import Mathlib.Data.Set.Insert
import Mathlib.Data.Nat.Log
import Mathlib.Tactic.Ring
import Mathlib.Tactic.Positivity

/-!
# Perfect binary trees in array order

A perfect binary tree with `h` levels keeps its nodes in an array: the root is node `1`, the
children of node `i` are `2 * i` and `2 * i + 1`, the inner nodes are `1 … 2^(h-1) - 1` and the
leaves `2^(h-1) … 2^h - 1`.  Index `0` is not used.

## Main definitions

* `BinTree.Solves h leaf comb τ` : `τ` assigns to every leaf its leaf value and to every inner
  node the combination of the values of its children.  The combination may depend on the node.
* `BinTree.solution` : the assignment that does, which is unique (`Solves.unique`).
* `BinTree.Below h i j` : leaf `j` is in the subtree of node `i`.

`BinTree.induction` is induction from the leaves up, and `Solves.congr` says that the value of a
node depends on the leaves of its subtree only.
-/

namespace BinTree

variable {α : Type*} {h : ℕ}

theorem two_pow_pred (hh : 1 ≤ h) : 2 ^ h = 2 * 2 ^ (h - 1) := by
  obtain ⟨k, rfl⟩ := Nat.exists_eq_add_of_le' hh
  simp [pow_succ, mul_comm]

/-- Induction from the leaves up. -/
theorem induction (hh : 1 ≤ h) {P : ℕ → Prop} (leaf : ∀ i, 2 ^ (h - 1) ≤ i → i < 2 ^ h → P i)
    (inner : ∀ i, 1 ≤ i → i < 2 ^ (h - 1) → P (2 * i) → P (2 * i + 1) → P i) :
    ∀ i, 1 ≤ i → i < 2 ^ h → P i := by
  have hp := two_pow_pred hh
  -- on the distance to the end of the array
  have key : ∀ n i, 2 ^ h - i ≤ n → 1 ≤ i → i < 2 ^ h → P i := by
    intro n
    induction n with
    | zero => intro i hn _ hi; omega
    | succ n ih =>
      intro i hn hi₁ hi
      by_cases hl : i < 2 ^ (h - 1)
      · exact inner i hi₁ hl (ih _ (by omega) (by omega) (by omega))
          (ih _ (by omega) (by omega) (by omega))
      · exact leaf i (by omega) hi
  exact fun i => key _ i le_rfl

/-- `τ` solves the tree with leaf values `leaf` and the combination `comb`. -/
structure Solves (h : ℕ) (leaf : ℕ → α) (comb : ℕ → α → α → α) (τ : ℕ → α) : Prop where
  /-- Leaves have their leaf values. -/
  leaf : ∀ i, 2 ^ (h - 1) ≤ i → i < 2 ^ h → τ i = leaf i
  /-- Inner nodes combine the values of their children. -/
  inner : ∀ i, 1 ≤ i → i < 2 ^ (h - 1) → τ i = comb i (τ (2 * i)) (τ (2 * i + 1))

/-- The value of a node with `d` levels below it. -/
def value (leaf : ℕ → α) (comb : ℕ → α → α → α) : ℕ → ℕ → α
  | 0, i => leaf i
  | d + 1, i => comb i (value leaf comb d (2 * i)) (value leaf comb d (2 * i + 1))

/-- The solution of the tree with `h` levels. -/
def solution (h : ℕ) (leaf : ℕ → α) (comb : ℕ → α → α → α) (i : ℕ) : α :=
  value leaf comb (h - 1 - Nat.log 2 i) i

theorem solves_solution (leaf : ℕ → α) (comb : ℕ → α → α → α) :
    Solves h leaf comb (solution h leaf comb) := by
  refine ⟨fun i hi hi' => ?_, fun i hi hi' => ?_⟩
  · have hpos : 0 < 2 ^ (h - 1) := by positivity
    have : h - 1 ≤ Nat.log 2 i := Nat.le_log_of_pow_le (by norm_num) hi
    rw [solution, show h - 1 - Nat.log 2 i = 0 by omega, value]
  · have hlt : Nat.log 2 i < h - 1 := Nat.log_lt_of_lt_pow (by omega) hi'
    have h₀ : Nat.log 2 (2 * i) = Nat.log 2 i + 1 := by
      rw [mul_comm]; exact Nat.log_mul_base (by norm_num) (by omega)
    have h₁ : Nat.log 2 (2 * i + 1) = Nat.log 2 i + 1 := by
      rw [Nat.log_of_one_lt_of_le (by norm_num) (by omega)]
      rw [show (2 * i + 1) / 2 = i by omega]
    simp only [solution, h₀, h₁]
    obtain ⟨d, hd⟩ : ∃ d, h - 1 - Nat.log 2 i = d + 1 := ⟨h - 2 - Nat.log 2 i, by omega⟩
    rw [hd, show h - 1 - (Nat.log 2 i + 1) = d by omega, value]

/-- Leaf `j` is in the subtree of node `i`. -/
def Below (i j : ℕ) : Prop := ∃ k, j / 2 ^ k = i

theorem below_self (i : ℕ) : Below i i := ⟨0, by simp⟩

theorem Below.left {i j : ℕ} (hb : Below (2 * i) j) : Below i j := by
  obtain ⟨k, hk⟩ := hb
  exact ⟨k + 1, by rw [pow_succ, ← Nat.div_div_eq_div_mul, hk]; omega⟩

theorem Below.right {i j : ℕ} (hb : Below (2 * i + 1) j) : Below i j := by
  obtain ⟨k, hk⟩ := hb
  exact ⟨k + 1, by rw [pow_succ, ← Nat.div_div_eq_div_mul, hk]; omega⟩

theorem Below.cases {i j : ℕ} (hi : i < 2 ^ (h - 1)) (hj : 2 ^ (h - 1) ≤ j)
    (hb : Below i j) : Below (2 * i) j ∨ Below (2 * i + 1) j := by
  obtain ⟨k, hk⟩ := hb
  cases k with
  | zero => simp at hk; omega
  | succ k =>
    rw [pow_succ, ← Nat.div_div_eq_div_mul] at hk
    rcases Nat.mod_two_eq_zero_or_one (j / 2 ^ k) with hm | hm
    · exact .inl ⟨k, by omega⟩
    · exact .inr ⟨k, by omega⟩

namespace Solves

variable {leaf leaf' : ℕ → α} {comb : ℕ → α → α → α} {τ τ' : ℕ → α}

/-- The value of a node depends on the leaves of its subtree only. -/
theorem congr (hh : 1 ≤ h) (hτ : Solves h leaf comb τ) (hτ' : Solves h leaf' comb τ') :
    ∀ i, 1 ≤ i → i < 2 ^ h →
      (∀ j, 2 ^ (h - 1) ≤ j → j < 2 ^ h → Below i j → leaf j = leaf' j) → τ i = τ' i := by
  refine induction hh (fun i hi hi' hl => ?_) (fun i hi hi' ih₀ ih₁ hl => ?_)
  · rw [hτ.leaf i hi hi', hτ'.leaf i hi hi', hl i hi hi' (below_self i)]
  · rw [hτ.inner i hi hi', hτ'.inner i hi hi', ih₀ fun j hj hj' hb => hl j hj hj' hb.left,
      ih₁ fun j hj hj' hb => hl j hj hj' hb.right]

/-- The solution is unique. -/
theorem unique (hh : 1 ≤ h) (hτ : Solves h leaf comb τ) (hτ' : Solves h leaf comb τ') :
    ∀ i, 1 ≤ i → i < 2 ^ h → τ i = τ' i :=
  fun i hi hi' => congr hh hτ hτ' i hi hi' fun _ _ _ _ => rfl

end Solves

end BinTree
