import MerkleFs.BinTree.Update

/-!
# How a difference reaches the root

Two trees of the same shape differ at some nodes.  A difference has its `source` at a node whose
own contribution differs, and travels up unless it is `masked` on the way: a masked node hides
from its parent that it differs.  `Spreads` states this for one level, and `Spreads.root_iff` for
the whole tree: the root shows a difference exactly when some source has no masked node between
itself and the root.
-/

namespace BinTree

variable {h : ℕ}

/-- A node differs when it is a source, or when one of its children shows that it differs. -/
structure Spreads (h : ℕ) (source masked differs : ℕ → Prop) : Prop where
  /-- Leaves. -/
  leaf : ∀ i, 2 ^ (h - 1) ≤ i → i < 2 ^ h → (differs i ↔ source i)
  /-- Inner nodes. -/
  inner : ∀ i, 1 ≤ i → i < 2 ^ (h - 1) → (differs i ↔ source i ∨
    (differs (2 * i) ∧ ¬ masked (2 * i)) ∨ (differs (2 * i + 1) ∧ ¬ masked (2 * i + 1)))

theorem Below.eq_or_child {i j : ℕ} (hb : Below i j) :
    j = i ∨ Below (2 * i) j ∨ Below (2 * i + 1) j := by
  obtain ⟨k, hk⟩ := hb
  cases k with
  | zero => exact .inl (by simpa using hk)
  | succ k =>
    rw [pow_succ, ← Nat.div_div_eq_div_mul] at hk
    rcases Nat.mod_two_eq_zero_or_one (j / 2 ^ k) with hm | hm
    · exact .inr (.inl ⟨k, by omega⟩)
    · exact .inr (.inr ⟨k, by omega⟩)

theorem below_root {j : ℕ} (hj : 1 ≤ j) : Below 1 j := by
  refine ⟨Nat.log 2 j, ?_⟩
  have h₁ := Nat.pow_log_le_self 2 (show j ≠ 0 by omega)
  have h₂ := Nat.lt_pow_succ_log_self (by norm_num : 1 < 2) j
  rw [pow_succ] at h₂
  exact (Nat.div_eq_iff (Nat.two_pow_pos _)).2 ⟨by omega, by omega⟩

theorem Below.le_half {i m j : ℕ} (hi : Below i j) (hm : Below m j) (him : i < m) : i ≤ m / 2 := by
  obtain ⟨a, rfl⟩ := hi
  obtain ⟨b, rfl⟩ := hm
  rcases Nat.lt_or_ge b a with hab | hab
  · obtain ⟨c, rfl⟩ := Nat.exists_eq_add_of_lt hab
    rw [show b + c + 1 = b + 1 + c by ring, pow_add, pow_succ, ← Nat.div_div_eq_div_mul,
      ← Nat.div_div_eq_div_mul]
    exact Nat.div_le_self _ _
  · have : j / 2 ^ b ≤ j / 2 ^ a :=
      Nat.div_le_div_left (Nat.pow_le_pow_right (by norm_num) hab) (Nat.two_pow_pos a)
    omega

namespace Spreads

variable {source masked differs : ℕ → Prop}

/-- A node shows a difference exactly when some source below it has no masked node between
itself and the node. -/
theorem iff_source (hs : Spreads h source masked differs) (hh : 1 ≤ h) :
    ∀ i, 1 ≤ i → i < 2 ^ h → (differs i ∧ ¬ masked i ↔
      ∃ j < 2 ^ h, Below i j ∧ source j ∧ ∀ m, i ≤ m → Below m j → ¬ masked m) := by
  have hp := two_pow_pred hh
  -- from a child to its parent, and back
  have up : ∀ {i c j : ℕ}, (c = 2 * i ∨ c = 2 * i + 1) → ¬ masked i → Below c j → Below i j →
      (∀ m, c ≤ m → Below m j → ¬ masked m) → ∀ m, i ≤ m → Below m j → ¬ masked m := by
    intro i c j hc hmi hbc hbi hm m him hbm
    rcases Nat.lt_or_ge m c with hlt | hge
    · have := hbm.le_half hbc hlt
      rwa [show m = i by omega]
    · exact hm m hge hbm
  refine induction hh (fun i hi hi' => ?_) (fun i hi hi' ih₀ ih₁ => ?_)
  · rw [hs.leaf i hi hi']
    constructor
    · rintro ⟨hsrc, hmask⟩
      refine ⟨i, hi', below_self i, hsrc, fun m him hbm => ?_⟩
      rwa [show m = i from le_antisymm hbm.le him]
    · rintro ⟨j, hj, hb, hsrc, hm⟩
      rcases hb.eq_or_child with rfl | hb | hb
      · exact ⟨hsrc, hm j le_rfl hb⟩
      · have := hb.le; omega
      · have := hb.le; omega
  · rw [hs.inner i hi hi', ih₀, ih₁]
    constructor
    · rintro ⟨hsrc | ⟨j, hj, hb, hsrc, hm⟩ | ⟨j, hj, hb, hsrc, hm⟩, hmask⟩
      · refine ⟨i, by omega, below_self i, hsrc, fun m him hbm => ?_⟩
        rwa [show m = i from le_antisymm hbm.le him]
      · exact ⟨j, hj, hb.left, hsrc, up (.inl rfl) hmask hb hb.left hm⟩
      · exact ⟨j, hj, hb.right, hsrc, up (.inr rfl) hmask hb hb.right hm⟩
    · rintro ⟨j, hj, hb, hsrc, hm⟩
      refine ⟨?_, hm i le_rfl hb⟩
      rcases hb.eq_or_child with rfl | hb | hb
      · exact .inl hsrc
      · exact .inr (.inl ⟨j, hj, hb, hsrc, fun m him => hm m (by omega)⟩)
      · exact .inr (.inr ⟨j, hj, hb, hsrc, fun m him => hm m (by omega)⟩)

/-- **The root shows a difference exactly when some source has no masked node above it.** -/
theorem root_iff (hs : Spreads h source masked differs) (hh : 1 ≤ h) :
    differs 1 ∧ ¬ masked 1 ↔
      ∃ j ∈ Nodes h, source j ∧ ∀ m, 1 ≤ m → Below m j → ¬ masked m := by
  rw [hs.iff_source hh 1 le_rfl (Nat.one_lt_two_pow (by omega))]
  constructor
  · rintro ⟨j, hj, hb, hsrc, hm⟩
    exact ⟨j, ⟨hb.le, hj⟩, hsrc, hm⟩
  · rintro ⟨j, ⟨hj, hj'⟩, hsrc, hm⟩
    exact ⟨j, hj', below_root hj, hsrc, hm⟩

end Spreads

end BinTree
