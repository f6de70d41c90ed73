import MerkleFs.BinTree.Difference

/-!
# Searching from the root

A search visits a node, reports it if it satisfies `p`, and visits its children only then.  It
finds the nodes that satisfy `p` together with all nodes above them (`mem_search_root`), each
before the nodes below it (`pairwise_search`).  If `p` is passed on from a child to its parent, it
finds every leaf that satisfies `p` (`mem_search_leaf`).
-/

namespace BinTree

/-- The nodes that are reported in the subtree of node `i`, which has `d` levels below `i`. -/
def search (p : ℕ → Prop) [DecidablePred p] : ℕ → ℕ → List ℕ
  | 0, i => if p i then [i] else []
  | d + 1, i => if p i then i :: (search p d (2 * i) ++ search p d (2 * i + 1)) else []

variable {p : ℕ → Prop} [DecidablePred p] {h d i j : ℕ}

/-- The reported nodes satisfy `p`, up to the node the search starts at. -/
theorem mem_search : j ∈ search p d i ↔ ∃ k ≤ d, j / 2 ^ k = i ∧ ∀ m ≤ k, p (j / 2 ^ m) := by
  induction d generalizing i with
  | zero =>
    rw [search]
    constructor
    · intro hj
      split_ifs at hj with hp
      · obtain rfl := List.mem_singleton.1 hj
        refine ⟨0, le_rfl, by simp, fun m hm => ?_⟩
        rwa [Nat.le_zero.1 hm, pow_zero, Nat.div_one]
      · cases hj
    · rintro ⟨k, hk, rfl, hp⟩
      obtain rfl := Nat.le_zero.1 hk
      rw [if_pos (hp 0 le_rfl), pow_zero, Nat.div_one]
      exact List.mem_singleton_self j
  | succ d ih =>
    rw [search]
    constructor
    · intro hj
      split_ifs at hj with hp
      · -- from a child of `i`
        have hchild : ∀ c, c / 2 = i → j ∈ search p d c →
            ∃ k ≤ d + 1, j / 2 ^ k = i ∧ ∀ m ≤ k, p (j / 2 ^ m) := by
          intro c hc hj
          obtain ⟨k, hk, hjk, hall⟩ := ih.1 hj
          have hup : j / 2 ^ (k + 1) = i := by
            rw [pow_succ, ← Nat.div_div_eq_div_mul, hjk, hc]
          refine ⟨k + 1, by omega, hup, fun m hm => ?_⟩
          rcases Nat.lt_or_ge k m with hlt | hge
          · rwa [show m = k + 1 by omega, hup]
          · exact hall m hge
        rcases List.mem_cons.1 hj with rfl | hj
        · refine ⟨0, Nat.zero_le _, by simp, fun m hm => ?_⟩
          rwa [Nat.le_zero.1 hm, pow_zero, Nat.div_one]
        rcases List.mem_append.1 hj with hj | hj
        · exact hchild _ (by omega) hj
        · exact hchild _ (by omega) hj
      · cases hj
    · rintro ⟨k, hk, hjk, hall⟩
      rw [if_pos (hjk ▸ hall k le_rfl)]
      cases k with
      | zero =>
        rw [pow_zero, Nat.div_one] at hjk
        exact hjk ▸ List.mem_cons_self
      | succ k =>
        have hc : j / 2 ^ k / 2 = i := by rw [Nat.div_div_eq_div_mul, ← pow_succ, hjk]
        have hall' : ∀ m ≤ k, p (j / 2 ^ m) := fun m hm => hall m (by omega)
        refine List.mem_cons_of_mem _ (List.mem_append.2 ?_)
        rcases Nat.mod_two_eq_zero_or_one (j / 2 ^ k) with hm | hm
        · exact .inl (ih.2 ⟨k, by omega, by omega, hall'⟩)
        · exact .inr (ih.2 ⟨k, by omega, by omega, hall'⟩)

theorem below_of_mem_search (hj : j ∈ search p d i) : Below i j := by
  obtain ⟨k, -, hjk, -⟩ := mem_search.1 hj
  exact ⟨k, hjk⟩

/-- **No node is reported after a node below it**, nor twice. -/
theorem pairwise_search (hi : 1 ≤ i) : (search p d i).Pairwise fun x y => ¬ Below y x := by
  induction d generalizing i with
  | zero =>
    rw [search]
    split_ifs
    · exact List.pairwise_singleton _ _
    · exact List.Pairwise.nil
  | succ d ih =>
    rw [search]
    split_ifs
    · refine List.pairwise_cons.2 ⟨fun y hy hb => ?_,
        List.pairwise_append.2 ⟨ih (by omega), ih (by omega), fun x hx y hy hb => ?_⟩⟩
      · -- below the children the numbers are larger
        have hle := hb.le
        rcases List.mem_append.1 hy with hy | hy
        · have := (below_of_mem_search hy).le
          omega
        · have := (below_of_mem_search hy).le
          omega
      · -- no node is below both children
        obtain ⟨k, hk⟩ := below_of_mem_search hy
        obtain ⟨l, rfl⟩ := hb
        have hright : Below (2 * i + 1) x :=
          ⟨l + k, by rw [pow_add, ← Nat.div_div_eq_div_mul, hk]⟩
        have := (below_of_mem_search hx).le_half hright (by omega)
        omega
    · exact List.Pairwise.nil

theorem nodup_search (hi : 1 ≤ i) : (search p d i).Nodup :=
  (pairwise_search hi).imp fun {x y} hb heq => by
    rw [heq] at hb
    exact hb (below_self y)

/-- **A search from the root** reports the nodes that satisfy `p` together with all nodes above
them. -/
theorem mem_search_root (hh : 1 ≤ h) :
    j ∈ search p (h - 1) 1 ↔ j ∈ Nodes h ∧ ∀ k, 1 ≤ k → Below k j → p k := by
  rw [mem_search]
  constructor
  · rintro ⟨k, hk, hjk, hall⟩
    have hlow : 2 ^ k ≤ j := by
      have := (Nat.le_div_iff_mul_le (Nat.two_pow_pos k)).1 hjk.ge
      omega
    have hhigh : j < 2 * 2 ^ k := (Nat.div_lt_iff_lt_mul (Nat.two_pow_pos k)).1 (by omega)
    have hpow : 2 ^ (k + 1) ≤ 2 ^ h := Nat.pow_le_pow_right Nat.two_pos (by omega)
    refine ⟨⟨(Nat.two_pow_pos k).trans_le hlow, by rw [pow_succ] at hpow; omega⟩, ?_⟩
    rintro a ha ⟨t, rfl⟩
    refine hall t ?_
    by_contra hlt
    have hzero : j / 2 ^ t = 0 := Nat.div_eq_of_lt
      (hhigh.trans_le (by rw [← pow_succ']; exact Nat.pow_le_pow_right Nat.two_pos (by omega)))
    omega
  · rintro ⟨⟨hj, hj'⟩, hall⟩
    obtain ⟨k, hjk⟩ := below_root hj
    refine ⟨k, ?_, hjk, fun m hm => hall _ ?_ ⟨m, rfl⟩⟩
    · have hlow := (Nat.le_div_iff_mul_le (Nat.two_pow_pos k)).1 hjk.ge
      have := (Nat.pow_lt_pow_iff_right Nat.one_lt_two).1
        (((Nat.one_mul _).symm.trans_le hlow).trans_lt hj')
      omega
    · have := Nat.div_le_div_left (Nat.pow_le_pow_right Nat.two_pos hm) (Nat.two_pow_pos m)
        (a := j)
      omega

/-- **It finds every leaf that satisfies `p`**, if parents satisfy `p` when one of their children
does. -/
theorem mem_search_leaf (hh : 1 ≤ h)
    (hup : ∀ i, 1 ≤ i → i < 2 ^ (h - 1) → p (2 * i) ∨ p (2 * i + 1) → p i)
    (hj : 2 ^ (h - 1) ≤ j) (hj' : j < 2 ^ h) : j ∈ search p (h - 1) 1 ↔ p j := by
  have hp := two_pow_pred hh
  have hpos := Nat.two_pow_pos (h - 1)
  rw [mem_search_root hh]
  constructor
  · rintro ⟨⟨hj, -⟩, hall⟩
    exact hall j hj (below_self j)
  · intro hleaf
    refine ⟨⟨by omega, hj'⟩, ?_⟩
    rintro k hk ⟨t, rfl⟩
    induction t with
    | zero => rwa [pow_zero, Nat.div_one]
    | succ t ih =>
      rw [pow_succ, ← Nat.div_div_eq_div_mul] at hk ⊢
      have hle := Nat.div_le_self j (2 ^ t)
      refine hup _ hk (by omega) ?_
      rcases Nat.mod_two_eq_zero_or_one (j / 2 ^ t) with hm | hm
      · rw [show 2 * (j / 2 ^ t / 2) = j / 2 ^ t by omega]
        exact .inl (ih (by omega))
      · rw [show 2 * (j / 2 ^ t / 2) + 1 = j / 2 ^ t by omega]
        exact .inr (ih (by omega))

end BinTree
