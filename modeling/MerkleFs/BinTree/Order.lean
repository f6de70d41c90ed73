import MerkleFs.BinTree.Basic
import MerkleFs.Schedule.Interleaving

/-!
# Evaluating a tree from the leaves up

A program that fills the array of a perfect binary tree visits the nodes in some order.  The
order is *bottom-up* when every inner node is visited after both its children
(`BinTree.BottomUp`); the set `D` collects the nodes that have their value already, so that the
same notion covers a partial update of a finished tree.

The orders met in practice are bottom-up: the inner nodes in descending order
(`bottomUp_descending`), any list of nodes that are ready from the start
(`bottomUp_of_ready`), and every interleaving of bottom-up orders (`bottomUp_of_interleaving`),
since `bottomUp_iff` describes such an order by what comes before each visit.
-/

namespace BinTree

variable {h : ℕ}

/-- The nodes of the tree. -/
def Nodes (h : ℕ) : Set ℕ := {j | 1 ≤ j ∧ j < 2 ^ h}

/-- Node `i` can be evaluated when the nodes of `D` have their values: it is a leaf, or both its
children are in `D`. -/
def Ready (h : ℕ) (D : Set ℕ) (i : ℕ) : Prop :=
  1 ≤ i ∧ i < 2 ^ h ∧ (i < 2 ^ (h - 1) → 2 * i ∈ D ∧ 2 * i + 1 ∈ D)

/-- Every node of the list is ready when its turn comes. -/
def BottomUp (h : ℕ) : Set ℕ → List ℕ → Prop
  | _, [] => True
  | D, i :: is => Ready h D i ∧ BottomUp h (insert i D) is

theorem Ready.mono {D D' : Set ℕ} {i : ℕ} (hD : D ⊆ D') (hr : Ready h D i) : Ready h D' i :=
  ⟨hr.1, hr.2.1, fun hi => ⟨hD (hr.2.2 hi).1, hD (hr.2.2 hi).2⟩⟩

theorem BottomUp.mono {D D' : Set ℕ} {is : List ℕ} (hD : D ⊆ D') (hb : BottomUp h D is) :
    BottomUp h D' is := by
  induction is generalizing D D' with
  | nil => trivial
  | cons i is ih => exact ⟨hb.1.mono hD, ih (Set.insert_subset_insert hD) hb.2⟩

theorem bottomUp_of_ready {D : Set ℕ} {is : List ℕ} (hr : ∀ i ∈ is, Ready h D i) :
    BottomUp h D is := by
  induction is with
  | nil => trivial
  | cons i is ih =>
    exact ⟨hr i List.mem_cons_self,
      (ih fun j hj => hr j (List.mem_cons_of_mem _ hj)).mono (Set.subset_insert _ _)⟩

theorem BottomUp.node_of_mem {D : Set ℕ} {is : List ℕ} (hb : BottomUp h D is) {i : ℕ}
    (hi : i ∈ is) : 1 ≤ i ∧ i < 2 ^ h := by
  induction is generalizing D with
  | nil => cases hi
  | cons j is ih =>
    rcases List.mem_cons.1 hi with rfl | hi
    · exact ⟨hb.1.1, hb.1.2.1⟩
    · exact ih hb.2 hi

/-- A bottom-up order, by what comes before each visit. -/
theorem bottomUp_iff {D : Set ℕ} {is : List ℕ} :
    BottomUp h D is ↔
      ∀ pre i post, is = pre ++ i :: post → Ready h (D ∪ {j | j ∈ pre}) i := by
  induction is generalizing D with
  | nil => simp [BottomUp]
  | cons a is ih =>
    constructor
    · rintro ⟨ha, his⟩ pre i post heq
      cases pre with
      | nil =>
        obtain ⟨rfl, rfl⟩ := List.cons.inj heq
        exact ha.mono Set.subset_union_left
      | cons b pre =>
        obtain ⟨rfl, htail⟩ := List.cons.inj heq
        refine (ih.1 his pre i post htail).mono ?_
        rintro j ((rfl | hj) | hj)
        · exact .inr List.mem_cons_self
        · exact .inl hj
        · exact .inr (List.mem_cons_of_mem _ hj)
    · intro hall
      refine ⟨(hall [] a is rfl).mono (by rintro j (hj | hj); exacts [hj, by cases hj]), ?_⟩
      refine ih.2 fun pre i post heq => (hall (a :: pre) i post (by rw [heq]; rfl)).mono ?_
      rintro j (hj | hj)
      · exact .inl (.inr hj)
      · rcases List.mem_cons.1 hj with rfl | hj
        · exact .inl (.inl rfl)
        · exact .inr hj

theorem BottomUp.append {D : Set ℕ} {is js : List ℕ} (hi : BottomUp h D is)
    (hj : BottomUp h (D ∪ {j | j ∈ is}) js) : BottomUp h D (is ++ js) := by
  induction is generalizing D with
  | nil => exact hj.mono (by rintro j (hj | hj); exacts [hj, by cases hj])
  | cons i is ih =>
    refine ⟨hi.1, ih hi.2 (hj.mono ?_)⟩
    rintro j (hj | hj)
    · exact .inl (.inr hj)
    · rcases List.mem_cons.1 hj with rfl | hj
      · exact .inl (.inl rfl)
      · exact .inr hj

theorem reverse_range'_succ (n : ℕ) :
    (List.range' 1 (n + 1)).reverse = (n + 1) :: (List.range' 1 n).reverse := by
  rw [List.range'_1_concat, List.reverse_concat, Nat.add_comm]

/-- Visiting the nodes `n, n - 1, …, 1` is bottom-up once all later nodes are done. -/
theorem bottomUp_descending (hh : 1 ≤ h) {D : Set ℕ} {n : ℕ} (hn : n < 2 ^ h)
    (hD : ∀ i, n < i → i < 2 ^ h → i ∈ D) : BottomUp h D (List.range' 1 n).reverse := by
  have hp := two_pow_pred hh
  induction n generalizing D with
  | zero => trivial
  | succ n ih =>
    rw [reverse_range'_succ]
    refine ⟨⟨by omega, hn, fun hi => ⟨hD _ (by omega) (by omega), hD _ (by omega) (by omega)⟩⟩,
      ih (by omega) fun i hi hi' => ?_⟩
    rcases Nat.lt_or_ge (n + 1) i with h' | h'
    · exact .inr (hD i h' hi')
    · exact .inl (by omega)

/-- **Visitors that each work bottom-up do so together**, whatever the schedule. -/
theorem bottomUp_of_interleaving {D : Set ℕ} {ws : List (List ℕ)} {l : List ℕ}
    (hl : Interleaving ws l) (hws : ∀ w ∈ ws, BottomUp h D w) : BottomUp h D l := by
  refine bottomUp_iff.2 fun pre i post heq => ?_
  obtain ⟨w, hw, u, v, hwuv, hu⟩ := hl.before heq
  refine (bottomUp_iff.1 (hws w hw) u i v hwuv).mono ?_
  rintro j (hj | hj)
  · exact .inl hj
  · exact .inr (hu j hj)

end BinTree
