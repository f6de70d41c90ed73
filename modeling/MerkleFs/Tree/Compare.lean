import MerkleFs.BinTree.Search
import MerkleFs.Tree.Hash

/-!
# Comparing two trees

`compare_trees` prints the number of a node whose hashes differ and goes on to its children, so
that it visits nothing below a node whose hashes agree.  It is a search for differing nodes from
the root (`compareTrees_eq`), which gives what it reports: the nodes that differ together with
everything above them, and so all leaves that differ when a difference always shows at the parent
(`compareTrees_reports`).
-/

namespace MerkleFs

theorem shl1_le {x : ℤ} {n : ℕ} (hx : shl1 x = .ok n) : n ≤ 2 ^ 30 := by
  unfold shl1 at hx
  split_ifs at hx with hrange
  obtain rfl := Except.ok.inj hx
  exact Nat.pow_le_pow_right Nat.two_pos (by omega)

/-- `compare_trees` : the node numbers it prints, in the order in which it prints them.

Called for node `0` it would call itself for node `0` again.  The node numbers stay below
`2 ^ 31`, since only nodes before `1 << (mt_a->tree_height - 1)` have their children visited. -/
def compareTrees (mtA mtB : MerkleTree) (index : ℕ) (hpos : 1 ≤ index) : Run (List ℕ) :=
  match (mtA.nodes index).hash, (mtB.nodes index).hash with
  | some a, some b =>
    if a = b then .ok []
    else
      match hshl : shl1 (mtA.treeHeight - 1) with
      | .error e => .error e
      | .ok leafStartIndex =>
        if index < leafStartIndex then do
          let left ← compareTrees mtA mtB (2 * index) (by omega)
          let right ← compareTrees mtA mtB (2 * index + 1) (by omega)
          return index :: (left ++ right)
        else .ok [index]
  | _, _ => .error .nullDeref
termination_by 2 ^ 30 - index
decreasing_by
  all_goals
    have := shl1_le hshl
    omega

/-- What a comparison of the hashes `σ` and `τ` reports. -/
structure Reports (h : ℕ) (σ τ : ℕ → CStr) (out : List ℕ) : Prop where
  /-- A node is reported when its hashes differ, and those of all nodes above it. -/
  mem : ∀ i, i ∈ out ↔ i ∈ BinTree.Nodes h ∧ ∀ k, 1 ≤ k → BinTree.Below k i → σ k ≠ τ k
  /-- It is reported once. -/
  nodup : out.Nodup
  /-- It is reported before the nodes below it. -/
  order : out.Pairwise fun x y => ¬ BinTree.Below y x
  /-- All leaves that differ are reported, when nodes with equal hashes have children with equal
  hashes. -/
  leaf : (∀ i, 1 ≤ i → i < 2 ^ (h - 1) → σ i = τ i →
      σ (2 * i) = τ (2 * i) ∧ σ (2 * i + 1) = τ (2 * i + 1)) →
    ∀ j, 2 ^ (h - 1) ≤ j → j < 2 ^ h → (j ∈ out ↔ σ j ≠ τ j)

variable {mtA mtB : MerkleTree} {h i : ℕ} {a b : CStr} {σ τ : ℕ → CStr}

theorem compareTrees_same (hi : 1 ≤ i) (ha : (mtA.nodes i).hash = some a)
    (hb : (mtB.nodes i).hash = some a) : compareTrees mtA mtB i hi = .ok [] := by
  rw [compareTrees, ha, hb]
  exact if_pos rfl

theorem compareTrees_leaf (hi : 1 ≤ i) (ha : (mtA.nodes i).hash = some a)
    (hb : (mtB.nodes i).hash = some b) (hab : a ≠ b)
    (hshl : shl1 ((mtA.treeHeight : ℤ) - 1) = .ok (2 ^ (h - 1))) (hleaf : 2 ^ (h - 1) ≤ i) :
    compareTrees mtA mtB i hi = .ok [i] := by
  rw [compareTrees, ha, hb]
  simp only [if_neg hab]
  split
  · rename_i e he
    rw [hshl] at he
    cases he
  · rename_i n hn
    rw [hshl] at hn
    obtain rfl := Except.ok.inj hn
    exact if_neg (by omega)

theorem compareTrees_inner (hi : 1 ≤ i) (ha : (mtA.nodes i).hash = some a)
    (hb : (mtB.nodes i).hash = some b) (hab : a ≠ b)
    (hshl : shl1 ((mtA.treeHeight : ℤ) - 1) = .ok (2 ^ (h - 1))) (hinner : i < 2 ^ (h - 1))
    {left right : List ℕ} (hl : compareTrees mtA mtB (2 * i) (by omega) = .ok left)
    (hr : compareTrees mtA mtB (2 * i + 1) (by omega) = .ok right) :
    compareTrees mtA mtB i hi = .ok (i :: (left ++ right)) := by
  rw [compareTrees, ha, hb]
  simp only [if_neg hab]
  split
  · rename_i e he
    rw [hshl] at he
    cases he
  · rename_i n hn
    rw [hshl] at hn
    obtain rfl := Except.ok.inj hn
    rw [if_pos hinner, hl, hr]
    rfl

/-- The search from a node with `d` levels below it. -/
theorem compareTrees_eq (hh : 1 ≤ h) (hh' : h ≤ 31) (hmt : mtA.treeHeight = h)
    (hσ : Settled σ (BinTree.Nodes h) mtA) (hτ : Settled τ (BinTree.Nodes h) mtB) (d : ℕ)
    (hi : 1 ≤ i) (hlow : 2 ^ (h - 1) ≤ i * 2 ^ d) (hhigh : (i + 1) * 2 ^ d ≤ 2 ^ h) :
    compareTrees mtA mtB i hi = .ok (BinTree.search (fun k => σ k ≠ τ k) d i) := by
  have hp := BinTree.two_pow_pred hh
  have hshl : shl1 ((mtA.treeHeight : ℤ) - 1) = .ok (2 ^ (h - 1)) := by
    rw [hmt, shl1_sub_one hh hh']
  induction d generalizing i with
  | zero =>
    have hnode : i ∈ BinTree.Nodes h := ⟨hi, by omega⟩
    rw [BinTree.search]
    split_ifs with hdiff
    · exact compareTrees_leaf hi (hσ i hnode) (hτ i hnode) hdiff hshl (by omega)
    · rw [not_not] at hdiff
      exact compareTrees_same hi (hσ i hnode) (hdiff ▸ hτ i hnode)
  | succ d ih =>
    have hpos := Nat.two_pow_pos d
    have htwice : i * 2 ^ (d + 1) = 2 * i * 2 ^ d := by ring
    have hinner : i < 2 ^ (h - 1) := by
      have hle : (i + 1) * 1 ≤ (i + 1) * 2 ^ d := Nat.mul_le_mul_left _ hpos
      have : (i + 1) * 2 ^ (d + 1) = 2 * ((i + 1) * 2 ^ d) := by ring
      omega
    have hnode : i ∈ BinTree.Nodes h := ⟨hi, by omega⟩
    rw [BinTree.search]
    split_ifs with hdiff
    · have hright : (2 * i + 1 + 1) * 2 ^ d = (i + 1) * 2 ^ (d + 1) := by ring
      have hmid : (2 * i + 1) * 2 ^ d = 2 * i * 2 ^ d + 2 ^ d := by ring
      have hmid' : (2 * i + 1 + 1) * 2 ^ d = (2 * i + 1) * 2 ^ d + 2 ^ d := by ring
      exact compareTrees_inner hi (hσ i hnode) (hτ i hnode) hdiff hshl hinner
        (ih (by omega) (by omega) (by omega)) (ih (by omega) (by omega) (by omega))
    · rw [not_not] at hdiff
      exact compareTrees_same hi (hσ i hnode) (hdiff ▸ hτ i hnode)

/-- **`compare_trees` finds the nodes that differ.**  Only the height of the first tree is read;
`1 << (mt_a->tree_height - 1)` is an `int` up to a height of 31. -/
theorem compareTrees_reports (hh : 1 ≤ h) (hh' : h ≤ 31) (hmt : mtA.treeHeight = h)
    (hσ : Settled σ (BinTree.Nodes h) mtA) (hτ : Settled τ (BinTree.Nodes h) mtB) :
    ∃ out, compareTrees mtA mtB 1 le_rfl = .ok out ∧ Reports h σ τ out := by
  have hp := BinTree.two_pow_pred hh
  refine ⟨_, compareTrees_eq hh hh' hmt hσ hτ (h - 1) le_rfl (by omega) (by omega), ?_⟩
  refine ⟨fun i => BinTree.mem_search_root hh, BinTree.nodup_search le_rfl,
    BinTree.pairwise_search le_rfl, fun hup j hj hj' => ?_⟩
  refine BinTree.mem_search_leaf hh (fun i hi hi' hchild => ?_) hj hj'
  intro heq
  obtain ⟨hleft, hright⟩ := hup i hi hi' heq
  rcases hchild with hne | hne
  · exact hne hleft
  · exact hne hright

/-- The hashes of a tree with four leaves whose second leaf has another hash than the rest, and
the nodes above it too. -/
def secondLeaf (i : ℕ) : CStr := printDigest (if i ∈ [1, 2, 5] then onesDigest else zeroDigest)

example : BinTree.search (fun k => printDigest zeroDigest ≠ secondLeaf k) 2 1 = [1, 2, 5] := by
  decide

theorem compareTrees_secondLeaf :
    ∃ out, compareTrees ⟨8, 3, fun _ => ⟨none, some (printDigest zeroDigest)⟩⟩
      ⟨8, 3, fun i => ⟨none, some (secondLeaf i)⟩⟩ 1 le_rfl = .ok out ∧
        Reports 3 (fun _ => printDigest zeroDigest) secondLeaf out :=
  compareTrees_reports (by decide) (by decide) rfl (fun _ _ => rfl) fun _ _ => rfl

end MerkleFs
