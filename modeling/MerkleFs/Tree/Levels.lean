import MerkleFs.BinTree.Levels
import MerkleFs.Tree.Change

/-!
# The level loop of `change_and_rebuild`

In file mode `change_and_rebuild` goes up from a run of leaves with the two variables `index` and
`k`.  `AtIteration` is the state at the start of an iteration, `changeAndRebuild_of_atIteration`
what is left to do then, and `exists_atIteration` says that a call that does not return `-1` gets
through all iterations.

`levelLoop` : the variables have the values of `BinTree.level`, so that the loop covers the nodes
above the run (`BinTree.coversRun`).
-/

namespace MerkleFs

variable (sha3 : List Byte → Digest) (heap : Heap)

/-- `change_and_rebuild` in file mode has stored the data and is at the start of an iteration of its
level loop: the number of the iteration, `index`, `k` and the tree. -/
inductive AtIteration (mt : MerkleTree) (indexes : List ℤ) (datas : ℕ → Ptr) :
    ℕ → ℕ → ℕ → MerkleTree → Prop where
  /-- The loop starts at the first leaf. -/
  | start {first : ℤ} {rest : List ℤ} {mt₁ : MerkleTree} (hindexes : indexes = first :: rest)
      (hdata : changeDatas (fun mt i s => .ok (mt.setData i (some s))) datas indexes 0 mt =
        .ok mt₁) :
      AtIteration mt indexes datas 0 first.toNat indexes.length mt₁
  /-- An iteration hashes `k` nodes from `index` on, and no call of `hash_node` returns `-1`. -/
  | next {i index k : ℕ} {mt₁ mt₂ : MerkleTree} {code : ℤ}
      (hat : AtIteration mt indexes datas i index k mt₁) (hi : i < mt.treeHeight)
      (hhash : hashAll (hashNode sha3 heap) (List.range' index k) mt₁ = .ok (code, mt₂))
      (hcode : code ≠ -1) :
      AtIteration mt indexes datas (i + 1) (index / 2) (k / 2 + 1) mt₂

variable {sha3 heap} {mt mt' : MerkleTree} {h f n i index k : ℕ} {datas : ℕ → Ptr}
  {indexes : List ℤ}

/-- Storing the data does not change the height. -/
theorem changeDatas_treeHeight {d : ℤ} {store : MerkleTree → ℕ → CStr → Run MerkleTree}
    (hstore : ∀ mt i s mt', store mt i s = .ok mt' → mt'.treeHeight = mt.treeHeight)
    (hdata : changeDatas store datas indexes d mt = .ok mt') : mt'.treeHeight = mt.treeHeight := by
  induction indexes generalizing d mt with
  | nil =>
    cases hdata
    rfl
  | cons index indexes ih =>
    rw [changeDatas] at hdata
    obtain ⟨i, -, hdata⟩ := Run.bind_eq_ok.1 hdata
    obtain ⟨p, -, hdata⟩ := Run.bind_eq_ok.1 hdata
    cases p with
    | none => cases hdata
    | some s =>
      obtain ⟨mt₁, hset, hdata⟩ := Run.bind_eq_ok.1 hdata
      exact (ih hdata).trans (hstore _ _ _ _ hset)

theorem orFail_of_ne {code : ℤ} (hcode : code ≠ -1) (rest : MerkleTree → Run (ℤ × MerkleTree)) :
    orFail (.ok (code, mt)) rest = rest mt := if_neg hcode

/-- What is left to do at the start of an iteration. -/
theorem changeAndRebuild_of_atIteration
    (hat : AtIteration sha3 heap mt indexes datas i index k mt') :
    changeAndRebuild sha3 heap mt indexes datas .fileMode =
      orFail (hashLevels sha3 heap (mt.treeHeight - i) index k mt') fun mt =>
        orFail (hashNode sha3 heap mt 1) fun mt => .ok (0, mt) := by
  induction hat with
  | @start first rest mt₁ hindexes hdata =>
    have hheight : mt₁.treeHeight = mt.treeHeight := changeDatas_treeHeight
      (fun mt i s mt' hset => by rw [← Except.ok.inj hset, MerkleTree.setData_treeHeight]) hdata
    subst hindexes
    rw [changeAndRebuild, hdata, Run.ok_bind, hheight]
    rfl
  | @next i index k mt₁ mt₂ code hat hi hhash hcode ih =>
    rw [ih, show mt.treeHeight - i = mt.treeHeight - (i + 1) + 1 by omega, hashLevels, hhash,
      orFail_of_ne hcode]

/-- A call that does not return `-1` gets through all iterations. -/
theorem exists_atIteration {q : ℤ × MerkleTree}
    (hq : changeAndRebuild sha3 heap mt indexes datas .fileMode = .ok q) (hcode : q.1 ≠ -1)
    (hi : i ≤ mt.treeHeight) :
    ∃ index k mt', AtIteration sha3 heap mt indexes datas i index k mt' := by
  induction i with
  | zero =>
    obtain ⟨mt₁, hdata, hq⟩ := Run.bind_eq_ok.1 hq
    cases indexes with
    | nil => cases hq
    | cons first rest => exact ⟨_, _, _, .start rfl hdata⟩
  | succ i ih =>
    obtain ⟨index, k, mt₁, hat⟩ := ih (by omega)
    rw [changeAndRebuild_of_atIteration hat,
      show mt.treeHeight - i = mt.treeHeight - (i + 1) + 1 by omega, hashLevels] at hq
    obtain ⟨c, mt₂, hc, hlevels, -⟩ := orFail_eq_ok hq hcode
    obtain ⟨c', mt₃, hc', hhash, -⟩ := orFail_eq_ok hlevels hc
    exact ⟨_, _, _, .next hat hi hhash hc'⟩

theorem AtIteration.variables (hn : 1 ≤ n)
    (hat : AtIteration sha3 heap mt ((List.range' f n).map Nat.cast) datas i index k mt') :
    index = f / 2 ^ i ∧ k = BinTree.levelCount n i := by
  induction hat with
  | @start first rest mt₁ hindexes hdata =>
    obtain ⟨m, rfl⟩ := Nat.exists_eq_add_of_le' hn
    rw [List.range'_succ, List.map_cons] at hindexes
    obtain ⟨rfl, -⟩ := List.cons.inj hindexes
    rw [Int.toNat_natCast, pow_zero, Nat.div_one, List.length_map, List.length_range']
    exact ⟨rfl, rfl⟩
  | next hat hi hhash hcode ih =>
    rw [ih.1, ih.2, BinTree.div_two_pow_succ]
    exact ⟨rfl, rfl⟩

/-- What the level loop does for the leaves `f … f + n - 1`. -/
structure LevelLoop (sha3 : List Byte → Digest) (heap : Heap) (h f n : ℕ) (mt : MerkleTree)
    (datas : ℕ → Ptr) : Prop where
  /-- A call that does not return `-1` gets to every iteration. -/
  reaches : ∀ q, changeAndRebuild sha3 heap mt ((List.range' f n).map Nat.cast) datas .fileMode =
    .ok q → q.1 ≠ -1 → ∀ i < h, ∃ index k mt',
      AtIteration sha3 heap mt ((List.range' f n).map Nat.cast) datas i index k mt'
  /-- There it hashes the nodes of the level, and goes on with the next one. -/
  hashes : ∀ i < h, ∀ index k mt',
    AtIteration sha3 heap mt ((List.range' f n).map Nat.cast) datas i index k mt' →
      changeAndRebuild sha3 heap mt ((List.range' f n).map Nat.cast) datas .fileMode =
        orFail (orFail (hashAll (hashNode sha3 heap) (BinTree.level f n i) mt')
            (hashLevels sha3 heap (h - (i + 1)) (f / 2 ^ (i + 1)) (BinTree.levelCount n (i + 1))))
          fun mt => orFail (hashNode sha3 heap mt 1) fun mt => .ok (0, mt)
  /-- The levels cover what is above the leaves. -/
  covers : BinTree.CoversRun h f n

/-- **The level loop covers the nodes above a run of leaves.** -/
theorem levelLoop (sha3 : List Byte → Digest) (heap : Heap) (datas : ℕ → Ptr)
    (hmt : mt.treeHeight = h) (hn : 1 ≤ n) (hf : 2 ^ (h - 1) ≤ f) (hfn : f + n ≤ 2 ^ h) :
    LevelLoop sha3 heap h f n mt datas where
  reaches q hq hcode i hi := exists_atIteration hq hcode (by omega)
  hashes i hi index k mt' hat := by
    obtain ⟨rfl, rfl⟩ := hat.variables hn
    rw [changeAndRebuild_of_atIteration hat, hmt, show h - i = h - (i + 1) + 1 by omega, hashLevels,
      BinTree.div_two_pow_succ]
    rfl
  covers := BinTree.coversRun hf hn hfn

/-- The two leaves in the middle of a tree with four leaves. -/
theorem levelLoop_middle :
    LevelLoop (fun _ => zeroDigest) .nul 3 5 2
      ⟨8, 3, fun _ => ⟨none, some (printDigest zeroDigest)⟩⟩ fun _ => .heap filler :=
  levelLoop _ _ _ rfl (by decide) (by decide) (by decide)

/-- The last level has a node too many. -/
example : (List.range 3).map (BinTree.level 5 2) = [[5, 6], [2, 3], [1, 2]] := by decide

end MerkleFs
