import MerkleFs.BinTree.Update
import MerkleFs.Tree.Build

/-!
# Changing leaves

`change_and_rebuild` stores new data in some leaves and rehashes the nodes above them: a run of
leaves level by level in file mode, one leaf and its path in buffer mode.

* `changeAndRebuild_fileMode` : a run of leaves is changed and the tree is the one with the new
  leaves, unless the run overruns the tree and the first leaf has no data.
* `changeAndRebuild_fileMode_fail` : then file mode returns `-1`.
* `changeAndRebuild_bufferMode` : one leaf is changed and the tree is the one with the new leaf.
-/

namespace MerkleFs

/-- The modes of `change_and_rebuild`. -/
inductive Mode where
  /-- `FILE_MODE`. -/
  | fileMode
  /-- `BUFFER_MODE`. -/
  | bufferMode
  deriving DecidableEq, Repr

/-- The index of `mt->nodes[index]`, which must not be negative. -/
def nodeIndex (index : ℤ) : Run ℕ := if index < 0 then .error .bounds else .ok index.toNat

/-- The data loop of `change_and_rebuild`; the modes differ in how a leaf gets its data. -/
def changeDatas (store : MerkleTree → ℕ → CStr → Run MerkleTree) (datas : ℕ → Ptr) :
    List ℤ → ℤ → MerkleTree → Run MerkleTree
  | [], _, mt => .ok mt
  | index :: indexes, dataSize, mt => do
    let i ← nodeIndex index
    match ← slot datas dataSize with
    | none => .error .nullDeref
    | some s => do
      let mt ← store mt i s
      changeDatas store datas indexes (intOf (dataSize + s.strlen)) mt

variable (sha3 : List Byte → Digest) (heap : Heap)

/-- The level loop of file mode: `l` levels, the first with `k` nodes from `index` on. -/
def hashLevels : ℕ → ℕ → ℕ → MerkleTree → Run (ℤ × MerkleTree)
  | 0, _, _, mt => .ok (0, mt)
  | l + 1, index, k, mt =>
    orFail (hashAll (hashNode sha3 heap) (List.range' index k) mt)
      (hashLevels l (index / 2) (k / 2 + 1))

/-- The loop of buffer mode from a node up to the root. -/
def rehashPath (index : ℕ) (mt : MerkleTree) : Run (ℤ × MerkleTree) :=
  if index = 0 then .ok (0, mt)
  else orFail (rehashNode sha3 heap mt index) (rehashPath (index / 2))

/-- `change_and_rebuild`. -/
def changeAndRebuild (mt : MerkleTree) (indexes : List ℤ) (datas : ℕ → Ptr) :
    Mode → Run (ℤ × MerkleTree)
  | .fileMode => do
    let mt ← changeDatas (fun mt i s => .ok (mt.setData i (some s))) datas indexes 0 mt
    match indexes with
    | [] => .error .bounds
    | index :: _ =>
      orFail (hashLevels sha3 heap mt.treeHeight index.toNat indexes.length mt) fun mt =>
        orFail (hashNode sha3 heap mt 1) fun mt => .ok (0, mt)
  | .bufferMode => do
    let mt ← changeDatas copyData datas indexes 0 mt
    match indexes.getLast? with
    | none => .error .unset
    | some index => rehashPath sha3 heap index.toNat mt

/-! ### New data -/

/-- Leaves `i, i + 1, …` hold the strings `ss`. -/
def MerkleTree.setDatas (mt : MerkleTree) : ℕ → List CStr → MerkleTree
  | _, [] => mt
  | i, s :: ss => (mt.setData i (some s)).setDatas (i + 1) ss

variable {sha3 heap} {mt mt' : MerkleTree} {h f i n k : ℕ} {leaf leaf' τ τ' : ℕ → CStr}
  {datas : ℕ → Ptr} {ss : List CStr}

namespace MerkleTree

@[simp] theorem setDatas_nbNodes : (mt.setDatas i ss).nbNodes = mt.nbNodes := by
  induction ss generalizing mt i with
  | nil => rfl
  | cons s ss ih => exact ih

@[simp] theorem setDatas_treeHeight : (mt.setDatas i ss).treeHeight = mt.treeHeight := by
  induction ss generalizing mt i with
  | nil => rfl
  | cons s ss ih => exact ih

@[simp] theorem setDatas_hash {j : ℕ} :
    ((mt.setDatas i ss).nodes j).hash = (mt.nodes j).hash := by
  induction ss generalizing mt i with
  | nil => rfl
  | cons s ss ih => exact ih.trans setData_hash

theorem setDatas_data {j : ℕ} : ((mt.setDatas i ss).nodes j).data =
    if i ≤ j ∧ j < i + ss.length then some (leafAt i ss j) else (mt.nodes j).data := by
  induction ss generalizing mt i with
  | nil => rw [if_neg (by simp)]; rfl
  | cons s ss ih =>
    rw [setDatas, ih, setData_data, List.length_cons]
    rcases Nat.lt_trichotomy j i with hj | rfl | hj
    · rw [if_neg (by omega), if_neg (by omega), if_neg (by omega)]
    · rw [if_neg (by omega), if_pos rfl, if_pos (by omega), leafAt_self]
    · by_cases hj' : j < i + (ss.length + 1)
      · rw [if_pos (by omega), if_pos (by omega), leafAt_cons hj]
      · rw [if_neg (by omega), if_neg (by omega), if_neg (by omega)]

end MerkleTree

theorem Shape.setDatas (hs : Shape h mt) (i : ℕ) (ss : List CStr) : Shape h (mt.setDatas i ss) :=
  ⟨hs.pos, hs.le, by simpa using hs.nbNodes, by simpa using hs.treeHeight⟩

theorem Settled.setDatas {D : Set ℕ} (hD : Settled τ D mt) : Settled τ D (mt.setDatas i ss) :=
  fun j hj => by rw [MerkleTree.setDatas_hash]; exact hD j hj

theorem nodeIndex_natCast (i : ℕ) : nodeIndex i = .ok i := by
  rw [nodeIndex, if_neg (by omega), Int.toNat_natCast]

theorem changeDatas_eq {d : ℤ} (mt : MerkleTree) (i : ℕ) (hr : Reads datas d ss) :
    changeDatas (fun mt i s => .ok (mt.setData i (some s))) datas
      ((List.range' i ss.length).map Nat.cast) d mt = .ok (mt.setDatas i ss) := by
  induction ss generalizing i d mt with
  | nil => rfl
  | cons s ss ih =>
    rw [List.length_cons, List.range'_succ, List.map_cons, changeDatas, nodeIndex_natCast,
      Run.ok_bind, hr.1, Run.ok_bind]
    exact ih _ _ hr.2

theorem changeDatas_eq_ok {d : ℤ} {store : MerkleTree → ℕ → CStr → Run MerkleTree} {is : List ℤ}
    (hd : changeDatas store datas is d mt = .ok mt') :
    ∃ ss, Reads datas d ss ∧ ss.length = is.length := by
  induction is generalizing d mt with
  | nil => exact ⟨[], trivial, rfl⟩
  | cons i is ih =>
    rw [changeDatas] at hd
    obtain ⟨_, -, hd⟩ := Run.bind_eq_ok.1 hd
    obtain ⟨p, hslot, hd⟩ := Run.bind_eq_ok.1 hd
    cases p with
    | none => cases hd
    | some s =>
      obtain ⟨mt₁, -, hd⟩ := Run.bind_eq_ok.1 hd
      obtain ⟨ss, hr, hlen⟩ := ih hd
      exact ⟨s :: ss, ⟨hslot, hr⟩, congrArg (· + 1) hlen⟩

/-! ### Rehashing -/

theorem hashAll_append {hash : MerkleTree → ℕ → Run (ℤ × MerkleTree)} (is js : List ℕ)
    (mt : MerkleTree) :
    hashAll hash (is ++ js) mt = orFail (hashAll hash is mt) (hashAll hash js) := by
  induction is generalizing mt with
  | nil => rfl
  | cons i is ih =>
    rw [List.cons_append, hashAll, hashAll]
    cases hash mt i with
    | error e => rfl
    | ok p =>
      obtain ⟨code, mt'⟩ := p
      by_cases hc : code = -1
      · subst hc; rfl
      · simp only [orFail, Run.ok_bind, if_neg hc]
        exact ih mt'

theorem hashLevels_eq (l index k : ℕ) (mt : MerkleTree) :
    hashLevels sha3 heap l index k mt =
      hashAll (hashNode sha3 heap) (BinTree.levels l index k) mt := by
  induction l generalizing index k mt with
  | zero => rfl
  | succ l ih =>
    rw [hashLevels, BinTree.levels, hashAll_append]
    congr 1
    funext mt
    exact ih _ _ _

theorem rehashPath_eq (index : ℕ) (mt : MerkleTree) :
    rehashPath sha3 heap index mt = hashAll (rehashNode sha3 heap) (BinTree.path index) mt := by
  induction index using Nat.strong_induction_on generalizing mt with
  | _ index ih =>
    rw [rehashPath]
    rcases Nat.eq_zero_or_pos index with rfl | hpos
    · rw [if_pos rfl, BinTree.path, if_pos rfl]; rfl
    · rw [if_neg (by omega), BinTree.path_of_pos hpos, hashAll]
      congr 1
      funext mt
      exact ih _ (by omega) mt

/-- The run of leaves from `f` on of a tree is to receive the strings `ss`: `leaf` and `τ` are
the leaves and hashes before, `leaf'` and `τ'` after. -/
structure Update (sha3 : List Byte → Digest) (heap : Heap) (h : ℕ) (mt : MerkleTree) (f : ℕ)
    (ss : List CStr) (leaf leaf' τ τ' : ℕ → CStr) : Prop where
  /-- The tree has `h` levels. -/
  shape : Shape h mt
  /-- The hashes before. -/
  target : Target sha3 heap h leaf τ
  /-- The hashes after. -/
  target' : Target sha3 heap h leaf' τ'
  /-- The tree has the hashes before. -/
  settled : Settled τ (BinTree.Nodes h) mt
  /-- The run is not empty. -/
  ne_nil : ss ≠ []
  /-- It starts at a leaf. -/
  low : 2 ^ (h - 1) ≤ f
  /-- It ends at a leaf. -/
  high : f + ss.length ≤ 2 ^ h
  /-- The other leaves do not change. -/
  same : ∀ j, 2 ^ (h - 1) ≤ j → j < 2 ^ h → (j < f ∨ f + ss.length ≤ j) → leaf j = leaf' j
  /-- The new strings. -/
  new : ∀ j, f ≤ j → j < f + ss.length → leaf' j = leafAt f ss j

/-- The tree has the hashes `τ`, and those of its inner nodes are the ones `hash_node` computes
from their children.  Nothing is said about its leaves. -/
structure Consistent (sha3 : List Byte → Digest) (heap : Heap) (h : ℕ) (τ : ℕ → CStr)
    (mt : MerkleTree) : Prop where
  /-- The tree has `h` levels. -/
  shape : Shape h mt
  /-- It has the hashes `τ`. -/
  settled : Settled τ (BinTree.Nodes h) mt
  /-- The strings that are hashed end in their buffers. -/
  terminated : heap.Terminated h
  /-- The hash of an inner node is computed from those of its children. -/
  parent : ∀ i, 1 ≤ i → i < 2 ^ (h - 1) → τ i = parentHash sha3 heap i (τ (2 * i)) (τ (2 * i + 1))

/-- The run of leaves from `f` on of a consistent tree is to receive the strings `ss`, after which
it has the hashes `τ'`. -/
structure Change (sha3 : List Byte → Digest) (heap : Heap) (h : ℕ) (mt : MerkleTree) (f : ℕ)
    (ss : List CStr) (leaf' τ τ' : ℕ → CStr) : Prop where
  /-- The tree before. -/
  old : Consistent sha3 heap h τ mt
  /-- The hashes after. -/
  parent : ∀ i, 1 ≤ i → i < 2 ^ (h - 1) →
    τ' i = parentHash sha3 heap i (τ' (2 * i)) (τ' (2 * i + 1))
  /-- The run is not empty. -/
  ne_nil : ss ≠ []
  /-- It starts at a leaf. -/
  low : 2 ^ (h - 1) ≤ f
  /-- It ends at a leaf. -/
  high : f + ss.length ≤ 2 ^ h
  /-- The other leaves keep their hashes. -/
  same : ∀ j, 2 ^ (h - 1) ≤ j → j < 2 ^ h → (j < f ∨ f + ss.length ≤ j) → τ j = τ' j
  /-- The new strings. -/
  new : ∀ j, f ≤ j → j < f + ss.length → leaf' j = leafAt f ss j
  /-- The hashes of the new strings. -/
  hash : ∀ j, f ≤ j → j < f + ss.length → τ' j = leafHash sha3 (leaf' j)

theorem Update.change (hu : Update sha3 heap h mt f ss leaf leaf' τ τ')
    (hheap : heap.Terminated h) : Change sha3 heap h mt f ss leaf' τ τ' where
  old := ⟨hu.shape, hu.settled, hheap, hu.target.inner⟩
  parent := hu.target'.inner
  ne_nil := hu.ne_nil
  low := hu.low
  high := hu.high
  same j hj hj' hout := by
    rw [hu.target.leaf j hj hj', hu.target'.leaf j hj hj', hu.same j hj hj' hout]
  new := hu.new
  hash j hj hj' := by
    have hlow := hu.low
    have hhigh := hu.high
    exact hu.target'.leaf j (by omega) (by omega)

namespace Change

theorem length_pos (hc : Change sha3 heap h mt f ss leaf' τ τ') : 1 ≤ ss.length :=
  List.length_pos_iff.2 hc.ne_nil

theorem eq_of_untouched (hc : Change sha3 heap h mt f ss leaf' τ τ') {j : ℕ}
    (hj : j ∈ BinTree.Untouched h f (f + ss.length - 1)) : τ j = τ' j := by
  obtain ⟨hj, hj', hu⟩ := hj
  -- the hashes of a tree are those its leaves determine
  refine BinTree.Solves.congr hc.old.shape.pos ⟨fun _ _ _ => rfl, hc.old.parent⟩
    ⟨fun _ _ _ => rfl, hc.parent⟩ j hj hj' fun x hx hx' hb => hc.same x hx hx' ?_
  by_contra hno
  exact hu x (by omega) (by omega) hb

theorem untouched (hc : Change sha3 heap h mt f ss leaf' τ τ') :
    Settled τ' (BinTree.Untouched h f (f + ss.length - 1)) (mt.setDatas f ss) :=
  fun j hj => by
    rw [MerkleTree.setDatas_hash, hc.old.settled j ⟨hj.1, hj.2.1⟩, hc.eq_of_untouched hj]

theorem data (hc : Change sha3 heap h mt f ss leaf' τ τ') {j : ℕ} (hj : f ≤ j)
    (hj' : j < f + ss.length) : ((mt.setDatas f ss).nodes j).data = some (leaf' j) := by
  rw [MerkleTree.setDatas_data, if_pos ⟨hj, hj'⟩, hc.new j hj hj']

/-- The first leaf of the tree, when the run starts there. -/
theorem first (hc : Change sha3 heap h mt f ss leaf' τ τ') (hf : f = 2 ^ (h - 1)) :
    ((mt.setDatas f ss).nodes (2 ^ (h - 1))).data = some (leaf' (2 ^ (h - 1))) ∧
      τ' (2 ^ (h - 1)) = leafHash sha3 (leaf' (2 ^ (h - 1))) := by
  have hlen := hc.length_pos
  subst hf
  exact ⟨hc.data le_rfl (by omega), hc.hash _ le_rfl (by omega)⟩

theorem stepsTo (hc : Change sha3 heap h mt f ss leaf' τ τ') {i : ℕ}
    (hleaf : 2 ^ (h - 1) ≤ i → i < 2 ^ h → τ' i = leafHash sha3 (leaf' i)) :
    StepsTo h leaf' τ' (hashNode sha3 heap) i :=
  hashNode_stepsTo_of hleaf fun hi hi' => ⟨hc.old.terminated i hi hi', hc.parent i hi hi'⟩

end Change

theorem changeAndRebuild_eq_hashAll (hr : Reads datas 0 ss) (hs : Shape h mt)
    (hne : 1 ≤ ss.length) :
    changeAndRebuild sha3 heap mt ((List.range' f ss.length).map Nat.cast) datas .fileMode =
      hashAll (hashNode sha3 heap) (BinTree.levels h f ss.length ++ [1]) (mt.setDatas f ss) := by
  obtain ⟨n, hn⟩ : ∃ n, ss.length = n + 1 := ⟨ss.length - 1, by omega⟩
  have hdatas := changeDatas_eq mt f hr
  have hcons : (List.range' f ss.length).map Nat.cast =
      (f : ℤ) :: (List.range' (f + 1) n).map Nat.cast := by
    rw [hn, List.range'_succ, List.map_cons]
  have hlen : ((f : ℤ) :: (List.range' (f + 1) n).map Nat.cast).length = ss.length := by
    rw [List.length_cons, List.length_map, List.length_range', hn]
  rw [hcons] at hdatas ⊢
  rw [changeAndRebuild, hdatas, Run.ok_bind, hlen, MerkleTree.setDatas_treeHeight,
    hs.treeHeight, hashAll_append, ← hashLevels_eq]
  rfl

/-- The level loop and the hash of the root, on a tree with the new data. -/
theorem hashAll_levels (hc : Change sha3 heap h mt f ss leaf' τ τ')
    (hfirst : BinTree.Overruns h f ss.length →
      ((mt.setDatas f ss).nodes (2 ^ (h - 1))).data = some (leaf' (2 ^ (h - 1))) ∧
        τ' (2 ^ (h - 1)) = leafHash sha3 (leaf' (2 ^ (h - 1)))) :
    hashAll (hashNode sha3 heap) (BinTree.levels h f ss.length ++ [1]) (mt.setDatas f ss) =
      .ok (0, (mt.setDatas f ss).setHashes τ' (BinTree.levels h f ss.length ++ [1])) := by
  have hp := BinTree.two_pow_pred hc.old.shape.pos
  have hpos := Nat.two_pow_pos (h - 1)
  have hb := BinTree.bottomUp_levels hc.length_pos hc.low hc.high
  have hroot : BinTree.Ready h
      (BinTree.Untouched h f (f + ss.length - 1) ∪ {j | j ∈ BinTree.levels h f ss.length}) 1 := by
    have hall : ∀ j, 1 ≤ j → j < 2 ^ h → j ∈
        BinTree.Untouched h f (f + ss.length - 1) ∪ {j | j ∈ BinTree.levels h f ss.length} :=
      fun j hj hj' => by
        by_cases hunt : j ∈ BinTree.Untouched h f (f + ss.length - 1)
        · exact .inl hunt
        · exact .inr (BinTree.mem_levels hc.length_pos hc.low hc.high ⟨hj, hj'⟩ hunt)
    exact ⟨le_rfl, by omega, fun hin =>
      ⟨hall _ (by omega) (by omega), hall _ (by omega) (by omega)⟩⟩
  have hleaf : ∀ i ∈ BinTree.levels h f ss.length ++ [1], 2 ^ (h - 1) ≤ i →
      ((mt.setDatas f ss).nodes i).data = some (leaf' i) ∧ τ' i = leafHash sha3 (leaf' i) :=
    fun i hi hleaf => by
      rcases List.mem_append.1 hi with hi | hi
      · rcases BinTree.mem_levels_leaf hc.old.shape.pos hc.high hi hleaf with
          ⟨hlow, hhigh⟩ | ⟨rfl, ho⟩
        · exact ⟨hc.data hlow hhigh, hc.hash i hlow hhigh⟩
        · exact hfirst ho
      · -- the root is a leaf only when it is the whole tree
        obtain rfl := List.mem_singleton.1 hi
        have hlow := hc.low
        have hhigh := hc.high
        have hlen := hc.length_pos
        exact ⟨hc.data (by omega) (by omega), hc.hash 1 (by omega) (by omega)⟩
  exact hashAll_of_bottomUp (fun i hi => hc.stepsTo fun hl _ => (hleaf i hi hl).2)
    (hc.old.shape.setDatas _ _) hc.untouched (hb.append ⟨hroot, trivial⟩)
    fun i hi hl => (hleaf i hi hl).1

/-- **File mode changes a run of leaves**, unless the run overruns the tree. -/
theorem changeAndRebuild_fileMode (hr : Reads datas 0 ss)
    (hc : Change sha3 heap h mt f ss leaf' τ τ')
    (hfirst : BinTree.Overruns h f ss.length →
      ((mt.setDatas f ss).nodes (2 ^ (h - 1))).data = some (leaf' (2 ^ (h - 1))) ∧
        τ' (2 ^ (h - 1)) = leafHash sha3 (leaf' (2 ^ (h - 1)))) :
    changeAndRebuild sha3 heap mt ((List.range' f ss.length).map Nat.cast) datas .fileMode =
      .ok (0, (mt.setDatas f ss).setHashes τ' (BinTree.levels h f ss.length ++ [1])) := by
  rw [changeAndRebuild_eq_hashAll hr hc.old.shape hc.length_pos, hashAll_levels hc hfirst]

/-- A run that overruns the tree makes file mode fail when the first leaf has no data. -/
theorem changeAndRebuild_fileMode_fail (hr : Reads datas 0 ss)
    (hc : Change sha3 heap h mt f ss leaf' τ τ')
    (ho : BinTree.Overruns h f ss.length)
    (hfirst : ((mt.setDatas f ss).nodes (2 ^ (h - 1))).data = none) :
    ∃ mt', changeAndRebuild sha3 heap mt ((List.range' f ss.length).map Nat.cast) datas
      .fileMode = .ok (-1, mt') := by
  have hp := BinTree.two_pow_pred hc.old.shape.pos
  have hpos := Nat.two_pow_pos (h - 1)
  obtain ⟨post, hlevels⟩ := BinTree.levels_of_overruns hc.low hc.length_pos ho
  have hb := BinTree.bottomUp_levels hc.length_pos hc.low hc.high
  rw [hlevels] at hb
  set pre := List.range' f ss.length ++ List.range' (f / 2) (ss.length / 2) with hpre
  have hrun : hashAll (hashNode sha3 heap) pre (mt.setDatas f ss) =
      .ok (0, (mt.setDatas f ss).setHashes τ' pre) := by
    have hleaf : ∀ i ∈ pre, 2 ^ (h - 1) ≤ i → f ≤ i ∧ i < f + ss.length := fun i hi hleaf => by
      rw [hpre, List.mem_append, List.mem_range'_1, List.mem_range'_1] at hi
      have hhigh := hc.high
      omega
    exact hashAll_of_bottomUp
      (fun i hi => hc.stepsTo fun hl _ => hc.hash i (hleaf i hi hl).1 (hleaf i hi hl).2)
      (hc.old.shape.setDatas _ _) hc.untouched hb.of_append
      fun i hi hl => hc.data (hleaf i hi hl).1 (hleaf i hi hl).2
  have hfail := hashNode_leaf_none sha3 heap (i := 2 ^ (h - 1))
    ((hc.old.shape.setDatas f ss).setHashes τ' pre) le_rfl (by omega)
    (by rw [MerkleTree.setHashes_data, hfirst])
  refine ⟨(mt.setDatas f ss).setHashes τ' pre, ?_⟩
  rw [changeAndRebuild_eq_hashAll hr hc.old.shape hc.length_pos, hlevels, List.append_assoc,
    hashAll_append, hrun, orFail_ok, List.cons_append, hashAll, hfail, orFail_fail]

theorem hashNode_shape {code : ℤ} (hx : hashNode sha3 heap mt i = .ok (code, mt')) :
    mt'.nbNodes = mt.nbNodes ∧ mt'.treeHeight = mt.treeHeight := by
  unfold hashNode at hx
  split_ifs at hx with hout
  · cases hx; exact ⟨rfl, rfl⟩
  obtain ⟨leafStartIndex, -, hx⟩ := Run.bind_eq_ok.1 hx
  split_ifs at hx with hin
  · split at hx
    · obtain ⟨buffer, -, hx⟩ := Run.bind_eq_ok.1 hx
      cases hx; exact ⟨rfl, rfl⟩
    · cases hx; exact ⟨rfl, rfl⟩
  · split at hx <;> cases hx <;> exact ⟨rfl, rfl⟩

theorem hashAll_treeHeight {hash : MerkleTree → ℕ → Run (ℤ × MerkleTree)} {is : List ℕ} {code : ℤ}
    (hhash : ∀ mt i code mt', hash mt i = .ok (code, mt') → mt'.treeHeight = mt.treeHeight)
    (hx : hashAll hash is mt = .ok (code, mt')) : mt'.treeHeight = mt.treeHeight := by
  induction is generalizing mt with
  | nil => cases hx; rfl
  | cons i is ih =>
    obtain ⟨⟨c, mt₁⟩, hi, hrest⟩ := Run.bind_eq_ok.1 hx
    have hfirst := hhash _ _ _ _ hi
    by_cases hc : c = -1
    · simp only [hc, if_true] at hrest
      cases hrest
      exact hfirst
    · simp only [if_neg hc] at hrest
      exact (ih hrest).trans hfirst

theorem hashAll_behind (sha3 : List Byte → Digest) (heap : Heap) (hs : Shape h mt)
    (hi : 2 ^ (h - 1) ≤ i) (hi' : i ≤ 2 ^ h) (hout : 2 ^ h < i + n)
    (hdata : ∀ j, i ≤ j → j < 2 ^ h → (mt.nodes j).data ≠ none) :
    ∃ mt', hashAll (hashNode sha3 heap) (List.range' i n) mt = .ok (-1, mt') := by
  induction n generalizing i mt with
  | zero => omega
  | succ n ih =>
    rw [List.range'_succ, hashAll]
    rcases Nat.lt_or_eq_of_le hi' with hlt | rfl
    · obtain ⟨d, hd⟩ := Option.ne_none_iff_exists'.1 (hdata i le_rfl hlt)
      rw [hashNode_leaf hs hi hlt hd, orFail_ok]
      refine ih hs.setHash (by omega) hlt (by omega) fun j hj hj' => ?_
      rw [MerkleTree.setHash_data]
      exact hdata j (by omega) hj'
    · exact ⟨mt, by rw [hashNode_of_le hs.nbNodes.le, orFail_fail]⟩

theorem changeAndRebuild_behind (sha3 : List Byte → Digest) (heap : Heap)
    (hr : Reads datas 0 ss) (hs : Shape h mt) (hlow : 2 ^ (h - 1) ≤ f)
    (hhigh : f ≤ 2 ^ h) (hout : 2 ^ h < f + ss.length) :
    ∃ mt', changeAndRebuild sha3 heap mt ((List.range' f ss.length).map Nat.cast) datas
      .fileMode = .ok (-1, mt') := by
  have hne : 1 ≤ ss.length := by omega
  obtain ⟨l, rfl⟩ := Nat.exists_eq_add_of_le' hs.pos
  obtain ⟨mt', hrun⟩ := hashAll_behind sha3 heap (hs.setDatas f ss) hlow hhigh hout
    fun j hj _ => by
      rw [MerkleTree.setDatas_data, if_pos ⟨hj, by omega⟩]
      exact Option.some_ne_none _
  refine ⟨mt', ?_⟩
  rw [changeAndRebuild_eq_hashAll hr hs hne, BinTree.levels, List.append_assoc,
    hashAll_append, hrun, orFail_fail]

theorem settled_fileMode (hc : Change sha3 heap h mt f ss leaf' τ τ') :
    Settled τ' (BinTree.Nodes h)
      ((mt.setDatas f ss).setHashes τ' (BinTree.levels h f ss.length ++ [1])) := by
  intro j hj
  refine (hc.untouched.setHashes (BinTree.levels h f ss.length ++ [1])) j ?_
  by_cases hunt : j ∈ BinTree.Untouched h f (f + ss.length - 1)
  · exact .inl hunt
  · exact .inr (List.mem_append_left _ (BinTree.mem_levels hc.length_pos hc.low hc.high hj hunt))

/-- **Buffer mode changes one leaf.** -/
theorem changeAndRebuild_bufferMode {s : CStr}
    (hs : 1 + s.strlen ≤ PTR_SIZE * 2 * PAGE_LENGTH) (hd : (datas 0).str = some s)
    (hc : Change sha3 heap h mt f [s] leaf' τ τ') :
    ∃ mt', changeAndRebuild sha3 heap mt [(f : ℤ)] datas .bufferMode = .ok (0, mt') ∧
      Shape h mt' ∧ Settled τ' (BinTree.Nodes h) mt' := by
  have hp := BinTree.two_pow_pred hc.old.shape.pos
  have hhigh : f + 1 ≤ 2 ^ h := hc.high
  have hslot : slot datas 0 = .ok (some s) := by rw [← hd]; rfl
  have hunt : Settled τ' (BinTree.Untouched h f f) (mt.setDatas f [s]) := hc.untouched
  have hrun : hashAll (rehashNode sha3 heap) (BinTree.path f) (mt.setDatas f [s]) =
      .ok (0, (mt.setDatas f [s]).setHashes τ' (BinTree.path f)) := by
    -- the only leaf on the path is the one that is changed
    have hleaf : ∀ i ∈ BinTree.path f, 2 ^ (h - 1) ≤ i → i = f := fun i hi hleaf => by
      rcases (BinTree.mem_path.1 hi).2.eq_or with rfl | hb
      · rfl
      · have := hb.le; omega
    refine hashAll_of_bottomUp (fun i hi => rehashNode_stepsTo_of (hc.stepsTo fun hl _ => ?_))
      (hc.old.shape.setDatas _ _) hunt (BinTree.bottomUp_path hc.old.shape.pos hhigh)
      fun i hi hl => ?_
    · exact hleaf i hi hl ▸ hc.hash f le_rfl (by simp)
    · exact hleaf i hi hl ▸ hc.data le_rfl (by simp)
  refine ⟨_, ?_, (hc.old.shape.setDatas f [s]).setHashes τ'
    (BinTree.path f), fun j hj => hunt.setHashes _ j ?_⟩
  · rw [← hrun, ← rehashPath_eq, changeAndRebuild, changeDatas, hslot, nodeIndex_natCast]
    simp only [Run.ok_bind, copyData_of_fits hs]
    rfl
  · by_cases hju : j ∈ BinTree.Untouched h f f
    · exact .inl hju
    · exact .inr (BinTree.mem_path_of_not_untouched hj hju)

end MerkleFs
