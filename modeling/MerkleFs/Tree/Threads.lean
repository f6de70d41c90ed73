import MerkleFs.BinTree.Update
import MerkleFs.Tree.Build
import Mathlib.Tactic.Linarith

/-!
# Building a tree with several threads

`m_build_tree` first copies the pages into the leaves (`set_tree_datas`), then lets `T` threads
hash the lower levels, each in its own part of the tree (`m_hash_nodes`), and hashes the top
itself.  The threads run under a `Scheduler`; one call of `hash_node` is a step.

* `mBuildTree_of_walk` : with at least two leaves for each thread the tree is the one
  `build_tree` builds, under every schedule.
* `mBuildTree_of_walk_none` : a NULL slot makes it return `-1` and leaves no hash behind.
* `mBuildTree_of_eq` : with one leaf for each thread the shift that finds the first node above
  the threads' part is undefined.
-/

namespace MerkleFs

/-- The loop of `set_tree_datas` over `n` leaves from node `i` and slot `totalSize` on. -/
def setLeafDatas (datas : ℕ → Ptr) : ℕ → ℕ → ℤ → MerkleTree → Run (ℤ × MerkleTree)
  | 0, _, _, mt => .ok (0, mt)
  | n + 1, i, totalSize, mt => do
    match ← slot datas totalSize with
    | none => .ok (-1, mt)
    | some s => do
      let mt ← copyData mt i s
      setLeafDatas datas n (i + 1) (intOf (totalSize + s.strlen)) (mt.setHash i none)

/-- `set_tree_datas`. -/
def setTreeDatas (mt : MerkleTree) (datas : ℕ → Ptr) : Run (ℤ × MerkleTree) := do
  let leafStartIndex ← shl1 (mt.treeHeight - 1)
  let nbNodes ← shl1 mt.treeHeight
  setLeafDatas datas (nbNodes - leafStartIndex) leafStartIndex 0 (.blank nbNodes mt.treeHeight)

/-- The level loop of `m_hash_nodes`: the nodes it hashes, in order. -/
def levelCalls : ℕ → ℕ → ℕ → List ℕ
  | 0, _, _ => []
  | l + 1, startIndex, nbLeaves =>
    List.range' startIndex nbLeaves ++ levelCalls l (startIndex / 2) (nbLeaves / 2)

/-- `m_hash_nodes`: the calls of `hash_node` that a thread makes.  (`m_build_tree` has taken
`log2` of the number of leaves of a thread already, so it is not zero here.) -/
def mHashNodes (startIndex nbLeaves : ℕ) : List ℕ :=
  levelCalls (Nat.log 2 nbLeaves) startIndex nbLeaves

variable (sha3 : List Byte → Digest) (heap : Heap)

/-- Hash the nodes of a list in order.  A `-1` is only logged. -/
def hashEach : List ℕ → MerkleTree → Run MerkleTree
  | [], mt => .ok mt
  | i :: is, mt => do
    let (_, mt) ← hashNode sha3 heap mt i
    hashEach is mt

/-- `m_build_tree`. -/
def mBuildTree (sched : Scheduler ℕ) (mt : MerkleTree) (datas : ℕ → Ptr) (nbOfThreads : ℕ) :
    Run (ℤ × MerkleTree) := do
  let leafStartIndex ← shl1 (mt.treeHeight - 1)
  orFail (setTreeDatas mt datas) fun mt => do
    let nbLeavesPerThread := leafStartIndex / nbOfThreads
    let lg ← log2 nbLeavesPerThread
    let above ← shl1 (lg - 1)
    let newStartIndex := leafStartIndex / above
    let threads := (List.range (nbOfThreads - 1)).map fun i =>
      mHashNodes (leafStartIndex + i * nbLeavesPerThread) nbLeavesPerThread
    -- the last thread potentially has to compute more
    let last := mHashNodes (leafStartIndex + (nbOfThreads - 1) * nbLeavesPerThread)
      (nbLeavesPerThread + leafStartIndex % nbOfThreads)
    let mt ← hashEach sha3 heap (sched.order (threads ++ [last])) mt
    hashAll (rehashNode sha3 heap) (List.range' 1 newStartIndex).reverse mt

variable {sha3 heap} {datas : ℕ → Ptr} {mt mt' : MerkleTree} {h i n k : ℕ} {ss : List CStr}
  {leaf τ : ℕ → CStr} {D : Set ℕ}

/-! ### Copying the pages -/

theorem setLeafDatas_of_walk {d : ℤ} (hfit : Fits k ss) (hd : ss = [] ∨ d = k)
    (hw : walk datas n k = some ss) :
    setLeafDatas datas n i d mt = .ok (0, mt.setLeaves i ss fun _ => none) := by
  induction n generalizing i k d mt ss with
  | zero => cases hw; simp [setLeafDatas]
  | succ n ih =>
    obtain ⟨s, ss', hk, hw', rfl⟩ := walk_cons hw
    obtain ⟨hlen, -, hfit⟩ := hfit
    obtain rfl := hd.resolve_left (List.cons_ne_nil s ss')
    rw [setLeafDatas, slot_natCast, hk]
    simp only [Run.ok_bind, copyData_of_fits hlen]
    rw [ih hfit hfit.next hw', setLeaves_cons (f := fun _ => none)]

theorem setLeafDatas_of_walk_none (mt : MerkleTree) (hroom : Room datas)
    (hw : walk datas n k = none) (hmt : ∀ j, (mt.nodes j).hash = none) :
    ∃ mt', setLeafDatas datas n i k mt = .ok (-1, mt') ∧ mt'.nbNodes = mt.nbNodes ∧
      ∀ j, (mt'.nodes j).hash = none := by
  induction n generalizing i k mt with
  | zero => cases hw
  | succ n ih =>
    rw [setLeafDatas, slot_natCast, Run.ok_bind]
    cases hk : (datas k).str with
    | none => exact ⟨mt, rfl, rfl, hmt⟩
    | some s =>
      obtain ⟨hlen, hint⟩ := hroom k s hk
      rw [walk_succ hk, Option.map_eq_none_iff] at hw
      simp only [copyData_of_fits hlen, Run.ok_bind]
      rw [intOf_add_of_le hint]
      refine ih _ hw fun j => ?_
      rw [MerkleTree.setHash_hash, MerkleTree.setData_hash, hmt j, ite_self]

theorem setTreeDatas_eq (hh : 1 ≤ h) (hh' : h ≤ 30) (hmt : mt.treeHeight = h) :
    setTreeDatas mt datas =
      setLeafDatas datas (2 ^ (h - 1)) (2 ^ (h - 1)) 0 (.blank (2 ^ h) h) := by
  have hp := BinTree.two_pow_pred hh
  rw [setTreeDatas, hmt, shl1_sub_one hh (by omega), shl1_natCast hh']
  simp only [Run.ok_bind, show 2 ^ h - 2 ^ (h - 1) = 2 ^ (h - 1) by omega]

/-! ### The threads -/

theorem mem_levelCalls {l start : ℕ} :
    i ∈ levelCalls l start n ↔ ∃ k < l, start / 2 ^ k ≤ i ∧ i < start / 2 ^ k + n / 2 ^ k := by
  induction l generalizing start n with
  | zero => simp [levelCalls]
  | succ l ih =>
    simp only [levelCalls, List.mem_append, List.mem_range'_1, ih, Nat.div_div_eq_div_mul]
    constructor
    · rintro (hi | ⟨k, hk, hi⟩)
      · exact ⟨0, by omega, by simpa using hi⟩
      · exact ⟨k + 1, by omega, by rwa [pow_succ, mul_comm]⟩
    · rintro ⟨k, hk, hi⟩
      cases k with
      | zero => exact .inl (by simpa using hi)
      | succ k => exact .inr ⟨k, by omega, by rwa [pow_succ, mul_comm] at hi⟩

/-- A thread hashes a node after its children, as long as its part starts at an even index on
every level but the last. -/
theorem bottomUp_levelCalls {l start : ℕ} (hdvd : 2 ^ (l - 1) ∣ start)
    (hD : ∀ i, start ≤ i → i < start + n → BinTree.Ready h D i) :
    BinTree.BottomUp h D (levelCalls l start n) := by
  induction l generalizing start n D with
  | zero => trivial
  | succ l ih =>
    have hfirst : BinTree.BottomUp h D (List.range' start n) :=
      BinTree.bottomUp_of_ready fun i hi => by
        rw [List.mem_range'_1] at hi; exact hD i hi.1 hi.2
    cases l with
    | zero => simpa [levelCalls] using hfirst
    | succ l =>
      obtain ⟨c, rfl⟩ := hdvd
      have heven : 2 ^ l * c = 2 ^ (l + 1 + 1 - 1) * c / 2 := by
        rw [show l + 1 + 1 - 1 = l + 1 by omega, pow_succ]
        rw [show 2 ^ l * 2 * c = 2 ^ l * c * 2 by ring, Nat.mul_div_cancel _ (by norm_num)]
      have hstart : 2 ^ (l + 1 + 1 - 1) * c = 2 * (2 ^ l * c) := by
        rw [show l + 1 + 1 - 1 = l + 1 by omega, pow_succ]; ring
      refine hfirst.append (ih ?_ fun i hi hi' => ?_)
      · rw [← heven]; exact ⟨c, by simp⟩
      · rw [hstart] at hi hi' hD
        have h₀ := hD (2 * i) (by omega) (by omega)
        refine ⟨by have := h₀.1; omega, by have := h₀.2.1; omega, fun _ => ⟨.inr ?_, .inr ?_⟩⟩
        · show _ ∈ List.range' _ _
          rw [List.mem_range'_1, hstart]; omega
        · show _ ∈ List.range' _ _
          rw [List.mem_range'_1, hstart]; omega

theorem hashEach_of_bottomUp {is : List ℕ} (hτ : Target sha3 heap h leaf τ)
    (hheap : heap.Terminated h) (hs : Shape h mt) (hD : Settled τ D mt)
    (hb : BinTree.BottomUp h D is)
    (hdata : ∀ i ∈ is, 2 ^ (h - 1) ≤ i → (mt.nodes i).data = some (leaf i)) :
    hashEach sha3 heap is mt = .ok (mt.setHashes τ is) := by
  induction is generalizing mt D with
  | nil => rfl
  | cons i is ih =>
    rw [hashEach, hashNode_stepsTo hτ (hheap i) mt D hs hD hb.1
      (hdata i List.mem_cons_self), Run.ok_bind]
    exact ih hs.setHash hD.setHash hb.2
      fun j hj hl => by simpa using hdata j (List.mem_cons_of_mem _ hj) hl

/-- The calls of the `T` threads of a tree with `T * 2^a` leaves. -/
def threadCalls (T a : ℕ) : List (List ℕ) :=
  (List.range T).map fun t => mHashNodes (T * 2 ^ a + t * 2 ^ a) (2 ^ a)

theorem mem_threadCalls {T a : ℕ} {w : List ℕ} :
    w ∈ threadCalls T a ↔ ∃ t < T, w = levelCalls a ((T + t) * 2 ^ a) (2 ^ a) := by
  simp only [threadCalls, mHashNodes, List.mem_map, List.mem_range, Nat.log_pow Nat.one_lt_two,
    ← Nat.add_mul]
  exact ⟨fun ⟨t, ht, h⟩ => ⟨t, ht, h.symm⟩, fun ⟨t, ht, h⟩ => ⟨t, ht, h.symm⟩⟩

theorem bottomUp_threadCalls {T a : ℕ} (hT : T * 2 ^ a = 2 ^ (h - 1)) (hh : 1 ≤ h) :
    ∀ w ∈ threadCalls T a, BinTree.BottomUp h ∅ w := by
  intro w hw
  obtain ⟨t, ht, rfl⟩ := mem_threadCalls.1 hw
  have hp := BinTree.two_pow_pred hh
  have hpos := Nat.two_pow_pos (h - 1)
  have hlow : 2 ^ (h - 1) ≤ (T + t) * 2 ^ a := by rw [Nat.add_mul, hT]; omega
  have hhigh : (T + t) * 2 ^ a + 2 ^ a ≤ 2 ^ h := by
    calc (T + t) * 2 ^ a + 2 ^ a = (T + (t + 1)) * 2 ^ a := by ring
      _ ≤ (T + T) * 2 ^ a := Nat.mul_le_mul_right _ (by omega)
      _ = 2 ^ h := by rw [Nat.add_mul, hT]; omega
  refine bottomUp_levelCalls ?_ fun i hi hi' => ⟨by omega, by omega, fun hin => by omega⟩
  exact (pow_dvd_pow 2 (by omega)).trans (Dvd.intro_left _ rfl)

/-- A number from `2 * T` up to `2 * T * 2^a` lies between `T * 2^d` and its double for one of
the `d` with `1 ≤ d ≤ a`. -/
theorem exists_level {T a : ℕ} (hT : 0 < T) (hi : 2 * T ≤ i) (hi' : i < 2 * (T * 2 ^ a)) :
    ∃ d, 1 ≤ d ∧ d ≤ a ∧ T * 2 ^ d ≤ i ∧ i < 2 * (T * 2 ^ d) := by
  have hquot : 2 ≤ i / T := (Nat.le_div_iff_mul_le hT).2 hi
  have hquot' : i / T < 2 ^ (a + 1) :=
    (Nat.div_lt_iff_lt_mul hT).2 (by rw [pow_succ]; linarith)
  refine ⟨Nat.log 2 (i / T), Nat.le_log_of_pow_le (by norm_num) (by simpa using hquot), ?_, ?_, ?_⟩
  · exact Nat.lt_succ_iff.1 (Nat.log_lt_of_lt_pow (by omega) hquot')
  · rw [mul_comm]
    exact (Nat.le_div_iff_mul_le hT).1 (Nat.pow_log_le_self 2 (by omega))
  · have := (Nat.div_lt_iff_lt_mul hT).1 (Nat.lt_pow_succ_log_self (by norm_num : 1 < 2) (i / T))
    rw [pow_succ] at this
    linarith

/-- The threads together hash every node from `2 * T` on. -/
theorem exists_mem_threadCalls {T a : ℕ} (hT : T * 2 ^ a = 2 ^ (h - 1)) (hh : 1 ≤ h)
    (hi : 2 * T ≤ i) (hi' : i < 2 ^ h) : ∃ w ∈ threadCalls T a, i ∈ w := by
  have hp := BinTree.two_pow_pred hh
  have hTpos : 0 < T := by
    rcases Nat.eq_zero_or_pos T with rfl | hpos
    · have := Nat.two_pow_pos (h - 1); omega
    · exact hpos
  obtain ⟨d, hd, hda, hlow, hhigh⟩ := exists_level hTpos hi (by rw [hT, ← hp]; exact hi')
  have hpos := Nat.two_pow_pos d
  refine ⟨_, mem_threadCalls.2 ⟨i / 2 ^ d - T, ?_, rfl⟩, mem_levelCalls.2 ⟨a - d, by omega, ?_⟩⟩
  · have : i / 2 ^ d < 2 * T := (Nat.div_lt_iff_lt_mul hpos).2 (by rw [mul_assoc]; omega)
    omega
  · have hquot : T ≤ i / 2 ^ d := (Nat.le_div_iff_mul_le hpos).2 hlow
    have hsplit : 2 ^ a = 2 ^ d * 2 ^ (a - d) := by rw [← pow_add]; congr 1; omega
    rw [show T + (i / 2 ^ d - T) = i / 2 ^ d by omega, hsplit, ← mul_assoc,
      Nat.mul_div_cancel _ (Nat.two_pow_pos _), Nat.mul_div_cancel _ (Nat.two_pow_pos _)]
    exact ⟨Nat.div_mul_le_self _ _, Nat.lt_div_mul_add hpos⟩

/-! ### The whole build -/

theorem two_mul_le_of_threads {T a : ℕ} (hT : T * 2 ^ a = 2 ^ (h - 1)) (ha : 1 ≤ a) :
    2 * T ≤ 2 ^ (h - 1) := by
  have : 2 ^ 1 ≤ 2 ^ a := Nat.pow_le_pow_right (by norm_num) ha
  nlinarith

/-- The tree behind `set_tree_datas`: pages, and no hashes. -/
def leavesOnly (h : ℕ) (ss : List CStr) : MerkleTree :=
  (MerkleTree.blank (2 ^ h) h).setLeaves (2 ^ (h - 1)) ss fun _ => none

theorem shape_leavesOnly (hh : 1 ≤ h) (hh' : h ≤ 30) : Shape h (leavesOnly h ss) :=
  shape_setLeaves (shape_blank hh hh')

theorem data_leavesOnly (hh : 1 ≤ h) (hss : ss.length = 2 ^ (h - 1)) (hi : 2 ^ (h - 1) ≤ i)
    (hi' : i < 2 ^ h) : ((leavesOnly h ss).nodes i).data = some (leafAt (2 ^ (h - 1)) ss i) := by
  have hp := BinTree.two_pow_pred hh
  simp only [leavesOnly, MerkleTree.setLeaves]
  rw [if_pos (by omega)]

theorem setTreeDatas_of_walk (hh : 1 ≤ h) (hh' : h ≤ 30) (hmt : mt.treeHeight = h)
    (hfit : Fits 0 ss) (hw : walk datas (2 ^ (h - 1)) 0 = some ss) :
    setTreeDatas mt datas = .ok (0, leavesOnly h ss) := by
  rw [setTreeDatas_eq hh hh' hmt, setLeafDatas_of_walk hfit (.inr Nat.cast_zero.symm) hw,
    leavesOnly]

theorem bottomUp_order (sched : Scheduler ℕ) {T a : ℕ} (hT : T * 2 ^ a = 2 ^ (h - 1))
    (hh : 1 ≤ h) : BinTree.BottomUp h ∅ (sched.order (threadCalls T a)) :=
  BinTree.bottomUp_of_interleaving (sched.interleaving _) (bottomUp_threadCalls hT hh)

theorem bottomUp_root (sched : Scheduler ℕ) {T a : ℕ} (hT : T * 2 ^ a = 2 ^ (h - 1)) (ha : 1 ≤ a)
    (hh : 1 ≤ h) : BinTree.BottomUp h (∅ ∪ {i | i ∈ sched.order (threadCalls T a)})
      (List.range' 1 (2 * T)).reverse := by
  have hp := BinTree.two_pow_pred hh
  have hpos := Nat.two_pow_pos (h - 1)
  have h2T := two_mul_le_of_threads hT ha
  refine BinTree.bottomUp_descending hh (by omega) fun i hi hi' => .inr ?_
  exact (sched.interleaving _).mem_iff.2 (exists_mem_threadCalls hT hh (by omega) hi')

theorem hashEach_threads (sched : Scheduler ℕ) {T a : ℕ} {pre post : List ℕ}
    (hT : T * 2 ^ a = 2 ^ (h - 1)) (hh : 1 ≤ h) (hh' : h ≤ 30) (hheap : heap.Terminated h)
    (hss : ss.length = 2 ^ (h - 1)) (hτ : Target sha3 heap h (leafAt (2 ^ (h - 1)) ss) τ)
    (hpre : sched.order (threadCalls T a) = pre ++ post) :
    hashEach sha3 heap pre (leavesOnly h ss) = .ok ((leavesOnly h ss).setHashes τ pre) := by
  have hb := (hpre ▸ bottomUp_order sched hT hh).of_append
  exact hashEach_of_bottomUp hτ hheap (shape_leavesOnly hh hh') (fun i hi => hi.elim) hb
    fun i hi hl => data_leavesOnly hh hss hl (hb.node_of_mem hi).2

theorem hashAll_root (sched : Scheduler ℕ) {T a : ℕ} {pre post : List ℕ}
    (hT : T * 2 ^ a = 2 ^ (h - 1)) (ha : 1 ≤ a) (hh : 1 ≤ h) (hh' : h ≤ 30)
    (hheap : heap.Terminated h) (hss : ss.length = 2 ^ (h - 1))
    (hτ : Target sha3 heap h (leafAt (2 ^ (h - 1)) ss) τ)
    (hpre : (List.range' 1 (2 * T)).reverse = pre ++ post) :
    hashAll (rehashNode sha3 heap) pre
        ((leavesOnly h ss).setHashes τ (sched.order (threadCalls T a))) =
      .ok (0, ((leavesOnly h ss).setHashes τ (sched.order (threadCalls T a))).setHashes τ pre) := by
  have hb := (hpre ▸ bottomUp_root sched hT ha hh).of_append
  have hD : Settled τ ∅ (leavesOnly h ss) := fun i hi => hi.elim
  refine hashAll_of_bottomUp (fun i _ => rehashNode_stepsTo hτ (hheap i))
    ((shape_leavesOnly hh hh').setHashes _ _) (hD.setHashes _) hb fun i hi hl => ?_
  rw [MerkleTree.setHashes_data]
  exact data_leavesOnly hh hss hl (hb.node_of_mem hi).2

/-- The threads' calls and the loop over the top together set the hash of every node. -/
theorem setHashes_threads {T a : ℕ} {order : List ℕ} (hT : T * 2 ^ a = 2 ^ (h - 1)) (ha : 1 ≤ a)
    (hh : 1 ≤ h) (hord : Interleaving (threadCalls T a) order) (hss : ss.length = 2 ^ (h - 1)) :
    ((leavesOnly h ss).setHashes τ order).setHashes τ (List.range' 1 (2 * T)).reverse =
      builtTree h (leafAt (2 ^ (h - 1)) ss) τ := by
  have hp := BinTree.two_pow_pred hh
  have hpos := Nat.two_pow_pos (h - 1)
  have h2T := two_mul_le_of_threads hT ha
  have hmem : ∀ j, j ∈ (List.range' 1 (2 * T)).reverse ∨ j ∈ order ↔ 1 ≤ j ∧ j < 2 ^ h := by
    intro j
    simp only [List.mem_reverse, List.mem_range'_1]
    constructor
    · rintro (hj | hj)
      · omega
      · exact (BinTree.bottomUp_of_interleaving hord
          (bottomUp_threadCalls hT hh)).node_of_mem hj
    · rintro ⟨hj, hj'⟩
      rcases Nat.lt_or_ge j (2 * T) with hlt | hge
      · exact .inl (by omega)
      · exact .inr (hord.mem_iff.2 (exists_mem_threadCalls hT hh hge hj'))
  refine MerkleTree.ext_nodes
    (by simp [leavesOnly, MerkleTree.setLeaves, MerkleTree.blank, builtTree])
    (by simp [leavesOnly, MerkleTree.setLeaves, MerkleTree.blank, builtTree]) (fun j => ?_)
    (fun j => ?_)
  · simp only [MerkleTree.setHashes_data, leavesOnly, MerkleTree.setLeaves, MerkleTree.blank,
      builtTree, hss]
    by_cases hj : 2 ^ (h - 1) ≤ j ∧ j < 2 ^ h
    · rw [if_pos (by omega), if_pos hj]
    · rw [if_neg (by omega), if_neg hj]
  · have hblank : ((leavesOnly h ss).nodes j).hash = none := by
      simp only [leavesOnly, MerkleTree.setLeaves, MerkleTree.blank]
      split_ifs <;> rfl
    rw [MerkleTree.setHashes_hash, MerkleTree.setHashes_hash, hblank]
    simp only [builtTree, ← hmem j]
    by_cases h₁ : j ∈ (List.range' 1 (2 * T)).reverse <;> by_cases h₂ : j ∈ order <;> simp [h₁, h₂]

theorem threads_eq {T a : ℕ} (hT : T * 2 ^ a = 2 ^ (h - 1)) (hTpos : 0 < T) :
    ((List.range (T - 1)).map fun i =>
        mHashNodes (2 ^ (h - 1) + i * (2 ^ (h - 1) / T)) (2 ^ (h - 1) / T)) ++
      [mHashNodes (2 ^ (h - 1) + (T - 1) * (2 ^ (h - 1) / T))
        (2 ^ (h - 1) / T + 2 ^ (h - 1) % T)] = threadCalls T a := by
  obtain ⟨t, rfl⟩ := Nat.exists_eq_add_of_le' hTpos
  rw [← hT, Nat.mul_div_cancel_left _ hTpos, Nat.mul_mod_right, Nat.add_zero, threadCalls,
    List.range_succ, List.map_append]
  rfl

/-- `m_build_tree` up to the threads, with the numbers it computes. -/
theorem mBuildTree_eq_calls (sched : Scheduler ℕ) {T a : ℕ} (hT : T * 2 ^ a = 2 ^ (h - 1))
    (ha : 1 ≤ a) (hh : 1 ≤ h) (hh' : h ≤ 30) (hmt : mt.treeHeight = h) :
    mBuildTree sha3 heap sched mt datas T = orFail (setTreeDatas mt datas) fun mt =>
      hashEach sha3 heap (sched.order (threadCalls T a)) mt >>= fun mt =>
        hashAll (rehashNode sha3 heap) (List.range' 1 (2 * T)).reverse mt := by
  have hTpos : 0 < T := by
    rcases Nat.eq_zero_or_pos T with rfl | hpos
    · have := Nat.two_pow_pos (h - 1); omega
    · exact hpos
  have hah : a ≤ h - 1 := (Nat.pow_le_pow_iff_right (by norm_num : 1 < 2)).1
    (hT ▸ Nat.le_mul_of_pos_left _ hTpos)
  have hquot : 2 ^ (h - 1) / T = 2 ^ a := by rw [← hT, Nat.mul_div_cancel_left _ hTpos]
  have habove : 2 ^ (h - 1) / 2 ^ (a - 1) = 2 * T := by
    rw [← hT, BinTree.two_pow_pred ha, show T * (2 * 2 ^ (a - 1)) = 2 * T * 2 ^ (a - 1) by ring,
      Nat.mul_div_cancel _ (Nat.two_pow_pos _)]
  rw [mBuildTree, hmt, shl1_sub_one hh (by omega), Run.ok_bind]
  simp only [hquot, log2_two_pow, Run.ok_bind, shl1_sub_one ha (by omega), habove]
  rw [← hquot, threads_eq hT hTpos]

/-- **With two leaves or more for each thread, every schedule builds the tree of the strings
read.** -/
theorem mBuildTree_of_walk (sched : Scheduler ℕ) (mt : MerkleTree) {T a : ℕ}
    (hT : T * 2 ^ a = 2 ^ (h - 1)) (ha : 1 ≤ a) (hh : 1 ≤ h) (hh' : h ≤ 30)
    (hmt : mt.treeHeight = h) (hheap : heap.Terminated h) (hfit : Fits 0 ss)
    (hw : walk datas (2 ^ (h - 1)) 0 = some ss)
    (hτ : Target sha3 heap h (leafAt (2 ^ (h - 1)) ss) τ) :
    mBuildTree sha3 heap sched mt datas T =
      .ok (0, builtTree h (leafAt (2 ^ (h - 1)) ss) τ) := by
  have hss := length_of_walk hw
  rw [mBuildTree_eq_calls sched hT ha hh hh' hmt, setTreeDatas_of_walk hh hh' hmt hfit hw,
    orFail_ok, hashEach_threads sched hT hh hh' hheap hss hτ (List.append_nil _).symm, Run.ok_bind,
    hashAll_root sched hT ha hh hh' hheap hss hτ (List.append_nil _).symm,
    setHashes_threads hT ha hh (sched.interleaving _) hss]

/-- A NULL slot on the way: `-1`, and no node has a hash. -/
theorem mBuildTree_of_walk_none (sha3 : List Byte → Digest) (heap : Heap) (sched : Scheduler ℕ)
    (mt : MerkleTree) (T : ℕ) (hh : 1 ≤ h) (hh' : h ≤ 30)
    (hmt : mt.treeHeight = h) (hroom : Room datas) (hw : walk datas (2 ^ (h - 1)) 0 = none) :
    ∃ mt', mBuildTree sha3 heap sched mt datas T = .ok (-1, mt') ∧ mt'.nbNodes = 2 ^ h ∧
      ∀ j, (mt'.nodes j).hash = none := by
  obtain ⟨mt', hset, hn, hhash⟩ := setLeafDatas_of_walk_none (i := 2 ^ (h - 1)) (k := 0)
    (.blank (2 ^ h) h) hroom hw fun _ => rfl
  rw [Nat.cast_zero] at hset
  refine ⟨mt', ?_, hn, hhash⟩
  rw [mBuildTree, hmt, shl1_sub_one hh (by omega), Run.ok_bind, setTreeDatas_eq hh hh' hmt, hset,
    orFail_fail]

/-- With one leaf for each thread the first node above the threads' part is `1 << -1`. -/
theorem mBuildTree_of_eq {sched : Scheduler ℕ} (hh : 1 ≤ h) (hh' : h ≤ 30)
    (hmt : mt.treeHeight = h) (hfit : Fits 0 ss) (hw : walk datas (2 ^ (h - 1)) 0 = some ss) :
    mBuildTree sha3 heap sched mt datas (2 ^ (h - 1)) = .error .shift := by
  have hlog : log2 1 = .ok 0 := log2_two_pow 0
  rw [mBuildTree, hmt, shl1_sub_one hh (by omega), Run.ok_bind, setTreeDatas_eq hh hh' hmt,
    setLeafDatas_of_walk hfit (.inr Nat.cast_zero.symm) hw, orFail_ok,
    Nat.div_self (Nat.two_pow_pos _)]
  simp only [hlog, Run.ok_bind]
  rfl

end MerkleFs
