import MerkleFs.Tree.Merkle
import MerkleFs.Tree.Rebuild
import MerkleFs.Tree.Threads

/-!
# Threads agree with `build_tree`

`m_build_tree` splits `2^(h-1)` leaves among `2^t` workers, at least two each.  Whatever the order
in which the workers call `hash_node`, no call finds a child hash missing, and in the end the tree
has the hashes that `build_tree` computes (`threadsAgree_of_buildTree`).
-/

namespace MerkleFs

/-- The calls of `hash_node` of each worker that `m_build_tree` starts. -/
def workerCalls (leafStartIndex nbOfThreads : ℕ) : List (List ℕ) :=
  ((List.range (nbOfThreads - 1)).map fun i =>
      mHashNodes (leafStartIndex + i * (leafStartIndex / nbOfThreads))
        (leafStartIndex / nbOfThreads)) ++
    [mHashNodes (leafStartIndex + (nbOfThreads - 1) * (leafStartIndex / nbOfThreads))
      (leafStartIndex / nbOfThreads + leafStartIndex % nbOfThreads)]

/-- The calls of its last loop, from `new_start_index` down. -/
def rootCalls (leafStartIndex nbOfThreads : ℕ) : List ℕ :=
  (List.range' 1
    (leafStartIndex / 2 ^ (Nat.log 2 (leafStartIndex / nbOfThreads) - 1))).reverse

/-- The hashes that `hash_node` reads for node `i` are there. -/
def ReadsWritten (h : ℕ) (mt : MerkleTree) (i : ℕ) : Prop :=
  i < 2 ^ (h - 1) → (mt.nodes (2 * i)).hash ≠ none ∧ (mt.nodes (2 * i + 1)).hash ≠ none

/-- `T` workers, running under `sched`, build a tree with the hashes of `mt`. -/
structure ThreadsAgree (sha3 : List Byte → Digest) (heap : Heap) (h : ℕ) (sched : Scheduler ℕ)
    (T : ℕ) (mt₀ : MerkleTree) (datas : ℕ → Ptr) (mt : MerkleTree) : Prop where
  /-- `m_build_tree` returns `0`. -/
  agrees : ∃ mt', mBuildTree sha3 heap sched mt₀ datas T = .ok (0, mt') ∧ SameHashes h mt' mt
  /-- The calls of the workers read hashes that have been written. -/
  workers : ∀ pre i post, sched.order (workerCalls (2 ^ (h - 1)) T) = pre ++ i :: post →
    ∃ mt₁ mt₂, setTreeDatas mt₀ datas = .ok (0, mt₁) ∧ hashEach sha3 heap pre mt₁ = .ok mt₂ ∧
      ReadsWritten h mt₂ i
  /-- So do the calls of the last loop. -/
  root : ∀ pre i post, rootCalls (2 ^ (h - 1)) T = pre ++ i :: post →
    ∃ mt₁ mt₂ mt₃, setTreeDatas mt₀ datas = .ok (0, mt₁) ∧
      hashEach sha3 heap (sched.order (workerCalls (2 ^ (h - 1)) T)) mt₁ = .ok mt₂ ∧
      hashAll (rehashNode sha3 heap) pre mt₂ = .ok (0, mt₃) ∧ ReadsWritten h mt₃ i

variable {sha3 : List Byte → Digest} {heap : Heap} {h i n k t : ℕ} {mt mt' mt₀ : MerkleTree}
  {datas : ℕ → Ptr} {τ : ℕ → CStr} {D : Set ℕ}

theorem readsWritten_of_ready (hD : Settled τ D mt) (hr : BinTree.Ready h D i) :
    ReadsWritten h mt i := by
  intro hi
  obtain ⟨hl, hr⟩ := hr.2.2 hi
  rw [hD _ hl, hD _ hr]
  exact ⟨nofun, nofun⟩

/-! ### Powers of two -/

theorem exists_share (ht : 2 * 2 ^ t ≤ 2 ^ (h - 1)) :
    ∃ a, 1 ≤ a ∧ 2 ^ t * 2 ^ a = 2 ^ (h - 1) := by
  rw [← pow_succ'] at ht
  have hle : t + 1 ≤ h - 1 := (Nat.pow_le_pow_iff_right (by norm_num)).1 ht
  exact ⟨h - 1 - t, by omega, by rw [← pow_add]; congr 1; omega⟩

theorem rootCalls_eq {T a : ℕ} (hT : T * 2 ^ a = 2 ^ (h - 1)) (hTpos : 0 < T) (ha : 1 ≤ a) :
    rootCalls (2 ^ (h - 1)) T = (List.range' 1 (2 * T)).reverse := by
  rw [rootCalls, ← hT, Nat.mul_div_cancel_left _ hTpos, Nat.log_pow Nat.one_lt_two,
    BinTree.two_pow_pred ha, show T * (2 * 2 ^ (a - 1)) = 2 * T * 2 ^ (a - 1) by ring,
    Nat.mul_div_cancel _ (Nat.two_pow_pos _)]

/-! ### Agreement -/

/-- **Any order of the worker threads builds the same tree.** -/
theorem threadsAgree_of_buildTree (sched : Scheduler ℕ) (hh : 1 ≤ h)
    (ht : 2 * 2 ^ t ≤ 2 ^ (h - 1)) (hmt₀ : mt₀.treeHeight = h)
    (hb : buildTree sha3 heap mt₀ datas = .ok (0, mt)) :
    ThreadsAgree sha3 heap h sched (2 ^ t) mt₀ datas mt := by
  obtain ⟨a, ha, hT⟩ := exists_share ht
  obtain ⟨hh', hheap, ss, τ, hw, hfit, hτ, rfl⟩ := buildTree_eq_ok hh hmt₀ hb
  have hss := length_of_walk hw
  have hset := setTreeDatas_of_walk hh hh' hmt₀ hfit hw
  have hcalls : workerCalls (2 ^ (h - 1)) (2 ^ t) = threadCalls (2 ^ t) a :=
    threads_eq hT (Nat.two_pow_pos t)
  have hroot := rootCalls_eq hT (Nat.two_pow_pos t) ha
  have hD : Settled τ ∅ (leavesOnly h ss) := fun i hi => hi.elim
  refine ⟨⟨_, mBuildTree_of_walk sched mt₀ hT ha hh hh' hmt₀ hheap hfit hw hτ, fun _ _ => rfl⟩,
    ?workers, ?root⟩
  case workers =>
    intro pre i post heq
    rw [hcalls] at heq
    refine ⟨_, _, hset, hashEach_threads sched hT hh hh' hheap hss hτ heq, ?_⟩
    exact readsWritten_of_ready (hD.setHashes pre)
      (BinTree.bottomUp_iff.1 (bottomUp_order sched hT hh) pre i post heq)
  case root =>
    intro pre i post heq
    rw [hroot] at heq
    rw [hcalls]
    refine ⟨_, _, _, hset,
      hashEach_threads sched hT hh hh' hheap hss hτ (List.append_nil _).symm,
      hashAll_root sched hT ha hh hh' hheap hss hτ heq, ?_⟩
    exact readsWritten_of_ready ((hD.setHashes _).setHashes pre)
      (BinTree.bottomUp_iff.1 (bottomUp_root sched hT ha hh) pre i post heq)

theorem threadsAgree_fullPages : ∃ mt, ThreadsAgree (fun _ => zeroDigest) .nul 16
    (.sequential ℕ) 2 (.blank 0 16) (fun _ => .heap fullPage) mt := by
  obtain ⟨τ, -, hb⟩ := exists_builtTree (fun _ => zeroDigest) (h := 16) (by decide) (by decide)
    (layout_replicate fullPage (2 ^ 15) 0) List.length_replicate fits_fullPages
  exact ⟨_, threadsAgree_of_buildTree (t := 1) (.sequential ℕ) (by decide) (by decide) rfl hb⟩

/-! ### Large pages -/

/-- What a successful copying loop has read. -/
theorem setLeafDatas_eq_ok (hk : k ≤ INT_MAX) {code : ℤ}
    (hb : setLeafDatas datas n i k mt = .ok (code, mt')) (hc : code ≠ -1) :
    ∃ ss, walk datas n k = some ss ∧ Fits k ss := by
  induction n generalizing i k mt with
  | zero => exact ⟨[], rfl, trivial⟩
  | succ n ih =>
    rw [setLeafDatas, slot_natCast, Run.ok_bind] at hb
    cases hslot : (datas k).str with
    | none =>
      rw [hslot] at hb
      cases hb
      exact absurd rfl hc
    | some s =>
      rw [hslot] at hb
      obtain ⟨mt₁, hcopy, hb⟩ := Run.bind_eq_ok.1 hb
      obtain ⟨hlen, -⟩ := copyData_eq_ok hcopy
      rw [walk_succ hslot]
      by_cases hnext : k + s.strlen ≤ INT_MAX
      · rw [intOf_add_of_le hnext] at hb
        obtain ⟨ss, hw, hfit⟩ := ih hnext hb
        exact ⟨s :: ss, by rw [hw]; rfl, hlen, hk, hfit⟩
      · cases n with
        | zero => exact ⟨[s], rfl, hlen, hk, trivial⟩
        | succ n =>
          rw [setLeafDatas, slot_wrapped hk (strlen_le_of_room hlen) (not_le.1 hnext)] at hb
          cases hb

theorem walk_of_mBuildTree {sched : Scheduler ℕ} {T : ℕ} (hh : 1 ≤ h) (hh' : h ≤ 30)
    (hmt₀ : mt₀.treeHeight = h) (hb : mBuildTree sha3 heap sched mt₀ datas T = .ok (0, mt)) :
    ∃ ss, walk datas (2 ^ (h - 1)) 0 = some ss ∧ total ss.dropLast ≤ INT_MAX := by
  rw [mBuildTree, hmt₀, shl1_sub_one hh (by omega), Run.ok_bind] at hb
  obtain ⟨code, mt₁, hc, hset, -⟩ := orFail_eq_ok hb (by decide)
  rw [setTreeDatas_eq hh hh' hmt₀] at hset
  obtain ⟨ss, hw, hfit⟩ := setLeafDatas_eq_ok (k := 0) (Nat.zero_le _) hset hc
  exact ⟨ss, hw, hfit.total_le⟩

/-- `2^16` full pages are too long together for one worker as well. -/
theorem not_threadsAgree_largePages :
    ¬ ∀ (sha3 : List Byte → Digest) (heap : Heap) (sched : Scheduler ℕ) (h t : ℕ)
      (mt : MerkleTree) (datas : ℕ → Ptr) (ps : List CStr), 1 ≤ h → h ≤ 30 → mt.treeHeight = h →
      2 * 2 ^ t ≤ 2 ^ (h - 1) → (∀ i, heap.concatTail i 0 = 0) → Layout datas 0 ps →
      ps.length = 2 ^ (h - 1) → (∀ p ∈ ps, IsPage p) →
        ∃ mt', mBuildTree sha3 heap sched mt datas (2 ^ t) = .ok (0, mt') := by
  intro hall
  obtain ⟨mt', hb⟩ := hall (fun _ => zeroDigest) .nul (.sequential ℕ) 17 0 (.blank 0 17) _ _
    (by decide) (by decide) rfl (by decide) (fun _ => rfl) (layout_replicate fullPage (2 ^ 16) 0)
    List.length_replicate fun p hp => List.eq_of_mem_replicate hp ▸ isPage_fullPage
  obtain ⟨ss, hw, hint⟩ := walk_of_mBuildTree (by decide) (by decide) rfl hb
  exact not_walk_fullPages hw hint

end MerkleFs
