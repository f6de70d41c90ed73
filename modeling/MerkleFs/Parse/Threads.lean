import MerkleFs.Parse.Compute
import MerkleFs.Tree.Threads

/-!
# The tree of a file, with several threads

`m_compute_merkle` lays out the pages of a file as `compute_merkle` does, but builds the tree with
`m_build_tree`.  Files with less full pages than threads it leaves to `compute_merkle`.  Two
things set it apart: it does not stop when the tree could not be built, and with one leaf for each
thread its build is undefined.

* `mComputeMerkle_of_lt`, `mComputeMerkle_of_walk`, `mComputeMerkle_null`, `mComputeMerkle_shift` :
  what it does.
* `agrees_iff` : when it agrees with `compute_merkle`.
-/

namespace MerkleFs

variable (sha3 : List Byte → Digest) (heap : Heap)

/-- `m_compute_merkle`.  (That the tree could not be built is only logged.) -/
def mComputeMerkle (sched : Scheduler ℕ) (fp : Option (List Byte)) (mt : MerkleTree)
    (nbThreads : ℕ) : Run Outcome :=
  match fp with
  | none => .ok ⟨-1, mt, .unset⟩
  | some contents => do
    let (fileSize, fileString) ← readFile heap contents
    if fileSize / PAGE_LENGTH < nbThreads then computeMerkle sha3 heap fp mt
    else
      let p ← parsePages fileSize fileString
      let height ← log2 p.treeSize
      let (_, mt) ← mBuildTree sha3 heap sched (.blank 0 (height + 1)) p.slots nbThreads
      finishMerkle p mt

variable {sha3 heap} {sched : Scheduler ℕ} {c : List Byte} {mt : MerkleTree} {T t : ℕ}
  {ss : List CStr} {τ : ℕ → CStr}

/-- With less full pages than threads it is `compute_merkle`. -/
theorem mComputeMerkle_of_lt (hn' : c.length ≤ 2 ^ 30) (hT : c.length / PAGE_LENGTH < T) :
    mComputeMerkle sha3 heap sched (some c) mt T = computeMerkle sha3 heap (some c) mt := by
  rw [mComputeMerkle, readFile_eq hn', Run.ok_bind]
  exact if_pos hT

theorem mComputeMerkle_eq (hn : 1 ≤ c.length) (hn' : c.length ≤ 2 ^ 30)
    (hterm : Terminates heap c) (hT : T ≤ c.length / PAGE_LENGTH) :
    mComputeMerkle sha3 heap sched (some c) mt T = (do
      let (_, mt) ← mBuildTree sha3 heap sched (.blank 0 (heightOf c.length)) (parsedOf c).slots T
      finishMerkle (parsedOf c) mt) := by
  rw [mComputeMerkle, readFile_eq hn', Run.ok_bind]
  simp only
  rw [if_neg (by omega), parsePages_parsedOf hn hn' hterm, Run.ok_bind, log2_parsedOf,
    Run.ok_bind]
  rfl

theorem div_le_leafCount (n : ℕ) : n / PAGE_LENGTH ≤ leafCount n := by
  have hle := pageCount_le_leafCount n
  have hcount := pageCount_eq n
  split_ifs at hcount <;> omega

/-- With two leaves or more for each thread it returns the string of the tree. -/
theorem mComputeMerkle_of_walk (hn : 1 ≤ c.length) (hr : Returns heap c) (hw : WalkOk c)
    (hT : 2 ^ t ≤ c.length / PAGE_LENGTH) (hne : leafCount c.length ≠ 2 ^ t)
    (hss : walk (slotsOf c) (leafCount c.length) 0 = some ss)
    (hτ : Target sha3 heap (heightOf c.length) (leafAt (leafCount c.length) ss) τ) :
    mComputeMerkle sha3 heap sched (some c) mt (2 ^ t) =
      .ok ⟨0, builtTree (heightOf c.length) (leafAt (leafCount c.length) ss) τ,
        .string (treeString (2 ^ heightOf c.length) τ)⟩ := by
  have hh := heightOf_le hr.le
  have hfit : Fits 0 ss := (room_slotsOf hn hr.le).fits (walk_eq_some_iff.1 hss).1
  have hle := hT.trans (div_le_leafCount c.length)
  rw [leafCount_eq_pow] at hle hne hss hτ ⊢
  have hlt : t < heightOf c.length - 1 :=
    lt_of_le_of_ne ((Nat.pow_le_pow_iff_right Nat.one_lt_two).1 hle) fun h => hne (by rw [h])
  have hb := mBuildTree_of_walk sched (.blank 0 (heightOf c.length)) (T := 2 ^ t)
    (a := heightOf c.length - 1 - t) (by rw [← pow_add]; congr 1; omega) (by omega)
    (heightOf_pos _) (by omega) rfl (hr.terminated hw) hfit hss hτ
  rw [mComputeMerkle_eq hn hr.le hr.terminates hT, slots_parsedOf, hb, Run.ok_bind]
  simp only
  rw [finishMerkle_eq hr.le hτ, if_pos (hr.free hw)]

/-- A NULL slot makes it write a tree without hashes to a string. -/
theorem mComputeMerkle_null (hn : 1 ≤ c.length) (hn' : c.length ≤ 2 ^ 30)
    (hterm : Terminates heap c) (hw : ¬ WalkOk c) (hT : T ≤ c.length / PAGE_LENGTH) :
    mComputeMerkle sha3 heap sched (some c) mt T = .error .nullDeref := by
  have hh := heightOf_le hn'
  obtain ⟨mt', hb, hnodes, hhash⟩ := mBuildTree_of_walk_none sha3 heap sched
    (.blank 0 (heightOf c.length)) T (heightOf_pos _) (by omega) rfl
    (room_slotsOf hn hn') (walk_eq_none hn hn' hw)
  have hpos := heightOf_pos c.length
  have hstring : treeToString mt' = .error .nullDeref :=
    treeToString_null (by rw [hnodes]; exact Nat.one_lt_two_pow (by omega))
      (by rw [hnodes]; exact size_le_of_le hh) (hhash 1)
  rw [mComputeMerkle_eq hn hn' hterm hT, slots_parsedOf, hb, Run.ok_bind]
  simp only
  rw [finishMerkle, hstring, Run.error_bind]

/-- With one leaf for each thread the build is undefined. -/
theorem mComputeMerkle_shift (hn : 1 ≤ c.length) (hn' : c.length ≤ 2 ^ 30)
    (hterm : Terminates heap c) (hw : WalkOk c) (hT : leafCount c.length ≤ c.length / PAGE_LENGTH) :
    mComputeMerkle sha3 heap sched (some c) mt (leafCount c.length) = .error .shift := by
  have hh := heightOf_le hn'
  obtain ⟨ss, hss⟩ := (walk_slotsOf_iff hn hn').2 hw
  have hfit : Fits 0 ss := (room_slotsOf hn hn').fits (walk_eq_some_iff.1 hss).1
  rw [mComputeMerkle_eq hn hn' hterm hT, slots_parsedOf]
  rw [leafCount_eq_pow] at hss ⊢
  rw [mBuildTree_of_eq (heightOf_pos _) (by omega) rfl hfit hss, Run.error_bind]

/-! ### Agreement -/

/-- `m_compute_merkle` and `compute_merkle` return the same code, and with code `0` the same
string. -/
def Agrees (sha3 : List Byte → Digest) (heap : Heap) (sched : Scheduler ℕ) (c : List Byte)
    (nbThreads : ℕ) : Prop :=
  ∀ mt, ∃ o o', mComputeMerkle sha3 heap sched (some c) mt nbThreads = .ok o ∧
    computeMerkle sha3 heap (some c) mt = .ok o' ∧ o.code = o'.code ∧
    (o.code = 0 → o.result = o'.result)

/-- **When the multi-threaded build agrees with the single-threaded one**: `compute_merkle`
returns, and unless there are less full pages than threads, there is no NULL slot and not one leaf
for each thread. -/
theorem agrees_iff (hn : 1 ≤ c.length) (hmax : c.length ≤ INT_MAX) :
    Agrees sha3 heap sched c (2 ^ t) ↔ Returns heap c ∧
      (2 ^ t ≤ c.length / PAGE_LENGTH → WalkOk c ∧ leafCount c.length ≠ 2 ^ t) := by
  constructor
  · intro hall
    obtain ⟨o, o', hm, hc, -, -⟩ := hall (.blank 0 0)
    have hr := (computeMerkle_eq_ok_iff hn hmax).1 ⟨o', hc⟩
    refine ⟨hr, fun hT => ?_⟩
    have hw : WalkOk c := by
      by_contra hw
      rw [mComputeMerkle_null hn hr.le hr.terminates hw hT] at hm
      cases hm
    refine ⟨hw, fun heq => ?_⟩
    rw [← heq] at hT hm
    rw [mComputeMerkle_shift hn hr.le hr.terminates hw hT] at hm
    cases hm
  · rintro ⟨hr, hthreads⟩ mt
    rcases Nat.lt_or_ge (c.length / PAGE_LENGTH) (2 ^ t) with hlt | hge
    · obtain ⟨o, ho⟩ : ∃ o, computeMerkle sha3 heap (some c) mt = .ok o :=
        (computeMerkle_eq_ok_iff hn hmax).2 hr
      exact ⟨o, o, by rw [mComputeMerkle_of_lt hr.le hlt, ho], ho, rfl, fun _ => rfl⟩
    · obtain ⟨hw, hne⟩ := hthreads hge
      obtain ⟨ss, τ, hss, hτ, hc⟩ := computeMerkle_of_returns sha3 mt hn hr hw
      exact ⟨_, _, mComputeMerkle_of_walk hn hr hw hge hne hss hτ, hc, rfl, fun _ => rfl⟩

/-- Two pages and one thread. -/
theorem agrees_twoPages :
    Agrees (fun _ => zeroDigest) .nul (.sequential ℕ) (pagesOfA 2) (2 ^ 0) := by
  have hlen := length_pagesOfA 2
  unfold PAGE_LENGTH at hlen
  refine (agrees_iff (by omega) (by unfold INT_MAX; omega)).2
    ⟨returns_of_nulFree (nulFree_pagesOfA 2) (by omega), fun _ => ⟨.inl (nulFree_pagesOfA 2), ?_⟩⟩
  rw [leafCount, pageCount_pagesOfA]
  decide

/-- Eight pages and eight threads. -/
theorem not_agrees_eightPages : ¬ ∀ (sha3 : List Byte → Digest) (heap : Heap)
    (sched : Scheduler ℕ) (c : List Byte) (t : ℕ), 1 ≤ c.length → c.length ≤ INT_MAX →
    Agrees sha3 heap sched c (2 ^ t) := by
  intro hall
  have hlen := length_pagesOfA 8
  unfold PAGE_LENGTH at hlen
  have hleaf : leafCount (pagesOfA 8).length = 2 ^ 3 := by
    rw [leafCount, pageCount_pagesOfA]
    decide
  obtain ⟨o, -, hm, -⟩ := hall (fun _ => zeroDigest) .nul (.sequential ℕ) (pagesOfA 8) 3 (by omega)
    (by unfold INT_MAX; omega) (.blank 0 0)
  rw [← hleaf, mComputeMerkle_shift (by omega) (by omega) terminates_nul
    (.inl (nulFree_pagesOfA 8)) (by rw [hleaf, div_pagesOfA]; norm_num)] at hm
  cases hm

end MerkleFs
