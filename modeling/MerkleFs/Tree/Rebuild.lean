import MerkleFs.Tree.Change
import MerkleFs.Tree.Parser

/-!
# Changing leaves equals rebuilding

`rebuild` is the obvious way to change leaves: it stores the new strings, hashes these leaves, and
recomputes every inner node from the leaves up, as the second loop of `build_tree` does.
`change_and_rebuild` visits fewer nodes, and leaves the same hashes behind:

* `changesLeaf_of_consistent` : in buffer mode always;
* `changesRun_iff` : in file mode, on a tree that was read from a string, unless the run overruns
  the tree or the sum of the lengths leads to other strings.
-/

namespace MerkleFs

variable (sha3 : List Byte → Digest) (heap : Heap)

/-- Leaves `f, f + 1, …` receive the strings `ss`, and every inner node is recomputed. -/
def rebuild (mt : MerkleTree) (f : ℕ) (ss : List CStr) : Run (ℤ × MerkleTree) :=
  hashAll (rehashNode sha3 heap)
    (List.range' f ss.length ++ (List.range' 1 (2 ^ (mt.treeHeight - 1) - 1)).reverse)
    (mt.setDatas f ss)

/-- Tree `mt'` has the hashes of `mt` with the leaves `f, f + 1, …` replaced by the strings `ss`. -/
structure Replaced (h : ℕ) (mt : MerkleTree) (f : ℕ) (ss : List CStr) (mt' : MerkleTree) :
    Prop where
  /-- The new leaves. -/
  new : ∀ j, f ≤ j → j < f + ss.length →
    (mt'.nodes j).hash = some (leafHash sha3 (leafAt f ss j))
  /-- The other leaves. -/
  same : ∀ j, 2 ^ (h - 1) ≤ j → j < 2 ^ h → (j < f ∨ f + ss.length ≤ j) →
    (mt'.nodes j).hash = (mt.nodes j).hash
  /-- The inner nodes. -/
  inner : ∀ i, 1 ≤ i → i < 2 ^ (h - 1) → ∃ l r, (mt'.nodes (2 * i)).hash = some l ∧
    (mt'.nodes (2 * i + 1)).hash = some r ∧
      (mt'.nodes i).hash = some (parentHash sha3 heap i l r)

/-- Buffer mode changes leaf `f` as a rebuild does, and no hash off the path of the leaf. -/
def ChangesLeaf (h : ℕ) (mt : MerkleTree) (f : ℕ) (s : CStr) (datas : ℕ → Ptr) : Prop :=
  ∃ mt' mt'', changeAndRebuild sha3 heap mt [(f : ℤ)] datas .bufferMode = .ok (0, mt') ∧
    rebuild sha3 heap mt f [s] = .ok (0, mt'') ∧ SameHashes h mt' mt'' ∧
    Replaced sha3 heap h mt f [s] mt' ∧
    ∀ i ∈ BinTree.Nodes h, i ∉ BinTree.path f → (mt'.nodes i).hash = (mt.nodes i).hash

/-- File mode changes the run of leaves from `f` on as a rebuild does. -/
def ChangesRun (h : ℕ) (mt : MerkleTree) (f : ℕ) (ss : List CStr) (datas : ℕ → Ptr) : Prop :=
  ∃ mt' mt'', changeAndRebuild sha3 heap mt ((List.range' f ss.length).map Nat.cast) datas
      .fileMode = .ok (0, mt') ∧
    rebuild sha3 heap mt f ss = .ok (0, mt'') ∧ SameHashes h mt' mt'' ∧
    Replaced sha3 heap h mt f ss mt'

variable {sha3 heap} {mt mt' : MerkleTree} {h f : ℕ} {ss : List CStr} {leaf' τ τ' : ℕ → CStr}
  {s : CStr} {datas : ℕ → Ptr}

/-! ### The new hashes -/

theorem Consistent.exists_change (hold : Consistent sha3 heap h τ mt) (hne : ss ≠ [])
    (hlow : 2 ^ (h - 1) ≤ f) (hhigh : f + ss.length ≤ 2 ^ h) :
    ∃ τ', Change sha3 heap h mt f ss (leafAt f ss) τ τ' := by
  obtain ⟨τ', hτ'⟩ : ∃ τ', BinTree.Solves h (fun j => if f ≤ j ∧ j < f + ss.length then
      leafHash sha3 (leafAt f ss j) else τ j) (parentHash sha3 heap) τ' :=
    ⟨_, BinTree.solves_solution _ _⟩
  refine ⟨τ', hold, hτ'.inner, hne, hlow, hhigh, fun j hj hj' hout => ?_, fun _ _ _ => rfl,
    fun j hj hj' => ?_⟩
  · rw [hτ'.leaf j hj hj', if_neg (by omega)]
  · rw [hτ'.leaf j (by omega) (by omega), if_pos ⟨hj, hj'⟩]

/-- **A rebuild gives every node its new hash.** -/
theorem Change.rebuild (hc : Change sha3 heap h mt f ss leaf' τ τ') :
    ∃ mt', rebuild sha3 heap mt f ss = .ok (0, mt') ∧ Settled τ' (BinTree.Nodes h) mt' := by
  have hpos := Nat.two_pow_pos (h - 1)
  have hp := BinTree.two_pow_pred hc.old.shape.pos
  have hlow := hc.low
  have hhigh := hc.high
  set D := {j | 2 ^ (h - 1) ≤ j ∧ j < 2 ^ h ∧ (j < f ∨ f + ss.length ≤ j)} with hD
  set is := List.range' f ss.length ++ (List.range' 1 (2 ^ (h - 1) - 1)).reverse with his
  have hmem : ∀ i, i ∈ is ↔
      (f ≤ i ∧ i < f + ss.length) ∨ (1 ≤ i ∧ i < 2 ^ (h - 1)) := fun i => by
    rw [his, List.mem_append, List.mem_reverse, List.mem_range'_1, List.mem_range'_1]
    omega
  -- the other leaves have their hashes from the start
  have hold : Settled τ' D (mt.setDatas f ss) := fun j ⟨hj, hj', hout⟩ => by
    rw [MerkleTree.setDatas_hash, hc.old.settled j ⟨by omega, hj'⟩, hc.same j hj hj' hout]
  have hb : BinTree.BottomUp h D is := by
    refine (BinTree.bottomUp_of_ready fun i hi => ?_).append
      (BinTree.bottomUp_descending hc.old.shape.pos (by omega) fun i hi hi' => ?_)
    · rw [List.mem_range'_1] at hi
      exact ⟨by omega, by omega, fun hin => by omega⟩
    · by_cases hrun : f ≤ i ∧ i < f + ss.length
      · exact .inr (List.mem_range'_1.2 hrun)
      · exact .inl ⟨by omega, hi', by omega⟩
  have hrun := hashAll_of_bottomUp
    (fun i hi => rehashNode_stepsTo_of (hc.stepsTo fun hl _ => hc.hash i
      (by have := (hmem i).1 hi; omega) (by have := (hmem i).1 hi; omega)))
    (hc.old.shape.setDatas _ _) hold hb
    fun i hi hl => hc.data (by have := (hmem i).1 hi; omega) (by have := (hmem i).1 hi; omega)
  refine ⟨_, by rw [MerkleFs.rebuild, hc.old.shape.treeHeight, ← his, hrun], fun j hj => ?_⟩
  refine hold.setHashes is j ?_
  by_cases hin : j ∈ is
  · exact .inr hin
  · rw [hmem] at hin
    have hj' : 1 ≤ j ∧ j < 2 ^ h := hj
    exact .inl ⟨by omega, by omega, by omega⟩

theorem Change.replaced (hc : Change sha3 heap h mt f ss (leafAt f ss) τ τ')
    (hsettled : Settled τ' (BinTree.Nodes h) mt') : Replaced sha3 heap h mt f ss mt' where
  new j hj hj' := by
    have hlow := hc.low
    have hhigh := hc.high
    have hpos := Nat.two_pow_pos (h - 1)
    rw [hsettled j ⟨by omega, by omega⟩, hc.hash j hj hj']
  same j hj hj' hout := by
    have hpos := Nat.two_pow_pos (h - 1)
    rw [hsettled j ⟨by omega, hj'⟩, hc.old.settled j ⟨by omega, hj'⟩, hc.same j hj hj' hout]
  inner i hi hi' := by
    have hp := BinTree.two_pow_pred hc.old.shape.pos
    refine ⟨τ' (2 * i), τ' (2 * i + 1), hsettled _ ⟨by omega, by omega⟩,
      hsettled _ ⟨by omega, by omega⟩, ?_⟩
    rw [hsettled i ⟨hi, by omega⟩, hc.parent i hi hi']

theorem Change.congr {ts : List CStr} (hc : Change sha3 heap h mt f ss (leafAt f ss) τ τ')
    (hsame : ts.map (leafHash sha3) = ss.map (leafHash sha3)) :
    Change sha3 heap h mt f ts (leafAt f ts) τ τ' := by
  have hlen : ts.length = ss.length := by simpa using congrArg List.length hsame
  refine ⟨hc.old, hc.parent, ?_, hc.low, hlen ▸ hc.high, hlen ▸ hc.same, fun _ _ _ => rfl,
    fun j hj hj' => ?_⟩
  · rw [← List.length_pos_iff, hlen]
    exact hc.length_pos
  · obtain ⟨j, rfl⟩ := Nat.exists_eq_add_of_le hj
    have hj : j < ss.length := by omega
    have hget := List.getElem_of_eq hsame (i := j) (by rw [List.length_map, hlen]; exact hj)
    rw [List.getElem_map, List.getElem_map] at hget
    rw [hc.hash (f + j) (by omega) (by omega), leafAt_add, leafAt_add,
      List.getElem?_eq_getElem hj, List.getElem?_eq_getElem (by omega)]
    exact hget.symm

/-- A tree in which all hashes are the printed digest of zeros. -/
def zeroTree (h : ℕ) : MerkleTree := hashTree (2 ^ h) h fun _ => printDigest zeroDigest

theorem consistent_zeroTree (hh : 1 ≤ h) (hh' : h ≤ 30) :
    Consistent (fun _ => zeroDigest) .nul h (fun _ => printDigest zeroDigest) (zeroTree h) where
  shape := ⟨hh, hh', hashTree_nbNodes, hashTree_treeHeight⟩
  settled _ hi := hashTree_hash hi.1 hi.2
  terminated := Heap.terminated_nul
  parent _ _ _ := rfl

theorem stringToTree_zeroTree (hh : 1 ≤ h) :
    stringToTree (treeString (2 ^ h) fun _ => printDigest zeroDigest) = .ok (zeroTree h) :=
  stringToTree_treeString hh fun _ _ _ => isHash_printDigest _

/-! ### One leaf -/

/-- **Changing a leaf in buffer mode equals rebuilding.** -/
theorem changesLeaf_of_consistent (hold : Consistent sha3 heap h τ mt) (hlow : 2 ^ (h - 1) ≤ f)
    (hhigh : f < 2 ^ h) (hs : 1 + s.strlen ≤ PTR_SIZE * 2 * PAGE_LENGTH)
    (hd : (datas 0).str = some s) : ChangesLeaf sha3 heap h mt f s datas := by
  obtain ⟨τ', hc⟩ := hold.exists_change (List.cons_ne_nil s []) hlow hhigh
  obtain ⟨mt', hchange, -, hsettled⟩ := changeAndRebuild_bufferMode hs hd hc
  obtain ⟨mt'', hrebuild, hsettled'⟩ := hc.rebuild
  refine ⟨mt', mt'', hchange, hrebuild, hsettled.sameHashes hsettled', hc.replaced hsettled,
    fun i hi hpath => ?_⟩
  have hunt : i ∈ BinTree.Untouched h f f := by
    by_contra hno
    exact hpath (BinTree.mem_path_of_not_untouched hi hno)
  rw [hsettled i hi, hold.settled i hi, hc.eq_of_untouched hunt]

theorem changesLeaf_zeroTree :
    ChangesLeaf (fun _ => zeroDigest) .nul 2 (zeroTree 2) 3 filler fun _ => .heap filler :=
  changesLeaf_of_consistent (consistent_zeroTree (by decide) (by decide)) (by decide) (by decide)
    (by decide) rfl

/-! ### A run of leaves -/

theorem data_of_stringToTree (hread : stringToTree s = .ok mt) (i : ℕ) :
    (mt.nodes i).data = none := by
  obtain ⟨-, -, rfl⟩ := stringToTree_eq_ok_iff.1 hread
  exact hashTree_data

theorem changesRun_of_reads {ts : List CStr} (hold : Consistent sha3 heap h τ mt) (hne : ss ≠ [])
    (hlow : 2 ^ (h - 1) ≤ f) (hhigh : f + ss.length ≤ 2 ^ h) (hr : Reads datas 0 ts)
    (hsame : ts.map (leafHash sha3) = ss.map (leafHash sha3))
    (hover : BinTree.Overruns h f ss.length → f = 2 ^ (h - 1)) :
    ChangesRun sha3 heap h mt f ss datas := by
  obtain ⟨τ', hc⟩ := hold.exists_change hne hlow hhigh
  obtain ⟨mt'', hrebuild, hsettled'⟩ := hc.rebuild
  have hct := hc.congr hsame
  have hlen : ts.length = ss.length := by simpa using congrArg List.length hsame
  have hchange := changeAndRebuild_fileMode hr hct fun ho => hct.first (hover (hlen ▸ ho))
  have hsettled := settled_fileMode hct
  rw [hlen] at hchange hsettled
  exact ⟨_, mt'', hchange, hrebuild, hsettled.sameHashes hsettled', hc.replaced hsettled⟩

theorem not_changesRun_of_overruns {ts : List CStr} (hread : stringToTree s = .ok mt)
    (hold : Consistent sha3 heap h τ mt) (hne : ss ≠ []) (hlow : 2 ^ (h - 1) ≤ f)
    (hhigh : f + ss.length ≤ 2 ^ h) (hr : Reads datas 0 ts) (hlen : ts.length = ss.length)
    (hover : BinTree.Overruns h f ss.length) (hf : f ≠ 2 ^ (h - 1)) :
    ¬ ChangesRun sha3 heap h mt f ss datas := by
  rintro ⟨mt', -, hchange, -⟩
  have hne' : ts ≠ [] := by
    rw [← List.length_pos_iff] at hne ⊢
    omega
  obtain ⟨τ', hc⟩ := hold.exists_change hne' hlow (hlen ▸ hhigh)
  obtain ⟨mt'', hfail⟩ := changeAndRebuild_fileMode_fail hr hc (hlen ▸ hover) (by
    rw [MerkleTree.setDatas_data, if_neg (by omega), data_of_stringToTree hread])
  rw [← hlen, hfail] at hchange
  cases hchange

/-- A changed run has read as many strings, and those have the hashes of the pages. -/
theorem ChangesRun.exists_reads (hread : stringToTree s = .ok mt)
    (hold : Consistent sha3 heap h τ mt) (hne : ss ≠ []) (hlow : 2 ^ (h - 1) ≤ f)
    (hhigh : f + ss.length ≤ 2 ^ h) (hchanges : ChangesRun sha3 heap h mt f ss datas) :
    ∃ ts, Reads datas 0 ts ∧ ts.map (leafHash sha3) = ss.map (leafHash sha3) ∧
      (BinTree.Overruns h f ss.length → f = 2 ^ (h - 1)) := by
  obtain ⟨mt', mt'', hchange, -, -, hnew⟩ := id hchanges
  obtain ⟨mt₁, hdatas, -⟩ := Run.bind_eq_ok.1 hchange
  obtain ⟨ts, hr, hlen⟩ := changeDatas_eq_ok hdatas
  rw [List.length_map, List.length_range'] at hlen
  have hover : BinTree.Overruns h f ss.length → f = 2 ^ (h - 1) := fun ho => by
    by_contra hf
    exact not_changesRun_of_overruns hread hold hne hlow hhigh hr hlen ho hf hchanges
  refine ⟨ts, hr, List.ext_getElem (by simpa using hlen) fun j hj hj' => ?_, hover⟩
  -- both lists of hashes are the ones the leaves have afterwards
  have hne' : ts ≠ [] := by
    rw [← List.length_pos_iff] at hne ⊢
    omega
  obtain ⟨τ', hc⟩ := hold.exists_change hne' hlow (hlen ▸ hhigh)
  have hchange' := changeAndRebuild_fileMode hr hc fun ho => hc.first (hover (hlen ▸ ho))
  rw [hlen, hchange] at hchange'
  obtain rfl := (Prod.mk.inj (Except.ok.inj hchange')).2
  rw [List.length_map] at hj hj'
  have hsettled := settled_fileMode hc
  rw [hlen] at hsettled
  have hj₁ := (hc.replaced hsettled).new (f + j) (by omega) (by omega)
  have hj₂ := hnew.new (f + j) (by omega) (by omega)
  rw [hj₁, leafAt_add, leafAt_add, List.getElem?_eq_getElem hj, List.getElem?_eq_getElem hj'] at hj₂
  rw [List.getElem_map, List.getElem_map]
  exact Option.some.inj hj₂

/-- **When changing a run of leaves in file mode equals rebuilding.** -/
theorem changesRun_iff (hread : stringToTree s = .ok mt) (hold : Consistent sha3 heap h τ mt)
    (hne : ss ≠ []) (hlow : 2 ^ (h - 1) ≤ f) (hhigh : f + ss.length ≤ 2 ^ h)
    (hl : Layout datas 0 ss) : ChangesRun sha3 heap h mt f ss datas ↔
      (total ss.dropLast ≤ INT_MAX ∨ (∃ s ∈ ss.dropLast, INT_MAX + 1 < s.strlen) ∧
        ∃ ts, Reads datas 0 ts ∧ ts.map (leafHash sha3) = ss.map (leafHash sha3)) ∧
      (BinTree.Overruns h f ss.length → f = 2 ^ (h - 1)) := by
  constructor
  · intro hchanges
    obtain ⟨ts, hr, hsame, hover⟩ := hchanges.exists_reads hread hold hne hlow hhigh
    refine ⟨?_, hover⟩
    by_cases hlong : ∃ s ∈ ss.dropLast, INT_MAX + 1 < s.strlen
    · exact .inr ⟨hlong, ts, hr, hsame⟩
    · have hlen : ∀ s ∈ ss.dropLast, s.strlen ≤ INT_MAX + 1 :=
        fun s hs => not_lt.1 fun hlt => hlong ⟨s, hs, hlt⟩
      obtain rfl := hl.eq_of_reads (k := 0) (Nat.zero_le _) hlen hr
        (by simpa using congrArg List.length hsame)
      obtain ⟨-, hint⟩ := layout_of_reads (k := 0) (Nat.zero_le _) hlen hr
      exact .inl (by omega)
  · rintro ⟨hint | ⟨-, ts, hr, hsame⟩, hover⟩
    · exact changesRun_of_reads hold hne hlow hhigh (reads_of_layout (k := 0) (by omega) hl) rfl
        hover
    · exact changesRun_of_reads hold hne hlow hhigh hr hsame hover

/-- The second leaf of two. -/
theorem changesRun_zeroTree :
    ChangesRun (fun _ => zeroDigest) .nul 2 (zeroTree 2) 3 [filler] fun _ => .heap filler :=
  (changesRun_iff (stringToTree_zeroTree (by decide))
    (consistent_zeroTree (by decide) (by decide)) (List.cons_ne_nil filler []) (by decide)
    (by decide) ⟨rfl, trivial⟩).2 ⟨.inl (by decide), by decide⟩

/-- The last two leaves of four. -/
theorem not_changesRun_lastTwo :
    ¬ ∀ (sha3 : List Byte → Digest) (heap : Heap) (h : ℕ) (τ : ℕ → CStr) (s : CStr)
      (mt : MerkleTree) (f : ℕ) (ss : List CStr) (datas : ℕ → Ptr), stringToTree s = .ok mt →
      Consistent sha3 heap h τ mt → ss ≠ [] → (∀ p ∈ ss, p ≠ .nil) → 2 ^ (h - 1) ≤ f →
      f + ss.length ≤ 2 ^ h → Layout datas 0 ss → ChangesRun sha3 heap h mt f ss datas := by
  intro hall
  have hread := stringToTree_zeroTree (h := 3) (by decide)
  have hold := consistent_zeroTree (h := 3) (by decide) (by decide)
  have hl : Layout (fun _ => .heap filler) 0 [filler, filler] := ⟨rfl, rfl, trivial⟩
  exact not_changesRun_of_overruns hread hold (by decide) (by decide) (by decide)
    (reads_of_layout (k := 0) (by decide) hl) rfl (by decide) (by decide)
    (hall _ _ 3 _ _ _ 6 _ _ hread hold (by decide) (by decide) (by decide) (by decide) hl)

end MerkleFs
