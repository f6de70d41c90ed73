import MerkleFs.Parse.Stored

/-!
# Changing one page of a stored tree

`quick_change` handles writes at page boundaries: it puts the string in the write buffer into the
leaf of the first page and rehashes the path above it, without reading the file.  When the page
is behind the last leaf, it first doubles the tree (`get_bigger_tree`).  The number of bytes
written plays no role.

* `getBiggerTree_eq` : the doubled tree.
* `quickChange_eq` : what `quick_change` does on a stored tree.
* `quickChange_eq_ok` : what it needs to return `0`.
-/

namespace MerkleFs

variable (sha3 : List Byte → Digest) (heap : Heap)

/-! ### The code -/

/-- The loop of `get_bigger_tree` that copies the hashes of leaves. -/
def copyHashes (oldMt : MerkleTree) (oldStartIndex newStartIndex : ℕ) :
    List ℕ → MerkleTree → Run MerkleTree
  | [], mt => .ok mt
  | i :: is, mt =>
    match (oldMt.nodes (oldStartIndex + i)).hash with
    | none => .error .nullDeref
    | some s =>
      if PTR_SIZE * s.strlen < 1 + s.strlen then .error .bounds
      else copyHashes oldMt oldStartIndex newStartIndex is (mt.setHash (newStartIndex + i) (some s))

/-- One turn of the loop of `get_bigger_tree` over the filler leaves. -/
def hashFiller (mt : MerkleTree) (i : ℕ) : Run (ℤ × MerkleTree) :=
  rehashNode sha3 heap (mt.setData i (some filler)) i

/-- The hash of leaf `j` is not one of the `n` copied ones from leaf `start` on, or its block, of
`sizeof(char *)` bytes for each character, has the bytes that `hash_node` copies of it. -/
def InBlock (start n j : ℕ) (s : CStr) : Prop :=
  start ≤ j ∧ j < start + n → HASH_SIZE / BYTE_SIZE ≤ PTR_SIZE * s.strlen

instance (start n j : ℕ) (s : CStr) : Decidable (InBlock start n j s) :=
  inferInstanceAs (Decidable (_ → _))

/-- One turn of the loop of `get_bigger_tree` over the inner nodes, when the hashes of `n` leaves
from leaf `start` on have been copied. -/
def rehashCopied (start n : ℕ) (mt : MerkleTree) (i : ℕ) : Run (ℤ × MerkleTree) :=
  match (mt.nodes (2 * i)).hash, (mt.nodes (2 * i + 1)).hash with
  | some l, some r =>
    if InBlock start n (2 * i) l ∧ InBlock start n (2 * i + 1) r then rehashNode sha3 heap mt i
    else .error .bounds
  | _, _ => rehashNode sha3 heap mt i

/-- `get_bigger_tree`. -/
def getBiggerTree (oldMt : MerkleTree) : Run (ℤ × MerkleTree) := do
  let nbNodes ← shl1 (1 + oldMt.treeHeight)
  let oldStartIndex ← shl1 (oldMt.treeHeight - 1)
  let newStartIndex ← shl1 oldMt.treeHeight
  let copied := oldMt.nbNodes - oldStartIndex
  let mt ← copyHashes oldMt oldStartIndex newStartIndex (List.range copied)
    (.blank nbNodes (1 + oldMt.treeHeight))
  let start := newStartIndex + oldMt.nbNodes - oldStartIndex
  orFail (hashAll (hashFiller sha3 heap) (List.range' start (nbNodes - start)) mt)
    (hashAll (rehashCopied sha3 heap newStartIndex copied)
      (List.range' 1 (newStartIndex - 1)).reverse)

/-- `change_and_rebuild` for the one page in a write buffer. -/
def changePage (mt : MerkleTree) (index : ℤ) (buf : List Byte) : Run (ℤ × MerkleTree) := do
  let s ← readStr buf
  changeAndRebuild sha3 heap mt [index] (fun _ => .heap s) .bufferMode

/-- The end of `quick_change`, with `*mt` and what `change_and_rebuild` returned. -/
def finishChange (mt : MerkleTree) : ℤ × MerkleTree → Run Outcome
  | (code, newMt) =>
    if code = -1 then return ⟨-1, mt, .unset⟩
    else do
      let s ← treeToString newMt
      return ⟨0, mt, .string s⟩

/-- The page that `quick_change` changes. -/
def pageToChange (offset : ℤ) : ℤ := offset.tdiv PAGE_LENGTH

/-- The tree and the index that `quick_change` passes to `change_and_rebuild`; with `none` it does
not call it. -/
def quickCall (offset : ℤ) (mt : MerkleTree) : Run (Option (MerkleTree × ℤ)) :=
  if isFull offset then do
    let leafStartIndex ← shl1 (mt.treeHeight - 1)
    if (mt.nbNodes / 2 : ℕ) < pageToChange offset + 1 then do
      -- what `get_bigger_tree` returns is not looked at
      let (_, newMt) ← getBiggerTree sha3 heap mt
      let newLeafStartIndex ← shl1 (newMt.treeHeight - 1)
      return some (newMt, newLeafStartIndex + pageToChange offset)
    else return some (mt, leafStartIndex + pageToChange offset)
  else return none

/-- `quick_change`. -/
def quickChange (_size offset : ℤ) (buf : List Byte) (mt : MerkleTree) : Run Outcome := do
  match ← quickCall sha3 heap offset mt with
  | none => .ok ⟨-2, mt, .unset⟩
  | some (newMt, index) => do
    let changed ← changePage sha3 heap newMt index buf
    -- a tree that has not been doubled is changed itself
    finishChange (if (mt.nbNodes / 2 : ℕ) < pageToChange offset + 1 then mt else changed.2) changed

variable {sha3 heap} {c buf : List Byte} {mt oldMt : MerkleTree} {h i n p : ℕ} {size : ℤ}
  {τ τ' : ℕ → CStr} {leaf leaf' : ℕ → CStr} {o : Outcome}

/-! ### Doubling the tree -/

theorem copyHashes_eq {oldStart newStart : ℕ} {is : List ℕ}
    (hold : ∀ i ∈ is, (oldMt.nodes (oldStart + i)).hash = some (τ (newStart + i)) ∧
      1 ≤ (τ (newStart + i)).strlen) :
    copyHashes oldMt oldStart newStart is mt = .ok (mt.setHashes τ (is.map (newStart + ·))) := by
  induction is generalizing mt with
  | nil => rfl
  | cons i is ih =>
    obtain ⟨hhash, hlen⟩ := hold i List.mem_cons_self
    rw [copyHashes, hhash]
    simp only
    rw [if_neg (by unfold PTR_SIZE; omega), ih fun j hj => hold j (List.mem_cons_of_mem _ hj)]
    rfl

theorem copyHashes_treeHeight {oldStart newStart : ℕ} {is : List ℕ} {mt' : MerkleTree}
    (hc : copyHashes oldMt oldStart newStart is mt = .ok mt') : mt'.treeHeight = mt.treeHeight := by
  induction is generalizing mt with
  | nil => cases hc; rfl
  | cons i is ih =>
    rw [copyHashes] at hc
    cases hi : (oldMt.nodes (oldStart + i)).hash with
    | none => rw [hi] at hc; cases hc
    | some s =>
      rw [hi] at hc
      simp only at hc
      split_ifs at hc
      exact (ih hc).trans MerkleTree.setHash_treeHeight

/-- The doubled tree has one level more, whatever the code. -/
theorem getBiggerTree_treeHeight {q : ℤ × MerkleTree} (hq : getBiggerTree sha3 heap oldMt = .ok q) :
    q.2.treeHeight = 1 + oldMt.treeHeight := by
  obtain ⟨nbNodes, -, hq⟩ := Run.bind_eq_ok.1 hq
  obtain ⟨oldStart, -, hq⟩ := Run.bind_eq_ok.1 hq
  obtain ⟨newStart, -, hq⟩ := Run.bind_eq_ok.1 hq
  obtain ⟨mt, hcopy, hq⟩ := Run.bind_eq_ok.1 hq
  have hhash : ∀ mt i code mt', rehashNode sha3 heap mt i = .ok (code, mt') →
      mt'.treeHeight = mt.treeHeight := fun mt i code mt' hx =>
    (hashNode_shape hx).2.trans MerkleTree.setHash_treeHeight
  have hcopied : ∀ start n mt i code mt', rehashCopied sha3 heap start n mt i = .ok (code, mt') →
      mt'.treeHeight = mt.treeHeight := by
    intro start n mt i code mt' hx
    unfold rehashCopied at hx
    split at hx
    · split_ifs at hx
      exact hhash mt i code mt' hx
    · exact hhash mt i code mt' hx
  have hfiller : ∀ mt i code mt', hashFiller sha3 heap mt i = .ok (code, mt') →
      mt'.treeHeight = mt.treeHeight := fun mt i code mt' hx =>
    (hhash (mt.setData i (some filler)) i code mt' hx).trans MerkleTree.setData_treeHeight
  obtain ⟨⟨c, mt₁⟩, hi, hq⟩ := Run.bind_eq_ok.1 hq
  have hleaves := (hashAll_treeHeight hfiller hi).trans (copyHashes_treeHeight hcopy)
  by_cases hc : c = -1
  · simp only [hc, if_true] at hq
    cases hq
    exact hleaves
  · simp only [if_neg hc] at hq
    exact (hashAll_treeHeight (hcopied _ _) hq).trans hleaves

theorem hashFillers_eq (hs : Shape h mt) (hi : 2 ^ (h - 1) ≤ i) (hi' : i + n ≤ 2 ^ h) :
    hashAll (hashFiller sha3 heap) (List.range' i n) mt =
      .ok (0, mt.setLeaves i (List.replicate n filler) fun s => some (leafHash sha3 s)) := by
  induction n generalizing i mt with
  | zero => simp [hashAll]
  | succ n ih =>
    rw [List.range'_succ, hashAll, hashFiller, rehashNode_setData hs hi (by omega), orFail_ok,
      ih hs.setData.setHash (by omega) (by omega), List.replicate_succ]
    rw [setLeaves_cons (f := fun s => some (leafHash sha3 s))]

/-- The doubled tree before its inner nodes are hashed. -/
def biggerLeaves (sha3 : List Byte → Digest) (h : ℕ) (τ' : ℕ → CStr) : MerkleTree :=
  ((MerkleTree.blank (2 ^ (h + 1)) (h + 1)).setHashes τ'
    ((List.range (2 ^ (h - 1))).map (2 ^ h + ·))).setLeaves (2 ^ h + 2 ^ (h - 1))
      (List.replicate (2 ^ (h - 1)) filler) fun s => some (leafHash sha3 s)

theorem shape_biggerLeaves (hh : h + 1 ≤ 30) : Shape (h + 1) (biggerLeaves sha3 h τ') :=
  shape_setLeaves ((shape_blank (by omega) hh).setHashes _ _)

/-- The leaves of the doubled tree have their hashes. -/
theorem settled_biggerLeaves (hh : 1 ≤ h) (hτ' : Target sha3 heap (h + 1) leaf' τ')
    (hnew : ∀ j, 2 ^ h + 2 ^ (h - 1) ≤ j → j < 2 ^ (h + 1) → leaf' j = filler) :
    Settled τ' {j | 2 ^ h - 1 < j ∧ j < 2 ^ (h + 1)} (biggerLeaves sha3 h τ') := by
  have hp := BinTree.two_pow_pred hh
  have hp' : 2 ^ (h + 1) = 2 * 2 ^ h := by rw [pow_succ, mul_comm]
  have hleaf := hτ'.leaf
  rw [Nat.add_sub_cancel] at hleaf
  rintro j ⟨hj, hj'⟩
  simp only [biggerLeaves, MerkleTree.setLeaves, List.length_replicate]
  by_cases hold : j < 2 ^ h + 2 ^ (h - 1)
  · rw [if_neg (by omega), MerkleTree.setHashes_hash, if_pos]
    exact List.mem_map.2 ⟨j - 2 ^ h, List.mem_range.2 (by omega), by omega⟩
  · have hfill : leafAt (2 ^ h + 2 ^ (h - 1)) (List.replicate (2 ^ (h - 1)) filler) j = filler := by
      rw [leafAt, List.getD_eq_getElem?_getD, List.getElem?_replicate, if_pos (by omega),
        Option.getD_some]
    rw [if_pos (by omega), hfill, hleaf j (by omega) hj', hnew j (by omega) hj']

theorem rehashCopied_eq {start : ℕ} (hl : 32 ≤ (τ (2 * i)).strlen)
    (hr : 32 ≤ (τ (2 * i + 1)).strlen) (hleft : (mt.nodes (2 * i)).hash = some (τ (2 * i)))
    (hright : (mt.nodes (2 * i + 1)).hash = some (τ (2 * i + 1))) :
    rehashCopied sha3 heap start n mt i = rehashNode sha3 heap mt i := by
  have hin : ∀ j s, 32 ≤ s.strlen → InBlock start n j s := by
    intro j s hs _
    unfold HASH_SIZE BYTE_SIZE PTR_SIZE
    omega
  unfold rehashCopied
  rw [hleft, hright]
  exact if_pos ⟨hin _ _ hl, hin _ _ hr⟩

/-- The last loop of `get_bigger_tree` is that of `build_tree` then. -/
theorem hashAll_rehashCopied {start m : ℕ} (hτ : Target sha3 heap h leaf τ) (hn : n < 2 ^ (h - 1))
    (hs : Shape h mt) (hD : Settled τ {i | n < i ∧ i < 2 ^ h} mt) :
    hashAll (rehashCopied sha3 heap start m) (List.range' 1 n).reverse mt =
      hashAll (rehashNode sha3 heap) (List.range' 1 n).reverse mt := by
  have hp := BinTree.two_pow_pred hs.pos
  induction n generalizing mt with
  | zero => rfl
  | succ n ih =>
    have hleft := strlen_target hτ (i := 2 * (n + 1)) (by omega) (by omega)
    have hright := strlen_target hτ (i := 2 * (n + 1) + 1) (by omega) (by omega)
    have hr : BinTree.Ready h {i | n + 1 < i ∧ i < 2 ^ h} (n + 1) :=
      ⟨by omega, by omega, fun _ => ⟨⟨by omega, by omega⟩, ⟨by omega, by omega⟩⟩⟩
    rw [BinTree.reverse_range'_succ, hashAll, hashAll, rehashCopied_eq hleft hright
      (hD _ ⟨by omega, by omega⟩) (hD _ ⟨by omega, by omega⟩)]
    by_cases htail : 0 ∈ heap.tail (n + 1)
    · rw [rehashNode_stepsTo hτ (fun _ _ => htail) mt _ hs hD hr (by omega), orFail_ok, orFail_ok]
      refine ih (by omega) hs.setHash fun j hj => hD.setHash j ?_
      obtain ⟨hj, hj'⟩ := hj
      rcases Nat.eq_or_lt_of_le (Nat.succ_le_of_lt hj) with rfl | hlt
      · exact .inl rfl
      · exact .inr ⟨hlt, hj'⟩
    · rw [rehashNode_bounds hτ hs hD hr hn htail]
      rfl

/-- The code of `get_bigger_tree` up to its last loop. -/
theorem getBiggerTree_eq_hashAll (hs : Shape h mt) (hh : h + 1 ≤ 30)
    (hτ' : Target sha3 heap (h + 1) leaf' τ')
    (hold : ∀ i < 2 ^ (h - 1), (mt.nodes (2 ^ (h - 1) + i)).hash = some (τ' (2 ^ h + i)))
    (hnew : ∀ j, 2 ^ h + 2 ^ (h - 1) ≤ j → j < 2 ^ (h + 1) → leaf' j = filler) :
    getBiggerTree sha3 heap mt = hashAll (rehashNode sha3 heap) (List.range' 1 (2 ^ h - 1)).reverse
      (biggerLeaves sha3 h τ') := by
  have hp := BinTree.two_pow_pred hs.pos
  have hp' : 2 ^ (h + 1) = 2 * 2 ^ h := by rw [pow_succ, mul_comm]
  have hpos := Nat.two_pow_pos (h - 1)
  have hheight : (1 : ℤ) + mt.treeHeight = ((h + 1 : ℕ) : ℤ) := by rw [hs.treeHeight]; omega
  have hstart : shl1 mt.treeHeight = .ok (2 ^ h) := by
    rw [hs.treeHeight, shl1_natCast (by omega)]
  have hblank : Shape (h + 1) (.blank (2 ^ (h + 1)) (h + 1)) := shape_blank (by omega) hh
  rw [getBiggerTree, hheight, shl1_natCast hh, Run.ok_bind, hs.shl1_eq, Run.ok_bind, hstart,
    Run.ok_bind, hs.nbNodes, Nat.add_comm 1, hs.treeHeight,
    show 2 ^ h - 2 ^ (h - 1) = 2 ^ (h - 1) by omega]
  simp only
  rw [copyHashes_eq fun i hi => ⟨hold i (List.mem_range.1 hi), ?_⟩, Run.ok_bind,
    show 2 ^ h + 2 ^ h - 2 ^ (h - 1) = 2 ^ h + 2 ^ (h - 1) by omega,
    show 2 ^ (h + 1) - (2 ^ h + 2 ^ (h - 1)) = 2 ^ (h - 1) by omega,
    hashFillers_eq (hblank.setHashes _ _) (by rw [Nat.add_sub_cancel]; omega) (by omega), orFail_ok]
  · exact hashAll_rehashCopied hτ' (by rw [Nat.add_sub_cancel]; omega) (shape_biggerLeaves hh)
      (settled_biggerLeaves hs.pos hτ' hnew)
  · have := strlen_target hτ' (i := 2 ^ h + i) (by omega)
      (by have := List.mem_range.1 hi; omega)
    omega

/-- **The doubled tree** has the old leaves and filler leaves behind them. -/
theorem getBiggerTree_eq (hs : Shape h mt) (hh : h + 1 ≤ 30) (hheap : heap.Terminated (h + 1))
    (hτ' : Target sha3 heap (h + 1) leaf' τ')
    (hold : ∀ i < 2 ^ (h - 1), (mt.nodes (2 ^ (h - 1) + i)).hash = some (τ' (2 ^ h + i)))
    (hnew : ∀ j, 2 ^ h + 2 ^ (h - 1) ≤ j → j < 2 ^ (h + 1) → leaf' j = filler) :
    ∃ mt', getBiggerTree sha3 heap mt = .ok (0, mt') ∧ Shape (h + 1) mt' ∧
      Settled τ' (BinTree.Nodes (h + 1)) mt' := by
  have hp' : 2 ^ (h + 1) = 2 * 2 ^ h := by rw [pow_succ, mul_comm]
  have hpos := Nat.two_pow_pos h
  have hshape : Shape (h + 1) (biggerLeaves sha3 h τ') := shape_biggerLeaves hh
  have hD := settled_biggerLeaves hs.pos hτ' hnew
  rw [getBiggerTree_eq_hashAll hs hh hτ' hold hnew, hashAll_of_bottomUp
    (fun i _ => rehashNode_stepsTo hτ' (hheap i)) hshape hD
    (BinTree.bottomUp_descending (by omega) (by omega) fun i hi hi' => ⟨by omega, hi'⟩)
    (fun i hi hi' => by
      simp only [List.mem_reverse, List.mem_range'_1] at hi
      rw [Nat.add_sub_cancel] at hi'
      omega)]
  refine ⟨_, rfl, hshape.setHashes _ _, fun j ⟨hj, hj'⟩ => hD.setHashes _ j ?_⟩
  by_cases hleaf : 2 ^ h ≤ j
  · exact .inl ⟨by omega, hj'⟩
  · exact .inr (by
      show j ∈ (List.range' 1 (2 ^ h - 1)).reverse
      rw [List.mem_reverse, List.mem_range'_1]
      omega)

theorem terminated_of_getBiggerTree (hs : Shape h mt) (hh : h + 1 ≤ 30)
    (hτ' : Target sha3 heap (h + 1) leaf' τ')
    (hold : ∀ i < 2 ^ (h - 1), (mt.nodes (2 ^ (h - 1) + i)).hash = some (τ' (2 ^ h + i)))
    (hnew : ∀ j, 2 ^ h + 2 ^ (h - 1) ≤ j → j < 2 ^ (h + 1) → leaf' j = filler)
    {q : ℤ × MerkleTree} (hq : getBiggerTree sha3 heap mt = .ok q) : heap.Terminated (h + 1) := by
  have hpos := Nat.two_pow_pos h
  rw [getBiggerTree_eq_hashAll hs hh hτ' hold hnew] at hq
  intro i hi hi'
  rw [Nat.add_sub_cancel] at hi'
  exact terminated_of_hashAll hτ' (by rw [Nat.add_sub_cancel]; omega)
    (shape_biggerLeaves hh) (settled_biggerLeaves hs.pos hτ' hnew) hq i hi (by omega)

/-! ### Changing a page -/

/-- What `changePage` has done when it returns: the write buffer holds a string with room in a leaf,
which is there now, and the path above it has been hashed. -/
theorem changePage_eq_ok {index : ℤ} {q : ℤ × MerkleTree}
    (hq : changePage sha3 heap mt index buf = .ok q) :
    (0 ∈ buf ∧ 1 + (CStr.ofBlock buf).strlen ≤ PTR_SIZE * 2 * PAGE_LENGTH) ∧ 0 ≤ index ∧
      rehashPath sha3 heap index.toNat
        (mt.setData index.toNat (some (.ofBlock buf))) = .ok q := by
  obtain ⟨s, hs, hq⟩ := Run.bind_eq_ok.1 hq
  have hmem : 0 ∈ buf := by
    by_contra hno
    rw [readStr, if_neg hno] at hs
    cases hs
  rw [readStr_of_mem hmem] at hs
  cases hs
  obtain ⟨mt₁, hdatas, hq⟩ := Run.bind_eq_ok.1 hq
  obtain ⟨i, hi, hdatas⟩ := Run.bind_eq_ok.1 hdatas
  obtain ⟨p, hslot, hdatas⟩ := Run.bind_eq_ok.1 hdatas
  cases hslot
  obtain ⟨mt₂, hcopy, hdatas⟩ := Run.bind_eq_ok.1 hdatas
  cases hdatas
  obtain ⟨hlen, rfl⟩ := copyData_eq_ok hcopy
  unfold nodeIndex at hi
  split_ifs at hi with hneg
  cases hi
  exact ⟨⟨hmem, hlen⟩, not_lt.1 hneg, hq⟩

theorem changePage_out (hn : mt.nbNodes ≤ i) {q : ℤ × MerkleTree} (hi : i ≠ 0)
    (hq : changePage sha3 heap mt i buf = .ok q) : q.1 = -1 := by
  obtain ⟨-, -, hpath⟩ := changePage_eq_ok hq
  rw [Int.toNat_natCast, rehashPath, if_neg hi, rehashNode, hashNode_of_le (by simpa using hn),
    orFail_fail] at hpath
  cases hpath
  rfl

/-- **Changing a page of the tree.** -/
theorem changePage_eq (hheap : heap.Terminated h) (hmem : 0 ∈ buf)
    (hlen : 1 + (CStr.ofBlock buf).strlen ≤ PTR_SIZE * 2 * PAGE_LENGTH) {f : ℕ}
    (hu : Update sha3 heap h mt f [CStr.ofBlock buf] leaf leaf' τ τ') :
    ∃ mt', changePage sha3 heap mt f buf = .ok (0, mt') ∧ Shape h mt' ∧
      Settled τ' (BinTree.Nodes h) mt' := by
  rw [changePage, readStr_of_mem hmem, Run.ok_bind]
  exact changeAndRebuild_bufferMode hlen rfl (hu.change hheap)

theorem update_leaf (hs : Shape h mt) (hτ : Target sha3 heap h leaf τ)
    (hD : Settled τ (BinTree.Nodes h) mt) {f : ℕ} {x : CStr} (hf : 2 ^ (h - 1) ≤ f)
    (hf' : f < 2 ^ h) (hτ' : Target sha3 heap h (Function.update leaf f x) τ') :
    Update sha3 heap h mt f [x] leaf (Function.update leaf f x) τ τ' := by
  refine ⟨hs, hτ, hτ', hD, List.cons_ne_nil _ _, hf, hf', fun j _ _ hj => ?_, fun j hj hj' => ?_⟩
  · rw [Function.update_of_ne]
    rintro rfl
    simp at hj
  · obtain rfl : j = f := by
      rw [List.length_singleton] at hj'
      omega
    rw [Function.update_self, leafAt_self]

/-! ### On a tree as it is read back -/

theorem tdiv_offset (offset : ℕ) :
    ((offset : ℤ).tdiv PAGE_LENGTH) = (firstPage offset : ℕ) :=
  Int.ofNat_tdiv offset PAGE_LENGTH

variable {offset : ℕ}

theorem quickCall_of_lt (hs : Shape h mt) (hdvd : PAGE_LENGTH ∣ offset)
    (hp : firstPage offset < 2 ^ (h - 1)) : quickCall sha3 heap offset mt =
      .ok (some (mt, (2 ^ (h - 1) + firstPage offset : ℕ))) := by
  have hpow := BinTree.two_pow_pred hs.pos
  have hpage : pageToChange offset = (firstPage offset : ℕ) := tdiv_offset offset
  rw [quickCall, isFull_eq, decide_eq_true hdvd, if_pos rfl, hs.shl1_eq, Run.ok_bind, hpage,
    hs.nbNodes, if_neg (by omega), Nat.cast_add]
  rfl

/-- What is passed for a page behind the last leaf. -/
theorem quickCall_of_ge (sha3 : List Byte → Digest) (heap : Heap) (hs : Shape h mt)
    (hdvd : PAGE_LENGTH ∣ offset) (hp : 2 ^ (h - 1) ≤ firstPage offset) :
    quickCall sha3 heap offset mt = (do
      let (_, newMt) ← getBiggerTree sha3 heap mt
      return some (newMt, (2 ^ h + firstPage offset : ℕ))) := by
  have hle := hs.le
  have hpow := BinTree.two_pow_pred hs.pos
  have hpage : pageToChange offset = (firstPage offset : ℕ) := tdiv_offset offset
  rw [quickCall, isFull_eq, decide_eq_true hdvd, if_pos rfl, hs.shl1_eq, Run.ok_bind, hpage,
    hs.nbNodes, if_pos (by omega)]
  cases hbig : getBiggerTree sha3 heap mt with
  | error e => rfl
  | ok q =>
    have hheight := getBiggerTree_treeHeight hbig
    rw [hs.treeHeight] at hheight
    simp only [Run.ok_bind, hheight]
    rw [show ((1 + h : ℕ) : ℤ) - 1 = h by omega, shl1_natCast hle, Run.ok_bind, Nat.cast_add]

theorem finishChange_eq (hs : Shape h mt) (hh : h ≤ 16) (hτ : Target sha3 heap h leaf τ)
    (hD : Settled τ (BinTree.Nodes h) mt) (oldMt : MerkleTree) :
    finishChange oldMt (0, mt) = .ok ⟨0, oldMt, .string (treeString (2 ^ h) τ)⟩ := by
  rw [finishChange, if_neg (by decide), treeToString_of_settled hs hh hτ hD]
  rfl

theorem quickChange_of_lt (hs : Shape h mt) (hdvd : PAGE_LENGTH ∣ offset)
    (hp : firstPage offset < 2 ^ (h - 1)) : quickChange sha3 heap size offset buf mt = (do
      let changed ← changePage sha3 heap mt (2 ^ (h - 1) + firstPage offset : ℕ) buf
      finishChange changed.2 changed) := by
  have hpow := BinTree.two_pow_pred hs.pos
  have hpage : pageToChange offset = (firstPage offset : ℕ) := tdiv_offset offset
  have hin : ¬ ((2 ^ h / 2 : ℕ) : ℤ) < (firstPage offset : ℕ) + 1 := by omega
  rw [quickChange, quickCall_of_lt hs hdvd hp, Run.ok_bind]
  simp only [hpage, hs.nbNodes, if_neg hin]

theorem quickChange_of_ge (hs : Shape h mt) (hdvd : PAGE_LENGTH ∣ offset)
    (hp : 2 ^ (h - 1) ≤ firstPage offset) : quickChange sha3 heap size offset buf mt = (do
      let (_, newMt) ← getBiggerTree sha3 heap mt
      let changed ← changePage sha3 heap newMt (2 ^ h + firstPage offset : ℕ) buf
      finishChange mt changed) := by
  have hpow := BinTree.two_pow_pred hs.pos
  have hpage : pageToChange offset = (firstPage offset : ℕ) := tdiv_offset offset
  have hout : ((2 ^ h / 2 : ℕ) : ℤ) < (firstPage offset : ℕ) + 1 := by omega
  rw [quickChange, quickCall_of_ge sha3 heap hs hdvd hp]
  cases getBiggerTree sha3 heap mt with
  | error e => rfl
  | ok q => simp only [Run.ok_bind, Run.pure_eq, hpage, hs.nbNodes, if_pos hout]

/-- **A page of the tree is changed.** -/
theorem quickChange_fit (hr : ReadBack sha3 heap h mt leaf τ) (hdvd : PAGE_LENGTH ∣ offset)
    (hp : firstPage offset < 2 ^ (h - 1)) (hmem : 0 ∈ buf)
    (hlen : 1 + (CStr.ofBlock buf).strlen ≤ PTR_SIZE * 2 * PAGE_LENGTH)
    (hτ' : Target sha3 heap h
      (Function.update leaf (2 ^ (h - 1) + firstPage offset) (.ofBlock buf)) τ') :
    ∃ mt', quickChange sha3 heap size offset buf mt =
      .ok ⟨0, mt', .string (treeString (2 ^ h) τ')⟩ := by
  have hp₂ := BinTree.two_pow_pred hr.pos
  have hle := hr.le
  have hu := update_leaf hr.shape hr.target hr.settled (by omega) (by omega) hτ'
  obtain ⟨mt', hchange, hs', hD'⟩ := changePage_eq hr.terminated hmem hlen hu
  refine ⟨mt', ?_⟩
  rw [quickChange_of_lt hr.shape hdvd hp, hchange, Run.ok_bind,
    finishChange_eq hs' (by omega) hτ' hD']

/-- Data stored in an inner node, or in front of the tree, are not hashed. -/
theorem changePage_inner (hr : ReadBack sha3 heap h mt leaf τ) {index : ℤ}
    (hindex : index < (2 ^ (h - 1) : ℕ)) {q : ℤ × MerkleTree}
    (hq : changePage sha3 heap mt index buf = .ok q) :
    q.1 = 0 ∧ Shape h q.2 ∧ Settled τ (BinTree.Nodes h) q.2 := by
  have hp := BinTree.two_pow_pred hr.pos
  obtain ⟨-, hneg, hpath⟩ := changePage_eq_ok hq
  have hD : Settled τ (BinTree.Nodes h)
      (mt.setData index.toNat (some (.ofBlock buf))) := fun j hj => by
    rw [MerkleTree.setData_hash, hr.settled j hj]
  have hinner : ∀ j ∈ BinTree.path index.toNat, 1 ≤ j ∧ j < 2 ^ (h - 1) := fun j hj => by
    have hmem := BinTree.mem_path.1 hj
    have := hmem.2.le
    omega
  have hb : BinTree.BottomUp h (BinTree.Nodes h) (BinTree.path index.toNat) :=
    BinTree.bottomUp_of_ready fun j hj => by
      have := hinner j hj
      exact ⟨by omega, by omega, fun _ => ⟨⟨by omega, by omega⟩, ⟨by omega, by omega⟩⟩⟩
  have hrun := hashAll_of_bottomUp (fun i _ => rehashNode_stepsTo hr.target (hr.terminated i))
    hr.shape.setData hD hb fun j hj hl => by have := hinner j hj; omega
  rw [rehashPath_eq, hrun] at hpath
  cases hpath
  exact ⟨rfl, hr.shape.setData.setHashes _ _, fun j hj => hD.setHashes _ j (.inl hj)⟩

theorem quickChange_neg (hr : ReadBack sha3 heap h mt leaf τ) {offset : ℤ}
    (hfull : isFull offset = true) (hneg : pageToChange offset < 0)
    (hq : quickChange sha3 heap size offset buf mt = .ok o) :
    o.code = 0 ∧ o.result = .string (treeString (2 ^ h) τ) := by
  have hle := hr.le
  have hin : ¬ ((mt.nbNodes / 2 : ℕ) : ℤ) < pageToChange offset + 1 := by omega
  rw [quickChange, quickCall, if_pos hfull, hr.shape.shl1_eq] at hq
  simp only [Run.ok_bind, if_neg hin, Run.pure_eq] at hq
  obtain ⟨⟨code, mt'⟩, hchange, hq⟩ := Run.bind_eq_ok.1 hq
  obtain ⟨hcode, hs', hD'⟩ := changePage_inner hr (by omega) hchange
  obtain rfl : code = 0 := hcode
  rw [finishChange_eq hs' (by omega) hr.target hD'] at hq
  cases hq
  exact ⟨rfl, rfl⟩

/-- The leaves of the doubled tree. -/
def biggerLeaf (h : ℕ) (leaf : ℕ → CStr) (j : ℕ) : CStr :=
  if j < 2 ^ h + 2 ^ (h - 1) then leaf (j - 2 ^ (h - 1)) else filler

/-- Doubling a tree. -/
theorem getBiggerTree_readBack (hr : ReadBack sha3 heap h mt leaf τ)
    (hτ' : Target sha3 heap (h + 1) (biggerLeaf h leaf) τ') :
    ((∃ q, getBiggerTree sha3 heap mt = .ok q) → heap.Terminated (h + 1)) ∧
      (heap.Terminated (h + 1) → ∃ mt', getBiggerTree sha3 heap mt = .ok (0, mt') ∧
        Shape (h + 1) mt' ∧ Settled τ' (BinTree.Nodes (h + 1)) mt') := by
  have hle := hr.le
  have hp := BinTree.two_pow_pred hr.pos
  have hp' : 2 ^ (h + 1) = 2 * 2 ^ h := by rw [pow_succ, mul_comm]
  have hold : ∀ i < 2 ^ (h - 1),
      (mt.nodes (2 ^ (h - 1) + i)).hash = some (τ' (2 ^ h + i)) := fun i hi => by
    rw [hr.settled _ ⟨by omega, by omega⟩, hr.target.leaf _ (by omega) (by omega),
      hτ'.leaf _ (by rw [Nat.add_sub_cancel]; omega) (by omega), biggerLeaf, if_pos (by omega),
      show 2 ^ h + i - 2 ^ (h - 1) = 2 ^ (h - 1) + i by omega]
  have hnew : ∀ j, 2 ^ h + 2 ^ (h - 1) ≤ j → j < 2 ^ (h + 1) → biggerLeaf h leaf j = filler :=
    fun j hj _ => by rw [biggerLeaf, if_neg (by omega)]
  exact ⟨fun ⟨q, hq⟩ => terminated_of_getBiggerTree hr.shape (by omega) hτ' hold hnew hq,
    fun hheap => getBiggerTree_eq hr.shape (by omega) hheap hτ' hold hnew⟩

/-- **A page behind the last leaf doubles the tree.** -/
theorem quickChange_grow (hr : ReadBack sha3 heap h mt leaf τ) (hdvd : PAGE_LENGTH ∣ offset)
    (hp : 2 ^ (h - 1) ≤ firstPage offset) (hp' : firstPage offset < 2 ^ h)
    (hheap : heap.Terminated (h + 1)) (hmem : 0 ∈ buf)
    (hlen : 1 + (CStr.ofBlock buf).strlen ≤ PTR_SIZE * 2 * PAGE_LENGTH)
    (hτ' : Target sha3 heap (h + 1)
      (Function.update (biggerLeaf h leaf) (2 ^ h + firstPage offset) (.ofBlock buf)) τ') :
    quickChange sha3 heap size offset buf mt =
      .ok ⟨0, mt, .string (treeString (2 ^ (h + 1)) τ')⟩ := by
  have hle := hr.le
  have hp₃ : 2 ^ (h + 1) = 2 * 2 ^ h := by rw [pow_succ, mul_comm]
  obtain ⟨τ₁, hτ₁⟩ := exists_target sha3 heap (h + 1) (biggerLeaf h leaf)
  obtain ⟨newMt, hbig, hs₁, hD₁⟩ := (getBiggerTree_readBack hr hτ₁).2 hheap
  have hu := update_leaf hs₁ hτ₁ hD₁ (by rw [Nat.add_sub_cancel]; omega) (by omega) hτ'
  obtain ⟨mt', hchange, hs', hD'⟩ := changePage_eq hheap hmem hlen hu
  rw [quickChange_of_ge hr.shape hdvd hp, hbig, Run.ok_bind]
  simp only
  rw [hchange, Run.ok_bind, finishChange_eq hs' (by omega) hτ' hD']

theorem shape_of_getBiggerTree (hr : ReadBack sha3 heap h mt leaf τ) {q : ℤ × MerkleTree}
    (hq : getBiggerTree sha3 heap mt = .ok q) : heap.Terminated (h + 1) ∧ Shape (h + 1) q.2 := by
  obtain ⟨τ₁, hτ₁⟩ := exists_target sha3 heap (h + 1) (biggerLeaf h leaf)
  have hheap := (getBiggerTree_readBack hr hτ₁).1 ⟨q, hq⟩
  obtain ⟨mt', hbig, hs', -⟩ := (getBiggerTree_readBack hr hτ₁).2 hheap
  rw [hq] at hbig
  cases hbig
  exact ⟨hheap, hs'⟩

theorem quickChange_beyond (hr : ReadBack sha3 heap h mt leaf τ) (hdvd : PAGE_LENGTH ∣ offset)
    (hp : 2 ^ h ≤ firstPage offset) (hq : quickChange sha3 heap size offset buf mt = .ok o) :
    o.code = -1 ∧ o.mt = mt := by
  have hp₂ := BinTree.two_pow_pred hr.pos
  have hpos := Nat.two_pow_pos h
  rw [quickChange_of_ge hr.shape hdvd (by omega)] at hq
  obtain ⟨⟨code, newMt⟩, hbig, hq⟩ := Run.bind_eq_ok.1 hq
  obtain ⟨⟨code', mt''⟩, hchange, hq⟩ := Run.bind_eq_ok.1 hq
  have hs' := (shape_of_getBiggerTree hr hbig).2
  have hfail := changePage_out (by rw [hs'.nbNodes, pow_succ]; omega) (by omega) hchange
  simp only at hfail
  rw [finishChange, if_pos hfail] at hq
  cases hq
  exact ⟨rfl, rfl⟩

/-- What `quick_change` needs at a page boundary. -/
theorem buffer_of_quickChange {offset : ℤ} (hfull : isFull offset = true)
    (hq : quickChange sha3 heap size offset buf mt = .ok o) :
    0 ∈ buf ∧ 1 + (CStr.ofBlock buf).strlen ≤ PTR_SIZE * 2 * PAGE_LENGTH := by
  rw [quickChange] at hq
  obtain ⟨call, hcall, hq⟩ := Run.bind_eq_ok.1 hq
  cases call with
  | none =>
    rw [quickCall, if_pos hfull] at hcall
    obtain ⟨_, -, hcall⟩ := Run.bind_eq_ok.1 hcall
    split_ifs at hcall
    · obtain ⟨_, -, hcall⟩ := Run.bind_eq_ok.1 hcall
      obtain ⟨_, -, hcall⟩ := Run.bind_eq_ok.1 hcall
      cases hcall
    · cases hcall
  | some x =>
    obtain ⟨_, hchange, -⟩ := Run.bind_eq_ok.1 hq
    exact (changePage_eq_ok hchange).1

theorem biggerLeaf_append {ss : List CStr} (hh : 1 ≤ h) (hss : ss.length = 2 ^ (h - 1))
    (hi : i < 2 ^ h) : biggerLeaf h (leafAt (2 ^ (h - 1)) ss) (2 ^ h + i) =
      leafAt (2 ^ h) (ss ++ List.replicate ss.length filler) (2 ^ h + i) := by
  have hp := BinTree.two_pow_pred hh
  rw [leafAt_add, biggerLeaf]
  split_ifs with hold
  · rw [show 2 ^ h + i - 2 ^ (h - 1) = 2 ^ (h - 1) + i by omega, leafAt_add,
      List.getElem?_append_left (by omega)]
  · rw [List.getElem?_append_right (by omega), List.getElem?_replicate, if_pos (by omega),
      Option.getD_some]

/-! ### On the stored tree of a file -/

/-- The leaves of the doubled tree of a file. -/
def biggerStrings (c : List Byte) : List CStr :=
  leafStrings c ++ List.replicate (leafCount c.length) filler

theorem getElem?_biggerStrings (c : List Byte) (i : ℕ) : (biggerStrings c)[i]? =
    if i < leafCount c.length then (leafStrings c)[i]?
    else if i < 2 * leafCount c.length then some filler else none := by
  have hlen := length_leafStrings c
  unfold biggerStrings
  split_ifs with hold hnew
  · rw [List.getElem?_append_left (by omega)]
  · rw [List.getElem?_append_right (by omega), List.getElem?_replicate, if_pos (by omega)]
  · rw [List.getElem?_append_right (by omega), List.getElem?_replicate, if_neg (by omega)]

/-- The height of a stored tree after page `p` has been changed. -/
def changedHeight (c : List Byte) (p : ℕ) : ℕ :=
  if p < leafCount c.length then heightOf c.length else heightOf c.length + 1

/-- The leaves of a stored tree in which page `p` is going to be changed. -/
def changedStrings (c : List Byte) (p : ℕ) : List CStr :=
  if p < leafCount c.length then leafStrings c else biggerStrings c

/-- The leaves of a stored tree in which page `p` has become `x`. -/
def changedLeaf (c : List Byte) (p : ℕ) (x : CStr) : ℕ → CStr :=
  Function.update (leafAt (2 ^ (changedHeight c p - 1)) (changedStrings c p))
    (2 ^ (changedHeight c p - 1) + p) x

theorem changedHeight_pos (c : List Byte) (p : ℕ) : 1 ≤ changedHeight c p := by
  have := heightOf_pos c.length
  unfold changedHeight
  split_ifs <;> omega

theorem lt_changedHeight (hp : p < 2 * leafCount c.length) : p < 2 ^ (changedHeight c p - 1) := by
  have hpow := leafCount_eq_pow c.length
  have hp₂ := BinTree.two_pow_pred (heightOf_pos c.length)
  unfold changedHeight
  split_ifs
  · omega
  · rw [Nat.add_sub_cancel]
    omega

theorem length_changedStrings (c : List Byte) (p : ℕ) :
    (changedStrings c p).length = 2 ^ (changedHeight c p - 1) := by
  have hpow := leafCount_eq_pow c.length
  have hlen := length_leafStrings c
  have hp₂ := BinTree.two_pow_pred (heightOf_pos c.length)
  unfold changedStrings changedHeight
  split_ifs
  · rw [hlen, hpow]
  · rw [biggerStrings, List.length_append, List.length_replicate, Nat.add_sub_cancel]
    omega

theorem biggerLeaf_eq {j : ℕ} (hj : 2 ^ heightOf c.length ≤ j)
    (hj' : j < 2 ^ (heightOf c.length + 1)) :
    biggerLeaf (heightOf c.length) (leafAt (leafCount c.length) (leafStrings c)) j =
      leafAt (2 ^ heightOf c.length) (biggerStrings c) j := by
  have hpow := leafCount_eq_pow c.length
  have hlen := length_leafStrings c
  have hp' : 2 ^ (heightOf c.length + 1) = 2 * 2 ^ heightOf c.length := by rw [pow_succ, mul_comm]
  obtain ⟨i, rfl⟩ := Nat.exists_eq_add_of_le hj
  rw [hpow, biggerLeaf_append (heightOf_pos _) (hlen.trans hpow) (by omega), hlen, biggerStrings]

/-- **`quick_change` on a stored tree.** -/
theorem quickChange_eq (size : ℕ) (hst : Stored sha3 heap c mt τ) (hdvd : PAGE_LENGTH ∣ offset)
    (hp : firstPage offset < 2 * leafCount c.length)
    (hheap : heap.Terminated (changedHeight c (firstPage offset))) (hmem : 0 ∈ buf)
    (hlen : 1 + (CStr.ofBlock buf).strlen ≤ PTR_SIZE * 2 * PAGE_LENGTH)
    (hτ' : Target sha3 heap (changedHeight c (firstPage offset))
      (changedLeaf c (firstPage offset) (.ofBlock buf)) τ') :
    ∃ mt', quickChange sha3 heap size offset buf mt =
      .ok ⟨0, mt', .string (treeString (2 ^ changedHeight c (firstPage offset)) τ')⟩ := by
  have hpow := leafCount_eq_pow c.length
  have hp₂ := BinTree.two_pow_pred (heightOf_pos c.length)
  unfold changedLeaf changedHeight changedStrings at *
  split_ifs at hheap hτ' ⊢ with hin
  · rw [← hpow] at hτ'
    exact quickChange_fit hst.readBack hdvd (by omega) hmem hlen (by rwa [← hpow])
  · rw [Nat.add_sub_cancel] at hτ'
    exact ⟨mt, quickChange_grow hst.readBack hdvd (by omega) (by omega) hheap hmem hlen
      (hτ'.congr_leaf fun j hj hj' => by
        rw [Nat.add_sub_cancel] at hj
        rw [Function.update_apply, Function.update_apply, biggerLeaf_eq hj hj'])⟩

/-- What a successful `quick_change` needs. -/
theorem quickChange_eq_ok (hst : Stored sha3 heap c mt τ) (hdvd : PAGE_LENGTH ∣ offset)
    (hq : quickChange sha3 heap size offset buf mt = .ok o) (hcode : o.code = 0) :
    (0 ∈ buf ∧ 1 + (CStr.ofBlock buf).strlen ≤ PTR_SIZE * 2 * PAGE_LENGTH) ∧
      firstPage offset < 2 * leafCount c.length ∧
      heap.Terminated (changedHeight c (firstPage offset)) := by
  have hpow := leafCount_eq_pow c.length
  have hp₂ := BinTree.two_pow_pred (heightOf_pos c.length)
  have hp : firstPage offset < 2 * leafCount c.length := by
    by_contra hout
    have := (quickChange_beyond hst.readBack hdvd (by omega) hq).1
    omega
  refine ⟨buffer_of_quickChange (by rw [isFull_eq, decide_eq_true hdvd]) hq, hp, ?_⟩
  unfold changedHeight
  split_ifs with hin
  · exact hst.terminated
  · rw [quickChange_of_ge hst.shape hdvd (by omega)] at hq
    obtain ⟨q, hbig, -⟩ := Run.bind_eq_ok.1 hq
    exact (shape_of_getBiggerTree hst.readBack hbig).1

end MerkleFs
