import MerkleFs.Tree.Hash

/-!
# Building a tree

`build_tree` finds the pages behind a `char **` by adding up their lengths: page `j + 1` is the
string in the slot `strlen` of page `j` behind the slot of page `j`.  `walk` is that reading of
the array, and `Layout` the arrays it reads a given list of pages from.

* `buildTree_of_walk` : `build_tree` succeeds when the walk meets no NULL slot, and then every
  node holds the hash string it should (`builtTree`).
* `buildTree_of_walk_none` : a NULL slot on the way makes it return `-1`.
* `buildTree_eq_ok` : if it returns `0`, it has built the tree of the strings it read.
-/

namespace MerkleFs

/-- What a slot of a `char **` array holds. -/
inductive Ptr where
  /-- NULL. -/
  | null
  /-- A block of the heap holding a string. -/
  | heap (s : CStr)
  /-- A string literal. -/
  | lit (s : CStr)

/-- The string a pointer points to. -/
def Ptr.str : Ptr → Option CStr
  | .null => none
  | .heap s => some s
  | .lit s => some s

/-- `malloc` of the data block of leaf `i`, and `strlcpy` of a whole string into it. -/
def copyData (mt : MerkleTree) (i : ℕ) (s : CStr) : Run MerkleTree :=
  if PTR_SIZE * 2 * PAGE_LENGTH < 1 + s.strlen then .error .bounds
  else .ok (mt.setData i (some s))

/-- The string that slot `k` of an array points to.  Slots with a negative index are in front of the
array. -/
def slot (datas : ℕ → Ptr) (k : ℤ) : Run (Option CStr) :=
  if k < 0 then .error .bounds else .ok (datas k.toNat).str

variable (sha3 : List Byte → Digest) (heap : Heap)

/-- The loop of `build_tree` over `n` leaves from node `i` and slot `dataSize` on.  The sum of
`data_size` and a length is a `size_t`, which is converted to `int` then. -/
def buildLeaves (datas : ℕ → Ptr) : ℕ → ℕ → ℤ → MerkleTree → Run (ℤ × MerkleTree)
  | 0, _, _, mt => .ok (0, mt)
  | n + 1, i, dataSize, mt => do
    match ← slot datas dataSize with
    | none => .ok (-1, mt)
    | some s => do
      let mt ← copyData mt i s
      orFail (rehashNode sha3 heap mt i)
        (buildLeaves datas n (i + 1) (intOf (dataSize + s.strlen)))

/-- `build_tree`. -/
def buildTree (mt : MerkleTree) (datas : ℕ → Ptr) : Run (ℤ × MerkleTree) := do
  let leafStartIndex ← shl1 (mt.treeHeight - 1)
  let nbNodes ← shl1 mt.treeHeight
  orFail
    (buildLeaves sha3 heap datas (nbNodes - leafStartIndex) leafStartIndex 0
      (.blank nbNodes mt.treeHeight))
    (hashAll (rehashNode sha3 heap) (List.range' 1 (leafStartIndex - 1)).reverse)

/-! ### Reading the array -/

/-- The strings that `n` leaves read from slot `k` on; `none` when a slot is NULL. -/
def walk (datas : ℕ → Ptr) : ℕ → ℕ → Option (List CStr)
  | 0, _ => some []
  | n + 1, k => (datas k).str.bind fun s => (walk datas n (k + s.strlen)).map (s :: ·)

/-- The array holds the pages at `strlen` strides from slot `k` on. -/
def Layout (datas : ℕ → Ptr) : ℕ → List CStr → Prop
  | _, [] => True
  | k, p :: ps => (datas k).str = some p ∧ Layout datas (k + p.strlen) ps

/-- An index that the lengths of the strings are added to, in an `int`, leads from `d` to the
strings, one after the other. -/
def Reads (datas : ℕ → Ptr) : ℤ → List CStr → Prop
  | _, [] => True
  | d, s :: ss => slot datas d = .ok (some s) ∧ Reads datas (intOf (d + s.strlen)) ss

/-- The strings, at `strlen` strides from slot `k` on, have room in the blocks of the leaves, and
their slots have `int` indexes.  (The end of the last string may be further away.) -/
def Fits : ℕ → List CStr → Prop
  | _, [] => True
  | k, s :: ss => 1 + s.strlen ≤ PTR_SIZE * 2 * PAGE_LENGTH ∧ k ≤ INT_MAX ∧ Fits (k + s.strlen) ss

/-- The length of a list of strings. -/
def total (ss : List CStr) : ℕ := (ss.map CStr.strlen).sum

/-- All strings of an array fit. -/
def Room (datas : ℕ → Ptr) : Prop :=
  ∀ k s, (datas k).str = some s →
    1 + s.strlen ≤ PTR_SIZE * 2 * PAGE_LENGTH ∧ k + s.strlen ≤ INT_MAX

/-- Entry `i - start` of a list of strings, `start` being the index of the first leaf. -/
def leafAt (start : ℕ) (ss : List CStr) (i : ℕ) : CStr := ss.getD (i - start) .nil

/-- Leaves `i, i + 1, …` hold the strings `ss`, with hashes computed from them by `f`. -/
def MerkleTree.setLeaves (mt : MerkleTree) (i : ℕ) (ss : List CStr) (f : CStr → Option CStr) :
    MerkleTree :=
  { mt with nodes := fun j => if i ≤ j ∧ j < i + ss.length then
      ⟨some (leafAt i ss j), f (leafAt i ss j)⟩ else mt.nodes j }

/-- The tree with `h` levels whose leaves hold `leaf` and whose nodes have the hashes `τ`. -/
def builtTree (h : ℕ) (leaf τ : ℕ → CStr) : MerkleTree where
  nbNodes := 2 ^ h
  treeHeight := h
  nodes i := ⟨if 2 ^ (h - 1) ≤ i ∧ i < 2 ^ h then some (leaf i) else none,
    if 1 ≤ i ∧ i < 2 ^ h then some (τ i) else none⟩

variable {sha3 heap} {datas : ℕ → Ptr} {mt mt' : MerkleTree} {h i n k : ℕ} {ss : List CStr}
  {τ : ℕ → CStr}

@[simp] theorem total_cons (s : CStr) (ss : List CStr) : total (s :: ss) = s.strlen + total ss := by
  simp [total]

/-! ### Slots -/

@[simp] theorem total_nil : total [] = 0 := rfl

theorem total_append (ss ts : List CStr) : total (ss ++ ts) = total ss + total ts := by
  simp [total]

theorem total_dropLast_cons (s : CStr) (hne : ss ≠ []) :
    total (s :: ss).dropLast = s.strlen + total ss.dropLast := by
  rw [List.dropLast_cons_of_ne_nil hne, total_cons]

theorem total_dropLast_le (ss : List CStr) : total ss.dropLast ≤ total ss := by
  rcases List.eq_nil_or_concat ss with rfl | ⟨ts, s, rfl⟩
  · exact le_rfl
  · rw [List.concat_eq_append, List.dropLast_concat, total_append]
    exact Nat.le_add_right _ _

@[simp] theorem slot_natCast (k : ℕ) : slot datas k = .ok (datas k).str := by
  rw [slot, if_neg (by omega), Int.toNat_natCast]

theorem slot_wrapped {s : CStr} (hk : k ≤ INT_MAX) (hs : s.strlen ≤ INT_MAX + 1)
    (hlt : INT_MAX < k + s.strlen) : slot datas (intOf (k + s.strlen)) = .error .bounds :=
  if_pos (intOf_add_neg hk hs hlt)

theorem reads_of_layout (hint : k + total ss.dropLast ≤ INT_MAX) (hl : Layout datas k ss) :
    Reads datas k ss := by
  induction ss generalizing k with
  | nil => trivial
  | cons s ss ih =>
    refine ⟨by rw [slot_natCast, hl.1], ?_⟩
    cases ss with
    | nil => trivial
    | cons t ts =>
      rw [total_dropLast_cons s (List.cons_ne_nil t ts), ← Nat.add_assoc] at hint
      rw [intOf_add_of_le (by omega)]
      exact ih hint hl.2

theorem le_of_reads_cons {s t : CStr} (hk : k ≤ INT_MAX) (hs : s.strlen ≤ INT_MAX + 1)
    (hr : Reads datas (intOf (k + s.strlen)) (t :: ss)) : k + s.strlen ≤ INT_MAX := by
  by_contra hlt
  have hslot := hr.1
  rw [slot_wrapped hk hs (not_le.1 hlt)] at hslot
  cases hslot

/-- Strings of at most `2^31` bytes are read from a layout only. -/
theorem layout_of_reads (hk : k ≤ INT_MAX) (hlen : ∀ s ∈ ss.dropLast, s.strlen ≤ INT_MAX + 1)
    (hr : Reads datas k ss) : Layout datas k ss ∧ k + total ss.dropLast ≤ INT_MAX := by
  induction ss generalizing k with
  | nil => exact ⟨trivial, hk⟩
  | cons s ss ih =>
    obtain ⟨hslot, hr⟩ := hr
    rw [slot_natCast] at hslot
    have hs := Except.ok.inj hslot
    cases ss with
    | nil => exact ⟨⟨hs, trivial⟩, hk⟩
    | cons t ts =>
      have hne := List.cons_ne_nil t ts
      rw [List.dropLast_cons_of_ne_nil hne] at hlen
      have hnext := le_of_reads_cons hk (hlen s List.mem_cons_self) hr
      rw [intOf_add_of_le hnext] at hr
      obtain ⟨hl, hint⟩ := ih hnext (fun u hu => hlen u (List.mem_cons_of_mem _ hu)) hr
      rw [total_dropLast_cons s hne, ← Nat.add_assoc]
      exact ⟨⟨hs, hl⟩, hint⟩

/-- From a layout of strings of at most `2^31` bytes nothing else is read. -/
theorem Layout.eq_of_reads {ts : List CStr} (hk : k ≤ INT_MAX)
    (hlen : ∀ s ∈ ss.dropLast, s.strlen ≤ INT_MAX + 1) (hl : Layout datas k ss)
    (hr : Reads datas k ts) (hts : ts.length = ss.length) : ts = ss := by
  induction ss generalizing k ts with
  | nil => exact List.length_eq_zero_iff.1 hts
  | cons s ss ih =>
    cases ts with
    | nil => cases hts
    | cons t ts =>
      obtain ⟨hslot, hr⟩ := hr
      rw [slot_natCast, hl.1] at hslot
      obtain rfl := Option.some.inj (Except.ok.inj hslot)
      cases ss with
      | nil => rw [List.length_eq_zero_iff.1 (Nat.succ.inj hts)]
      | cons u us =>
        cases ts with
        | nil => cases hts
        | cons t ts =>
          rw [List.dropLast_cons_of_ne_nil (List.cons_ne_nil u us)] at hlen
          have hnext := le_of_reads_cons hk (hlen s List.mem_cons_self) hr
          rw [intOf_add_of_le hnext] at hr
          rw [ih hnext (fun v hv => hlen v (List.mem_cons_of_mem _ hv)) hl.2 hr (Nat.succ.inj hts)]

theorem Reads.exists_slot {d : ℤ} {s : CStr} (hr : Reads datas d ss) (hs : s ∈ ss) :
    ∃ k, (datas k).str = some s := by
  induction ss generalizing d with
  | nil => exact absurd hs List.not_mem_nil
  | cons t ts ih =>
    rcases List.mem_cons.1 hs with rfl | hs
    · have hslot := hr.1
      unfold slot at hslot
      split_ifs at hslot
      exact ⟨_, Except.ok.inj hslot⟩
    · exact ih hr.2 hs

theorem strlen_le_of_room {s : CStr} (hs : 1 + s.strlen ≤ PTR_SIZE * 2 * PAGE_LENGTH) :
    s.strlen ≤ INT_MAX + 1 := by
  unfold PTR_SIZE PAGE_LENGTH at hs
  unfold INT_MAX
  omega

theorem walk_succ {s : CStr} (hs : (datas k).str = some s) :
    walk datas (n + 1) k = (walk datas n (k + s.strlen)).map (s :: ·) := by
  rw [walk, hs, Option.bind_some]

theorem walk_succ_none (hs : (datas k).str = none) : walk datas (n + 1) k = none := by
  rw [walk, hs, Option.bind_none]

theorem walk_cons (hw : walk datas (n + 1) k = some ss) :
    ∃ s ss', (datas k).str = some s ∧ walk datas n (k + s.strlen) = some ss' ∧ ss = s :: ss' := by
  obtain ⟨s, hs, hw⟩ := Option.bind_eq_some_iff.1 hw
  obtain ⟨ss', hw', rfl⟩ := Option.map_eq_some_iff.1 hw
  exact ⟨s, ss', hs, hw', rfl⟩

theorem length_of_walk (hw : walk datas n k = some ss) : ss.length = n := by
  induction n generalizing k ss with
  | zero => cases hw; rfl
  | succ n ih =>
    obtain ⟨s, ss', -, hw', rfl⟩ := walk_cons hw
    rw [List.length_cons, ih hw']

theorem walk_eq_some_iff : walk datas n k = some ss ↔ Layout datas k ss ∧ ss.length = n := by
  induction n generalizing k ss with
  | zero => cases ss <;> simp [walk, Layout]
  | succ n ih =>
    constructor
    · intro hw
      obtain ⟨s, ss', hs, hw', rfl⟩ := walk_cons hw
      exact ⟨⟨hs, (ih.1 hw').1⟩, congrArg (· + 1) (ih.1 hw').2⟩
    · rintro ⟨hl, hn⟩
      cases ss with
      | nil => cases hn
      | cons s ss =>
        rw [walk_succ hl.1, ih.2 ⟨hl.2, by simpa using hn⟩]
        rfl

/-- Where a walk meets a NULL slot. -/
theorem walk_eq_none_iff : walk datas n k = none ↔
    ∃ ps, Layout datas k ps ∧ ps.length < n ∧ (datas (k + total ps)).str = none := by
  induction n generalizing k with
  | zero => simp [walk]
  | succ n ih =>
    cases hk : (datas k).str with
    | none => exact ⟨fun _ => ⟨[], trivial, Nat.succ_pos n, hk⟩, fun _ => walk_succ_none hk⟩
    | some s =>
      rw [walk_succ hk, Option.map_eq_none_iff, ih]
      constructor
      · rintro ⟨ps, hl, hn, hnull⟩
        exact ⟨s :: ps, ⟨hk, hl⟩, Nat.succ_lt_succ hn, by rwa [total_cons, ← Nat.add_assoc]⟩
      · rintro ⟨ps, hl, hn, hnull⟩
        cases ps with
        | nil => exact absurd (hk.symm.trans hnull) (by simp)
        | cons p ps =>
          obtain rfl := Option.some.inj (hk.symm.trans hl.1)
          exact ⟨ps, hl.2, Nat.lt_of_succ_lt_succ hn, by rwa [total_cons, ← Nat.add_assoc] at hnull⟩

theorem Room.fits (hroom : Room datas) (hl : Layout datas k ss) : Fits k ss := by
  induction ss generalizing k with
  | nil => trivial
  | cons s ss ih =>
    obtain ⟨hlen, hint⟩ := hroom k s hl.1
    exact ⟨hlen, (Nat.le_add_right _ _).trans hint, ih hl.2⟩

theorem Room.total_le (hroom : Room datas) (hl : Layout datas k ss) (hk : k ≤ INT_MAX) :
    k + total ss ≤ INT_MAX := by
  induction ss generalizing k with
  | nil => exact hk
  | cons s ss ih =>
    rw [total_cons, ← Nat.add_assoc]
    exact ih hl.2 (hroom k s hl.1).2

/-- Strings that fit, by their total length before the last one. -/
theorem fits_iff : Fits k ss ↔ (∀ s ∈ ss, 1 + s.strlen ≤ PTR_SIZE * 2 * PAGE_LENGTH) ∧
    (ss = [] ∨ k + total ss.dropLast ≤ INT_MAX) := by
  induction ss generalizing k with
  | nil => simp [Fits]
  | cons s ss ih =>
    rw [Fits, ih, List.forall_mem_cons]
    by_cases hne : ss = []
    · subst hne
      simp
    · rw [total_dropLast_cons s hne]
      simp only [hne, reduceCtorEq, false_or, Nat.add_assoc]
      constructor
      · rintro ⟨hs, -, hss, hsum⟩
        exact ⟨⟨hs, hss⟩, hsum⟩
      · rintro ⟨⟨hs, hss⟩, hsum⟩
        exact ⟨hs, by omega, hss, hsum⟩

theorem Fits.total_le (hfit : Fits 0 ss) : total ss.dropLast ≤ INT_MAX := by
  rcases (fits_iff.1 hfit).2 with rfl | hsum
  · exact Nat.zero_le _
  · omega

theorem Fits.next {s : CStr} (hfit : Fits (k + s.strlen) ss) :
    ss = [] ∨ intOf (k + s.strlen) = (k + s.strlen : ℕ) := by
  cases ss with
  | nil => exact .inl rfl
  | cons t ts => exact .inr (intOf_add_of_le hfit.2.1)

theorem leafAt_self (s : CStr) (ss : List CStr) : leafAt i (s :: ss) i = s := by
  simp [leafAt]

theorem leafAt_cons {j : ℕ} (hj : i < j) (s : CStr) (ss : List CStr) :
    leafAt i (s :: ss) j = leafAt (i + 1) ss j := by
  obtain ⟨d, rfl⟩ := Nat.exists_eq_add_of_lt hj
  simp [leafAt, show i + d + 1 - i = d + 1 by omega, show i + d + 1 - (i + 1) = d by omega]

theorem leafAt_add (n i : ℕ) (ss : List CStr) : leafAt n ss (n + i) = (ss[i]?).getD .nil := by
  rw [leafAt, Nat.add_sub_cancel_left, List.getD_eq_getElem?_getD]

@[simp] theorem setLeaves_nil {f : CStr → Option CStr} : mt.setLeaves i [] f = mt := by
  unfold MerkleTree.setLeaves
  congr 1
  funext j
  rw [if_neg (by simp)]

theorem setLeaves_cons {f : CStr → Option CStr} {s : CStr} :
    ((mt.setData i (some s)).setHash i (f s)).setLeaves (i + 1) ss f =
      mt.setLeaves i (s :: ss) f := by
  simp only [MerkleTree.setLeaves, MerkleTree.setData, MerkleTree.setHash, List.length_cons]
  congr 1
  funext j
  rcases Nat.lt_trichotomy j i with hj | rfl | hj
  · rw [if_neg (by omega), if_neg (by omega), if_neg (by omega), if_neg (by omega)]
  · rw [if_neg (by omega), if_pos rfl, if_pos rfl, if_pos (by omega), leafAt_self]
  · by_cases hj' : j < i + (ss.length + 1)
    · rw [if_pos (by omega), if_pos (by omega), leafAt_cons hj]
    · rw [if_neg (by omega), if_neg (by omega), if_neg (by omega), if_neg (by omega)]

theorem copyData_of_fits {s : CStr} (hs : 1 + s.strlen ≤ PTR_SIZE * 2 * PAGE_LENGTH) :
    copyData mt i s = .ok (mt.setData i (some s)) := by
  rw [copyData, if_neg (by omega)]

theorem copyData_eq_ok {s : CStr} (hc : copyData mt i s = .ok mt') :
    1 + s.strlen ≤ PTR_SIZE * 2 * PAGE_LENGTH ∧ mt' = mt.setData i (some s) := by
  unfold copyData at hc
  split_ifs at hc with hlen
  exact ⟨by omega, (Except.ok.inj hc).symm⟩

theorem rehashNode_setData (hs : Shape h mt) (hi : 2 ^ (h - 1) ≤ i) (hi' : i < 2 ^ h) (s : CStr) :
    rehashNode sha3 heap (mt.setData i (some s)) i =
      .ok (0, (mt.setData i (some s)).setHash i (some (leafHash sha3 s))) := by
  rw [rehashNode, hashNode_leaf hs.setData.setHash hi hi'
    (d := s) (by rw [MerkleTree.setHash_data, MerkleTree.setData_data, if_pos rfl]),
    MerkleTree.setHash_setHash]

/-! ### The leaf loop -/

theorem buildLeaves_of_walk {d : ℤ} (hfit : Fits k ss) (hd : ss = [] ∨ d = k) (hs : Shape h mt)
    (hi : 2 ^ (h - 1) ≤ i) (hi' : i + n ≤ 2 ^ h) (hw : walk datas n k = some ss) :
    buildLeaves sha3 heap datas n i d mt =
      .ok (0, mt.setLeaves i ss fun s => some (leafHash sha3 s)) := by
  induction n generalizing i k d mt ss with
  | zero => cases hw; simp [buildLeaves]
  | succ n ih =>
    obtain ⟨s, ss', hk, hw', rfl⟩ := walk_cons hw
    obtain ⟨hlen, -, hfit⟩ := hfit
    obtain rfl := hd.resolve_left (List.cons_ne_nil s ss')
    rw [buildLeaves, slot_natCast, hk]
    simp only [Run.ok_bind, copyData_of_fits hlen, rehashNode_setData hs hi (by omega), orFail_ok]
    rw [ih hfit hfit.next hs.setData.setHash (by omega) (by omega) hw',
      setLeaves_cons (f := fun s => some (leafHash sha3 s))]

/-- A NULL slot behind strings that fit. -/
theorem buildLeaves_of_null (sha3 : List Byte → Digest) (heap : Heap)
    (hroom : ∀ s ∈ ss, 1 + s.strlen ≤ PTR_SIZE * 2 * PAGE_LENGTH) (hint : k + total ss ≤ INT_MAX)
    (hl : Layout datas k ss) (hn : ss.length < n) (hnull : (datas (k + total ss)).str = none)
    (hs : Shape h mt) (hi : 2 ^ (h - 1) ≤ i) (hi' : i + n ≤ 2 ^ h) :
    ∃ mt', buildLeaves sha3 heap datas n i k mt = .ok (-1, mt') := by
  induction ss generalizing i k n mt with
  | nil =>
    obtain ⟨n, rfl⟩ := Nat.exists_eq_succ_of_ne_zero (by omega : n ≠ 0)
    have hk : (datas k).str = none := hnull
    exact ⟨mt, by rw [buildLeaves, slot_natCast, hk]; rfl⟩
  | cons s ss ih =>
    obtain ⟨n, rfl⟩ := Nat.exists_eq_succ_of_ne_zero (by omega : n ≠ 0)
    rw [total_cons, ← Nat.add_assoc] at hnull hint
    have hlen := hroom s List.mem_cons_self
    rw [buildLeaves, slot_natCast, hl.1]
    simp only [Run.ok_bind, copyData_of_fits hlen, rehashNode_setData hs hi (by omega), orFail_ok]
    rw [intOf_add_of_le (by omega)]
    exact ih (fun t ht => hroom t (List.mem_cons_of_mem _ ht)) hint hl.2 (Nat.lt_of_succ_lt_succ hn)
      hnull hs.setData.setHash (by omega) (by omega)

/-- What the leaf loop has met when it returns. -/
theorem buildLeaves_eq_ok (hk : k ≤ INT_MAX) (hs : Shape h mt) (hi : 2 ^ (h - 1) ≤ i)
    (hi' : i + n ≤ 2 ^ h) {code : ℤ} (hb : buildLeaves sha3 heap datas n i k mt = .ok (code, mt')) :
    (code = -1 ∧ walk datas n k = none) ∨ (code = 0 ∧ ∃ ss, walk datas n k = some ss ∧ Fits k ss ∧
      mt' = mt.setLeaves i ss fun s => some (leafHash sha3 s)) := by
  induction n generalizing i k mt with
  | zero =>
    cases hb
    exact .inr ⟨rfl, [], rfl, trivial, by simp⟩
  | succ n ih =>
    rw [buildLeaves, slot_natCast, Run.ok_bind] at hb
    cases hslot : (datas k).str with
    | none => rw [hslot] at hb; cases hb; exact .inl ⟨rfl, walk_succ_none hslot⟩
    | some s =>
      rw [hslot] at hb
      obtain ⟨mt₁, hcopy, hb⟩ := Run.bind_eq_ok.1 hb
      obtain ⟨hlen, rfl⟩ := copyData_eq_ok hcopy
      rw [rehashNode_setData hs hi (by omega), orFail_ok] at hb
      rw [walk_succ hslot]
      by_cases hnext : k + s.strlen ≤ INT_MAX
      · rw [intOf_add_of_le hnext] at hb
        rcases ih hnext hs.setData.setHash (by omega) (by omega) hb with
          ⟨hcode, hw⟩ | ⟨hcode, ss, hw, hfit, rfl⟩
        · exact .inl ⟨hcode, by rw [hw]; rfl⟩
        · exact .inr ⟨hcode, s :: ss, by rw [hw]; rfl, ⟨hlen, hk, hfit⟩,
            setLeaves_cons (f := fun s => some (leafHash sha3 s))⟩
      · -- there is no next slot, so that this was the last leaf
        cases n with
        | zero =>
          cases hb
          exact .inr ⟨rfl, [s], rfl, ⟨hlen, hk, trivial⟩, by
            rw [← setLeaves_cons (f := fun s => some (leafHash sha3 s)), setLeaves_nil]⟩
        | succ n =>
          rw [buildLeaves, slot_wrapped hk (strlen_le_of_room hlen) (not_le.1 hnext)] at hb
          cases hb

/-! ### The whole tree -/

theorem shape_blank (hh : 1 ≤ h) (hh' : h ≤ 30) : Shape h (.blank (2 ^ h) h) := ⟨hh, hh', rfl, rfl⟩

theorem shape_setLeaves {f : CStr → Option CStr} (hs : Shape h mt) :
    Shape h (mt.setLeaves i ss f) :=
  ⟨hs.pos, hs.le, hs.nbNodes, hs.treeHeight⟩

/-- With the leaves in place, hashing all inner nodes gives the built tree. -/
theorem setHashes_setLeaves (hh : 1 ≤ h) (hss : ss.length = 2 ^ (h - 1))
    (hτ : Target sha3 heap h (leafAt (2 ^ (h - 1)) ss) τ) :
    ((MerkleTree.blank (2 ^ h) h).setLeaves (2 ^ (h - 1)) ss
        fun s => some (leafHash sha3 s)).setHashes τ (List.range' 1 (2 ^ (h - 1) - 1)).reverse =
      builtTree h (leafAt (2 ^ (h - 1)) ss) τ := by
  have hp := BinTree.two_pow_pred hh
  have hpos := Nat.two_pow_pos (h - 1)
  refine MerkleTree.ext_nodes (by simp [MerkleTree.setLeaves, MerkleTree.blank, builtTree])
    (by simp [MerkleTree.setLeaves, MerkleTree.blank, builtTree]) (fun j => ?_) (fun j => ?_)
  · rw [MerkleTree.setHashes_data]
    simp only [MerkleTree.setLeaves, MerkleTree.blank, builtTree, hss]
    by_cases hj : 2 ^ (h - 1) ≤ j ∧ j < 2 ^ h
    · rw [if_pos (by omega), if_pos hj]
    · rw [if_neg (by omega), if_neg hj]
  · rw [MerkleTree.setHashes_hash]
    simp only [MerkleTree.setLeaves, MerkleTree.blank, builtTree, hss, List.mem_reverse,
      List.mem_range'_1]
    by_cases hj : 2 ^ (h - 1) ≤ j ∧ j < 2 ^ h
    · rw [if_neg (by omega), if_pos (by omega), if_pos (by omega), hτ.leaf j hj.1 hj.2]
    · by_cases hj' : 1 ≤ j ∧ j < 2 ^ (h - 1)
      · rw [if_pos (by omega), if_pos (by omega)]
      · rw [if_neg (by omega), if_neg (by omega), if_neg (by omega)]

theorem settled_setLeaves (hh : 1 ≤ h) (hss : ss.length = 2 ^ (h - 1))
    (hτ : Target sha3 heap h (leafAt (2 ^ (h - 1)) ss) τ) :
    Settled τ {i | 2 ^ (h - 1) ≤ i ∧ i < 2 ^ h}
      ((MerkleTree.blank (2 ^ h) h).setLeaves (2 ^ (h - 1)) ss
        fun s => some (leafHash sha3 s)) := by
  have hp := BinTree.two_pow_pred hh
  rintro i ⟨hi, hi'⟩
  simp only [MerkleTree.setLeaves, if_pos (show 2 ^ (h - 1) ≤ i ∧ i < 2 ^ (h - 1) + ss.length by
    omega), hτ.leaf i hi hi']

theorem hashAll_setLeaves (hh : 1 ≤ h) (hh' : h ≤ 30) (hheap : heap.Terminated h)
    (hss : ss.length = 2 ^ (h - 1)) (hτ : Target sha3 heap h (leafAt (2 ^ (h - 1)) ss) τ) :
    hashAll (rehashNode sha3 heap) (List.range' 1 (2 ^ (h - 1) - 1)).reverse
      ((MerkleTree.blank (2 ^ h) h).setLeaves (2 ^ (h - 1)) ss
        fun s => some (leafHash sha3 s)) = .ok (0, builtTree h (leafAt (2 ^ (h - 1)) ss) τ) := by
  have hp := BinTree.two_pow_pred hh
  have hpos := Nat.two_pow_pos (h - 1)
  rw [hashAll_of_bottomUp (fun i _ => rehashNode_stepsTo hτ (hheap i))
    (shape_setLeaves (shape_blank hh hh')) (settled_setLeaves hh hss hτ)
    (BinTree.bottomUp_descending hh (by omega) fun i hi hi' => ⟨by omega, hi'⟩)
    (fun i hi hi' => by simp only [List.mem_reverse, List.mem_range'_1] at hi; omega),
    setHashes_setLeaves hh hss hτ]

/-- The loop over the inner nodes reads past the end of a buffer without a NUL. -/
theorem terminated_of_hashAll (hτ : Target sha3 heap h leaf τ) (hn : n < 2 ^ (h - 1))
    (hs : Shape h mt) (hD : Settled τ {i | n < i ∧ i < 2 ^ h} mt) {p : ℤ × MerkleTree}
    (hall : hashAll (rehashNode sha3 heap) (List.range' 1 n).reverse mt = .ok p) :
    ∀ i, 1 ≤ i → i ≤ n → 0 ∈ heap.tail i := by
  have hp := BinTree.two_pow_pred hs.pos
  induction n generalizing mt with
  | zero => intro i hi hi'; omega
  | succ n ih =>
    have hr : BinTree.Ready h {i | n + 1 < i ∧ i < 2 ^ h} (n + 1) :=
      ⟨by omega, by omega, fun _ => ⟨⟨by omega, by omega⟩, ⟨by omega, by omega⟩⟩⟩
    rw [BinTree.reverse_range'_succ, hashAll] at hall
    by_cases htail : 0 ∈ heap.tail (n + 1)
    · rw [rehashNode_stepsTo hτ (fun _ _ => htail) mt _ hs hD hr (by omega), orFail_ok] at hall
      intro i hi hi'
      rcases Nat.lt_or_ge n i with hlt | hge
      · rwa [show i = n + 1 by omega]
      · refine ih (by omega) hs.setHash (fun j hj => hD.setHash j ?_) hall i hi hge
        obtain ⟨hj, hj'⟩ := hj
        rcases Nat.lt_or_ge (n + 1) j with h' | h'
        · exact .inr ⟨h', hj'⟩
        · exact .inl (by omega)
    · rw [rehashNode_bounds hτ hs hD hr hn htail] at hall
      cases hall

theorem buildTree_eq_leaves (mt : MerkleTree) (hh : 1 ≤ h) (hh' : h ≤ 30)
    (hmt : mt.treeHeight = h) : buildTree sha3 heap mt datas =
      orFail (buildLeaves sha3 heap datas (2 ^ (h - 1)) (2 ^ (h - 1)) 0 (.blank (2 ^ h) h))
        (hashAll (rehashNode sha3 heap) (List.range' 1 (2 ^ (h - 1) - 1)).reverse) := by
  have hp := BinTree.two_pow_pred hh
  rw [buildTree, hmt, shl1_sub_one hh (by omega), shl1_natCast hh']
  simp only [Run.ok_bind, show 2 ^ h - 2 ^ (h - 1) = 2 ^ (h - 1) by omega]

/-- **`build_tree` builds the tree of the strings it reads.** -/
theorem buildTree_of_walk (mt : MerkleTree) (hh : 1 ≤ h) (hh' : h ≤ 30) (hmt : mt.treeHeight = h)
    (hheap : heap.Terminated h) (hfit : Fits 0 ss)
    (hw : walk datas (2 ^ (h - 1)) 0 = some ss)
    (hτ : Target sha3 heap h (leafAt (2 ^ (h - 1)) ss) τ) :
    buildTree sha3 heap mt datas = .ok (0, builtTree h (leafAt (2 ^ (h - 1)) ss) τ) := by
  have hp := BinTree.two_pow_pred hh
  rw [buildTree_eq_leaves mt hh hh' hmt,
    buildLeaves_of_walk hfit (.inr Nat.cast_zero.symm) (shape_blank hh hh') le_rfl (by omega) hw,
    orFail_ok]
  exact hashAll_setLeaves hh hh' hheap (length_of_walk hw) hτ

theorem terminated_of_buildTree (hh : 1 ≤ h) (hh' : h ≤ 30) (hmt : mt.treeHeight = h)
    (hfit : Fits 0 ss) (hw : walk datas (2 ^ (h - 1)) 0 = some ss) {p : ℤ × MerkleTree}
    (hb : buildTree sha3 heap mt datas = .ok p) : heap.Terminated h := by
  have hp := BinTree.two_pow_pred hh
  have hτ := BinTree.solves_solution (h := h)
    (fun i => leafHash sha3 (leafAt (2 ^ (h - 1)) ss i)) (parentHash sha3 heap)
  have hD := settled_setLeaves hh (length_of_walk hw) hτ
  rw [buildTree_eq_leaves mt hh hh' hmt,
    buildLeaves_of_walk hfit (.inr Nat.cast_zero.symm) (shape_blank hh hh') le_rfl (by omega) hw,
    orFail_ok] at hb
  exact fun i hi hi' => terminated_of_hashAll hτ (by omega) (shape_setLeaves (shape_blank hh hh'))
    (fun j hj => hD j ⟨by have := hj.1; omega, hj.2⟩) hb i hi (by omega)

theorem buildTree_of_null (sha3 : List Byte → Digest) (heap : Heap) (mt : MerkleTree) (hh : 1 ≤ h)
    (hh' : h ≤ 30) (hmt : mt.treeHeight = h)
    (hroom : ∀ s ∈ ss, 1 + s.strlen ≤ PTR_SIZE * 2 * PAGE_LENGTH) (hint : total ss ≤ INT_MAX)
    (hl : Layout datas 0 ss) (hss : ss.length < 2 ^ (h - 1))
    (hnull : (datas (total ss)).str = none) :
    ∃ mt', buildTree sha3 heap mt datas = .ok (-1, mt') := by
  have hp := BinTree.two_pow_pred hh
  obtain ⟨mt', hb⟩ := buildLeaves_of_null sha3 heap hroom (by rwa [Nat.zero_add]) hl hss
    (by rwa [Nat.zero_add]) (shape_blank hh hh') le_rfl (by omega)
  rw [Nat.cast_zero] at hb
  exact ⟨mt', by rw [buildTree_eq_leaves mt hh hh' hmt, hb, orFail_fail]⟩

/-- A NULL slot on the way makes `build_tree` fail. -/
theorem buildTree_of_walk_none (sha3 : List Byte → Digest) (heap : Heap) (mt : MerkleTree)
    (hh : 1 ≤ h) (hh' : h ≤ 30) (hmt : mt.treeHeight = h) (hroom : Room datas)
    (hw : walk datas (2 ^ (h - 1)) 0 = none) :
    ∃ mt', buildTree sha3 heap mt datas = .ok (-1, mt') := by
  obtain ⟨ss, hl, hss, hnull⟩ := walk_eq_none_iff.1 hw
  rw [Nat.zero_add] at hnull
  have hint := hroom.total_le hl (Nat.zero_le _)
  rw [Nat.zero_add] at hint
  exact buildTree_of_null sha3 heap mt hh hh' hmt (fits_iff.1 (hroom.fits hl)).1 hint hl hss hnull

/-- What a successful `build_tree` has built. -/
theorem buildTree_eq_ok (hh : 1 ≤ h) (hmt : mt.treeHeight = h)
    (hb : buildTree sha3 heap mt datas = .ok (0, mt')) :
    h ≤ 30 ∧ heap.Terminated h ∧ ∃ ss τ, walk datas (2 ^ (h - 1)) 0 = some ss ∧ Fits 0 ss ∧
      Target sha3 heap h (leafAt (2 ^ (h - 1)) ss) τ ∧
      mt' = builtTree h (leafAt (2 ^ (h - 1)) ss) τ := by
  have hp := BinTree.two_pow_pred hh
  have hh' : h ≤ 30 := by
    rw [buildTree, hmt] at hb
    obtain ⟨_, -, hb⟩ := Run.bind_eq_ok.1 hb
    obtain ⟨_, hnb, -⟩ := Run.bind_eq_ok.1 hb
    unfold shl1 at hnb
    split_ifs at hnb with hc
    omega
  rw [buildTree_eq_leaves mt hh hh' hmt] at hb
  obtain ⟨code, mt₁, hc, hleaves, hb⟩ := orFail_eq_ok hb (by decide)
  obtain ⟨-, ss, hw, hfit, rfl⟩ :=
    (buildLeaves_eq_ok (k := 0) (Nat.zero_le _) (shape_blank hh hh') le_rfl (by omega)
      hleaves).resolve_left fun h => hc h.1
  have hss := length_of_walk hw
  have hτ := BinTree.solves_solution (h := h)
    (fun i => leafHash sha3 (leafAt (2 ^ (h - 1)) ss i)) (parentHash sha3 heap)
  have hD := settled_setLeaves hh hss hτ
  have hheap : heap.Terminated h := fun i hi hi' =>
    terminated_of_hashAll hτ (by omega) (shape_setLeaves (shape_blank hh hh'))
      (fun j hj => hD j ⟨by have := hj.1; omega, hj.2⟩) hb i hi (by omega)
  rw [hashAll_setLeaves hh hh' hheap hss hτ] at hb
  cases hb
  exact ⟨hh', hheap, ss, _, hw, hfit, hτ, rfl⟩

end MerkleFs
