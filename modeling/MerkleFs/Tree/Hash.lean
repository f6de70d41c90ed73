import MerkleFs.C.Basic
import MerkleFs.BinTree.Order

/-!
# Nodes of a Merkle tree and their hashes

The tree of `merkletree.h` and `hash_node`, which computes the hash of one node.  SHA3 is an
arbitrary function `sha3` from byte strings to digests; hashes are kept as printed digests, hex
strings without padding (`printDigest`).

* `leafHash`, `parentHash` : the hash strings of a leaf and of an inner node.
* `hashNode` : `hash_node`.  It prints what it finds in memory, so it takes the prior contents of
  the blocks that `malloc` returns (`Heap`) as an argument.
* `Shape` : a tree of the right shape, and `Target` : the hash strings it should hold.
-/

namespace MerkleFs

def HASH_SIZE : ℕ := 256

def BYTE_SIZE : ℕ := 8

def HEX : ℕ := 4

def PAGE_LENGTH : ℕ := 65536

/-- `sizeof(char *)`. -/
def PTR_SIZE : ℕ := 8

/-- A SHA3-256 digest. -/
structure Digest where
  /-- The bytes of the digest. -/
  bytes : List Byte
  /-- There are 32 of them. -/
  length_eq : bytes.length = HASH_SIZE / BYTE_SIZE
  deriving DecidableEq

/-- The digest of zeros. -/
def zeroDigest : Digest := ⟨List.replicate 32 0, by simp [HASH_SIZE, BYTE_SIZE]⟩

/-- The digest of ones. -/
def onesDigest : Digest := ⟨List.replicate 32 1, by simp [HASH_SIZE, BYTE_SIZE]⟩

/-! ### Printing -/

/-- The digit `%x` prints for `n < 16`. -/
def hexDigit (n : ℕ) : Byte := UInt8.ofNat (if n < 10 then 48 + n else 87 + n)

/-- `sprintf(string, "%x", b)`. -/
def sprintfX (b : Byte) : List Byte :=
  if b.toNat < 16 then [hexDigit b.toNat] else [hexDigit (b.toNat / 16), hexDigit (b.toNat % 16)]

theorem hexDigit_ne_zero : ∀ n < 16, hexDigit n ≠ 0 := by decide

theorem mem_sprintfX {b x : Byte} (h : x ∈ sprintfX b) : ∃ n < 16, x = hexDigit n := by
  have hb : b.toNat < 256 := b.toNat_lt
  unfold sprintfX at h
  split_ifs at h with hlt
  · exact ⟨_, hlt, List.mem_singleton.1 h⟩
  · simp only [List.mem_cons, List.not_mem_nil, or_false] at h
    rcases h with rfl | rfl
    · exact ⟨_, by omega, rfl⟩
    · exact ⟨_, by omega, rfl⟩

theorem length_sprintfX (b : Byte) : 1 ≤ (sprintfX b).length ∧ (sprintfX b).length ≤ 2 := by
  unfold sprintfX
  split_ifs <;> simp

/-- The string the `sprintf`/`strcat` loop of `hash_node` builds. -/
def printDigest (d : Digest) : CStr where
  bytes := d.bytes.flatMap sprintfX
  nulFree h := by
    obtain ⟨b, -, hb⟩ := List.mem_flatMap.1 h
    obtain ⟨n, hn, h0⟩ := mem_sprintfX hb
    exact hexDigit_ne_zero n hn h0.symm

theorem length_flatMap_sprintfX (l : List Byte) :
    l.length ≤ (l.flatMap sprintfX).length ∧ (l.flatMap sprintfX).length ≤ 2 * l.length := by
  induction l with
  | nil => simp
  | cons b l ih =>
    have := length_sprintfX b
    simp only [List.flatMap_cons, List.length_append, List.length_cons]
    omega

theorem strlen_printDigest (d : Digest) :
    32 ≤ (printDigest d).strlen ∧ (printDigest d).strlen ≤ 64 := by
  have := length_flatMap_sprintfX d.bytes
  rw [d.length_eq] at this
  exact this

/-! ### The tree -/

/-- A node (`node`); `none` is a NULL pointer. -/
@[ext]
structure Node where
  /-- The string a leaf holds. -/
  data : Option CStr
  /-- The printed hash. -/
  hash : Option CStr

/-- A tree (`merkle_tree`).  The block behind `nodes` has room for more nodes than the code ever
numbers, so it is a function on all indices; index `0` is not used. -/
@[ext]
structure MerkleTree where
  /-- `nb_nodes` : one more than the number of nodes. -/
  nbNodes : ℕ
  /-- `tree_height` : the number of levels. -/
  treeHeight : ℕ
  /-- The nodes. -/
  nodes : ℕ → Node

namespace MerkleTree

variable (mt : MerkleTree)

/-- `mt->nodes[i].hash = s`. -/
def setHash (i : ℕ) (s : Option CStr) : MerkleTree :=
  { mt with nodes := fun j => if j = i then { mt.nodes j with hash := s } else mt.nodes j }

/-- `mt->nodes[i].data = s`. -/
def setData (i : ℕ) (s : Option CStr) : MerkleTree :=
  { mt with nodes := fun j => if j = i then { mt.nodes j with data := s } else mt.nodes j }

/-- The nodes of a block that `malloc` returned. -/
def blank (nbNodes treeHeight : ℕ) : MerkleTree := ⟨nbNodes, treeHeight, fun _ => ⟨none, none⟩⟩

variable {mt} {i j : ℕ} {s : Option CStr}

theorem ext_nodes {mt mt' : MerkleTree} (hn : mt.nbNodes = mt'.nbNodes)
    (hh : mt.treeHeight = mt'.treeHeight) (hd : ∀ j, (mt.nodes j).data = (mt'.nodes j).data)
    (hs : ∀ j, (mt.nodes j).hash = (mt'.nodes j).hash) : mt = mt' :=
  MerkleTree.ext hn hh (funext fun j => Node.ext (hd j) (hs j))

@[simp] theorem setHash_nbNodes : (mt.setHash i s).nbNodes = mt.nbNodes := rfl

@[simp] theorem setHash_treeHeight : (mt.setHash i s).treeHeight = mt.treeHeight := rfl

@[simp] theorem setHash_data : ((mt.setHash i s).nodes j).data = (mt.nodes j).data := by
  simp only [setHash]; split_ifs <;> rfl

theorem setHash_hash :
    ((mt.setHash i s).nodes j).hash = if j = i then s else (mt.nodes j).hash := by
  simp only [setHash]; split_ifs <;> rfl

@[simp] theorem setHash_hash_self : ((mt.setHash i s).nodes i).hash = s := by
  rw [setHash_hash, if_pos rfl]

theorem setHash_setHash (t : Option CStr) : (mt.setHash i s).setHash i t = mt.setHash i t := by
  simp only [setHash, MerkleTree.mk.injEq, true_and]
  funext j
  split_ifs <;> rfl

theorem setHash_hash_of_ne (h : j ≠ i) : ((mt.setHash i s).nodes j).hash = (mt.nodes j).hash := by
  rw [setHash_hash, if_neg h]

@[simp] theorem setData_nbNodes : (mt.setData i s).nbNodes = mt.nbNodes := rfl

@[simp] theorem setData_treeHeight : (mt.setData i s).treeHeight = mt.treeHeight := rfl

@[simp] theorem setData_hash : ((mt.setData i s).nodes j).hash = (mt.nodes j).hash := by
  simp only [setData]; split_ifs <;> rfl

theorem setData_data :
    ((mt.setData i s).nodes j).data = if j = i then s else (mt.nodes j).data := by
  simp only [setData]; split_ifs <;> rfl

end MerkleTree

/-! ### Hashing a node -/

/-- Prior contents of the blocks that `malloc` returns. -/
structure Heap where
  /-- The last byte of the buffer a file is read into. -/
  fileTail : Byte
  /-- The bytes behind the two child hashes in the buffer of node `i`. -/
  concatTail : ℕ → ℕ → Byte

/-- All prior contents are NUL. -/
def Heap.nul : Heap := ⟨0, fun _ _ => 0⟩

/-- The filler page `" "`. -/
def filler : CStr := .ofString " " (by decide)

/-- The hash `hash_node` stores for the filler page. -/
def fillerHash : CStr :=
  .ofString "60e893e6d54d8526e55a81f98bfac5da236bb23e84ed5967a8f527d5bf3d4a4" (by decide)

/-- What is in the buffer of node `i` behind the two child hashes. -/
def Heap.tail (heap : Heap) (i : ℕ) : List Byte :=
  (List.range (PTR_SIZE * 2 * HASH_SIZE / BYTE_SIZE - 2 * (HASH_SIZE / BYTE_SIZE))).map
    (heap.concatTail i)

/-- The buffer an inner node is hashed from: the first 32 bytes of each child hash, then what was
in the block. -/
def concatBlock (heap : Heap) (i : ℕ) (l r : CStr) : List Byte :=
  l.block (HASH_SIZE / BYTE_SIZE) ++ r.block (HASH_SIZE / 8) ++ heap.tail i

variable (sha3 : List Byte → Digest)

/-- The hash string of a leaf holding `d`. -/
def leafHash (d : CStr) : CStr := if d = filler then fillerHash else printDigest (sha3 d.bytes)

/-- `hash_node`. -/
def hashNode (heap : Heap) (mt : MerkleTree) (i : ℕ) : Run (ℤ × MerkleTree) :=
  if mt.nbNodes < i + 1 then .ok (-1, mt)
  else do
    let leafStartIndex ← shl1 (mt.treeHeight - 1)
    if i < leafStartIndex then
      match (mt.nodes (2 * i)).hash, (mt.nodes (2 * i + 1)).hash with
      | some l, some r => do
        let buffer ← readStr (concatBlock heap i l r)
        return (0, mt.setHash i (some (printDigest (sha3 buffer.bytes))))
      | _, _ => return (-1, mt)
    else
      match (mt.nodes i).data with
      | some d => return (0, mt.setHash i (some (leafHash sha3 d)))
      | none => return (-1, mt)

/-- `hash_node` on a node whose hash has been cleared. -/
def rehashNode (heap : Heap) (mt : MerkleTree) (i : ℕ) : Run (ℤ × MerkleTree) :=
  hashNode sha3 heap (mt.setHash i none) i

/-- `if (x == -1) return -1;` before the rest `k` of a function. -/
def orFail (x : Run (ℤ × MerkleTree)) (k : MerkleTree → Run (ℤ × MerkleTree)) :
    Run (ℤ × MerkleTree) := do
  let (code, mt) ← x
  if code = -1 then return (-1, mt) else k mt

/-- A loop that hashes the nodes of a list in order and gives up at the first `-1`. -/
def hashAll (hash : MerkleTree → ℕ → Run (ℤ × MerkleTree)) :
    List ℕ → MerkleTree → Run (ℤ × MerkleTree)
  | [], mt => .ok (0, mt)
  | i :: is, mt => orFail (hash mt i) (hashAll hash is)

/-! ### What the hashes should be -/

/-- The string inner node `i` is hashed from. -/
def concat (heap : Heap) (i : ℕ) (l r : CStr) : CStr := CStr.ofBlock (concatBlock heap i l r)

/-- The hash string of inner node `i`. -/
def parentHash (heap : Heap) (i : ℕ) (l r : CStr) : CStr :=
  printDigest (sha3 (concat heap i l r).bytes)

/-- The buffers of the inner nodes of a tree with `h` levels have a NUL behind the child
hashes. -/
def Heap.Terminated (heap : Heap) (h : ℕ) : Prop :=
  ∀ i, 1 ≤ i → i < 2 ^ (h - 1) → 0 ∈ heap.tail i

/-- A tree with `h` levels (`2^h` must be an `int`). -/
structure Shape (h : ℕ) (mt : MerkleTree) : Prop where
  /-- There is a root. -/
  pos : 1 ≤ h
  /-- The number of nodes is an `int`. -/
  le : h ≤ 30
  /-- `nb_nodes`. -/
  nbNodes : mt.nbNodes = 2 ^ h
  /-- `tree_height`. -/
  treeHeight : mt.treeHeight = h

/-- The hash strings of a tree with `h` levels whose leaf `i` holds `leaf i`. -/
abbrev Target (heap : Heap) (h : ℕ) (leaf τ : ℕ → CStr) : Prop :=
  BinTree.Solves h (fun i => leafHash sha3 (leaf i)) (parentHash sha3 heap) τ

theorem exists_target (sha3 : List Byte → Digest) (heap : Heap) (h : ℕ) (leaf : ℕ → CStr) :
    ∃ τ, Target sha3 heap h leaf τ :=
  ⟨_, BinTree.solves_solution _ _⟩

/-- The nodes of `D` have the hash strings `τ`. -/
def Settled (τ : ℕ → CStr) (D : Set ℕ) (mt : MerkleTree) : Prop :=
  ∀ i ∈ D, (mt.nodes i).hash = some (τ i)

/-- Two trees with `h` levels have the same hashes. -/
def SameHashes (h : ℕ) (mt mt' : MerkleTree) : Prop :=
  ∀ i ∈ BinTree.Nodes h, (mt.nodes i).hash = (mt'.nodes i).hash

/-- Give the nodes of a list the hash strings `τ`. -/
def MerkleTree.setHashes (mt : MerkleTree) (τ : ℕ → CStr) (is : List ℕ) : MerkleTree :=
  is.foldl (fun mt i => mt.setHash i (some (τ i))) mt

/-- `hash` computes the hash string of node `i` whenever the node is ready. -/
def StepsTo (h : ℕ) (leaf τ : ℕ → CStr) (hash : MerkleTree → ℕ → Run (ℤ × MerkleTree))
    (i : ℕ) : Prop :=
  ∀ mt D, Shape h mt → Settled τ D mt → BinTree.Ready h D i →
    (2 ^ (h - 1) ≤ i → (mt.nodes i).data = some (leaf i)) →
      hash mt i = .ok (0, mt.setHash i (some (τ i)))

variable {sha3} {heap : Heap} {mt : MerkleTree} {h i : ℕ} {leaf τ : ℕ → CStr} {D : Set ℕ}

@[simp] theorem orFail_ok {k : MerkleTree → Run (ℤ × MerkleTree)} :
    orFail (.ok (0, mt)) k = k mt := rfl

@[simp] theorem orFail_fail {k : MerkleTree → Run (ℤ × MerkleTree)} :
    orFail (.ok (-1, mt)) k = .ok (-1, mt) := rfl

theorem orFail_eq_ok {x : Run (ℤ × MerkleTree)} {k : MerkleTree → Run (ℤ × MerkleTree)} {c : ℤ}
    {mt' : MerkleTree} (hx : orFail x k = .ok (c, mt')) (hc : c ≠ -1) :
    ∃ code mt, code ≠ -1 ∧ x = .ok (code, mt) ∧ k mt = .ok (c, mt') := by
  obtain ⟨⟨code, mt⟩, hx, hk⟩ := Run.bind_eq_ok.1 hx
  by_cases hcode : code = -1
  · simp only [hcode, if_true] at hk
    cases hk
    exact absurd rfl hc
  · simp only [if_neg hcode] at hk
    exact ⟨code, mt, hcode, hx, hk⟩

theorem strlen_leafHash (d : CStr) : 32 ≤ (leafHash sha3 d).strlen := by
  unfold leafHash
  split_ifs
  · decide
  · exact (strlen_printDigest _).1

theorem Target.congr_leaf {leaf' : ℕ → CStr} (hτ : Target sha3 heap h leaf τ)
    (hleaf : ∀ j, 2 ^ (h - 1) ≤ j → j < 2 ^ h → leaf' j = leaf j) : Target sha3 heap h leaf' τ :=
  ⟨fun j hj hj' => by rw [hτ.leaf j hj hj', hleaf j hj hj'], hτ.inner⟩

theorem strlen_target (hτ : Target sha3 heap h leaf τ) (hi : 1 ≤ i) (hi' : i < 2 ^ h) :
    32 ≤ (τ i).strlen := by
  rcases Nat.lt_or_ge i (2 ^ (h - 1)) with hlt | hge
  · rw [hτ.inner i hi hlt]; exact (strlen_printDigest _).1
  · rw [hτ.leaf i hge hi']; exact strlen_leafHash _

theorem Heap.terminated_nul : Heap.nul.Terminated h := fun i _ _ => by
  exact List.mem_map.2 ⟨0, List.mem_range.2 (by decide), rfl⟩

theorem readStr_concatBlock (l r : CStr) (hheap : 0 ∈ heap.tail i) :
    readStr (concatBlock heap i l r) = .ok (concat heap i l r) :=
  readStr_of_mem (List.mem_append_right _ hheap)

theorem concatBlock_of_le (heap : Heap) (i : ℕ) {l r : CStr} (hl : 32 ≤ l.strlen)
    (hr : 32 ≤ r.strlen) :
    concatBlock heap i l r = (l.bytes.take 32 ++ r.bytes.take 32) ++ heap.tail i ∧
      0 ∉ l.bytes.take 32 ++ r.bytes.take 32 := by
  have hl' : l.block (HASH_SIZE / BYTE_SIZE) = l.bytes.take 32 := CStr.block_of_le hl
  have hr' : r.block (HASH_SIZE / 8) = r.bytes.take 32 := CStr.block_of_le hr
  refine ⟨by rw [concatBlock, hl', hr'], fun h0 => ?_⟩
  rcases List.mem_append.1 h0 with h0 | h0
  · exact l.nulFree (List.mem_of_mem_take h0)
  · exact r.nulFree (List.mem_of_mem_take h0)

theorem bytes_concat {l r : CStr} (hl : 32 ≤ l.strlen) (hr : 32 ≤ r.strlen) :
    (concat heap i l r).bytes =
      l.bytes.take 32 ++ r.bytes.take 32 ++ (CStr.ofBlock (heap.tail i)).bytes := by
  obtain ⟨hblock, hfree⟩ := concatBlock_of_le heap i hl hr
  rw [concat, hblock, CStr.bytes_ofBlock_append hfree]

theorem readStr_concatBlock_bounds {l r : CStr} (hl : 32 ≤ l.strlen) (hr : 32 ≤ r.strlen)
    (hheap : 0 ∉ heap.tail i) : readStr (concatBlock heap i l r) = .error .bounds := by
  obtain ⟨hblock, hfree⟩ := concatBlock_of_le heap i hl hr
  rw [readStr, hblock, if_neg]
  rw [List.mem_append, not_or]
  exact ⟨hfree, hheap⟩

namespace Shape

theorem shl1_eq (hs : Shape h mt) : shl1 ((mt.treeHeight : ℤ) - 1) = .ok (2 ^ (h - 1)) := by
  rw [hs.treeHeight, shl1_sub_one hs.pos (by have := hs.le; omega)]

theorem setHash (hs : Shape h mt) {s : Option CStr} : Shape h (mt.setHash i s) :=
  ⟨hs.pos, hs.le, hs.nbNodes, hs.treeHeight⟩

theorem setData (hs : Shape h mt) {s : Option CStr} : Shape h (mt.setData i s) :=
  ⟨hs.pos, hs.le, hs.nbNodes, hs.treeHeight⟩

end Shape

theorem hashNode_of_le (hi : mt.nbNodes ≤ i) : hashNode sha3 heap mt i = .ok (-1, mt) := by
  rw [hashNode, if_pos (by omega)]

theorem hashNode_leaf (hs : Shape h mt) (hi : 2 ^ (h - 1) ≤ i) (hi' : i < 2 ^ h) {d : CStr}
    (hd : (mt.nodes i).data = some d) :
    hashNode sha3 heap mt i = .ok (0, mt.setHash i (some (leafHash sha3 d))) := by
  rw [hashNode, if_neg (by rw [hs.nbNodes]; omega), hs.shl1_eq]
  simp only [Run.ok_bind, if_neg (Nat.not_lt.2 hi), hd]
  rfl

theorem hashNode_leaf_none (sha3 : List Byte → Digest) (heap : Heap) (hs : Shape h mt)
    (hi : 2 ^ (h - 1) ≤ i) (hi' : i < 2 ^ h)
    (hd : (mt.nodes i).data = none) : hashNode sha3 heap mt i = .ok (-1, mt) := by
  rw [hashNode, if_neg (by rw [hs.nbNodes]; omega), hs.shl1_eq]
  simp only [Run.ok_bind, if_neg (Nat.not_lt.2 hi), hd]
  rfl

theorem hashNode_inner (hs : Shape h mt) (hi : i < 2 ^ (h - 1)) {l r : CStr}
    (hl : (mt.nodes (2 * i)).hash = some l) (hr : (mt.nodes (2 * i + 1)).hash = some r)
    (hheap : 0 ∈ heap.tail i) :
    hashNode sha3 heap mt i = .ok (0, mt.setHash i (some (parentHash sha3 heap i l r))) := by
  have hp := BinTree.two_pow_pred hs.pos
  rw [hashNode, if_neg (by rw [hs.nbNodes]; omega), hs.shl1_eq]
  simp only [Run.ok_bind, if_pos hi, hl, hr, readStr_concatBlock l r hheap]
  rfl

theorem hashNode_inner_bounds (hs : Shape h mt) (hi : i < 2 ^ (h - 1)) {l r : CStr}
    (hl : (mt.nodes (2 * i)).hash = some l) (hr : (mt.nodes (2 * i + 1)).hash = some r)
    (hl' : 32 ≤ l.strlen) (hr' : 32 ≤ r.strlen) (hheap : 0 ∉ heap.tail i) :
    hashNode sha3 heap mt i = .error .bounds := by
  have hp := BinTree.two_pow_pred hs.pos
  rw [hashNode, if_neg (by rw [hs.nbNodes]; omega), hs.shl1_eq]
  simp only [Run.ok_bind, if_pos hi, hl, hr, readStr_concatBlock_bounds hl' hr' hheap]
  rfl

theorem hashNode_stepsTo_of (hleaf : 2 ^ (h - 1) ≤ i → i < 2 ^ h → τ i = leafHash sha3 (leaf i))
    (hinner : 1 ≤ i → i < 2 ^ (h - 1) →
      0 ∈ heap.tail i ∧ τ i = parentHash sha3 heap i (τ (2 * i)) (τ (2 * i + 1))) :
    StepsTo h leaf τ (hashNode sha3 heap) i := by
  intro mt D hs hD ⟨hi, hi', hin⟩ hdata
  rcases Nat.lt_or_ge i (2 ^ (h - 1)) with hlt | hge
  · rw [hashNode_inner hs hlt (hD _ (hin hlt).1) (hD _ (hin hlt).2) (hinner hi hlt).1,
      (hinner hi hlt).2]
  · rw [hashNode_leaf hs hge hi' (hdata hge), hleaf hge hi']

theorem hashNode_stepsTo (hτ : Target sha3 heap h leaf τ)
    (hheap : 1 ≤ i → i < 2 ^ (h - 1) → 0 ∈ heap.tail i) :
    StepsTo h leaf τ (hashNode sha3 heap) i :=
  hashNode_stepsTo_of (hτ.leaf i) fun hi hi' => ⟨hheap hi hi', hτ.inner i hi hi'⟩

theorem rehashNode_stepsTo_of (hstep : StepsTo h leaf τ (hashNode sha3 heap) i) :
    StepsTo h leaf τ (rehashNode sha3 heap) i := by
  intro mt D hs hD ⟨hi, hi', hin⟩ hdata
  have hD' : Settled τ (D \ {i}) (mt.setHash i none) := fun j hj => by
    rw [MerkleTree.setHash_hash_of_ne hj.2]; exact hD j hj.1
  have hr' : BinTree.Ready h (D \ {i}) i :=
    ⟨hi, hi', fun hlt => ⟨⟨(hin hlt).1, by simp; omega⟩, ⟨(hin hlt).2, by simp; omega⟩⟩⟩
  rw [rehashNode, hstep _ _ hs.setHash hD' hr' (by simpa using hdata), MerkleTree.setHash_setHash]

theorem rehashNode_stepsTo (hτ : Target sha3 heap h leaf τ)
    (hheap : 1 ≤ i → i < 2 ^ (h - 1) → 0 ∈ heap.tail i) :
    StepsTo h leaf τ (rehashNode sha3 heap) i :=
  rehashNode_stepsTo_of (hashNode_stepsTo hτ hheap)

theorem rehashNode_bounds (hτ : Target sha3 heap h leaf τ) (hs : Shape h mt) (hD : Settled τ D mt)
    (hr : BinTree.Ready h D i) (hi : i < 2 ^ (h - 1)) (hheap : 0 ∉ heap.tail i) :
    rehashNode sha3 heap mt i = .error .bounds := by
  have hp := BinTree.two_pow_pred hs.pos
  obtain ⟨hpos, -, hin⟩ := hr
  have hchild : ∀ j, j ∈ D → j ≠ i → ((mt.setHash i none).nodes j).hash = some (τ j) :=
    fun j hj hji => by rw [MerkleTree.setHash_hash_of_ne hji]; exact hD j hj
  exact hashNode_inner_bounds hs.setHash hi (hchild _ (hin hi).1 (by omega))
    (hchild _ (hin hi).2 (by omega)) (strlen_target hτ (by omega) (by omega))
    (strlen_target hτ (by omega) (by omega)) hheap

theorem Settled.sameHashes (hD : Settled τ (BinTree.Nodes h) mt)
    {mt' : MerkleTree} (hD' : Settled τ (BinTree.Nodes h) mt') : SameHashes h mt mt' :=
  fun i hi => (hD i hi).trans (hD' i hi).symm

theorem Settled.setHash (hD : Settled τ D mt) :
    Settled τ (insert i D) (mt.setHash i (some (τ i))) := by
  rintro j (rfl | hj)
  · exact MerkleTree.setHash_hash_self
  · by_cases hji : j = i
    · rw [hji]; exact MerkleTree.setHash_hash_self
    · rw [MerkleTree.setHash_hash_of_ne hji]; exact hD j hj

/-! ### Lists of nodes -/

namespace MerkleTree

variable {is : List ℕ} {j : ℕ}

@[simp] theorem setHashes_nil : mt.setHashes τ [] = mt := rfl

@[simp] theorem setHashes_cons :
    mt.setHashes τ (i :: is) = (mt.setHash i (some (τ i))).setHashes τ is := rfl

@[simp] theorem setHashes_nbNodes : (mt.setHashes τ is).nbNodes = mt.nbNodes := by
  induction is generalizing mt with
  | nil => rfl
  | cons i is ih => exact ih

@[simp] theorem setHashes_treeHeight : (mt.setHashes τ is).treeHeight = mt.treeHeight := by
  induction is generalizing mt with
  | nil => rfl
  | cons i is ih => exact ih

@[simp] theorem setHashes_data : ((mt.setHashes τ is).nodes j).data = (mt.nodes j).data := by
  induction is generalizing mt with
  | nil => rfl
  | cons i is ih => exact ih.trans setHash_data

theorem setHashes_hash :
    ((mt.setHashes τ is).nodes j).hash = if j ∈ is then some (τ j) else (mt.nodes j).hash := by
  induction is generalizing mt with
  | nil => rfl
  | cons i is ih =>
    rw [setHashes_cons, ih, setHash_hash]
    by_cases hji : j = i
    · subst hji; simp
    · simp [hji]

end MerkleTree

theorem Shape.setHashes (hs : Shape h mt) (τ : ℕ → CStr) (is : List ℕ) :
    Shape h (mt.setHashes τ is) :=
  ⟨hs.pos, hs.le, by simpa using hs.nbNodes, by simpa using hs.treeHeight⟩

theorem Settled.setHashes (hD : Settled τ D mt) (is : List ℕ) :
    Settled τ (D ∪ {i | i ∈ is}) (mt.setHashes τ is) := by
  rintro i (hi | hi)
  · rw [MerkleTree.setHashes_hash]; split_ifs with h
    · rfl
    · exact hD i hi
  · exact MerkleTree.setHashes_hash.trans (if_pos hi)

/-- **Hashing in a bottom-up order settles the nodes of the list.** -/
theorem hashAll_of_bottomUp {hash : MerkleTree → ℕ → Run (ℤ × MerkleTree)} {is : List ℕ}
    (hstep : ∀ i ∈ is, StepsTo h leaf τ hash i) (hs : Shape h mt) (hD : Settled τ D mt)
    (hb : BinTree.BottomUp h D is)
    (hdata : ∀ i ∈ is, 2 ^ (h - 1) ≤ i → (mt.nodes i).data = some (leaf i)) :
    hashAll hash is mt = .ok (0, mt.setHashes τ is) := by
  induction is generalizing mt D with
  | nil => rfl
  | cons i is ih =>
    have hi := hstep i List.mem_cons_self mt D hs hD hb.1 (hdata i List.mem_cons_self)
    rw [hashAll, hi, orFail_ok]
    exact ih (fun j hj => hstep j (List.mem_cons_of_mem _ hj)) hs.setHash hD.setHash hb.2
      fun j hj hl => by simpa using hdata j (List.mem_cons_of_mem _ hj) hl

end MerkleFs
