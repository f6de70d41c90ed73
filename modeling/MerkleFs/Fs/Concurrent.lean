import MerkleFs.Fs.Runs
import MerkleFs.Schedule.ReadModifyWrite

/-!
# Writes by several threads

`bb_write` writes to the file, reads the attribute, changes the tree and stores its string.  The
lock is held during `string_to_tree` only, so that these steps of several calls interleave.  A call
that stores a string after another one has read the attribute overwrites what that one changes, or
its own change is overwritten.

* `WriteCall.steps` : the steps of `bb_write`, each of which is atomic.
* `serializable_of_reached` : the calls leave what they leave one after the other, if none reads
  the attribute while another one is between reading and storing it, those that have written
  before it and not stored commute with it, and none changes the tree with pages of the file while
  another one has written and not stored.
* `orderly_of_disjoint` : when the calls write to different parts of the file, pages that they take
  from their buffers, the first of these conditions is enough.
-/

namespace MerkleFs

/-- A call of `bb_write`, with what it finds in the blocks it allocates. -/
structure WriteCall where
  /-- The contents of the other blocks. -/
  heap : Heap
  /-- The order in which its threads run, if it starts any. -/
  sched : Scheduler ℕ
  /-- The block the attribute is read into. -/
  treeString : List Byte
  /-- Its call of `pwrite`. -/
  pw : List Byte → ℤ × List Byte
  /-- The data. -/
  buf : List Byte
  /-- The number of bytes. -/
  size : ℕ
  /-- Where they are written. -/
  offset : ℕ

/-- How far a group of calls has come. -/
abbrev WriteState (ι : Type) :=
  ReadModifyWrite.State ι (List Byte) (Option (List Byte)) (ℤ × List Byte) Outcome

variable (sha3 : List Byte → Digest) {ι : Type}

namespace WriteCall

/-- The call alone. -/
def run (k : WriteCall) (file : File) : Run (ℤ × File) :=
  bbWrite sha3 k.heap k.sched k.treeString k.pw k.buf k.size k.offset file

/-- Its steps: `pwrite`, `getxattr`, the change of the tree and `setxattr`. -/
def steps (k : WriteCall) : ReadModifyWrite.Call Fault (List Byte) (Option (List Byte))
    (ℤ × List Byte) Outcome where
  write c := (k.pw c).2
  read attr := getxattr attr k.treeString MAX_TREE_SIZE
  compute c l := do
    let mt ← attrTree l
    updateTree sha3 k.heap k.sched k.buf k.size k.offset c mt
  store := storeResult

/-- What it has read is the tree of a file, and it changes a page of the doubled tree, which it
takes from its buffer. -/
def InBuffer (k : WriteCall) (l : ℤ × List Byte) : Prop :=
  PAGE_LENGTH ∣ k.offset ∧ ∃ h mt leaf τ, attrTree l = .ok (some mt) ∧
    ReadBack sha3 k.heap h mt leaf τ ∧ pageToChange (intOf k.offset) < (2 ^ h : ℕ)

end WriteCall

/-- Calls one after the other. -/
def runAll (calls : ι → WriteCall) : List ι → File → Run File
  | [], file => .ok file
  | i :: is, file => do
    let (_, file) ← (calls i).run sha3 file
    runAll calls is file

/-- Steps of the calls, in any order. -/
def Interleaved [DecidableEq ι] (calls : ι → WriteCall) (st st' : WriteState ι) : Prop :=
  ∃ i, ReadModifyWrite.Step (fun i => (calls i).steps sha3) i st st'

/-- The file is as the calls leave it one after the other in some order. -/
def Serializable (calls : ι → WriteCall) (file : File) (st : WriteState ι) : Prop :=
  ∃ order : List ι, order.Nodup ∧ (∀ i, i ∈ order) ∧
    runAll sha3 calls order file = .ok ⟨st.value, st.attr⟩

/-- The next step of call `i` loses no update. -/
structure Orderly (calls : ι → WriteCall) (st : WriteState ι) (i : ι) : Prop where
  /-- It does not read the attribute while another call is between `getxattr` and `setxattr`. -/
  outside : st.phase i = .written → ∀ j, (st.phase j).Outside
  /-- Before it does, the calls that have written before it have returned, or the writes
  commute. -/
  read : st.phase i = .written → ∀ j, [j, i].Sublist st.log → st.phase j = .done ∨
    ∀ c, ((calls i).pw ((calls j).pw c).2).2 = ((calls j).pw ((calls i).pw c).2).2
  /-- It changes the tree while no other call has written and not returned, or takes the page from
  its buffer. -/
  change : ∀ l, st.phase i = .got l →
    (∀ j ≠ i, st.phase j = .idle ∨ st.phase j = .done) ∨ (calls i).InBuffer sha3 l

/-- Steps of the calls that lose no update. -/
def OrderlyInterleaved [DecidableEq ι] (calls : ι → WriteCall) (st st' : WriteState ι) : Prop :=
  ∃ i, Orderly sha3 calls st i ∧
    ReadModifyWrite.Step (fun i => (calls i).steps sha3) i st st'

variable {sha3} {calls : ι → WriteCall} {st : WriteState ι} {file : File} {k : WriteCall} {i : ι}
  {is : List ι} {c c' : List Byte} {a : Option (List Byte)} {l : ℤ × List Byte}

/-! ### The steps of a call -/

theorem WriteCall.run_steps (k : WriteCall) (c : List Byte) (a : Option (List Byte)) :
    k.run sha3 ⟨c, a⟩ = (do
      let (c', a') ← (k.steps sha3).run (c, a)
      return ((k.pw c).1, ⟨c', a'⟩)) := by
  simp only [run, bbWrite, ReadModifyWrite.Call.run, steps, readTree_eq_attrTree, bind_assoc]
  rfl

theorem runAll_eq_serial : runAll sha3 calls is ⟨c, a⟩ = (do
    let (c', a') ← ReadModifyWrite.serial (fun i => (calls i).steps sha3) is (c, a)
    return ⟨c', a'⟩) := by
  induction is generalizing c a with
  | nil => rfl
  | cons i is ih =>
    rw [runAll, ReadModifyWrite.serial, WriteCall.run_steps]
    simp only [bind_assoc, pure_bind]
    exact congrArg _ (funext fun s => ih)

theorem WriteCall.compute_steps {mt : MerkleTree} (hl : attrTree l = .ok (some mt)) :
    (k.steps sha3).compute c l =
      updateTree sha3 k.heap k.sched k.buf k.size k.offset c (some mt) := by
  show (attrTree l >>= fun mt => _) = _
  rw [hl, Run.ok_bind]

theorem WriteCall.InBuffer.compute (hk : k.InBuffer sha3 l) (c c' : List Byte) :
    (k.steps sha3).compute c l = (k.steps sha3).compute c' l := by
  obtain ⟨hoff, h, mt, leaf, τ, hl, hr, hpage⟩ := hk
  rw [compute_steps hl, compute_steps hl]
  exact (updateTree_inside hr hoff hpage).trans (updateTree_inside hr hoff hpage).symm

theorem Orderly.toReadModifyWrite (ho : Orderly sha3 calls st i) :
    ReadModifyWrite.Orderly (fun i => (calls i).steps sha3) st i :=
  ⟨ho.outside, ho.read, fun l hl => (ho.change l hl).imp id fun h => h.compute⟩

/-- Calls that write to different parts of the file may read the attribute in any order. -/
theorem orderly_of_disjoint {data : ι → List Byte}
    (hpw : ∀ i c, ((calls i).pw c).2 = pwrite c (data i) (calls i).offset)
    (hdisj : ∀ i j, i ≠ j → (calls i).offset + (data i).length ≤ (calls j).offset ∨
      (calls j).offset + (data j).length ≤ (calls i).offset)
    (hout : st.phase i = .written → ∀ j, (st.phase j).Outside)
    (hchange : ∀ l, st.phase i = .got l → (calls i).InBuffer sha3 l) : Orderly sha3 calls st i := by
  refine ⟨hout, fun _ j _ => .inr fun c => ?_, fun l hl => .inr (hchange l hl)⟩
  by_cases hij : i = j
  · rw [hij]
  simp only [hpw]
  rcases hdisj i j hij with h | h
  · exact (pwrite_comm h).symm
  · exact pwrite_comm h

/-- **Orderly calls lose no update.** -/
theorem serializable_of_reached [DecidableEq ι]
    (hrun : Relation.ReflTransGen (OrderlyInterleaved sha3 calls)
      (.init file.contents file.attr) st)
    (hdone : ∀ i, st.phase i = .done) : Serializable sha3 calls file st := by
  have hrun' : Relation.ReflTransGen (ReadModifyWrite.OrderlyStep fun i => (calls i).steps sha3)
      (.init file.contents file.attr) st :=
    hrun.lift id fun _ _ ⟨i, ho, hs⟩ => ⟨i, ho.toReadModifyWrite, hs⟩
  obtain ⟨order, hnodup, hall, hserial⟩ := ReadModifyWrite.serial_of_reached hrun' hdone
  refine ⟨order, hnodup, hall, ?_⟩
  have heq : runAll sha3 calls order ⟨file.contents, file.attr⟩ = _ := runAll_eq_serial
  rw [hserial] at heq
  exact heq

/-! ### Two calls that write to the same page -/

/-- A call that writes `b` to the start of the file, from a buffer that ends there. -/
def writeByte (b : Byte) : WriteCall :=
  ⟨.nul, .sequential ℕ, treeBlock, fun c => (1, pwrite c [b] 0), [b, 0], 1, 0⟩

/-- The string of the tree with one leaf, which holds `x`. -/
def leafTree (sha3 : List Byte → Digest) (x : CStr) : CStr :=
  treeString (2 ^ 1) fun _ => leafHash sha3 x

theorem target_leafTree (heap : Heap) {leaf : ℕ → CStr} {x : CStr} (hx : leaf 1 = x) :
    Target sha3 heap 1 leaf fun _ => leafHash sha3 x := by
  refine ⟨fun j hj hj' => ?_, fun j hj hj' => absurd hj' (by omega)⟩
  obtain rfl : j = 1 := by omega
  rw [hx]

theorem leafHash_eq_of_leafTree {x y : CStr} (heq : leafTree sha3 x = leafTree sha3 y) :
    leafHash sha3 x = leafHash sha3 y := by
  have hx : Target sha3 .nul 1 (fun _ => x) _ := target_leafTree .nul rfl
  have hy : Target sha3 .nul 1 (fun _ => y) _ := target_leafTree .nul rfl
  exact (treeString_target_inj le_rfl le_rfl hx hy heq).2 1 le_rfl (by decide)

theorem readBack_leafTree (sha3 : List Byte → Digest) (x : CStr) :
    ReadBack sha3 .nul 1 (hashTree (2 ^ 1) 1 fun _ => leafHash sha3 x) (fun _ => x)
      fun _ => leafHash sha3 x :=
  ⟨le_rfl, by decide, Heap.terminated_nul, target_leafTree .nul rfl, rfl⟩

theorem attrTree_leafTree (sha3 : List Byte → Digest) (x : CStr) :
    attrTree (getxattr (setxattr (leafTree sha3 x)) treeBlock MAX_TREE_SIZE) =
      .ok (some (hashTree (2 ^ 1) 1 fun _ => leafHash sha3 x)) := by
  have hr := readBack_leafTree sha3 x
  obtain ⟨hpos, hmax⟩ := strlen_treeString_readBack hr
  have htree := stringToTree_treeString (τ := fun _ => leafHash sha3 x) le_rfl
    fun j hj hj' => isHash_target hr.target hj hj'
  rw [← readTree_eq_attrTree, leafTree, readTree_setxattr hpos hmax (treeBlock_drop _ hmax), htree]
  rfl

theorem inBuffer_writeByte (sha3 : List Byte → Digest) (b : Byte) (x : CStr) :
    (writeByte b).InBuffer sha3 (((writeByte b).steps sha3).read (setxattr (leafTree sha3 x))) :=
  ⟨Nat.dvd_zero _, 1, _, _, _, attrTree_leafTree sha3 x, readBack_leafTree sha3 x,
    (by decide : pageToChange (intOf (0 : ℕ)) < (2 ^ 1 : ℕ))⟩

/-- What such a call stores does not depend on the tree that it has read. -/
theorem compute_writeByte (sha3 : List Byte → Digest) (b : Byte) (c : List Byte) (x : CStr) :
    ∃ o, ((writeByte b).steps sha3).compute c (((writeByte b).steps sha3).read
      (setxattr (leafTree sha3 x))) = .ok o ∧
        ∀ a, storeResult a o = .ok (setxattr (leafTree sha3 (.ofBlock [b, 0]))) := by
  have hr := readBack_leafTree sha3 x
  have hσ : Target sha3 .nul 1 (Function.update (fun _ => x) (2 ^ (1 - 1) + firstPage 0)
      (CStr.ofBlock [b, 0])) fun _ => leafHash sha3 (CStr.ofBlock [b, 0]) :=
    target_leafTree .nul (Function.update_self _ _ _)
  have hlen : (CStr.ofBlock [b, 0]).strlen ≤ 2 := CStr.strlen_ofBlock_le _
  have hzero : intOf (0 : ℕ) = (0 : ℕ) := by decide
  have hq : ∃ mt', quickChange sha3 .nul (intOf (1 : ℕ)) (intOf (0 : ℕ)) [b, 0]
      (hashTree (2 ^ 1) 1 fun _ => leafHash sha3 x) =
        .ok ⟨0, mt', .string (leafTree sha3 (.ofBlock [b, 0]))⟩ := by
    rw [hzero]
    exact quickChange_fit hr (Nat.dvd_zero _) (by decide) (by simp)
      (by unfold PTR_SIZE PAGE_LENGTH; omega) hσ
  obtain ⟨mt', hq⟩ := hq
  have hu : updateTree sha3 .nul (.sequential ℕ) [b, 0] 1 0 c
      (some (hashTree (2 ^ 1) 1 fun _ => leafHash sha3 x)) = _ := updateTree_of_code hq rfl
  exact ⟨_, (WriteCall.compute_steps (attrTree_leafTree sha3 x)).trans hu,
    fun a => storeResult_string a _ _⟩

theorem exists_intact_leafTree (sha3 : List Byte → Digest) :
    ∃ x, Intact sha3 ⟨[byteOf 'a'], setxattr (leafTree sha3 x)⟩ := by
  have hc := hasLeaves_of_nulFree (c := [byteOf 'a']) (by decide) (by decide) (by decide)
  have hread : readPart [byteOf 'a'] = [byteOf 'a'] := readPart_of_le (by decide)
  have hheight : heightOf (readPart [byteOf 'a']).length = 1 := by rw [hread]; decide
  refine ⟨leafAt (leafCount (readPart [byteOf 'a']).length) (leafStrings (readPart [byteOf 'a'])) 1,
    fun v hv => ⟨_, hc.gives rfl Heap.terminated_nul (hheight ▸ target_leafTree .nul rfl), ?_⟩⟩
  rw [hheight]
  exact (Option.some.inj hv).symm

theorem run_writeByte (b : Byte) (c : List Byte) (x : CStr) :
    (writeByte b).run sha3 ⟨c, setxattr (leafTree sha3 x)⟩ =
      .ok (1, ⟨pwrite c [b] 0, setxattr (leafTree sha3 (.ofBlock [b, 0]))⟩) := by
  obtain ⟨o, ho, hstore⟩ := compute_writeByte sha3 b (pwrite c [b] 0) x
  have hrun : ((writeByte b).steps sha3).run (c, setxattr (leafTree sha3 x)) =
      .ok (pwrite c [b] 0, setxattr (leafTree sha3 (.ofBlock [b, 0]))) :=
    Run.bind_eq_ok.2 ⟨o, ho, Run.bind_eq_ok.2 ⟨_, hstore _, rfl⟩⟩
  rw [WriteCall.run_steps, hrun]
  rfl

/-- What the call `i` of two writes. -/
def byteOfCall (i : Bool) : Byte := if i then byteOf 'c' else byteOf 'b'

theorem runAll_writeByte (i j : Bool) (c : List Byte) (x : CStr) :
    runAll sha3 (fun i => writeByte (byteOfCall i)) [i, j] ⟨c, setxattr (leafTree sha3 x)⟩ =
      .ok ⟨pwrite (pwrite c [byteOfCall i] 0) [byteOfCall j] 0,
        setxattr (leafTree sha3 (.ofBlock [byteOfCall j, 0]))⟩ := by
  rw [runAll, run_writeByte, Run.ok_bind]
  simp only
  rw [runAll, run_writeByte, Run.ok_bind]
  rfl

theorem eq_of_nodup {order : List Bool} (hnodup : order.Nodup) (hall : ∀ i, i ∈ order) :
    order = [false, true] ∨ order = [true, false] := by
  have hperm : order.Perm [false, true] :=
    (List.perm_ext_iff_of_nodup hnodup (by decide)).2 fun i => by simp [hall]
  obtain ⟨i, j, rfl⟩ := List.length_eq_two.1 hperm.length_eq
  revert hnodup
  cases i <;> cases j <;> decide

/-- `b` and `c` are written over the file `a`; the call that writes `b` stores its tree last. -/
theorem not_serializable : ¬ ∀ (sha3 : List Byte → Digest) (calls : Bool → WriteCall) (file : File)
    (st : WriteState Bool), file.attr ≠ none → Intact sha3 file →
      Relation.ReflTransGen (Interleaved sha3 calls) (.init file.contents file.attr) st →
        (∀ i, st.phase i = .done) → Serializable sha3 calls file st := by
  intro hall
  set y := CStr.ofBlock [byteOf 'b', 0] with hy
  have hne : leafHash (marking y) y ≠ leafHash (marking y) (CStr.ofBlock [byteOf 'c', 0]) :=
    leafHash_marking_ne (by decide)
  obtain ⟨x, hx⟩ := exists_intact_leafTree (marking y)
  obtain ⟨o, ho, hstore⟩ := compute_writeByte (marking y) (byteOfCall false) [byteOf 'b'] x
  obtain ⟨o', ho', hstore'⟩ := compute_writeByte (marking y) (byteOfCall true) [byteOf 'c'] x
  obtain ⟨st, hrun, hdone, hvalue, hattr⟩ := ReadModifyWrite.lost_update
    (fun i => (writeByte (byteOfCall i)).steps (marking y)) [byteOf 'a'] ho ho' (hstore' _)
    (hstore _)
  obtain ⟨order, hnodup, hmem, hserial⟩ :=
    hall _ _ ⟨[byteOf 'a'], _⟩ st (Option.some_ne_none _) hx hrun hdone
  rcases eq_of_nodup hnodup hmem with rfl | rfl
  · -- the attribute would be that of `c`
    have hattr' := (File.mk.inj (Except.ok.inj ((runAll_writeByte _ _ _ _).symm.trans hserial))).2
    exact hne (leafHash_eq_of_leafTree (setxattr_inj (hattr'.trans hattr))).symm
  · -- the contents would be `b`
    have hvalue' := (File.mk.inj (Except.ok.inj ((runAll_writeByte _ _ _ _).symm.trans hserial))).1
    exact absurd (hvalue'.trans hvalue) (by decide)

/-- Both have written before either reads the attribute; they take the page from their buffers. -/
theorem serializable_b_c : ∃ st : WriteState Bool, (∀ i, st.phase i = .done) ∧
    st.log = [false, true] ∧ ∃ file, file.attr ≠ none ∧ Intact (fun _ => zeroDigest) file ∧
      Serializable (fun _ => zeroDigest) (fun i => writeByte (byteOfCall i)) file st := by
  obtain ⟨x, hx⟩ := exists_intact_leafTree fun _ => zeroDigest
  obtain ⟨o, ho, hstore⟩ := compute_writeByte (fun _ => zeroDigest) (byteOfCall false)
    [byteOf 'c'] x
  obtain ⟨o', ho', hstore'⟩ := compute_writeByte (fun _ => zeroDigest) (byteOfCall true)
    [byteOf 'c'] (.ofBlock [byteOfCall false, 0])
  have hinit : Relation.ReflTransGen (OrderlyInterleaved (fun _ => zeroDigest)
      fun i => writeByte (byteOfCall i))
      (.init [byteOf 'a'] (setxattr (leafTree (fun _ => zeroDigest) x)))
      (.init [byteOf 'a'] (setxattr (leafTree (fun _ => zeroDigest) x))) := .refl
  have hwritten := (hinit.tail ⟨false, ⟨nofun, nofun, nofun⟩, .write rfl⟩).tail
    ⟨true, ⟨nofun, nofun, nofun⟩, .write rfl⟩
  have hlog : ∀ j : Bool, ¬ [j, false].Sublist [false, true] := by decide
  have hlog' : ∀ j : Bool, [j, true].Sublist [false, true] → j = false := by decide
  have hread := hwritten.tail ⟨false, ⟨fun _ j => by cases j <;> trivial,
    fun _ j hs => absurd hs (hlog j), nofun⟩, .read rfl⟩
  have hreturned := (hread.tail ⟨false, ⟨nofun, nofun, fun l hl =>
    .inr (ReadModifyWrite.Phase.got.inj hl ▸ inBuffer_writeByte _ _ x)⟩, .compute rfl ho⟩).tail
    ⟨false, ⟨nofun, nofun, nofun⟩, .store rfl (hstore _)⟩
  have hread' := hreturned.tail ⟨true, ⟨fun _ j => by cases j <;> trivial,
    fun _ j hs => .inl (by rw [hlog' j hs]; rfl), nofun⟩, .read rfl⟩
  have hreturned' := (hread'.tail ⟨true, ⟨nofun, nofun, fun l hl => .inl fun j hj => .inr (by
    rw [Bool.eq_false_iff.2 hj]; rfl)⟩, .compute rfl ho'⟩).tail
    ⟨true, ⟨nofun, nofun, nofun⟩, .store rfl (hstore' _)⟩
  refine ⟨_, ?_, rfl, ⟨_, _⟩, Option.some_ne_none _, hx, serializable_of_reached hreturned' ?_⟩ <;>
    rintro (_ | _) <;> rfl

end MerkleFs
