import MerkleFs.Fs.Concurrent
import MerkleFs.Schedule.Locked
import MerkleFs.Tree.Strtok

/-!
# Writes to several files

Calls of `bb_write` for different files have nothing in common but the lock and what `strtok`
remembers.  `string_to_tree` calls `strtok` many times, and between two of these calls the other
threads run; only the lock keeps them from calling it as well.

* `WriteCall.lockedSteps` : the steps of `bb_write`, with each call of `strtok` as a step.
* `written_of_locked` : on every file the calls do what they do when `string_to_tree` is one step.
* `serializable_of_locked` : so that orderly calls leave every file as they leave it one after the
  other.
* `locked_ends` : all runs end, and the lock blocks no call for ever.
-/

namespace MerkleFs

/-- What `bb_write` calls while it holds the lock, when there is an attribute. -/
def attrTreeCalls : ℤ × List Byte → Option (StrtokProgram (Option MerkleTree))
  | (attrSize, treeString) =>
    if 0 < attrSize then
      some (match readStr treeString with
        | .error e => .ret (.error e)
        | .ok s => (stringToTreeCalls s).bind fun mt => .ret (.ok (some mt)))
    else none

theorem outcome_attrTreeCalls (l : ℤ × List Byte) (p : StrtokProgram (Option MerkleTree))
    (hp : attrTreeCalls l = some p) (rest : List Byte) : p.outcome rest = attrTree l := by
  obtain ⟨attrSize, treeString⟩ := l
  simp only [attrTreeCalls] at hp
  split_ifs at hp with hsize
  cases hp
  rw [attrTree, if_pos hsize]
  cases readStr treeString with
  | error e => rfl
  | ok s =>
    rw [Run.ok_bind, ← outcome_stringToTreeCalls s rest]
    exact Resumption.outcome_bind_of_forall (fun mt rest' => rfl) rest

variable (sha3 : List Byte → Digest)

/-- The steps of a call, with the calls of `strtok`. -/
def WriteCall.lockedSteps (k : WriteCall) : Locked.Call (List Byte) Fault (List Byte)
    (Option (List Byte)) (ℤ × List Byte) (Option MerkleTree) Outcome where
  write c := (k.pw c).2
  read attr := getxattr attr k.treeString MAX_TREE_SIZE
  parse := attrTree
  locked := attrTreeCalls
  outcome_eq := outcome_attrTreeCalls
  change c mt := updateTree sha3 k.heap k.sched k.buf k.size k.offset c mt
  store := storeResult

/-- How far calls for the files `φ` have come. -/
abbrev LockedState (ι φ : Type) :=
  Locked.State ι φ (List Byte) Fault (List Byte) (Option (List Byte)) (ℤ × List Byte)
    (Option MerkleTree) Outcome

variable {ι φ : Type}

/-- The calls for one file. -/
def callsOn (calls : ι → WriteCall) (path : ι → φ) (f : φ) (i : {i // path i = f}) : WriteCall :=
  calls i

/-- Before any call; `strtok` remembers `rest`. -/
def lockedInit (files : φ → File) (rest : List Byte) : LockedState ι φ :=
  .init (fun f => (files f).contents) (fun f => (files f).attr) rest

variable [DecidableEq ι] [DecidableEq φ]

/-- Steps of the calls, in any order. -/
def LockedInterleaved (calls : ι → WriteCall) (path : ι → φ) (st st' : LockedState ι φ) : Prop :=
  Locked.AnyStep (fun i => (calls i).lockedSteps sha3) path st st'

/-- Steps of the calls that lose no update. -/
def LockedOrderly (calls : ι → WriteCall) (path : ι → φ) (st st' : LockedState ι φ) : Prop :=
  ∃ i, Orderly sha3 (callsOn calls path (path i)) (st.on path (path i)) ⟨i, rfl⟩ ∧
    Locked.Step (fun i => (calls i).lockedSteps sha3) path i st st'

variable {sha3} {calls : ι → WriteCall} {path : ι → φ} {st : LockedState ι φ} {files : φ → File}
  {rest : List Byte} {i : ι}

omit [DecidableEq ι] [DecidableEq φ] in
theorem atomic_lockedSteps (k : WriteCall) : (k.lockedSteps sha3).atomic = k.steps sha3 := rfl

theorem run_of_writeCall {k : WriteCall} {file file' : File} {r : ℤ}
    (hk : k.run sha3 file = .ok (r, file')) : (k.steps sha3).run (file.contents, file.attr) =
      .ok (file'.contents, file'.attr) := by
  have hsteps : k.run sha3 ⟨file.contents, file.attr⟩ = _ := WriteCall.run_steps k _ _
  obtain ⟨⟨c, a⟩, hrun, heq⟩ := Run.bind_eq_ok.1 (hsteps.symm.trans hk)
  cases heq
  exact hrun

theorem attrTreeCalls_of_some {l : ℤ × List Byte} {mt : MerkleTree}
    (htree : attrTree l = .ok (some mt)) : ∃ p, attrTreeCalls l = some p := by
  obtain ⟨attrSize, treeString⟩ := l
  by_cases hsize : 0 < attrSize
  · exact ⟨_, if_pos hsize⟩
  · rw [attrTree, if_neg hsize] at htree
    cases htree

theorem exists_locked_run (hinj : Function.Injective path) {after : ι → ℤ × File}
    (hcalls : ∀ i, (calls i).run sha3 (files (path i)) = .ok (after i)) (order : List ι)
    (hnodup : order.Nodup) : ∃ st : LockedState ι φ,
      Relation.ReflTransGen (LockedInterleaved sha3 calls path) (lockedInit files rest) st ∧
        (∀ i ∈ order, st.phase i = .done) ∧ ∀ i ∉ order, st.phase i = .idle := by
  have hatomic : ∀ i, ((calls i).lockedSteps sha3).atomic.run
      ((files (path i)).contents, (files (path i)).attr) = .ok _ :=
    fun i => run_of_writeCall (hcalls i)
  obtain ⟨st, hrun, -, hdone, hidle⟩ : ∃ st : LockedState ι φ,
      Relation.ReflTransGen (LockedInterleaved sha3 calls path) (lockedInit files rest) st ∧ _ :=
    Locked.exists_run_list hinj hatomic order hnodup
  exact ⟨st, hrun, hdone, fun i hi => (hidle i hi).1⟩

theorem exists_inside {mt : MerkleTree}
    (htree : attrTree (getxattr (files (path i)).attr (calls i).treeString MAX_TREE_SIZE) =
      .ok (some mt)) : ∃ (st : LockedState ι φ) (l : ℤ × List Byte)
        (p : StrtokProgram (Option MerkleTree)),
      Relation.ReflTransGen (LockedInterleaved sha3 calls path) (lockedInit files rest) st ∧
        st.phase i = .inside l p ∧ ∀ j ≠ i, st.phase j = .idle := by
  obtain ⟨p, hp⟩ := attrTreeCalls_of_some htree
  have hinit : Relation.ReflTransGen (LockedInterleaved sha3 calls path) (lockedInit files rest)
      (lockedInit files rest) := .refl
  have hwritten := hinit.tail ⟨i, .write rfl⟩
  have hgot := hwritten.tail ⟨i, .read Locked.State.move_phase_self⟩
  refine ⟨_, _, p, hgot.tail ⟨i, .lock Locked.State.move_phase_self hp rfl⟩,
    Locked.State.move_phase_self, fun j hj => ?_⟩
  exact (Locked.State.move_phase hj).trans ((Locked.State.move_phase hj).trans
    (Locked.State.move_phase hj))

/-! ### Two calls for two files -/

/-- The hash function of the two calls. -/
def zeroHash (_ : List Byte) : Digest := zeroDigest

/-- The files that they write to. -/
def fileOf (_ : Bool) : File := ⟨[byteOf 'a'], setxattr (leafTree zeroHash .nil)⟩

/-- The calls. -/
def callOf (i : Bool) : WriteCall := writeByte (byteOfCall i)

theorem run_callOf (i : Bool) : (callOf i).run zeroHash (fileOf i) = .ok (1,
    ⟨pwrite (fileOf i).contents [byteOfCall i] 0,
      setxattr (leafTree zeroHash (.ofBlock [byteOfCall i, 0]))⟩) :=
  run_writeByte (byteOfCall i) _ _

theorem exists_inside_callOf : ∃ (st : LockedState Bool Bool) (l : ℤ × List Byte)
    (p : StrtokProgram (Option MerkleTree)),
      Relation.ReflTransGen (LockedInterleaved zeroHash callOf id) (lockedInit fileOf []) st ∧
        st.phase false = .inside l p ∧ ∀ j ≠ false, st.phase j = .idle :=
  exists_inside (attrTree_leafTree zeroHash .nil)

theorem exists_run_callOf : ∃ st : LockedState Bool Bool,
    Relation.ReflTransGen (LockedInterleaved zeroHash callOf id) (lockedInit fileOf []) st ∧
      ∀ i, st.phase i = .done := by
  obtain ⟨st, hrun, hdone, -⟩ : ∃ st : LockedState Bool Bool,
      Relation.ReflTransGen (LockedInterleaved zeroHash callOf id) (lockedInit fileOf []) st ∧ _ :=
    exists_locked_run Function.injective_id run_callOf [false, true] (by decide)
  exact ⟨st, hrun, fun i => hdone i (by cases i <;> decide)⟩

/-! ### Two calls for one file and a call for another one -/

omit [DecidableEq ι] in
theorem orderly_of_inBuffer (h : (st.phase i).atomic ≠ .written)
    (hbuffer : ∀ l, (st.phase i).atomic = .got l → (calls i).InBuffer sha3 l) :
    Orderly sha3 (callsOn calls path (path i)) (st.on path (path i)) ⟨i, rfl⟩ :=
  ⟨fun hw => absurd hw h, fun hw => absurd hw h, fun l hl => .inr (hbuffer l hl)⟩

omit [DecidableEq ι] in
theorem map_log_on (f : φ) (st : LockedState ι φ) :
    ((st.on path f).log.map Subtype.val).Sublist st.log := by
  show ((st.log.filterMap _).map _).Sublist st.log
  induction st.log with
  | nil => exact .slnil
  | cons i log ih =>
    rw [List.filterMap_cons]
    by_cases h : path i = f
    · simp only [dif_pos h, List.map_cons]
      exact ih.cons_cons i
    · simp only [dif_neg h]
      exact ih.cons i

omit [DecidableEq ι] in
/-- A call that reads while no other one is between reading and storing is orderly, if those that
have written before it have returned. -/
theorem orderly_of_written (hwritten : st.phase i = .written)
    (hout : ∀ j, path j = path i → (st.phase j).atomic.Outside)
    (hlog : ∀ j, path j = path i → [j, i].Sublist st.log → st.phase j = .done) :
    Orderly sha3 (callsOn calls path (path i)) (st.on path (path i)) ⟨i, rfl⟩ := by
  refine ⟨fun _ j => hout j j.2, fun _ j hs => .inl ?_, fun l hl => ?_⟩
  · have hs' := (hs.map Subtype.val).trans (map_log_on _ st)
    exact congrArg Locked.Phase.atomic (hlog j j.2 hs')
  · have hgot : (st.phase i).atomic = .got l := hl
    rw [hwritten] at hgot
    cases hgot

theorem exists_write (h : st.phase i = .idle) : ∃ st', LockedOrderly sha3 calls path st st' ∧
    st'.phase = Function.update st.phase i .written ∧ st'.attr = st.attr ∧
      st'.log = st.log ++ [i] ∧ st'.holder = st.holder :=
  ⟨_, ⟨i, orderly_of_inBuffer (by rw [h]; exact nofun) (by rw [h]; exact nofun), .write h⟩,
    rfl, rfl, rfl, rfl⟩

/-- A call that has written a byte goes on to its end while the others wait. -/
theorem exists_run_writeByte {b : Byte} {x : CStr} (hcall : calls i = writeByte b)
    (hwritten : st.phase i = .written) (hfree : st.holder = none)
    (hattr : st.attr (path i) = setxattr (leafTree sha3 x))
    (hread : Orderly sha3 (callsOn calls path (path i)) (st.on path (path i)) ⟨i, rfl⟩) :
    ∃ st', Relation.ReflTransGen (LockedOrderly sha3 calls path) st st' ∧
      st'.phase = Function.update st.phase i .done ∧
      st'.attr = Function.update st.attr (path i) (setxattr (leafTree sha3 (.ofBlock [b, 0]))) ∧
      st'.log = st.log ∧ st'.holder = none := by
  -- the states differ in how far the call has come and in what `strtok` remembers
  let mid (p : Locked.Phase (List Byte) Fault (ℤ × List Byte) (Option MerkleTree) Outcome)
      (s : List Byte) : LockedState ι φ :=
    ⟨st.value, st.attr, Function.update st.phase i p, st.log, none, s⟩
  have hmid : ∀ p q s, (mid p s).move i q = mid q s := fun p q s =>
    congrArg (fun ph => Locked.State.mk _ st.attr ph st.log none s) (Function.update_idem _ _ _)
  have hphase : ∀ p s, (mid p s).phase i = p := fun p s => Function.update_self _ _ _
  set l := ((writeByte b).steps sha3).read (setxattr (leafTree sha3 x)) with hl
  obtain ⟨mt, htree⟩ : ∃ mt, attrTree l = .ok (some mt) := ⟨_, attrTree_leafTree sha3 x⟩
  have hbuffer : (calls i).InBuffer sha3 l := hcall ▸ inBuffer_writeByte sha3 b x
  obtain ⟨o, ho, hstore⟩ := compute_writeByte sha3 b (st.value (path i)) x
  have hgot : LockedOrderly sha3 calls path st (mid (.got l) st.shared) := by
    refine ⟨i, hread, ?_⟩
    have hstep : Locked.Step (fun i => (calls i).lockedSteps sha3) path i st _ := .read hwritten
    rw [hattr, hcall] at hstep
    rw [Locked.State.move, hfree] at hstep
    exact hstep
  obtain ⟨s, hparsing⟩ : ∃ s, Relation.ReflTransGen
      (Locked.Parsing (fun i => (calls i).lockedSteps sha3) path i l) (mid (.got l) st.shared) _ :=
    Locked.exists_run_parse (hphase _ _) rfl (by rw [hcall]; exact htree)
  rw [hmid] at hparsing
  have horderly : ∀ st : LockedState ι φ, (st.phase i).atomic = .got l →
      Orderly sha3 (callsOn calls path (path i)) (st.on path (path i)) ⟨i, rfl⟩ := by
    intro st hst
    refine orderly_of_inBuffer (fun hw => ?_) fun l' hl' => ?_
    · cases hst.symm.trans hw
    · cases hst.symm.trans hl'
      exact hbuffer
  have hparse : Relation.ReflTransGen (LockedOrderly sha3 calls path) _ _ :=
    hparsing.lift id fun st st' hs => ⟨i, horderly st hs.1, hs.2⟩
  have hcompute : LockedOrderly sha3 calls path (mid (.parsed l (some mt)) s)
      (mid (.computed o) s) := by
    refine ⟨i, horderly _ (by rw [hphase]; rfl), ?_⟩
    have hchange : ((calls i).lockedSteps sha3).change (st.value (path i)) (some mt) = .ok o := by
      rw [hcall]
      exact (WriteCall.compute_steps htree).symm.trans ho
    have hstep : Locked.Step (fun i => (calls i).lockedSteps sha3) path i
        (mid (.parsed l (some mt)) s) _ := .compute (hphase _ _) hchange
    rw [hmid] at hstep
    exact hstep
  have hcomputed : ((mid (.computed o) s).phase i).atomic = .computed o :=
    congrArg Locked.Phase.atomic (hphase _ _)
  have hlast : Orderly sha3 (callsOn calls path (path i)) ((mid (.computed o) s).on path (path i))
      ⟨i, rfl⟩ := by
    refine orderly_of_inBuffer (fun hw => ?_) fun l' hl' => ?_
    · cases hcomputed.symm.trans hw
    · cases hcomputed.symm.trans hl'
  have hdone : LockedOrderly sha3 calls path (mid (.computed o) s) _ :=
    ⟨i, hlast, .store (hphase _ _) (by rw [hcall]; exact hstore _)⟩
  rw [hmid] at hdone
  exact ⟨_, (((Relation.ReflTransGen.single hgot).trans hparse).tail hcompute).tail hdone,
    rfl, rfl, rfl, rfl⟩

/-- `b` and `c` are written to one file, and `b` to another one. -/
def threeCalls (i : Option Bool) : WriteCall := writeByte (byteOfCall (i.getD false))

/-- The two calls for one file write before one of them has read. -/
theorem exists_run_threeCalls : ∃ st : LockedState (Option Bool) Bool,
    Relation.ReflTransGen (LockedOrderly zeroHash threeCalls Option.isSome) (lockedInit fileOf [])
      st ∧ (∀ i, st.phase i = .done) ∧ st.log = [some false, some true, none] := by
  have hwrite : ∀ (st : LockedState (Option Bool) Bool) i, st.phase i = .idle → ∃ st',
      LockedOrderly zeroHash threeCalls Option.isSome st st' ∧ _ := fun st i h => exists_write h
  obtain ⟨st₁, hstep₁, hphase₁, hattr₁, hlog₁, hholder₁⟩ := hwrite (lockedInit fileOf [])
    (some false) rfl
  obtain ⟨st₂, hstep₂, hphase₂, hattr₂, hlog₂, hholder₂⟩ := hwrite st₁ (some true)
    (by rw [hphase₁]; rfl)
  obtain ⟨st₃, hstep₃, hphase₃, hattr₃, hlog₃, hholder₃⟩ := hwrite st₂ none
    (by rw [hphase₂, hphase₁]; rfl)
  rw [hphase₂, hphase₁] at hphase₃
  rw [hattr₂, hattr₁] at hattr₃
  replace hlog₃ : st₃.log = [some false, some true, none] := by rw [hlog₃, hlog₂, hlog₁]; rfl
  rw [hholder₂, hholder₁] at hholder₃
  have hrest : ∀ (st : LockedState (Option Bool) Bool) i x, st.phase i = .written →
      st.holder = none → st.attr i.isSome = setxattr (leafTree zeroHash x) →
      (∀ j : Option Bool, j.isSome = i.isSome → (st.phase j).atomic.Outside) →
      (∀ j : Option Bool, j.isSome = i.isSome → [j, i].Sublist st.log → st.phase j = .done) →
        ∃ st', Relation.ReflTransGen (LockedOrderly zeroHash threeCalls Option.isSome) st st' ∧ _ :=
    fun st i x hwritten hfree hattr hout hlog =>
      exists_run_writeByte rfl hwritten hfree hattr (orderly_of_written hwritten hout hlog)
  have hlog : ∀ j : Option Bool, ¬ [j, some false].Sublist [some false, some true, none] := by
    decide
  have hlog' : ∀ j : Option Bool, j.isSome = false → ¬ [j, none].Sublist
      [some false, some true, none] := by decide
  have hlog'' : ∀ j : Option Bool, [j, some true].Sublist [some false, some true, none] →
      j = some false := by decide
  -- the call that wrote first reads first
  obtain ⟨st₄, hrun₄, hphase₄, hattr₄, hlog₄, hholder₄⟩ := hrest st₃ (some false) .nil
    (by rw [hphase₃]; rfl) (by rw [hholder₃]; rfl) (by rw [hattr₃]; rfl)
    (by rw [hphase₃]; rintro (_ | _ | _) h <;> trivial)
    fun j _ hs => absurd (hlog₃ ▸ hs) (hlog j)
  rw [hphase₃] at hphase₄
  rw [hattr₃] at hattr₄
  rw [hlog₃] at hlog₄
  obtain ⟨st₅, hrun₅, hphase₅, hattr₅, hlog₅, hholder₅⟩ := hrest st₄ none .nil
    (by rw [hphase₄]; rfl) hholder₄ (by rw [hattr₄]; rfl)
    (by rw [hphase₄]; rintro (_ | _ | _) h <;> trivial)
    fun j hj hs => absurd (hlog₄ ▸ hs) (hlog' j hj)
  rw [hphase₄] at hphase₅
  rw [hattr₄] at hattr₅
  rw [hlog₄] at hlog₅
  obtain ⟨st₆, hrun₆, hphase₆, hattr₆, hlog₆, hholder₆⟩ := hrest st₅ (some true) _
    (by rw [hphase₅]; rfl) hholder₅ (by rw [hattr₅]; rfl)
    (by rw [hphase₅]; rintro (_ | _ | _) h <;> trivial) fun j _ hs => by
      rw [hlog'' j (hlog₅ ▸ hs), hphase₅]
      rfl
  refine ⟨st₆, (((((Relation.ReflTransGen.single hstep₁).tail hstep₂).tail hstep₃).trans
    hrun₄).trans hrun₅).trans hrun₆, ?_, by rw [hlog₆, hlog₅]⟩
  rw [hphase₆, hphase₅]
  rintro (_ | _ | _) <;> rfl

/-! ### Runs -/

/-- **`string_to_tree` is not disturbed**: no two threads are in it, and every thread has read the
tree of the string that it has got. -/
theorem tree_of_locked
    (hrun : Relation.ReflTransGen (LockedInterleaved sha3 calls path) (lockedInit files rest) st) :
    (∀ i j l l' p p', st.phase i = .inside l p → st.phase j = .inside l' p' → i = j) ∧
      ∀ i l mt, st.phase i = .parsed l mt → attrTree l = .ok mt := by
  have hv := Locked.inv_of_reached hrun
  exact ⟨fun i j l l' p p' hi hj => hv.exclusive hi hj, hv.parsed⟩

theorem tree_of_locked_inside : ∃ (st : LockedState Bool Bool) (l : ℤ × List Byte)
    (p : StrtokProgram (Option MerkleTree)), st.phase false = .inside l p ∧
      ∀ j l' p', st.phase j = .inside l' p' → false = j := by
  obtain ⟨st, l, p, hrun, hinside, -⟩ := exists_inside_callOf
  exact ⟨st, l, p, hinside, fun j l' p' hj => (tree_of_locked hrun).1 _ _ _ _ _ _ hinside hj⟩

/-- **On every file the calls do what they do when `string_to_tree` is one step.** -/
theorem written_of_locked
    (hrun : Relation.ReflTransGen (LockedInterleaved sha3 calls path) (lockedInit files rest) st)
    (f : φ) : Relation.ReflTransGen (Interleaved sha3 (callsOn calls path f))
      (.init (files f).contents (files f).attr) (st.on path f) :=
  Locked.reached_atomic hrun f

theorem written_of_locked_two : ∃ st : LockedState Bool Bool, (∀ i, st.phase i = .done) ∧
    ∀ f, Relation.ReflTransGen (Interleaved zeroHash (callsOn callOf id f))
      (.init (fileOf f).contents (fileOf f).attr) (st.on id f) := by
  obtain ⟨st, hrun, hdone⟩ := exists_run_callOf
  exact ⟨st, hdone, fun f => written_of_locked hrun f⟩

/-- **Orderly calls lose no update on any file.** -/
theorem serializable_of_locked
    (hrun : Relation.ReflTransGen (LockedOrderly sha3 calls path) (lockedInit files rest) st)
    {f : φ} (hdone : ∀ i, path i = f → st.phase i = .done) :
    Serializable sha3 (callsOn calls path f) (files f) (st.on path f) := by
  have hrun' : Relation.ReflTransGen
      (Locked.OrderlyStep (fun i => (calls i).lockedSteps sha3) path) (lockedInit files rest) st :=
    hrun.lift id fun _ _ ⟨i, ho, hs⟩ => ⟨i, ho.toReadModifyWrite, hs⟩
  obtain ⟨order, hnodup, hall, hserial⟩ := Locked.serial_of_reached hrun' hdone
  refine ⟨order, hnodup, hall, ?_⟩
  have heq : runAll sha3 (callsOn calls path f) order ⟨(files f).contents, (files f).attr⟩ = _ :=
    runAll_eq_serial
  rw [heq]
  exact congrArg (· >>= fun s => Except.ok (File.mk s.1 s.2)) hserial

theorem serializable_of_locked_three : ∃ st : LockedState (Option Bool) Bool,
    (∀ i, st.phase i = .done) ∧ st.log = [some false, some true, none] ∧
      ∀ f, Serializable zeroHash (callsOn threeCalls Option.isSome f) (fileOf f)
        (st.on Option.isSome f) := by
  obtain ⟨st, hrun, hdone, hlog⟩ := exists_run_threeCalls
  exact ⟨st, hdone, hlog, fun f => serializable_of_locked hrun fun i _ => hdone i⟩

/-- **Calls for different files do not disturb each other**: a call that has returned leaves its
file as it leaves it alone. -/
theorem alone_of_locked (hinj : Function.Injective path)
    (hrun : Relation.ReflTransGen (LockedInterleaved sha3 calls path) (lockedInit files rest) st)
    (hdone : st.phase i = .done) : (calls i).run sha3 (files (path i)) =
      .ok (((calls i).pw (files (path i)).contents).1, ⟨st.value (path i), st.attr (path i)⟩) := by
  have halone := Locked.alone_of_reached hinj hrun hdone
  have hsteps : (calls i).run sha3 ⟨(files (path i)).contents, (files (path i)).attr⟩ = _ :=
    WriteCall.run_steps (calls i) _ _
  rw [hsteps]
  exact congrArg (· >>= fun s => Except.ok
    (((calls i).pw (files (path i)).contents).1, File.mk s.1 s.2)) halone

theorem alone_of_locked_two : ∃ st : LockedState Bool Bool, ∀ i,
    (callOf i).run zeroHash (fileOf (id i)) =
      .ok (((callOf i).pw (fileOf (id i)).contents).1, ⟨st.value (id i), st.attr (id i)⟩) := by
  obtain ⟨st, hrun, hdone⟩ := exists_run_callOf
  exact ⟨st, fun i => alone_of_locked Function.injective_id hrun (hdone i)⟩

/-- **Every run of finitely many calls ends**, and only when all have returned, unless one is at
the point of a fault: the lock blocks nobody for ever. -/
theorem locked_ends [Finite ι]
    (hrun : Relation.ReflTransGen (LockedInterleaved sha3 calls path) (lockedInit files rest) st) :
    (¬ ∃ run : ℕ → LockedState ι φ, run 0 = st ∧
      ∀ n, LockedInterleaved sha3 calls path (run n) (run (n + 1))) ∧
    ((∀ st', ¬ LockedInterleaved sha3 calls path st st') → (∀ i, st.phase i = .done) ∨
      ∃ j, Locked.Failing (fun i => (calls i).lockedSteps sha3) path st j) :=
  Locked.ends hrun

theorem locked_ends_inside : ∃ (st : LockedState Bool Bool) (l : ℤ × List Byte)
    (p : StrtokProgram (Option MerkleTree)), st.phase false = .inside l p ∧
      st.phase true = .idle ∧ ¬ ∃ run : ℕ → LockedState Bool Bool, run 0 = st ∧
        ∀ n, LockedInterleaved zeroHash callOf id (run n) (run (n + 1)) := by
  obtain ⟨st, l, p, hrun, hinside, hidle⟩ := exists_inside_callOf
  exact ⟨st, l, p, hinside, hidle true (by decide), (locked_ends hrun).1⟩

end MerkleFs
