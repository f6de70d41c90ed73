import Mathlib.Data.List.Nodup
import Mathlib.Logic.Function.Basic
import Mathlib.Logic.Relation

/-!
# Concurrent read-modify-write

Some calls share a value and an attribute that describes it.  A call writes the value, reads the
attribute, computes a new one from what it has read and the value as it finds it then, and stores
it.  Each of these four steps is atomic, and the steps of the calls are interleaved.

* `Step` : one step of one call; `serial` : the calls run one after the other.
* `Orderly` : the steps that do no harm.  A call reads the attribute only while no other is between
  reading and storing it, and calls that have written before and not returned commute with it.  It
  computes only while no other call has written and not returned, unless its result does not depend
  on the value.
* `serial_of_reached` : when all calls have returned after such steps, value and attribute are
  those of the calls run one after the other, in the order in which they have read the attribute.
* `lost_update` : a run of two calls whose steps are not orderly.
-/

namespace ReadModifyWrite

universe u

/-- A call on a value in `C` and an attribute in `A`. -/
structure Call (ε : Type*) (C A L M : Type u) where
  /-- It writes the value. -/
  write : C → C
  /-- It reads the attribute. -/
  read : A → L
  /-- It computes what to store from the value and what it has read. -/
  compute : C → L → Except ε M
  /-- It stores this in the attribute. -/
  store : A → M → Except ε A

/-- How far a call has come. -/
inductive Phase (L M : Type*) where
  /-- It has not begun. -/
  | idle
  /-- It has written. -/
  | written
  /-- It has read `l`. -/
  | got (l : L)
  /-- It has computed `m`. -/
  | computed (m : M)
  /-- It has returned. -/
  | done

/-- It has not read the attribute, or it has returned. -/
def Phase.Outside {L M : Type*} : Phase L M → Prop
  | .got _ | .computed _ => False
  | _ => True

/-- The state of a group of calls. -/
structure State (ι C A L M : Type*) where
  /-- The value. -/
  value : C
  /-- The attribute. -/
  attr : A
  /-- How far each call has come. -/
  phase : ι → Phase L M
  /-- The calls that have written, in this order. -/
  log : List ι

variable {ε ι : Type*} {C A L M : Type u} [DecidableEq ι]

/-- Before any call. -/
def State.init (c : C) (a : A) : State ι C A L M := ⟨c, a, fun _ => .idle, []⟩

/-- Call `i` moves on. -/
def State.move (st : State ι C A L M) (i : ι) (p : Phase L M) : State ι C A L M :=
  { st with phase := Function.update st.phase i p }

/-- One step of call `i`. -/
inductive Step (calls : ι → Call ε C A L M) (i : ι) :
    State ι C A L M → State ι C A L M → Prop
  /-- It writes. -/
  | write {st : State ι C A L M} (h : st.phase i = .idle) : Step calls i st
      { st.move i .written with value := (calls i).write st.value, log := st.log ++ [i] }
  /-- It reads. -/
  | read {st : State ι C A L M} (h : st.phase i = .written) : Step calls i st
      (st.move i (.got ((calls i).read st.attr)))
  /-- It computes. -/
  | compute {st : State ι C A L M} {l : L} {m : M} (h : st.phase i = .got l)
      (hm : (calls i).compute st.value l = .ok m) : Step calls i st (st.move i (.computed m))
  /-- It stores and returns. -/
  | store {st : State ι C A L M} {m : M} {a : A} (h : st.phase i = .computed m)
      (ha : (calls i).store st.attr m = .ok a) : Step calls i st { st.move i .done with attr := a }

/-- One call that is not interrupted. -/
def Call.run (k : Call ε C A L M) : C × A → Except ε (C × A)
  | (c, a) => do
    let m ← k.compute (k.write c) (k.read a)
    let a' ← k.store a m
    return (k.write c, a')

/-- Calls one after the other. -/
def serial (calls : ι → Call ε C A L M) : List ι → C × A → Except ε (C × A)
  | [], s => .ok s
  | i :: is, s => do
    let s' ← (calls i).run s
    serial calls is s'

/-- The calls `i` and `j` write the same in both orders. -/
def Commute (calls : ι → Call ε C A L M) (i j : ι) : Prop :=
  ∀ c, (calls i).write ((calls j).write c) = (calls j).write ((calls i).write c)

/-- The next step of call `i` does no harm. -/
structure Orderly (calls : ι → Call ε C A L M) (st : State ι C A L M) (i : ι) : Prop where
  /-- It does not read between the reading and the storing of another call. -/
  outside : st.phase i = .written → ∀ j, (st.phase j).Outside
  /-- Before it reads, the calls that have written before it have returned, or commute with it. -/
  read : st.phase i = .written → ∀ j, [j, i].Sublist st.log →
    st.phase j = .done ∨ Commute calls i j
  /-- When it computes, the other calls have not begun or have returned, or the value does not
  matter. -/
  compute : ∀ l, st.phase i = .got l →
    (∀ j ≠ i, st.phase j = .idle ∨ st.phase j = .done) ∨
      ∀ c c', (calls i).compute c l = (calls i).compute c' l

/-- Steps that do no harm, of any calls. -/
def OrderlyStep (calls : ι → Call ε C A L M) (st st' : State ι C A L M) : Prop :=
  ∃ i, Orderly calls st i ∧ Step calls i st st'

variable {calls : ι → Call ε C A L M} {st st' : State ι C A L M} {i j : ι} {c₀ c : C} {a₀ : A}
  {p : Phase L M} {s : C × A} {pre is : List ι}

@[simp] theorem State.move_value : (st.move i p).value = st.value := rfl

@[simp] theorem State.move_attr : (st.move i p).attr = st.attr := rfl

@[simp] theorem State.move_log : (st.move i p).log = st.log := rfl

@[simp] theorem State.move_phase_self : (st.move i p).phase i = p := Function.update_self _ _ _

theorem State.move_phase (h : j ≠ i) : (st.move i p).phase j = st.phase j :=
  Function.update_of_ne h _ _

omit [DecidableEq ι] in
theorem serial_append (is' : List ι) :
    serial calls (is ++ is') s = serial calls is s >>= serial calls is' := by
  induction is generalizing s with
  | nil => rfl
  | cons i is ih =>
    rw [List.cons_append, serial, serial, bind_assoc]
    exact congrArg _ (funext fun s' => ih)

/-- The calls of a list write one after the other. -/
def writes (calls : ι → Call ε C A L M) (is : List ι) (c : C) : C :=
  is.foldl (fun c i => (calls i).write c) c

omit [DecidableEq ι] in
theorem writes_middle {u v : List ι} (hcomm : ∀ j ∈ u, Commute calls i j) :
    writes calls (u ++ i :: v) c = writes calls (i :: (u ++ v)) c := by
  induction u generalizing c with
  | nil => rfl
  | cons j u ih =>
    have hj := hcomm j List.mem_cons_self c
    have hu := ih (c := (calls j).write c) fun k hk => hcomm k (List.mem_cons_of_mem _ hk)
    simp only [writes, List.cons_append, List.foldl_cons] at hu ⊢
    rw [hu, hj]

/-! ### The calls that have not returned -/

/-- Calls that have written in the order of a list, and not read. -/
structure Written (st : State ι C A L M) (q : List ι) : Prop where
  /-- The order. -/
  sublist : q.Sublist st.log
  /-- They have written. -/
  phase : ∀ i ∈ q, st.phase i = .written

/-- Calls that have written and not returned yet: the first may have come further.  The value was
`c` before the first of them. -/
inductive Pending (calls : ι → Call ε C A L M) (st : State ι C A L M) (c : C) : List ι → Prop
  /-- None has read. -/
  | written {q : List ι} (hq : Written st q) : Pending calls st c q
  /-- The first has read the attribute. -/
  | got {i : ι} {q : List ι} (h : st.phase i = .got ((calls i).read st.attr))
      (hq : Written st q) : Pending calls st c (i :: q)
  /-- It has computed what it computes alone. -/
  | computed {i : ι} {q : List ι} {m : M} (h : st.phase i = .computed m)
      (hm : (calls i).compute ((calls i).write c) ((calls i).read st.attr) = .ok m)
      (hq : Written st q) : Pending calls st c (i :: q)

/-- The invariant: the calls in `pre` have returned one after the other, those in `q` have written
since. -/
structure Inv (calls : ι → Call ε C A L M) (c₀ : C) (a₀ : A) (st : State ι C A L M)
    (pre q : List ι) (c : C) : Prop where
  /-- They are the calls that have written. -/
  log : st.log.Perm (pre ++ q)
  /-- Each has written once. -/
  nodup : (pre ++ q).Nodup
  /-- The others have not begun. -/
  idle : ∀ i, i ∉ pre ++ q → st.phase i = .idle
  /-- Those that have returned. -/
  done : ∀ i ∈ pre, st.phase i = .done
  /-- Their result. -/
  result : serial calls pre (c₀, a₀) = .ok (c, st.attr)
  /-- The value has been written by the others since. -/
  value : st.value = writes calls q c
  /-- How far these have come. -/
  pending : Pending calls st c q

variable {q : List ι}

omit [DecidableEq ι] in
theorem Pending.ne (hp : Pending calls st c q) (hi : i ∈ q) :
    st.phase i ≠ .idle ∧ st.phase i ≠ .done := by
  have hwritten : st.phase i = .written → st.phase i ≠ .idle ∧ st.phase i ≠ .done := fun h => by
    rw [h]
    exact ⟨nofun, nofun⟩
  cases hp with
  | written hq => exact hwritten (hq.phase i hi)
  | got h hq =>
    rcases List.mem_cons.1 hi with rfl | hi
    · rw [h]
      exact ⟨nofun, nofun⟩
    · exact hwritten (hq.phase i hi)
  | computed h _ hq =>
    rcases List.mem_cons.1 hi with rfl | hi
    · rw [h]
      exact ⟨nofun, nofun⟩
    · exact hwritten (hq.phase i hi)

theorem Written.write (hq : Written st q) (hne : ∀ j ∈ q, j ≠ i) (c : C) :
    Written { st.move i .written with value := c, log := st.log ++ [i] } (q ++ [i]) := by
  refine ⟨hq.sublist.append (List.Sublist.refl _), fun j hj => ?_⟩
  rcases List.mem_append.1 hj with hj | hj
  · exact (State.move_phase (hne j hj)).trans (hq.phase j hj)
  · rw [List.mem_singleton.1 hj]
    exact State.move_phase_self

namespace Inv

omit [DecidableEq ι] in
theorem mem_pending (hv : Inv calls c₀ a₀ st pre q c) (hidle : st.phase i ≠ .idle)
    (hdone : st.phase i ≠ .done) : i ∈ q := by
  by_contra hq
  refine hidle (hv.idle i fun hmem => ?_)
  rcases List.mem_append.1 hmem with hpre | hq'
  · exact hdone (hv.done i hpre)
  · exact hq hq'

omit [DecidableEq ι] in
theorem not_mem_tail (hv : Inv calls c₀ a₀ st pre (i :: q) c) : i ∉ q :=
  (List.nodup_cons.1 (List.nodup_append.1 hv.nodup).2.1).1

omit [DecidableEq ι] in
theorem exists_cons (hv : Inv calls c₀ a₀ st pre q c) (hi : ¬ (st.phase i).Outside) :
    ∃ q', q = i :: q' ∧ Written st q' := by
  have hwritten : st.phase i ≠ .written := fun h => hi (by rw [h]; trivial)
  have hmem := hv.mem_pending (fun h => hi (by rw [h]; trivial)) fun h => hi (by rw [h]; trivial)
  cases hv.pending with
  | written hq => exact absurd (hq.phase i hmem) hwritten
  | got h hq =>
    rcases List.mem_cons.1 hmem with rfl | hmem
    · exact ⟨_, rfl, hq⟩
    · exact absurd (hq.phase i hmem) hwritten
  | computed h _ hq =>
    rcases List.mem_cons.1 hmem with rfl | hmem
    · exact ⟨_, rfl, hq⟩
    · exact absurd (hq.phase i hmem) hwritten

omit [DecidableEq ι] in
theorem written_of_outside (hv : Inv calls c₀ a₀ st pre q c) (ho : ∀ j, (st.phase j).Outside) :
    Written st q := by
  cases hv.pending with
  | written hq => exact hq
  | @got i _ h _ =>
    have := ho i
    rw [h] at this
    exact this.elim
  | @computed i _ _ h _ _ =>
    have := ho i
    rw [h] at this
    exact this.elim

/-- Another call writes. -/
theorem write (hv : Inv calls c₀ a₀ st pre q c) (h : st.phase i = .idle) :
    Inv calls c₀ a₀ { st.move i .written with
      value := (calls i).write st.value, log := st.log ++ [i] } pre (q ++ [i]) c := by
  have hpre : ∀ j ∈ pre, j ≠ i := fun j hj heq => by
    rw [← heq, hv.done j hj] at h
    cases h
  have hq : ∀ j ∈ q, j ≠ i := fun j hj heq => (hv.pending.ne hj).1 (heq ▸ h)
  refine ⟨?_, ?_, fun j hj => ?_, fun j hj => ?_, hv.result, ?_, ?_⟩
  · rw [← List.append_assoc]
    exact hv.log.append_right [i]
  · rw [← List.append_assoc]
    refine List.nodup_append.2 ⟨hv.nodup, List.nodup_singleton i, fun j hj k hk => ?_⟩
    rw [List.mem_singleton.1 hk]
    exact (List.mem_append.1 hj).elim (hpre j) (hq j)
  · have hj' : j ∉ pre ++ q ∧ j ≠ i := by simpa [not_or, and_assoc] using hj
    exact (State.move_phase hj'.2).trans (hv.idle j hj'.1)
  · exact (State.move_phase (hpre j hj)).trans (hv.done j hj)
  · show (calls i).write st.value = _
    rw [hv.value, writes, writes, List.foldl_append]
    rfl
  · cases hv.pending with
    | written hw => exact .written (hw.write hq _)
    | @got k q' hk hw =>
      exact .got ((State.move_phase (hq k List.mem_cons_self)).trans hk)
        (hw.write (fun j hj => hq j (List.mem_cons_of_mem _ hj)) _)
    | @computed k q' m hk hm hw =>
      exact .computed ((State.move_phase (hq k List.mem_cons_self)).trans hk) hm
        (hw.write (fun j hj => hq j (List.mem_cons_of_mem _ hj)) _)

omit [DecidableEq ι] in
theorem not_mem (hv : Inv calls c₀ a₀ st pre q c) (hi : i ∈ q) : i ∉ pre := fun hpre =>
  (List.nodup_append.1 hv.nodup).2.2 i hpre i hi rfl

theorem move {q' : List ι} (hv : Inv calls c₀ a₀ st pre q c) (hi : i ∈ q) (hperm : q.Perm q')
    (hvalue : writes calls q c = writes calls q' c) (hp : Pending calls (st.move i p) c q') :
    Inv calls c₀ a₀ (st.move i p) pre q' c := by
  have hperm' := hperm.append_left pre
  refine ⟨hv.log.trans hperm', hperm'.nodup_iff.1 hv.nodup, fun j hj => ?_, fun j hj => ?_,
    hv.result, hv.value.trans hvalue, hp⟩
  · rw [← hperm'.mem_iff] at hj
    have hne : j ≠ i := fun heq => hj (heq ▸ List.mem_append_right _ hi)
    exact (State.move_phase hne).trans (hv.idle j hj)
  · have hne : j ≠ i := fun heq => hv.not_mem hi (heq ▸ hj)
    exact (State.move_phase hne).trans (hv.done j hj)

/-- A call reads. -/
theorem read (hv : Inv calls c₀ a₀ st pre q c) (h : st.phase i = .written)
    (ho : ∀ j, (st.phase j).Outside)
    (hr : ∀ j, [j, i].Sublist st.log → st.phase j = .done ∨ Commute calls i j) :
    ∃ q', Inv calls c₀ a₀ (st.move i (.got ((calls i).read st.attr))) pre q' c := by
  have hw := hv.written_of_outside ho
  have hi := hv.mem_pending (by rw [h]; exact nofun) (by rw [h]; exact nofun)
  obtain ⟨u, v, rfl⟩ := List.append_of_mem hi
  have hnodup := (List.nodup_append.1 hv.nodup).2.1
  have hcomm : ∀ j ∈ u, Commute calls i j := fun j hj => by
    have hpair : [j, i].Sublist (u ++ i :: v) :=
      (List.singleton_sublist.2 hj).append (List.singleton_sublist.2 List.mem_cons_self)
    refine (hr j (hpair.trans hw.sublist)).resolve_left fun hdone => ?_
    exact (hv.pending.ne (List.mem_append_left _ hj)).2 hdone
  have hne : ∀ j ∈ u ++ v, j ≠ i := fun j hj heq =>
    (List.nodup_cons.1 (List.perm_middle.nodup_iff.1 hnodup)).1 (heq ▸ hj)
  -- it goes in front of the calls that have written before it
  refine ⟨i :: (u ++ v), hv.move hi List.perm_middle (writes_middle hcomm)
    (.got State.move_phase_self ⟨?_, fun j hj => ?_⟩)⟩
  · exact ((List.Sublist.refl u).append (List.sublist_cons_self i v)).trans hw.sublist
  · rw [State.move_phase (hne j hj)]
    exact hw.phase j (List.perm_middle.mem_iff.2 (List.mem_cons_of_mem _ hj))

theorem move_tail (hv : Inv calls c₀ a₀ st pre (i :: q) c) (hq : Written st q) :
    Written (st.move i p) q :=
  ⟨hq.sublist, fun j hj => (State.move_phase fun heq : j = i => hv.not_mem_tail (heq ▸ hj)).trans
    (hq.phase j hj)⟩

/-- A call computes what it computes alone. -/
theorem compute {l : L} {m : M} (hv : Inv calls c₀ a₀ st pre q c) (h : st.phase i = .got l)
    (hm : (calls i).compute st.value l = .ok m)
    (ho : (∀ j ≠ i, st.phase j = .idle ∨ st.phase j = .done) ∨
      ∀ c c', (calls i).compute c l = (calls i).compute c' l) :
    Inv calls c₀ a₀ (st.move i (.computed m)) pre q c := by
  obtain ⟨q, rfl, hw⟩ := hv.exists_cons (by rw [h]; exact not_false)
  have hl : l = (calls i).read st.attr := by
    cases hv.pending with
    | written hw =>
      rw [hw.phase i List.mem_cons_self] at h
      cases h
    | got h' _ => exact Phase.got.inj (h.symm.trans h')
    | computed h' _ _ =>
      rw [h] at h'
      cases h'
  have halone : (calls i).compute ((calls i).write c) l = .ok m := by
    rcases ho with hothers | hsame
    · have hnil : q = [] := List.eq_nil_iff_forall_not_mem.2 fun j hj => by
        have hne := hv.pending.ne (List.mem_cons_of_mem _ hj)
        exact (hothers j fun heq => hv.not_mem_tail (heq ▸ hj)).elim hne.1 hne.2
      subst hnil
      rwa [hv.value] at hm
    · rwa [hsame _ st.value]
  exact hv.move List.mem_cons_self (List.Perm.refl _) rfl
    (.computed State.move_phase_self (hl ▸ halone) (hv.move_tail hw))

/-- A call returns. -/
theorem store {m : M} {a : A} (hv : Inv calls c₀ a₀ st pre q c) (h : st.phase i = .computed m)
    (ha : (calls i).store st.attr m = .ok a) : ∃ q',
      Inv calls c₀ a₀ { st.move i .done with attr := a } (pre ++ [i]) q' ((calls i).write c) := by
  obtain ⟨q, rfl, hw⟩ := hv.exists_cons (by rw [h]; exact not_false)
  have hm : (calls i).compute ((calls i).write c) ((calls i).read st.attr) = .ok m := by
    cases hv.pending with
    | written hw =>
      rw [hw.phase i List.mem_cons_self] at h
      cases h
    | got h' _ =>
      rw [h] at h'
      cases h'
    | computed h' hm _ =>
      cases h.symm.trans h'
      exact hm
  have happ : pre ++ [i] ++ q = pre ++ i :: q := List.append_cons pre i q ▸ rfl
  refine ⟨q, happ ▸ hv.log, happ ▸ hv.nodup, fun j hj => ?_, fun j hj => ?_, ?_, hv.value,
    .written ⟨(hv.move_tail (p := .done) hw).sublist, (hv.move_tail hw).phase⟩⟩
  · rw [happ] at hj
    have hne : j ≠ i := fun heq => hj (heq ▸ List.mem_append_right _ List.mem_cons_self)
    exact (State.move_phase hne).trans (hv.idle j hj)
  · rcases List.mem_append.1 hj with hj | hj
    · have hne : j ≠ i := fun heq => hv.not_mem List.mem_cons_self (heq ▸ hj)
      exact (State.move_phase hne).trans (hv.done j hj)
    · rw [List.mem_singleton.1 hj]
      exact State.move_phase_self
  · have hrun : (calls i).run (c, st.attr) = .ok ((calls i).write c, a) := by
      rw [Call.run, hm]
      show ((calls i).store st.attr m >>= fun a' => _) = _
      rw [ha]
      rfl
    rw [serial_append, hv.result]
    show serial calls [i] (c, st.attr) = _
    rw [serial, hrun]
    rfl

end Inv

/-- **One step** keeps the invariant. -/
theorem Inv.step (hv : Inv calls c₀ a₀ st pre is c) (ho : Orderly calls st i)
    (hs : Step calls i st st') : ∃ pre' is' c', Inv calls c₀ a₀ st' pre' is' c' := by
  cases hs with
  | write h => exact ⟨_, _, _, hv.write h⟩
  | read h => exact ⟨_, (hv.read h (ho.outside h) (ho.read h)).imp fun _ hv' => ⟨_, hv'⟩⟩
  | compute h hm => exact ⟨_, _, _, hv.compute h hm (ho.compute _ h)⟩
  | store h ha => exact ⟨_, (hv.store h ha).imp fun _ hv' => ⟨_, hv'⟩⟩

theorem inv_of_reached (hrun : Relation.ReflTransGen (OrderlyStep calls) (.init c₀ a₀) st) :
    ∃ pre q c, Inv calls c₀ a₀ st pre q c := by
  induction hrun with
  | refl =>
    exact ⟨[], [], c₀, List.Perm.refl _, List.nodup_nil, fun _ _ => rfl, nofun, rfl, rfl,
      .written ⟨List.Sublist.refl _, nofun⟩⟩
  | tail _ hstep ih =>
    obtain ⟨_, _, _, hv⟩ := ih
    obtain ⟨i, ho, hs⟩ := hstep
    exact hv.step ho hs

/-- **When all calls have returned** after orderly steps, the value and the attribute are those of
the calls run one after the other. -/
theorem serial_of_reached (hrun : Relation.ReflTransGen (OrderlyStep calls) (.init c₀ a₀) st)
    (hdone : ∀ i, st.phase i = .done) : ∃ order : List ι, order.Nodup ∧ (∀ i, i ∈ order) ∧
      serial calls order (c₀, a₀) = .ok (st.value, st.attr) := by
  obtain ⟨pre, q, c, hv⟩ := inv_of_reached hrun
  obtain rfl : q = [] := List.eq_nil_iff_forall_not_mem.2 fun i hi =>
    (hv.pending.ne hi).2 (hdone i)
  have hall : pre ++ [] = pre := List.append_nil pre
  refine ⟨pre, hall ▸ hv.nodup, fun i => ?_, ?_⟩
  · by_contra hi
    have := hv.idle i (hall.symm ▸ hi)
    rw [hdone i] at this
    cases this
  · rw [hv.result, hv.value]
    rfl

/-! ### A lost update -/

/-- A call reads the attribute, another one writes, reads, computes and stores, and the first one
stores what it has computed: nothing is left of what the other one stored. -/
theorem lost_update (calls : Bool → Call ε C A L M) (c₀ : C) {m m' : M} {a a' : A}
    (hm : (calls false).compute ((calls false).write c₀) ((calls false).read a₀) = .ok m)
    (hm' : (calls true).compute ((calls true).write ((calls false).write c₀))
      ((calls true).read a₀) = .ok m')
    (ha' : (calls true).store a₀ m' = .ok a') (ha : (calls false).store a' m = .ok a) :
    ∃ st, Relation.ReflTransGen (fun st st' => ∃ i, Step calls i st st') (.init c₀ a₀) st ∧
      (∀ i, st.phase i = .done) ∧ st.value = (calls true).write ((calls false).write c₀) ∧
      st.attr = a := by
  have hinit : Relation.ReflTransGen (fun st st' => ∃ i, Step calls i st st')
      (.init c₀ a₀) (.init c₀ a₀) := .refl
  have hfirst := ((hinit.tail ⟨false, .write rfl⟩).tail ⟨false, .read rfl⟩).tail
    ⟨false, .compute rfl hm⟩
  have hsecond := ((hfirst.tail ⟨true, .write rfl⟩).tail ⟨true, .read rfl⟩).tail
    ⟨true, .compute rfl hm'⟩
  refine ⟨_, (hsecond.tail ⟨true, .store rfl ha'⟩).tail ⟨false, .store rfl ha⟩, ?_, rfl, rfl⟩
  rintro (_ | _) <;> rfl

end ReadModifyWrite
