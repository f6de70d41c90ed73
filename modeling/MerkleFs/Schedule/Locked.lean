import Mathlib.Data.DFinsupp.WellFounded
import Mathlib.SetTheory.Cardinal.Order
import MerkleFs.Schedule.ReadModifyWrite
import MerkleFs.Schedule.Resumption

/-!
# A lock around part of a computation

Calls read, modify and write several objects, each of which is a value with an attribute
(`ReadModifyWrite`).  On the way from what it has read to what it computes a call runs a program
that shares a state with the programs of all other calls, whatever their objects are.  One lock is
held while such a program runs.

* `Step` : one step of one call, where a program takes a step for every action.
* `Inv` : the calls whose programs run hold the lock, and their programs will return what they
  return alone.
* `reached_atomic` : on every object the calls do what they do when the programs are single steps.
* `serial_of_reached` : so that orderly calls are serial on every object.
* `progress` : some call can go on until all have returned, unless one has failed.
* `ends` : so that every run of finitely many calls ends when all have returned.
-/

namespace Locked

universe u v w

/-- A call on a value in `C` and an attribute in `A`, with a shared state in `σ`. -/
structure Call (σ : Type v) (ε : Type w) (C A L T M : Type u) where
  /-- It writes the value. -/
  write : C → C
  /-- It reads the attribute. -/
  read : A → L
  /-- What it makes of what it has read. -/
  parse : L → Except ε T
  /-- The program for this; without one the lock is not taken. -/
  locked : L → Option (Resumption σ ε T)
  /-- Alone, the program makes this of it in every state. -/
  outcome_eq : ∀ l p, locked l = some p → ∀ s, p.outcome s = parse l
  /-- It computes what to store from the value. -/
  change : C → T → Except ε M
  /-- It stores this in the attribute. -/
  store : A → M → Except ε A

variable {σ : Type v} {ε : Type w} {C A L T M : Type u} {ι φ : Type*}

/-- The call when its program is part of a single step. -/
def Call.atomic (k : Call σ ε C A L T M) : ReadModifyWrite.Call ε C A L M where
  write := k.write
  read := k.read
  compute c l := do
    let t ← k.parse l
    k.change c t
  store := k.store

/-- How far a call has come. -/
inductive Phase (σ : Type v) (ε : Type w) (L T M : Type u) where
  /-- It has not begun. -/
  | idle
  /-- It has written. -/
  | written
  /-- It has read `l`. -/
  | got (l : L)
  /-- It holds the lock, and `p` is what is left of its program. -/
  | inside (l : L) (p : Resumption σ ε T)
  /-- It has made `t` of what it has read. -/
  | parsed (l : L) (t : T)
  /-- It has computed `m`. -/
  | computed (m : M)
  /-- It has returned. -/
  | done

/-- Programs that run, or have run, are not seen. -/
def Phase.atomic : Phase σ ε L T M → ReadModifyWrite.Phase L M
  | .idle => .idle
  | .written => .written
  | .got l | .inside l _ | .parsed l _ => .got l
  | .computed m => .computed m
  | .done => .done

/-- The state of a group of calls on the objects `φ`. -/
structure State (ι φ : Type*) (σ : Type v) (ε : Type w) (C A L T M : Type u) where
  /-- The values. -/
  value : φ → C
  /-- The attributes. -/
  attr : φ → A
  /-- How far each call has come. -/
  phase : ι → Phase σ ε L T M
  /-- The calls that have written, in this order. -/
  log : List ι
  /-- The call that holds the lock. -/
  holder : Option ι
  /-- The state that the programs share. -/
  shared : σ

/-- Before any call. -/
def State.init (c : φ → C) (a : φ → A) (s : σ) : State ι φ σ ε C A L T M :=
  ⟨c, a, fun _ => .idle, [], none, s⟩

variable [DecidableEq ι] [DecidableEq φ]

/-- Call `i` moves on. -/
def State.move (st : State ι φ σ ε C A L T M) (i : ι) (p : Phase σ ε L T M) :
    State ι φ σ ε C A L T M :=
  { st with phase := Function.update st.phase i p }

/-- One step of call `i`. -/
inductive Step (calls : ι → Call σ ε C A L T M) (obj : ι → φ) (i : ι) :
    State ι φ σ ε C A L T M → State ι φ σ ε C A L T M → Prop
  /-- It writes. -/
  | write {st : State ι φ σ ε C A L T M} (h : st.phase i = .idle) : Step calls obj i st
      { st.move i .written with
        value := Function.update st.value (obj i) ((calls i).write (st.value (obj i)))
        log := st.log ++ [i] }
  /-- It reads. -/
  | read {st : State ι φ σ ε C A L T M} (h : st.phase i = .written) : Step calls obj i st
      (st.move i (.got ((calls i).read (st.attr (obj i)))))
  /-- It goes on without the lock. -/
  | pass {st : State ι φ σ ε C A L T M} {l : L} {t : T} (h : st.phase i = .got l)
      (hp : (calls i).locked l = none) (ht : (calls i).parse l = .ok t) :
      Step calls obj i st (st.move i (.parsed l t))
  /-- It takes the lock, which nobody holds. -/
  | lock {st : State ι φ σ ε C A L T M} {l : L} {p : Resumption σ ε T} (h : st.phase i = .got l)
      (hp : (calls i).locked l = some p) (hfree : st.holder = none) :
      Step calls obj i st { st.move i (.inside l p) with holder := some i }
  /-- Its program acts. -/
  | act {st : State ι φ σ ε C A L T M} {l : L} {f : σ → σ} {next : σ → Resumption σ ε T}
      (h : st.phase i = .inside l (.act f next)) :
      Step calls obj i st { st.move i (.inside l (next st.shared)) with shared := f st.shared }
  /-- Its program has returned, and it releases the lock. -/
  | unlock {st : State ι φ σ ε C A L T M} {l : L} {t : T}
      (h : st.phase i = .inside l (.ret (.ok t))) :
      Step calls obj i st { st.move i (.parsed l t) with holder := none }
  /-- It computes. -/
  | compute {st : State ι φ σ ε C A L T M} {l : L} {t : T} {m : M} (h : st.phase i = .parsed l t)
      (hm : (calls i).change (st.value (obj i)) t = .ok m) :
      Step calls obj i st (st.move i (.computed m))
  /-- It stores and returns. -/
  | store {st : State ι φ σ ε C A L T M} {m : M} {a : A} (h : st.phase i = .computed m)
      (ha : (calls i).store (st.attr (obj i)) m = .ok a) : Step calls obj i st
      { st.move i .done with attr := Function.update st.attr (obj i) a }

/-- The calls on object `f`, with their objects and without their programs. -/
def State.on (obj : ι → φ) (f : φ) (st : State ι φ σ ε C A L T M) :
    ReadModifyWrite.State {i // obj i = f} C A L M where
  value := st.value f
  attr := st.attr f
  phase i := (st.phase i).atomic
  log := st.log.filterMap fun i => if h : obj i = f then some ⟨i, h⟩ else none

/-- Programs that run hold the lock and return what they return alone. -/
structure Inv (calls : ι → Call σ ε C A L T M) (st : State ι φ σ ε C A L T M) : Prop where
  /-- The lock is held. -/
  holder : ∀ i l p, st.phase i = .inside l p → st.holder = some i
  /-- What the program returns. -/
  inside : ∀ i l p, st.phase i = .inside l p → p.outcome st.shared = (calls i).parse l
  /-- What it has returned. -/
  parsed : ∀ i l t, st.phase i = .parsed l t → (calls i).parse l = .ok t
  /-- The call that holds the lock runs its program. -/
  held : ∀ i, st.holder = some i → ∃ l p, st.phase i = .inside l p

variable {calls : ι → Call σ ε C A L T M} {obj : ι → φ} {st st' : State ι φ σ ε C A L T M}
  {i j : ι} {f : φ} {p : Phase σ ε L T M}

omit [DecidableEq φ] in
@[simp] theorem State.move_phase_self : (st.move i p).phase i = p := Function.update_self _ _ _

omit [DecidableEq φ] in
theorem State.move_phase (h : j ≠ i) : (st.move i p).phase j = st.phase j :=
  Function.update_of_ne h _ _

omit [DecidableEq φ] in
theorem State.move_phase_cases {q : Phase σ ε L T M} (hj : (st.move i p).phase j = q) :
    j = i ∧ p = q ∨ j ≠ i ∧ st.phase j = q := by
  by_cases hji : j = i
  · subst hji
    exact .inl ⟨rfl, move_phase_self.symm.trans hj⟩
  · exact .inr ⟨hji, (move_phase hji).symm.trans hj⟩

/-! ### The lock -/

namespace Inv

omit [DecidableEq ι] [DecidableEq φ] in
theorem exclusive {l l' : L} {q q' : Resumption σ ε T} (hv : Inv calls st)
    (hi : st.phase i = .inside l q) (hj : st.phase j = .inside l' q') : i = j :=
  Option.some.inj ((hv.holder i l q hi).symm.trans (hv.holder j l' q' hj))

omit [DecidableEq φ] in
/-- A call moves on without its program. -/
theorem move (hv : Inv calls st) (hi : ∀ l q, st.phase i ≠ .inside l q)
    (hp : ∀ l q, p ≠ .inside l q) (ht : ∀ l t, p = .parsed l t → (calls i).parse l = .ok t)
    (c : φ → C) (a : φ → A) (log : List ι) :
    Inv calls { st.move i p with value := c, attr := a, log := log } := by
  refine ⟨?_, ?_, ?_, ?_⟩
  · intro j l q hj
    rcases State.move_phase_cases hj with ⟨rfl, hpj⟩ | ⟨-, hj⟩
    · exact absurd hpj (hp l q)
    · exact hv.holder j l q hj
  · intro j l q hj
    rcases State.move_phase_cases hj with ⟨rfl, hpj⟩ | ⟨-, hj⟩
    · exact absurd hpj (hp l q)
    · exact hv.inside j l q hj
  · intro j l t hj
    rcases State.move_phase_cases hj with ⟨rfl, hpj⟩ | ⟨-, hj⟩
    · exact ht l t hpj
    · exact hv.parsed j l t hj
  · intro j hj
    obtain ⟨l, q, hq⟩ := hv.held j hj
    have hji : j ≠ i := fun heq => hi l q (heq ▸ hq)
    exact ⟨l, q, (State.move_phase hji).trans hq⟩

omit [DecidableEq φ] in
/-- A call takes the lock. -/
theorem lock {l : L} {q : Resumption σ ε T} (hv : Inv calls st) (hq : (calls i).locked l = some q)
    (hfree : st.holder = none) : Inv calls { st.move i (.inside l q) with holder := some i } := by
  -- nobody runs a program
  have hnone : ∀ j l q, st.phase j ≠ .inside l q := by
    intro j l q hj
    have hholder := hv.holder j l q hj
    rw [hfree] at hholder
    cases hholder
  refine ⟨?_, ?_, ?_, ?_⟩
  · intro j l' q' hj
    rcases State.move_phase_cases hj with ⟨rfl, -⟩ | ⟨-, hj⟩
    · rfl
    · exact absurd hj (hnone j l' q')
  · intro j l' q' hj
    rcases State.move_phase_cases hj with ⟨rfl, hpj⟩ | ⟨-, hj⟩
    · cases hpj
      exact (calls j).outcome_eq l q hq _
    · exact absurd hj (hnone j l' q')
  · intro j l' t hj
    rcases State.move_phase_cases hj with ⟨-, hpj⟩ | ⟨-, hj⟩
    · cases hpj
    · exact hv.parsed j l' t hj
  · intro j hj
    cases hj
    exact ⟨l, q, State.move_phase_self⟩

omit [DecidableEq φ] in
/-- A program acts; no other program runs, so that the others do not see it. -/
theorem act {l : L} {g : σ → σ} {next : σ → Resumption σ ε T} (hv : Inv calls st)
    (h : st.phase i = .inside l (.act g next)) :
    Inv calls { st.move i (.inside l (next st.shared)) with shared := g st.shared } := by
  refine ⟨?_, ?_, ?_, ?_⟩
  · intro j l' q' hj
    rcases State.move_phase_cases hj with ⟨rfl, -⟩ | ⟨-, hj⟩
    · exact hv.holder j l _ h
    · exact hv.holder j l' q' hj
  · intro j l' q' hj
    rcases State.move_phase_cases hj with ⟨rfl, hpj⟩ | ⟨hji, hj⟩
    · cases hpj
      exact hv.inside j l _ h
    · exact absurd (hv.exclusive hj h) hji
  · intro j l' t hj
    rcases State.move_phase_cases hj with ⟨-, hpj⟩ | ⟨-, hj⟩
    · cases hpj
    · exact hv.parsed j l' t hj
  · intro j hj
    obtain rfl : i = j := Option.some.inj ((hv.holder i l _ h).symm.trans hj)
    exact ⟨l, _, State.move_phase_self⟩

omit [DecidableEq φ] in
/-- A call releases the lock. -/
theorem unlock {l : L} {t : T} (hv : Inv calls st) (h : st.phase i = .inside l (.ret (.ok t))) :
    Inv calls { st.move i (.parsed l t) with holder := none } := by
  have hinside : ∀ j l' q', (st.move i (.parsed l t)).phase j ≠ .inside l' q' := by
    intro j l' q' hj
    rcases State.move_phase_cases hj with ⟨-, hpj⟩ | ⟨hji, hj⟩
    · cases hpj
    · exact hji (hv.exclusive hj h)
  refine ⟨?_, ?_, ?_, nofun⟩
  · intro j l' q' hj
    exact absurd hj (hinside j l' q')
  · intro j l' q' hj
    exact absurd hj (hinside j l' q')
  · intro j l' t' hj
    rcases State.move_phase_cases hj with ⟨rfl, hpj⟩ | ⟨-, hj⟩
    · cases hpj
      exact (hv.inside j l _ h).symm
    · exact hv.parsed j l' t' hj

/-- **One step** keeps the invariant. -/
theorem step (hv : Inv calls st) (hs : Step calls obj i st st') : Inv calls st' := by
  cases hs with
  | write h => exact hv.move (p := .written) (by rw [h]; exact nofun) nofun nofun _ _ _
  | read h => exact hv.move (p := .got _) (by rw [h]; exact nofun) nofun nofun _ _ _
  | pass h hp ht =>
    refine hv.move (p := .parsed _ _) (by rw [h]; exact nofun) nofun (fun l t heq => ?_) _ _ _
    cases heq
    exact ht
  | lock h hp hfree => exact hv.lock hp hfree
  | act h => exact hv.act h
  | unlock h => exact hv.unlock h
  | compute h hm => exact hv.move (p := .computed _) (by rw [h]; exact nofun) nofun nofun _ _ _
  | store h ha => exact hv.move (p := .done) (by rw [h]; exact nofun) nofun nofun _ _ _

omit [DecidableEq ι] [DecidableEq φ] in
theorem init (c : φ → C) (a : φ → A) (s : σ) :
    Inv calls (.init c a s : State ι φ σ ε C A L T M) :=
  ⟨nofun, nofun, nofun, nofun⟩

end Inv

/-! ### One object -/

theorem phase_on (obj : ι → φ) (h : obj i = f) (st : State ι φ σ ε C A L T M)
    (p : Phase σ ε L T M) : ((st.move i p).on obj f).phase =
      ((st.on obj f).move ⟨i, h⟩ p.atomic : ReadModifyWrite.State _ C A L M).phase := by
  funext j
  by_cases hji : j = ⟨i, h⟩
  · subst hji
    rw [ReadModifyWrite.State.move_phase_self]
    exact congrArg Phase.atomic State.move_phase_self
  · have hne : j.1 ≠ i := fun heq => hji (Subtype.ext heq)
    rw [ReadModifyWrite.State.move_phase hji]
    exact congrArg Phase.atomic (State.move_phase hne)

theorem phase_on_ne (obj : ι → φ) (h : obj i ≠ f) (st : State ι φ σ ε C A L T M)
    (p : Phase σ ε L T M) : ((st.move i p).on obj f).phase = (st.on obj f).phase := by
  funext j
  have hne : j.1 ≠ i := fun heq => h (heq ▸ j.2)
  exact congrArg Phase.atomic (State.move_phase hne)

theorem phase_on_of_eq (hp : p.atomic = (st.phase i).atomic) :
    ((st.move i p).on obj f).phase = (st.on obj f).phase := by
  funext j
  by_cases hji : j.1 = i
  · show ((st.move i p).phase j.1).atomic = (st.phase j.1).atomic
    rw [hji, State.move_phase_self, hp]
  · exact congrArg Phase.atomic (State.move_phase hji)

omit [DecidableEq ι] in
theorem log_on (obj : ι → φ) (h : obj i = f) (st : State ι φ σ ε C A L T M) :
    ((st.log ++ [i]).filterMap fun i => if h : obj i = f then some (⟨i, h⟩ : {i // obj i = f})
      else none) = (st.on obj f).log ++ [⟨i, h⟩] := by
  simp only [List.filterMap_append, List.filterMap_cons, dif_pos h, List.filterMap_nil]
  rfl

omit [DecidableEq ι] in
theorem log_on_ne (obj : ι → φ) (h : obj i ≠ f) (st : State ι φ σ ε C A L T M) :
    ((st.log ++ [i]).filterMap fun i => if h : obj i = f then some (⟨i, h⟩ : {i // obj i = f})
      else none) = (st.on obj f).log := by
  simp only [List.filterMap_append, List.filterMap_cons, dif_neg h, List.filterMap_nil]
  exact List.append_nil _

/-- The calls on an object, when their programs are part of single steps. -/
def atomicOn (calls : ι → Call σ ε C A L T M) (obj : ι → φ) (f : φ)
    (i : {i // obj i = f}) : ReadModifyWrite.Call ε C A L M := (calls i).atomic

theorem state_ext {κ : Type*} {s s' : ReadModifyWrite.State κ C A L M} (hvalue : s.value = s'.value)
    (hattr : s.attr = s'.attr) (hphase : s.phase = s'.phase) (hlog : s.log = s'.log) : s = s' := by
  cases s
  cases s'
  cases hvalue
  cases hattr
  cases hphase
  cases hlog
  rfl

theorem step_on_ne (h : obj i ≠ f) (hs : Step calls obj i st st') : st'.on obj f = st.on obj f := by
  cases hs with
  | write _ =>
    exact state_ext (Function.update_of_ne (Ne.symm h) _ _) rfl (phase_on_ne obj h st _)
      (log_on_ne obj h st)
  | read _ => exact state_ext rfl rfl (phase_on_ne obj h st _) rfl
  | pass _ _ _ => exact state_ext rfl rfl (phase_on_ne obj h st _) rfl
  | lock _ _ _ => exact state_ext rfl rfl (phase_on_ne obj h st _) rfl
  | act _ => exact state_ext rfl rfl (phase_on_ne obj h st _) rfl
  | unlock _ => exact state_ext rfl rfl (phase_on_ne obj h st _) rfl
  | compute _ _ => exact state_ext rfl rfl (phase_on_ne obj h st _) rfl
  | store _ _ =>
    exact state_ext rfl (Function.update_of_ne (Ne.symm h) _ _) (phase_on_ne obj h st _) rfl

theorem step_congr {κ : Type*} [DecidableEq κ] {calls : κ → ReadModifyWrite.Call ε C A L M} {k : κ}
    {s s₁ s₂ : ReadModifyWrite.State κ C A L M} (hs : ReadModifyWrite.Step calls k s s₁)
    (heq : s₁ = s₂) : ReadModifyWrite.Step calls k s s₂ := heq ▸ hs

/-- **On its object** a step of a call is a step of the atomic call, or nothing happens. -/
theorem step_on (hv : Inv calls st) (hs : Step calls obj i st st') :
    st'.on obj (obj i) = st.on obj (obj i) ∨
      ReadModifyWrite.Step (atomicOn calls obj (obj i)) ⟨i, rfl⟩ (st.on obj (obj i))
        (st'.on obj (obj i)) := by
  have hphase : ∀ p, ((st.on obj (obj i)).move ⟨i, rfl⟩ p.atomic).phase =
      ((st.move i p).on obj (obj i)).phase := fun p => (phase_on obj rfl st p).symm
  cases hs with
  | write h =>
    have hidle : (st.on obj (obj i)).phase ⟨i, rfl⟩ = .idle := congrArg Phase.atomic h
    refine .inr (step_congr (.write hidle) (state_ext ?_ rfl (hphase .written) ?_))
    · exact (Function.update_self (obj i) _ st.value).symm
    · exact (log_on obj rfl st).symm
  | read h =>
    have hwritten : (st.on obj (obj i)).phase ⟨i, rfl⟩ = .written := congrArg Phase.atomic h
    exact .inr (step_congr (.read hwritten) (state_ext rfl rfl (hphase (.got _)) rfl))
  | pass h hp ht => exact .inl (state_ext rfl rfl (phase_on_of_eq (by rw [h]; rfl)) rfl)
  | lock h hp hfree => exact .inl (state_ext rfl rfl (phase_on_of_eq (by rw [h]; rfl)) rfl)
  | act h => exact .inl (state_ext rfl rfl (phase_on_of_eq (by rw [h]; rfl)) rfl)
  | unlock h => exact .inl (state_ext rfl rfl (phase_on_of_eq (by rw [h]; rfl)) rfl)
  | @compute l t m h hm =>
    have hgot : (st.on obj (obj i)).phase ⟨i, rfl⟩ = .got l := congrArg Phase.atomic h
    -- the program has returned what it returns alone
    have hcompute : (atomicOn calls obj (obj i) ⟨i, rfl⟩).compute (st.on obj (obj i)).value l =
        .ok m := by
      show ((calls i).parse l >>= fun t => _) = _
      rw [hv.parsed i l t h]
      exact hm
    exact .inr (step_congr (.compute hgot hcompute)
      (state_ext rfl rfl (hphase (.computed m)) rfl))
  | @store m a h ha =>
    have hcomputed : (st.on obj (obj i)).phase ⟨i, rfl⟩ = .computed m := congrArg Phase.atomic h
    have hstore : (atomicOn calls obj (obj i) ⟨i, rfl⟩).store (st.on obj (obj i)).attr m = .ok a :=
      ha
    refine .inr (step_congr (.store hcomputed hstore) (state_ext rfl ?_ (hphase .done) rfl))
    exact (Function.update_self (obj i) _ st.attr).symm

/-! ### Runs -/

/-- Steps of the calls, in any order. -/
def AnyStep (calls : ι → Call σ ε C A L T M) (obj : ι → φ) (st st' : State ι φ σ ε C A L T M) :
    Prop :=
  ∃ i, Step calls obj i st st'

/-- Steps that are orderly on the object of the call. -/
def OrderlyStep (calls : ι → Call σ ε C A L T M) (obj : ι → φ)
    (st st' : State ι φ σ ε C A L T M) : Prop :=
  ∃ i, ReadModifyWrite.Orderly (atomicOn calls obj (obj i)) (st.on obj (obj i)) ⟨i, rfl⟩ ∧
    Step calls obj i st st'

variable {c₀ : φ → C} {a₀ : φ → A} {s₀ : σ}

theorem inv_of_reached (hrun : Relation.ReflTransGen (AnyStep calls obj) (.init c₀ a₀ s₀) st) :
    Inv calls st := by
  induction hrun with
  | refl => exact .init _ _ _
  | tail _ hstep ih =>
    obtain ⟨i, hs⟩ := hstep
    exact ih.step hs

/-- **The lock makes the programs single steps**: on every object the calls do what they do then. -/
theorem reached_atomic (hrun : Relation.ReflTransGen (AnyStep calls obj) (.init c₀ a₀ s₀) st)
    (f : φ) : Relation.ReflTransGen
      (fun s s' => ∃ k, ReadModifyWrite.Step (atomicOn calls obj f) k s s')
      (.init (c₀ f) (a₀ f)) (st.on obj f) := by
  induction hrun with
  | refl => exact .refl
  | @tail st st' hrun hstep ih =>
    obtain ⟨i, hs⟩ := hstep
    by_cases h : obj i = f
    · subst h
      rcases step_on (inv_of_reached hrun) hs with heq | hs'
      · rwa [heq]
      · exact ih.tail ⟨_, hs'⟩
    · rwa [step_on_ne h hs]

theorem AnyStep.of_orderly (hs : OrderlyStep calls obj st st') : AnyStep calls obj st st' :=
  hs.imp fun _ h => h.2

theorem reached_orderly (hrun : Relation.ReflTransGen (OrderlyStep calls obj) (.init c₀ a₀ s₀) st)
    (f : φ) : Relation.ReflTransGen (ReadModifyWrite.OrderlyStep (atomicOn calls obj f))
      (.init (c₀ f) (a₀ f)) (st.on obj f) := by
  induction hrun with
  | refl => exact .refl
  | @tail st st' hrun hstep ih =>
    have hv := inv_of_reached (hrun.lift id fun _ _ => AnyStep.of_orderly)
    obtain ⟨i, ho, hs⟩ := hstep
    by_cases h : obj i = f
    · subst h
      rcases step_on hv hs with heq | hs'
      · rwa [heq]
      · exact ih.tail ⟨_, ho, hs'⟩
    · rwa [step_on_ne h hs]

/-- **When all calls have returned** after orderly steps, the value and the attribute of every
object are those of its calls run one after the other. -/
theorem serial_of_reached (hrun : Relation.ReflTransGen (OrderlyStep calls obj) (.init c₀ a₀ s₀) st)
    (hdone : ∀ i, obj i = f → st.phase i = .done) : ∃ order : List {i // obj i = f}, order.Nodup ∧
      (∀ i, i ∈ order) ∧ ReadModifyWrite.serial (atomicOn calls obj f) order (c₀ f, a₀ f) =
        .ok (st.value f, st.attr f) :=
  ReadModifyWrite.serial_of_reached (reached_orderly hrun f)
    fun i => congrArg Phase.atomic (hdone i i.2)

omit [DecidableEq ι] in
theorem orderly_of_alone (h : ∀ j, obj j = obj i → j = i) (st : State ι φ σ ε C A L T M) :
    ReadModifyWrite.Orderly (atomicOn calls obj (obj i)) (st.on obj (obj i)) ⟨i, rfl⟩ := by
  have hself : ∀ j : {j // obj j = obj i}, j = ⟨i, rfl⟩ := fun j => Subtype.ext (h j j.2)
  refine ⟨fun hw j => ?_, fun _ j _ => .inr ?_, fun _ _ => .inl fun j hj => absurd (hself j) hj⟩
  · rw [hself j, hw]
    trivial
  · rw [hself j]
    exact fun _ => rfl

/-- **Calls on different objects** do not disturb each other: a call that has returned leaves its
object as it leaves it alone. -/
theorem alone_of_reached (hinj : Function.Injective obj)
    (hrun : Relation.ReflTransGen (AnyStep calls obj) (.init c₀ a₀ s₀) st)
    (hdone : st.phase i = .done) : (calls i).atomic.run (c₀ (obj i), a₀ (obj i)) =
      .ok (st.value (obj i), st.attr (obj i)) := by
  have hrun' : Relation.ReflTransGen (OrderlyStep calls obj) (.init c₀ a₀ s₀) st :=
    hrun.lift id fun _ _ ⟨j, hs⟩ => ⟨j, orderly_of_alone (fun _ hk => hinj hk) _, hs⟩
  obtain ⟨order, hnodup, hall, hserial⟩ :=
    serial_of_reached hrun' fun j hj => hinj hj ▸ hdone
  have hself : ∀ j : {j // obj j = obj i}, j = ⟨i, rfl⟩ := fun j => Subtype.ext (hinj j.2)
  obtain rfl : order = [⟨i, rfl⟩] := by
    refine List.perm_singleton.1 ((List.perm_ext_iff_of_nodup hnodup (List.nodup_singleton _)).2 ?_)
    intro j
    rw [hself j]
    exact iff_of_true (hall _) (List.mem_singleton_self _)
  rw [ReadModifyWrite.serial] at hserial
  exact (bind_pure _).symm.trans hserial

/-! ### Progress -/

/-- The next step of a call fails. -/
def Failing (calls : ι → Call σ ε C A L T M) (obj : ι → φ) (st : State ι φ σ ε C A L T M)
    (i : ι) : Prop :=
  match st.phase i with
  | .got l => (calls i).locked l = none ∧ ∃ e, (calls i).parse l = .error e
  | .inside _ (.ret r) => ∃ e, r = .error e
  | .parsed _ t => ∃ e, (calls i).change (st.value (obj i)) t = .error e
  | .computed m => ∃ e, (calls i).store (st.attr (obj i)) m = .error e
  | _ => False

/-- A call that waits for nothing takes a step or fails. -/
theorem exists_step (h : st.phase i ≠ .done)
    (hwait : ∀ l q, st.phase i = .got l → (calls i).locked l = some q → st.holder = none) :
    (∃ st', Step calls obj i st st') ∨ Failing calls obj st i := by
  unfold Failing
  cases hp : st.phase i with
  | idle => exact .inl ⟨_, .write hp⟩
  | written => exact .inl ⟨_, .read hp⟩
  | got l =>
    cases hq : (calls i).locked l with
    | none =>
      cases ht : (calls i).parse l with
      | error e => exact .inr ⟨hq, e, ht⟩
      | ok t => exact .inl ⟨_, .pass hp hq ht⟩
    | some q => exact .inl ⟨_, .lock hp hq (hwait l q hp hq)⟩
  | inside l q =>
    cases q with
    | act g next => exact .inl ⟨_, .act hp⟩
    | ret r =>
      cases r with
      | error e => exact .inr ⟨e, rfl⟩
      | ok t => exact .inl ⟨_, .unlock hp⟩
  | parsed l t =>
    cases hm : (calls i).change (st.value (obj i)) t with
    | error e => exact .inr ⟨e, hm⟩
    | ok m => exact .inl ⟨_, .compute hp hm⟩
  | computed m =>
    cases ha : (calls i).store (st.attr (obj i)) m with
    | error e => exact .inr ⟨e, ha⟩
    | ok a => exact .inl ⟨_, .store hp ha⟩
  | done => exact absurd hp h

/-- **The lock does not block**: until all calls have returned one of them can go on, unless one
has failed. -/
theorem progress (hrun : Relation.ReflTransGen (AnyStep calls obj) (.init c₀ a₀ s₀) st)
    (h : st.phase i ≠ .done) :
    (∃ st', AnyStep calls obj st st') ∨ ∃ j, Failing calls obj st j := by
  have hv := inv_of_reached hrun
  -- the call that holds the lock goes on, and without one any call does
  cases hh : st.holder with
  | none =>
    exact (exists_step h fun _ _ _ _ => hh).imp (fun ⟨st', hs⟩ => ⟨st', i, hs⟩) fun hf => ⟨i, hf⟩
  | some j =>
    obtain ⟨l, q, hj⟩ := hv.held j hh
    refine (exists_step (i := j) (by rw [hj]; exact nofun) fun l' q' hgot => ?_).imp
      (fun ⟨st', hs⟩ => ⟨st', j, hs⟩) fun hf => ⟨j, hf⟩
    rw [hj] at hgot
    cases hgot

/-! ### Ends of runs -/

/-- How a call moves on: the first phase follows the second one. -/
inductive Phase.Follows : Phase σ ε L T M → Phase σ ε L T M → Prop
  | written : Follows .written .idle
  | got (l : L) : Follows (.got l) .written
  | pass (l : L) (t : T) : Follows (.parsed l t) (.got l)
  | inside (l : L) (q : Resumption σ ε T) : Follows (.inside l q) (.got l)
  | act (l : L) (g : σ → σ) (next : σ → Resumption σ ε T) (s : σ) :
      Follows (.inside l (next s)) (.inside l (.act g next))
  | unlock (l : L) (t : T) : Follows (.parsed l t) (.inside l (.ret (.ok t)))
  | computed (l : L) (t : T) (m : M) : Follows (.computed m) (.parsed l t)
  | done (m : M) : Follows .done (.computed m)

namespace Phase

theorem acc_parsed (l : L) (t : T) :
    Acc Follows (.parsed l t : Phase σ ε L T M) := by
  refine .intro _ fun p hp => ?_
  cases hp with
  | computed =>
    refine .intro _ fun p hp => ?_
    cases hp with
    | done => exact .intro _ nofun

theorem acc_inside (l : L) (q : Resumption σ ε T) :
    Acc Follows (.inside l q : Phase σ ε L T M) := by
  induction q with
  | ret r =>
    refine .intro _ fun p hp => ?_
    cases hp with
    | unlock => exact acc_parsed l _
  | act g next ih =>
    refine .intro _ fun p hp => ?_
    cases hp with
    | act => exact ih _

theorem acc_written : Acc Follows (.written : Phase σ ε L T M) := by
  refine .intro _ fun p hp => ?_
  cases hp with
  | got l =>
    refine .intro _ fun p hp => ?_
    cases hp with
    | pass => exact acc_parsed l _
    | inside => exact acc_inside l _

/-- A call moves on finitely often. -/
theorem follows_wf : WellFounded (Follows : Phase σ ε L T M → Phase σ ε L T M → Prop) := by
  refine ⟨fun p => ?_⟩
  cases p with
  | idle =>
    refine .intro _ fun p hp => ?_
    cases hp with
    | written => exact acc_written
  | written => exact acc_written
  | got l => exact acc_written.inv (.got l)
  | inside l q => exact acc_inside l q
  | parsed l t => exact acc_parsed l t
  | computed m =>
    refine .intro _ fun p hp => ?_
    cases hp with
    | done => exact .intro _ nofun
  | done => exact .intro _ nofun

end Phase

/-- A step is one move of one call. -/
theorem Step.follows (hs : Step calls obj i st st') :
    (st'.phase i).Follows (st.phase i) ∧ ∀ j ≠ i, st'.phase j = st.phase j := by
  have hmove : ∀ p : Phase σ ε L T M, p.Follows (st.phase i) →
      ((st.move i p).phase i).Follows (st.phase i) ∧
        ∀ j ≠ i, (st.move i p).phase j = st.phase j := by
    intro p hp
    rw [State.move_phase_self]
    exact ⟨hp, fun j hj => State.move_phase hj⟩
  cases hs with
  | write h => exact hmove .written (h ▸ .written)
  | read h => exact hmove _ (h ▸ .got _)
  | pass h hp ht => exact hmove _ (h ▸ .pass _ _)
  | lock h hp hfree => exact hmove _ (h ▸ .inside _ _)
  | act h => exact hmove _ (h ▸ .act _ _ _ _)
  | unlock h => exact hmove _ (h ▸ .unlock _ _)
  | compute h hm => exact hmove _ (h ▸ .computed _ _ _)
  | store h ha => exact hmove .done (h ▸ .done _)

/-- **Finitely many calls** take finitely many steps. -/
theorem anyStep_wf [Finite ι] (calls : ι → Call σ ε C A L T M) (obj : ι → φ) :
    WellFounded fun st' st => AnyStep calls obj st st' := by
  have hwf := InvImage.wf (State.phase : State ι φ σ ε C A L T M → _)
    (Pi.Lex.wellFounded WellOrderingRel fun _ : ι => Phase.follows_wf)
  refine Subrelation.wf (fun {st' st} hs => ?_) hwf
  obtain ⟨i, hs⟩ := hs
  obtain ⟨hi, hne⟩ := hs.follows
  exact ⟨i, fun j hj => hne j fun heq => irrefl i (heq ▸ hj), hi⟩

/-- **Every run ends**, and when it ends all calls have returned, unless one has failed. -/
theorem ends [Finite ι] (hrun : Relation.ReflTransGen (AnyStep calls obj) (.init c₀ a₀ s₀) st) :
    (¬ ∃ run : ℕ → State ι φ σ ε C A L T M, run 0 = st ∧
      ∀ n, AnyStep calls obj (run n) (run (n + 1))) ∧
    ((∀ st', ¬ AnyStep calls obj st st') →
      (∀ i, st.phase i = .done) ∨ ∃ j, Failing calls obj st j) := by
  constructor
  · rintro ⟨run, -, hsteps⟩
    exact (wellFounded_iff_isEmpty_descending_chain.1 (anyStep_wf calls obj)).elim ⟨run, hsteps⟩
  · intro hstuck
    by_contra hnot
    obtain ⟨hphase, hfail⟩ := not_or.1 hnot
    obtain ⟨i, hi⟩ := not_forall.1 hphase
    rcases progress hrun hi with ⟨st', hs⟩ | hf
    · exact hstuck st' hs
    · exact hfail hf

/-! ### A call that is not interrupted -/

omit [DecidableEq φ] in
theorem State.move_move (st : State ι φ σ ε C A L T M) (i : ι) (p q : Phase σ ε L T M) :
    (st.move i p).move i q = st.move i q :=
  congrArg (fun ph => State.mk st.value st.attr ph st.log st.holder st.shared)
    (Function.update_idem _ _ _)

/-- A step of call `i` after it has read `l`, and before it computes. -/
def Parsing (calls : ι → Call σ ε C A L T M) (obj : ι → φ) (i : ι) (l : L)
    (st st' : State ι φ σ ε C A L T M) : Prop :=
  (st.phase i).atomic = .got l ∧ Step calls obj i st st'

theorem exists_run_program {l : L} {q : Resumption σ ε T} {t : T} (h : st.phase i = .inside l q)
    (hq : q.outcome st.shared = .ok t) : ∃ s, Relation.ReflTransGen (Parsing calls obj i l) st
      { st.move i (.parsed l t) with holder := none, shared := s } := by
  induction q generalizing st with
  | ret r =>
    cases hq
    exact ⟨st.shared, .single ⟨by rw [h]; rfl, .unlock h⟩⟩
  | act g next ih =>
    have hact : ({ st.move i (.inside l (next st.shared)) with shared := g st.shared } :
        State ι φ σ ε C A L T M).phase i = .inside l (next st.shared) := State.move_phase_self
    obtain ⟨s, hrun⟩ := ih st.shared hact hq
    have hidem := State.move_move st i (.inside l (next st.shared)) (.parsed l t)
    refine ⟨s, .head ⟨by rw [h]; rfl, .act h⟩ ?_⟩
    exact (congrArg (fun st : State ι φ σ ε C A L T M => { st with holder := none, shared := s })
      hidem) ▸ hrun

/-- After it has read, a call goes on to what it makes of it. -/
theorem exists_run_parse {l : L} {t : T} (h : st.phase i = .got l) (hfree : st.holder = none)
    (ht : (calls i).parse l = .ok t) : ∃ s, Relation.ReflTransGen (Parsing calls obj i l) st
      { st.move i (.parsed l t) with holder := none, shared := s } := by
  cases hp : (calls i).locked l with
  | none =>
    have hstep : Step calls obj i st (st.move i (.parsed l t)) := .pass h hp ht
    refine ⟨st.shared, .single ⟨by rw [h]; rfl, ?_⟩⟩
    rw [← hfree]
    exact hstep
  | some q =>
    have hinside : ({ st.move i (.inside l q) with holder := some i } :
        State ι φ σ ε C A L T M).phase i = .inside l q := State.move_phase_self
    obtain ⟨s, hrun⟩ : ∃ s, Relation.ReflTransGen (Parsing calls obj i l)
        { st.move i (.inside l q) with holder := some i } _ :=
      exists_run_program hinside (((calls i).outcome_eq l q hp _).trans ht)
    have hidem := State.move_move st i (.inside l q) (.parsed l t)
    refine ⟨s, .head ⟨by rw [h]; rfl, .lock h hp hfree⟩ ?_⟩
    exact (congrArg (fun st : State ι φ σ ε C A L T M => { st with holder := none, shared := s })
      hidem) ▸ hrun

/-- **A call runs to its end** when nobody holds the lock. -/
theorem exists_run {s' : C × A} (hidle : st.phase i = .idle) (hfree : st.holder = none)
    (hrun : (calls i).atomic.run (st.value (obj i), st.attr (obj i)) = .ok s') :
    ∃ s, Relation.ReflTransGen (Step calls obj i) st
      ⟨Function.update st.value (obj i) s'.1, Function.update st.attr (obj i) s'.2,
        Function.update st.phase i .done, st.log ++ [i], none, s⟩ := by
  have hbind : ∀ {α β : Type u} {x : Except ε α} {k : α → Except ε β} {b : β},
      x >>= k = .ok b → ∃ a, x = .ok a ∧ k a = .ok b := by
    intro α β x k b h
    cases x with
    | error e => cases h
    | ok a => exact ⟨a, rfl, h⟩
  obtain ⟨m, hm, hrun⟩ := hbind hrun
  obtain ⟨t, ht, hm⟩ := hbind hm
  obtain ⟨a, ha, hrun⟩ := hbind hrun
  cases hrun
  -- the states differ in how far the call has come and in what the programs share
  let mid (p : Phase σ ε L T M) (s : σ) : State ι φ σ ε C A L T M :=
    ⟨Function.update st.value (obj i) ((calls i).write (st.value (obj i))), st.attr,
      Function.update st.phase i p, st.log ++ [i], none, s⟩
  have hmid : ∀ p q s, (mid p s).move i q = mid q s := fun p q s =>
    congrArg (fun ph => State.mk _ st.attr ph (st.log ++ [i]) none s) (Function.update_idem _ _ _)
  have hphase : ∀ p s, (mid p s).phase i = p := fun p s => Function.update_self _ _ _
  have hvalue : ∀ p s, (mid p s).value (obj i) = (calls i).write (st.value (obj i)) := fun p s =>
    Function.update_self _ _ _
  have hwrite : Step calls obj i st _ := .write hidle
  rw [State.move, hfree] at hwrite
  have hread : Step calls obj i (mid .written st.shared) _ := .read (hphase _ _)
  rw [hmid] at hread
  obtain ⟨s, hparsing⟩ : ∃ s, Relation.ReflTransGen (Parsing calls obj i _)
      (mid (.got _) st.shared) _ := exists_run_parse (hphase _ _) rfl ht
  rw [hmid] at hparsing
  have hparse := hparsing.lift id fun _ _ h => h.2
  have hcompute : Step calls obj i (mid (.parsed ((calls i).read (st.attr (obj i))) t) s) _ :=
    .compute (hphase _ _) ((congrArg (fun c => (calls i).change c t) (hvalue _ _)).trans hm)
  rw [hmid] at hcompute
  have hstore : Step calls obj i (mid (.computed m) s) _ := .store (hphase _ _) ha
  rw [hmid] at hstore
  have hgot := (Relation.ReflTransGen.single hwrite).tail hread
  exact ⟨s, ((hgot.trans hparse).tail hcompute).tail hstore⟩

/-- Calls on different objects, each of which returns alone, run to their ends one after the
other. -/
theorem exists_run_list {after : ι → C × A} (hinj : Function.Injective obj)
    (hrun : ∀ i, (calls i).atomic.run (c₀ (obj i), a₀ (obj i)) = .ok (after i)) (order : List ι)
    (hnodup : order.Nodup) : ∃ st, Relation.ReflTransGen (AnyStep calls obj) (.init c₀ a₀ s₀) st ∧
      st.holder = none ∧ (∀ i ∈ order, st.phase i = .done) ∧ ∀ i ∉ order, st.phase i = .idle ∧
        (st.value (obj i), st.attr (obj i)) = (c₀ (obj i), a₀ (obj i)) := by
  induction order with
  | nil => exact ⟨_, .refl, rfl, nofun, fun i _ => ⟨rfl, rfl⟩⟩
  | cons i order ih =>
    obtain ⟨hi, hnodup⟩ := List.nodup_cons.1 hnodup
    obtain ⟨st, hst, hfree, hdone, hidle⟩ := ih hnodup
    obtain ⟨s, hlast⟩ := exists_run (hidle i hi).1 hfree
      ((congrArg (calls i).atomic.run (hidle i hi).2).trans (hrun i))
    refine ⟨_, hst.trans (hlast.lift id fun _ _ hs => ⟨i, hs⟩), rfl, fun j hj => ?_, fun j hj => ?_⟩
    · rcases List.mem_cons.1 hj with rfl | hj
      · exact Function.update_self _ _ _
      · have hji : j ≠ i := fun heq => hi (heq ▸ hj)
        exact (Function.update_of_ne hji _ _).trans (hdone j hj)
    · obtain ⟨hji, hj⟩ := not_or.1 (mt List.mem_cons.2 hj)
      obtain ⟨hphase, hsame⟩ := hidle j hj
      have hobj : obj j ≠ obj i := fun heq => hji (hinj heq)
      refine ⟨(Function.update_of_ne hji _ _).trans hphase, ?_⟩
      rw [← hsame]
      exact congrArg₂ Prod.mk (Function.update_of_ne hobj _ _) (Function.update_of_ne hobj _ _)

end Locked
