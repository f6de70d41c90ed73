import MerkleFs.Keccak.Basic
import MerkleFs.Sha3.Basic
import Mathlib.Data.Vector.Basic

/-!
# `keccakf` is the Keccak permutation

The words of the state are the lanes of a Keccak state (`bitsOf`): `s[5 * y + x]` has the bits with
the coordinates `x` and `y`.  Each loop of `keccakf` does the maps of a round that its comment
names, so that `keccakf` is `Keccak.permute` (`bitsOf_keccakf`), and is a permutation.
-/

namespace MerkleFs

/-- A loop over steps that have one part of the state each: a part is changed once, by the step it
belongs to. -/
theorem foldl_own {σ ι β : Type*} [DecidableEq ι] (part : σ → β) (step : σ → ι → σ) (g : β → β)
    (own : ι) (hstep : ∀ s i, part (step s i) = if i = own then g (part s) else part s)
    {is : List ι} (hnodup : is.Nodup) (s : σ) :
    part (is.foldl step s) = if own ∈ is then g (part s) else part s := by
  induction is generalizing s with
  | nil => rfl
  | cons i is ih =>
    rw [List.nodup_cons] at hnodup
    rw [List.foldl_cons, ih hnodup.2, hstep]
    by_cases hi : i = own
    · subst hi
      rw [if_neg hnodup.1, if_pos rfl, if_pos List.mem_cons_self]
    · simp only [if_neg hi, List.mem_cons, Ne.symm hi, false_or]

variable {s : Words} {i j x y : Fin 5} {k n : ℕ} {t : U64}

/-! ### Words -/

theorem getElem_xorWord (s : Words) (k : ℕ) (t : U64) (hn : n < 25) :
    (xorWord s k t)[n] = if n = k then s[n] ^^^ t else s[n] := by
  unfold xorWord
  by_cases hnk : n = k
  · subst hnk
    simp [hn]
  · by_cases hk : k < 25
    · rw [dif_pos hk, if_neg hnk, Vector.getElem_set_ne _ _ (Ne.symm hnk)]
    · rw [dif_neg hk, if_neg hnk]

theorem get_ofFn {α : Type*} {n : ℕ} (f : Fin n → α) (i : Fin n) : (Vector.ofFn f).get i = f i :=
  Vector.getElem_ofFn i.isLt

theorem lane_inj : (lane j i).val = (lane y x).val ↔ j = y ∧ i = x := by
  simp only [lane, Fin.ext_iff]
  omega

theorem get_xorWord (s : Words) (k : ℕ) (t : U64) (i : Fin 25) :
    (xorWord s k t).get i = if i.val = k then s.get i ^^^ t else s.get i :=
  getElem_xorWord s k t i.isLt

theorem get_xorWord_lane (s : Words) (t : U64) : (xorWord s (lane j i) t).get (lane y x) =
    if j = y ∧ i = x then s.get (lane y x) ^^^ t else s.get (lane y x) := by
  simp only [get_xorWord, lane_inj, eq_comm]

theorem columnParity_eq (s : Words) (i : Fin 5) : columnParity s i = s.get (lane 0 i) ^^^
    s.get (lane 1 i) ^^^ s.get (lane 2 i) ^^^ s.get (lane 3 i) ^^^ s.get (lane 4 i) := by
  have hget : ∀ j : Fin 5, s.get (lane j i) = s.get ⟨i + 5 * j, by omega⟩ := fun j =>
    congrArg s.get (Fin.ext (Nat.add_comm _ _))
  rw [hget, hget, hget, hget, hget]
  rfl

/-! ### The loops -/

theorem foldl_column (s : Words) (f : Fin 5 → U64) (i y x : Fin 5) :
    ((List.finRange 5).foldl (fun s j => xorWord s (lane j i) (f j)) s).get (lane y x) =
      if i = x then s.get (lane y x) ^^^ f y else s.get (lane y x) := by
  rw [foldl_own (fun s : Words => s.get (lane y x)) _ (fun w => if i = x then w ^^^ f y else w) y
    (fun s j => ?_) (List.nodup_finRange 5)]
  · rw [if_pos (List.mem_finRange y)]
  · rw [get_xorWord_lane]
    split_ifs <;> simp_all

theorem foldl_row (s : Words) (f : Fin 5 → U64) (j y x : Fin 5) :
    ((List.finRange 5).foldl (fun s i => xorWord s (lane j i) (f i)) s).get (lane y x) =
      if j = y then s.get (lane y x) ^^^ f x else s.get (lane y x) := by
  rw [foldl_own (fun s : Words => s.get (lane y x)) _ (fun w => if j = y then w ^^^ f x else w) x
    (fun s i => ?_) (List.nodup_finRange 5)]
  · rw [if_pos (List.mem_finRange x)]
  · rw [get_xorWord_lane]
    split_ifs <;> simp_all

theorem keccakfTheta_lane (s : Words) (y x : Fin 5) : (keccakfTheta s).get (lane y x) =
    s.get (lane y x) ^^^ (columnParity s (x + 4) ^^^ rotl64 (columnParity s (x + 1)) 1) := by
  unfold keccakfTheta
  rw [foldl_own (fun s : Words => s.get (lane y x)) _
    (fun w => w ^^^ (columnParity s (x + 4) ^^^ rotl64 (columnParity s (x + 1)) 1)) x
    (fun s' i => ?_) (List.nodup_finRange 5)]
  · rw [if_pos (List.mem_finRange x)]
  · rw [foldl_column]
    refine ite_congr rfl (fun hi => ?_) fun _ => rfl
    subst hi
    rw [get_ofFn, get_ofFn]
    rfl

theorem keccakfChi_lane (s : Words) (y x : Fin 5) : (keccakfChi s).get (lane y x) =
    s.get (lane y x) ^^^ (~~~s.get (lane y (x + 1)) &&& s.get (lane y (x + 2))) := by
  unfold keccakfChi
  -- a row is changed by the step for it, from what it was before
  have hrow := foldl_own (fun (s : Words) x => s.get (lane y x))
    (fun s (j : Fin 5) =>
      let bc := Vector.ofFn fun i : Fin 5 => s.get (lane j i)
      (List.finRange 5).foldl (fun s (i : Fin 5) =>
        xorWord s (lane j i)
          (~~~bc.get ⟨(i + 1) % 5, by omega⟩ &&& bc.get ⟨(i + 2) % 5, by omega⟩)) s)
    (fun r x => r x ^^^ (~~~r (x + 1) &&& r (x + 2))) y (fun s j => ?_) (List.nodup_finRange 5) s
  · rw [if_pos (List.mem_finRange y)] at hrow
    exact congrFun hrow x
  · funext x
    rw [foldl_row]
    split_ifs with hj
    · subst hj
      rw [get_ofFn, get_ofFn]
      rfl
    · rfl

/-- A loop that moves every word of a list of places to the next one: the words that are moved
are those from before the loop. -/
theorem foldl_carry {l : List (Fin 25 × ℕ)} (hnodup : (l.map Prod.fst).Nodup) (s : Words)
    (t : U64) :
    let s' := (l.foldl (fun (s, t) (p : Fin 25 × ℕ) =>
      (setWord s p.1 (rotl64 t p.2), s.get p.1)) (s, t)).1
    (∀ k : Fin 25, k ∉ l.map Prod.fst → s'.get k = s.get k) ∧
      ∀ (m : ℕ) (p : Fin 25 × ℕ) (w : U64), l[m]? = some p →
        (t :: l.map fun p => s.get p.1)[m]? = some w →
        s'.get p.1 = rotl64 w p.2 := by
  induction l generalizing s t with
  | nil => simp
  | cons q l ih =>
    rw [List.map_cons, List.nodup_cons] at hnodup
    obtain ⟨hkeep, hmove⟩ := ih hnodup.2 (setWord s q.1 (rotl64 t q.2)) (s.get q.1)
    have hset : ∀ k : Fin 25, k ≠ q.1 → (setWord s q.1 (rotl64 t q.2)).get k = s.get k :=
      fun k hk => Vector.getElem_set_ne _ _ fun h => hk (Fin.ext h.symm)
    refine ⟨fun k hk => ?_, fun m p w hp hw => ?_⟩
    · rw [List.map_cons, List.mem_cons, not_or] at hk
      exact (hkeep k hk.2).trans (hset k hk.1)
    · cases m with
      | zero =>
        obtain rfl : q = p := by simpa using hp
        obtain rfl : t = w := by simpa using hw
        exact (hkeep q.1 hnodup.1).trans (Vector.getElem_set_self q.1.isLt)
      | succ m =>
        refine hmove m p w (by simpa using hp) ?_
        have hmap : (l.map fun p => (setWord s q.1 (rotl64 t q.2)).get p.1) =
            l.map fun p => s.get p.1 :=
          List.map_congr_left fun p hp => hset p.1 fun h => hnodup.1 (h ▸ List.mem_map_of_mem hp)
        rw [hmap]
        simpa using hw

/-- The places of the loop, with the rotations into them. -/
def carryPlaces : List (Fin 25 × ℕ) :=
  (List.finRange 24).map fun i => (keccakfPiln.get i, keccakfRotc.get i)

theorem keccakfRhoPi_zero (s : Words) : (keccakfRhoPi s).get (lane 0 0) = s.get (lane 0 0) := by
  have h := (foldl_carry (l := carryPlaces) (by decide) s s[1]).1 (lane 0 0) (by decide)
  rwa [carryPlaces, List.foldl_map] at h

theorem keccakfPiln_eq : ∀ n : Fin 24, keccakfPiln.get n =
    lane (Keccak.walk (n + 1)).2 (Keccak.walk (n + 1)).1 := by
  decide +kernel

theorem keccakfRhoPi_walk (s : Words) (n : Fin 24) :
    (keccakfRhoPi s).get (lane (Keccak.walk (n + 1)).2 (Keccak.walk (n + 1)).1) =
      rotl64 (s.get (lane (Keccak.walk n).2 (Keccak.walk n).1)) (keccakfRotc.get n) := by
  have hmove := (foldl_carry (l := carryPlaces) (by decide) s s[1]).2 n
    (keccakfPiln.get n, keccakfRotc.get n) (s.get (lane (Keccak.walk n).2 (Keccak.walk n).1))
    (by simp [carryPlaces]) ?_
  · rw [carryPlaces, List.foldl_map] at hmove
    have hplace : (keccakfRhoPi s).get (keccakfPiln.get n) = _ := hmove
    simpa only [keccakfPiln_eq] using hplace
  · obtain ⟨n, hn⟩ := n
    cases n with
    | zero => rfl
    | succ n =>
      have hplace := keccakfPiln_eq ⟨n, by omega⟩
      simp [carryPlaces, show n < 24 by omega, hplace]

/-! ### Bits -/

/-- The bits of the words. -/
def bitsOf (s : Words) : Keccak.State := fun x y z => (s.get (lane y x)).getLsbD z

theorem rotl64_eq (w : U64) (hn : n < 64) : rotl64 w n = w.rotateLeft n := by
  rw [BitVec.rotateLeft_def, Nat.mod_eq_of_lt hn]
  rfl

theorem getLsbD_rotl64 (w : U64) (hn : n < 64) (z : Fin 64) :
    (rotl64 w n).getLsbD z = w.getLsbD (z - Fin.ofNat 64 n : Fin 64) := by
  have hz := z.isLt
  have hsub : (z - Fin.ofNat 64 n : Fin 64).val = (64 - n + z) % 64 := by
    simp [Fin.sub_def, Nat.mod_eq_of_lt hn]
  rw [rotl64_eq w hn, BitVec.getLsbD_rotateLeft, Nat.mod_eq_of_lt hn, hsub]
  by_cases hlt : z.val < n
  · rw [decide_eq_true hlt, cond_true, Nat.mod_eq_of_lt (by omega)]
  · rw [decide_eq_false hlt, cond_false, decide_eq_true hz, Bool.true_and,
      show 64 - n + z = z - n + 64 by omega, Nat.add_mod_right, Nat.mod_eq_of_lt (by omega)]

theorem bitsOf_theta (s : Words) : bitsOf (keccakfTheta s) = Keccak.theta (bitsOf s) := by
  have hparity : ∀ i (z : Fin 64),
      (columnParity s i).getLsbD z = Keccak.parity (bitsOf s) i z := fun i z => by
    simp only [columnParity_eq, BitVec.getLsbD_xor]
    rfl
  have hleft : ∀ x : Fin 5, x + 4 = x - 1 := by decide
  funext x y z
  simp only [bitsOf, keccakfTheta_lane, BitVec.getLsbD_xor, getLsbD_rotl64 _ (by decide : 1 < 64),
    hleft]
  rw [hparity, hparity]
  rfl

/-- The lane that π moves to a place of the walk comes from the place before, and ρ has rotated it
by the number in the table. -/
theorem walk_source : ∀ n : Fin 24,
    (Keccak.walk (n + 1)).1 + 3 * (Keccak.walk (n + 1)).2 = (Keccak.walk n).1 ∧
    (Keccak.walk (n + 1)).1 = (Keccak.walk n).2 ∧ keccakfRotc.get n < 64 ∧
    Fin.ofNat 64 (Keccak.offset (Keccak.walk n).1 (Keccak.walk n).2) =
      Fin.ofNat 64 (keccakfRotc.get n) := by
  decide +kernel

theorem exists_walk : ∀ x y : Fin 5,
    x = 0 ∧ y = 0 ∨ ∃ n : Fin 24, Keccak.walk (n + 1) = (x, y) := by
  decide +kernel

theorem bitsOf_rhoPi (s : Words) :
    bitsOf (keccakfRhoPi s) = Keccak.pi (Keccak.rho (bitsOf s)) := by
  funext x y z
  rcases exists_walk x y with ⟨rfl, rfl⟩ | ⟨n, hn⟩
  · have hoffset : Fin.ofNat 64 (Keccak.offset 0 0) = 0 := by decide +kernel
    simp only [bitsOf, keccakfRhoPi_zero, Keccak.pi, Keccak.rho, mul_zero, add_zero, hoffset,
      sub_zero]
  · obtain ⟨hcolumn, hrow, hlt, hoffset⟩ := walk_source n
    have hplace := keccakfRhoPi_walk s n
    simp only [hn] at hcolumn hrow hplace
    simp only [bitsOf, hplace, getLsbD_rotl64 _ hlt, Keccak.pi, Keccak.rho, hcolumn, ← hoffset,
      ← hrow]

theorem bitsOf_chi (s : Words) : bitsOf (keccakfChi s) = Keccak.chi (bitsOf s) := by
  funext x y z
  simp only [bitsOf, keccakfChi_lane, BitVec.getLsbD_xor, BitVec.getLsbD_and, BitVec.getLsbD_not,
    decide_eq_true z.isLt, Bool.true_and]
  rfl

theorem keccakfRndc_eq : ∀ (i : Fin 24) (z : Fin 64),
    (keccakfRndc.get i).getLsbD z = Keccak.roundConstant i z := by
  decide +kernel

theorem bitsOf_round (s : Words) (i : Fin 24) :
    bitsOf (keccakfRound s i) = Keccak.round (bitsOf s) i := by
  rw [Keccak.round, ← bitsOf_theta, ← bitsOf_rhoPi, ← bitsOf_chi]
  funext x y z
  have hzero : (lane y x).val = 0 ↔ x = 0 ∧ y = 0 := (lane_inj (y := 0) (x := 0)).trans and_comm
  simp only [bitsOf, keccakfRound, Keccak.iota, get_xorWord, hzero]
  split_ifs
  · rw [BitVec.getLsbD_xor]
    exact congrArg _ (keccakfRndc_eq i z)
  · rfl

/-- **`keccakf` is the Keccak permutation**, on the bits of the words. -/
theorem bitsOf_keccakf (s : Words) : bitsOf (keccakf s) = Keccak.permute (bitsOf s) := by
  have hrounds : ∀ (is : List (Fin 24)) (s : Words),
      bitsOf (is.foldl keccakfRound s) = (is.map Fin.val).foldl Keccak.round (bitsOf s) := by
    intro is
    induction is with
    | nil => exact fun s => rfl
    | cons i is ih =>
      intro s
      rw [List.foldl_cons, ih, bitsOf_round, List.map_cons, List.foldl_cons]
  rw [keccakf, hrounds, Keccak.permute, List.map_coe_finRange_eq_range]

theorem bitsOf_injective : Function.Injective bitsOf := by
  intro s s' h
  refine Vector.ext fun k hk => BitVec.eq_of_getLsbD_eq fun z hz => ?_
  have hword : lane ⟨k / 5, by omega⟩ ⟨k % 5, by omega⟩ = ⟨k, hk⟩ :=
    Fin.ext (by show 5 * (k / 5) + k % 5 = k; omega)
  have hbit := congrFun (congrFun (congrFun h ⟨k % 5, by omega⟩) ⟨k / 5, by omega⟩) ⟨z, hz⟩
  simp only [bitsOf, hword] at hbit
  exact hbit

/-- **`keccakf` is a permutation** of the states. -/
theorem keccakf_bijective : Function.Bijective keccakf := by
  have : Finite Words := .of_injective bitsOf bitsOf_injective
  refine Finite.injective_iff_bijective.1 fun s s' h => bitsOf_injective ?_
  refine Keccak.permute_bijective.injective ?_
  rw [← bitsOf_keccakf, ← bitsOf_keccakf, h]

end MerkleFs
