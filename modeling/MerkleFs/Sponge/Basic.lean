import Mathlib.Data.Int.ModEq
import Mathlib.Data.List.GetD
import Mathlib.Data.List.Infix
import Mathlib.Logic.Function.Basic
import Mathlib.Tactic.LinearCombination

/-!
# Sponges

A sponge hashes a string of bits with a permutation `f` of the strings of `b` bits: it pads the
string, adds one block of `r` bits after the other to the start of a state and applies `f` after
each, and returns the first bits of the state.

* `sponge` : the sponge with the padding `pad`, a one, zeros and a one.
* `Absorber` : the same bit by bit, without knowing where the string ends; `final_eq_feed`.
* `append_pad_injective`, `absorb_injective` : different strings are different after padding, and
  if they differ in the last block only, they lead to different states.
-/

namespace Sponge

/-- A string of `b` bits. -/
abbrev Bits (b : ℕ) := Fin b → Bool

variable {b : ℕ} (f : Bits b → Bits b) (r : ℕ)

/-- Adds bits from position `p` on. -/
def xorAt (S : Bits b) (p : ℕ) (P : List Bool) : Bits b := fun i =>
  S i ^^ (decide (p ≤ i) && P.getD (i - p) false)

/-- Absorbs `n` blocks. -/
def absorb : ℕ → Bits b → List Bool → Bits b
  | 0, S, _ => S
  | n + 1, S, P => absorb n (f (xorAt S 0 (P.take r))) (P.drop r)

/-- What is put behind a string of `m` bits. -/
def pad (m : ℕ) : List Bool :=
  true :: (List.replicate ((-(m : ℤ) - 2) % r).toNat false ++ [true])

/-- The state after a string has been absorbed. -/
def final (N : List Bool) : Bits b :=
  let P := N ++ pad r N.length
  absorb f r (P.length / r) (fun _ => false) P

/-- The first `d` bits of the output, at most `r`. -/
def sponge (N : List Bool) (d : ℕ) : List Bool := ((List.finRange b).take d).map (final f r N)

/-- A state to which bits are added at position `pos` next. -/
@[ext]
structure Absorber (b : ℕ) where
  /-- The state. -/
  state : Bits b
  /-- The position. -/
  pos : ℕ

/-- Adds a bit. -/
def Absorber.feed (a : Absorber b) (bit : Bool) : Absorber b :=
  if a.pos + 1 = r then ⟨f (xorAt a.state a.pos [bit]), 0⟩
  else ⟨xorAt a.state a.pos [bit], a.pos + 1⟩

/-- Before the first bit. -/
def Absorber.init : Absorber b := ⟨fun _ => false, 0⟩

variable {f r} {S : Bits b} {p m n : ℕ} {P Q N M : List Bool} {a : Absorber b}

/-! ### Adding bits -/

@[simp] theorem xorAt_nil : xorAt S p [] = S := by
  funext i
  simp [xorAt]

theorem xorAt_append : xorAt S p (P ++ Q) = xorAt (xorAt S p P) (p + P.length) Q := by
  funext i
  simp only [xorAt, List.getD_eq_getElem?_getD, List.getElem?_append]
  by_cases hp : p ≤ i
  · split_ifs with hlt
    · rw [decide_eq_false (show ¬ p + P.length ≤ i by omega), Bool.false_and, Bool.xor_false]
    · have hnone : P[i.val - p]? = none := List.getElem?_eq_none (by omega)
      rw [hnone, decide_eq_true (show p + P.length ≤ i by omega), decide_eq_true hp,
        show i.val - p - P.length = i - (p + P.length) by omega]
      simp
  · rw [decide_eq_false hp, decide_eq_false (show ¬ p + P.length ≤ i by omega)]
    simp

theorem xorAt_cons (bit : Bool) : xorAt S p (bit :: P) = xorAt (xorAt S p [bit]) (p + 1) P :=
  xorAt_append (P := [bit])

theorem xorAt_replicate_false : xorAt S p (List.replicate n false) = S := by
  funext i
  rw [xorAt, List.getD_eq_getElem?_getD, List.getElem?_getD_replicate_default_eq, Bool.and_false,
    Bool.xor_false]

theorem xorAt_injective (hlen : P.length = Q.length) (hle : P.length ≤ b)
    (h : xorAt S 0 P = xorAt S 0 Q) : P = Q := by
  refine List.ext_getElem hlen fun i hi hi' => ?_
  have hbit := congrFun h ⟨i, by omega⟩
  simp only [xorAt, Nat.zero_le, decide_true, Bool.true_and, Nat.sub_zero, Bool.xor_right_inj,
    List.getD_eq_getElem?_getD, List.getElem?_eq_getElem hi, List.getElem?_eq_getElem hi',
    Option.getD_some] at hbit
  exact hbit

/-! ### Bit by bit -/

theorem feed_of_lt (h : a.pos + P.length < r) :
    P.foldl (Absorber.feed f r) a = ⟨xorAt a.state a.pos P, a.pos + P.length⟩ := by
  induction P generalizing a with
  | nil => simp
  | cons bit P ih =>
    rw [List.length_cons] at h ⊢
    have hfeed : a.feed f r bit = ⟨xorAt a.state a.pos [bit], a.pos + 1⟩ := if_neg (by omega)
    rw [List.foldl_cons, hfeed, ih (by show a.pos + 1 + P.length < r; omega), xorAt_cons (P := P),
      show a.pos + (P.length + 1) = a.pos + 1 + P.length by omega]

theorem feed_of_eq (hP : P ≠ []) (h : a.pos + P.length = r) :
    P.foldl (Absorber.feed f r) a = ⟨f (xorAt a.state a.pos P), 0⟩ := by
  obtain rfl | ⟨P, bit, rfl⟩ := List.eq_nil_or_concat P
  · exact absurd rfl hP
  rw [List.concat_eq_append] at h ⊢
  rw [List.length_append, List.length_singleton] at h
  rw [List.foldl_append, List.foldl_cons, List.foldl_nil, feed_of_lt (by omega), xorAt_append]
  exact if_pos (by show a.pos + P.length + 1 = r; omega)

theorem pos_foldl_feed (h : a.pos < r) :
    (P.foldl (Absorber.feed f r) a).pos = (a.pos + P.length) % r := by
  induction P generalizing a with
  | nil => exact (Nat.mod_eq_of_lt h).symm
  | cons bit P ih =>
    rw [List.foldl_cons, List.length_cons, Absorber.feed]
    split_ifs with hfull
    · rw [ih (by show 0 < r; omega), ← Nat.add_assoc, Nat.add_right_comm, hfull, Nat.add_mod_left,
        Nat.zero_add]
    · rw [ih (by show a.pos + 1 < r; omega), ← Nat.add_assoc, Nat.add_right_comm]

theorem feed_blocks (hr : 0 < r) (h : P.length = n * r) :
    P.foldl (Absorber.feed f r) ⟨S, 0⟩ = ⟨absorb f r n S P, 0⟩ := by
  induction n generalizing S P with
  | zero =>
    rw [Nat.zero_mul, List.length_eq_zero_iff] at h
    subst h
    rfl
  | succ n ih =>
    rw [Nat.add_mul, Nat.one_mul] at h
    have htake : (P.take r).length = r := by rw [List.length_take]; omega
    have hne : P.take r ≠ [] := List.length_pos_iff.1 (by omega)
    conv_lhs => rw [← List.take_append_drop r P, List.foldl_append]
    rw [feed_of_eq hne (by show 0 + _ = r; omega), ih (by rw [List.length_drop]; omega)]
    rfl

theorem length_append_pad (hr : 0 < r) (m : ℕ) : r ∣ m + (pad r m).length := by
  have hmod : 0 ≤ (-(m : ℤ) - 2) % r := Int.emod_nonneg _ (by omega)
  have hlen : ((m + (pad r m).length : ℕ) : ℤ) = r * -((-(m : ℤ) - 2) / r) := by
    have hdef := Int.emod_def (-(m : ℤ) - 2) r
    simp only [pad, List.length_cons, List.length_append, List.length_replicate, List.length_nil,
      Nat.cast_add, Int.toNat_of_nonneg hmod, Nat.cast_one, Nat.cast_zero]
    linear_combination hdef
  exact Int.natCast_dvd_natCast.1 ⟨_, hlen⟩

/-- **A sponge works bit by bit**: the string and its padding can be absorbed as they come. -/
theorem final_eq_feed (hr : 0 < r) (N : List Bool) :
    (N ++ pad r N.length).foldl (Absorber.feed f r) .init = ⟨final f r N, 0⟩ := by
  obtain ⟨n, hn⟩ := length_append_pad hr N.length
  rw [← List.length_append] at hn
  rw [Absorber.init, feed_blocks hr (hn.trans (Nat.mul_comm r n)), final, hn,
    Nat.mul_div_cancel_left n hr]

/-! ### Different strings -/

/-- Padding can be taken away again. -/
theorem append_pad_injective (h : N ++ pad r N.length = M ++ pad r M.length) : N = M := by
  simp only [pad, ← List.cons_append, ← List.append_assoc] at h
  have hrev := congrArg List.reverse (List.append_cancel_right h)
  simp only [List.reverse_append, List.reverse_cons, List.reverse_replicate, List.append_assoc,
    List.singleton_append] at hrev
  -- backwards, the string begins behind the first one
  have hdrop : ∀ k (l : List Bool),
      (List.replicate k false ++ true :: l).dropWhile (!·) = true :: l := fun k l => by
    rw [List.dropWhile_append_of_pos fun x hx => by simp [List.eq_of_mem_replicate hx]]
    rfl
  have hcons := congrArg (List.dropWhile (!·)) hrev
  rw [hdrop, hdrop] at hcons
  exact List.reverse_injective (List.cons.inj hcons).2

theorem absorb_succ (h : P.length = (n + 1) * r) : absorb f r (n + 1) S P =
    f (xorAt (absorb f r n S (P.take (n * r))) 0 (P.drop (n * r))) := by
  induction n generalizing S P with
  | zero =>
    rw [Nat.zero_add, Nat.one_mul] at h
    simp [absorb, ← h]
  | succ n ih =>
    have hmul : (n + 1) * r = n * r + r := by rw [Nat.add_mul, Nat.one_mul]
    have hlen : (P.drop r).length = (n + 1) * r := by
      rw [List.length_drop, h, Nat.add_mul (n + 1), Nat.one_mul, Nat.add_sub_cancel]
    rw [absorb, ih hlen, absorb, List.take_take, List.drop_take, List.drop_drop, hmul,
      Nat.min_eq_left (by omega), Nat.add_sub_cancel, Nat.add_comm r]

/-- **Strings that differ in the last block lead to different states.** -/
theorem absorb_injective (hf : Function.Injective f) (hle : r ≤ b) (hP : P.length = (n + 1) * r)
    (hQ : Q.length = (n + 1) * r) (htake : P.take (n * r) = Q.take (n * r))
    (h : absorb f r (n + 1) S P = absorb f r (n + 1) S Q) : P = Q := by
  rw [absorb_succ hP, absorb_succ hQ, htake] at h
  have hmul : (n + 1) * r = n * r + r := by rw [Nat.add_mul, Nat.one_mul]
  have hdrop := xorAt_injective (by rw [List.length_drop, List.length_drop, hP, hQ])
    (by rw [List.length_drop]; omega) (hf h)
  rw [← List.take_append_drop (n * r) P, htake, hdrop, List.take_append_drop]

theorem final_injective (hf : Function.Injective f) (hr : 0 < r) (hle : r ≤ b)
    (hN : N.length + (pad r N.length).length = (n + 1) * r)
    (hM : M.length + (pad r M.length).length = (n + 1) * r)
    (htake : (N ++ pad r N.length).take (n * r) = (M ++ pad r M.length).take (n * r))
    (h : final f r N = final f r M) : N = M := by
  rw [← List.length_append] at hN hM
  simp only [final, hN, hM, Nat.mul_div_cancel _ hr] at h
  exact append_pad_injective (absorb_injective hf hle hN hM htake h)

end Sponge
