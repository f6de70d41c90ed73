import Mathlib.Data.Fin.Basic
import Mathlib.Data.Fintype.Pi
import Mathlib.Data.ZMod.Defs
import Mathlib.Logic.Function.Iterate
import Mathlib.Tactic.Abel

/-!
# The Keccak permutation

The permutation behind SHA-3, bit by bit: a state is an array of bits with coordinates `x`, `y`
and `z`, and a round applies the maps θ, ρ, π, χ and ι to it one after the other.

* `permute` : the 24 rounds.
* `permute_bijective` : it is a permutation, since each of the maps is.  For θ this is so because
  what it does to the parities of the columns, a sum of three shifts (`spread`), is the identity
  when it is done 192 times.
-/

namespace Keccak

/-- A state: the bit in column `x`, row `y` and at position `z` of the lane. -/
abbrev State := Fin 5 → Fin 5 → Fin 64 → Bool

/-! ### The maps of a round -/

/-- The parity of a column. -/
def parity (A : State) (x : Fin 5) (z : Fin 64) : Bool :=
  A x 0 z ^^ A x 1 z ^^ A x 2 z ^^ A x 3 z ^^ A x 4 z

/-- θ adds the parities of two columns nearby. -/
def theta (A : State) : State := fun x y z =>
  A x y z ^^ (parity A (x - 1) z ^^ parity A (x + 1) (z - 1))

/-- The lanes but the one at `(0, 0)`, in the order in which ρ goes through them. -/
def walk : ℕ → Fin 5 × Fin 5
  | 0 => (1, 0)
  | t + 1 => ((walk t).2, 2 * (walk t).1 + 3 * (walk t).2)

/-- How far ρ rotates a lane. -/
def offset (x y : Fin 5) : ℕ :=
  ((List.range 24).find? (walk · = (x, y))).elim 0 fun t => (t + 1) * (t + 2) / 2

/-- ρ rotates the lanes. -/
def rho (A : State) : State := fun x y z => A x y (z - Fin.ofNat 64 (offset x y))

/-- π moves the lanes. -/
def pi (A : State) : State := fun x y z => A (x + 3 * y) x z

/-- χ is the part that is not linear. -/
def chi (A : State) : State := fun x y z => A x y z ^^ (!A (x + 1) y z && A (x + 2) y z)

/-- One step of the shift register that the round constants are from. -/
def registerStep : List Bool → List Bool
  | [r₀, r₁, r₂, r₃, r₄, r₅, r₆, r₇] => [r₇, r₀, r₁, r₂, r₃ ^^ r₇, r₄ ^^ r₇, r₅ ^^ r₇, r₆]
  | r => r

/-- The bit the register gives after `t` steps. -/
def registerBit (t : ℕ) : Bool :=
  (registerStep^[t % 255] (true :: List.replicate 7 false)).headD false

/-- The constant of round `i`. -/
def roundConstant (i : ℕ) (z : Fin 64) : Bool :=
  (List.range 7).any fun j => z.val = 2 ^ j - 1 ∧ registerBit (j + 7 * i)

/-- ι adds the constant of round `i` to the first lane. -/
def iota (i : ℕ) (A : State) : State := fun x y z =>
  if x = 0 ∧ y = 0 then A x y z ^^ roundConstant i z else A x y z

/-- Round `i`. -/
def round (A : State) (i : ℕ) : State := iota i (chi (pi (rho (theta A))))

/-- The permutation. -/
def permute (A : State) : State := (List.range 24).foldl round A

/-! ### Sums of shifts -/

section Spread

variable {X Z : Type*} [AddCommGroup X] [AddCommGroup Z]

/-- A pattern, added to two shifted copies of itself. -/
def spread (a b : X) (c : Z) (P : X → Z → Bool) : X → Z → Bool := fun x z =>
  P x z ^^ (P (x - a) z ^^ P (x + b) (z - c))

theorem spread_spread (a b : X) (c : Z) (P : X → Z → Bool) :
    spread a b c (spread a b c P) = spread (a + a) (b + b) (c + c) P := by
  have hcancel : ∀ p q r s t u : Bool,
      ((p ^^ (q ^^ r)) ^^ ((q ^^ (s ^^ t)) ^^ (r ^^ (t ^^ u)))) = (p ^^ (s ^^ u)) := by decide
  funext x z
  simp only [spread]
  rw [show x - a + b = x + b - a by abel, hcancel, sub_sub, sub_sub, add_assoc]

theorem spread_iterate (a b : X) (c : Z) (k : ℕ) :
    (spread a b c)^[2 ^ k] = spread (2 ^ k • a) (2 ^ k • b) (2 ^ k • c) := by
  induction k with
  | zero => simp only [pow_zero, Function.iterate_one, one_nsmul]
  | succ k ih =>
    funext P
    rw [pow_succ, Nat.mul_two, Function.iterate_add_apply, ih, spread_spread]
    simp only [add_nsmul]

end Spread

theorem spread_order : (spread (1 : Fin 5) 1 (1 : Fin 64))^[2 ^ 6 * 3] = id := by
  have hfive : (2 ^ 6 • 1 : Fin 5) = 4 := by decide
  have hlane : (2 ^ 6 • 1 : Fin 64) = 0 := by decide
  have hcancel : ∀ p q r s t : Bool,
      ((p ^^ (q ^^ t)) ^^ ((r ^^ (s ^^ q)) ^^ (s ^^ (t ^^ r)))) = p := by decide
  have hshift : ∀ x : Fin 5, x - (4 + 4) = x + 2 ∧ x + (4 + 4) = x + 3 ∧ x - 4 = x + 1 ∧
      x + 2 - 4 = x + 3 ∧ x + 2 + 4 = x + 1 ∧ x + 3 - 4 = x + 4 ∧ x + 3 + 4 = x + 2 := by decide
  funext P x z
  rw [Function.iterate_mul, spread_iterate, hfive, hlane, Function.iterate_succ_apply',
    Function.iterate_succ_apply', Function.iterate_one, spread_spread]
  obtain ⟨h₁, h₂, h₃, h₄, h₅, h₆, h₇⟩ := hshift x
  simp only [spread, add_zero, sub_zero, h₁, h₂, h₃, h₄, h₅, h₆, h₇]
  exact hcancel _ _ _ _ _

theorem spread_injective : Function.Injective (spread (1 : Fin 5) 1 (1 : Fin 64)) := by
  obtain ⟨n, hn⟩ : ∃ n, 2 ^ 6 * 3 = n + 1 := ⟨191, rfl⟩
  have hback := spread_order
  rw [hn, Function.iterate_succ] at hback
  exact .of_comp (hback ▸ Function.injective_id)

/-! ### The maps are permutations -/

theorem parity_theta (A : State) : parity (theta A) = spread 1 1 1 (parity A) := by
  have hodd : ∀ a b c d e p : Bool, ((a ^^ p) ^^ (b ^^ p) ^^ (c ^^ p) ^^ (d ^^ p) ^^ (e ^^ p)) =
      ((a ^^ b ^^ c ^^ d ^^ e) ^^ p) := by decide
  funext x z
  exact hodd _ _ _ _ _ _

theorem theta_injective : Function.Injective theta := by
  intro A B h
  have hparity : parity A = parity B := spread_injective (by rw [← parity_theta, h, parity_theta])
  funext x y z
  have hxyz := congrFun (congrFun (congrFun h x) y) z
  simp only [theta, hparity] at hxyz
  exact (Bool.xor_left_inj).1 hxyz

theorem rho_injective : Function.Injective rho := by
  intro A B h
  funext x y z
  have hxyz := congrFun (congrFun (congrFun h x) y) (z + Fin.ofNat 64 (offset x y))
  simpa only [rho, add_sub_cancel_right] using hxyz

theorem pi_injective : Function.Injective pi := by
  have hback : ∀ x y : Fin 5, y + 3 * (2 * (x - y)) = x := by decide
  intro A B h
  funext x y z
  have hxyz := congrFun (congrFun (congrFun h y) (2 * (x - y))) z
  simpa only [pi, hback] using hxyz

theorem chi_back (A : State) (x y : Fin 5) (z : Fin 64) :
    (chi A x y z ^^ (!chi A (x + 1) y z && (chi A (x + 2) y z ^^
      (!chi A (x + 3) y z && chi A (x + 4) y z)))) = A x y z := by
  have hrow : ∀ a b c d e : Bool, ((a ^^ (!b && c)) ^^ (!(b ^^ (!c && d)) && ((c ^^ (!d && e)) ^^
      (!(d ^^ (!e && a)) && (e ^^ (!a && b)))))) = a := by decide
  have hshift : ∀ x : Fin 5, x + 1 + 1 = x + 2 ∧ x + 1 + 2 = x + 3 ∧ x + 2 + 1 = x + 3 ∧
      x + 2 + 2 = x + 4 ∧ x + 3 + 1 = x + 4 ∧ x + 3 + 2 = x ∧ x + 4 + 1 = x ∧
      x + 4 + 2 = x + 1 := by decide
  obtain ⟨h₁, h₂, h₃, h₄, h₅, h₆, h₇, h₈⟩ := hshift x
  simp only [chi, h₁, h₂, h₃, h₄, h₅, h₆, h₇, h₈]
  exact hrow _ _ _ _ _

theorem chi_injective : Function.Injective chi := by
  intro A B h
  funext x y z
  rw [← chi_back A, ← chi_back B, h]

theorem iota_injective (i : ℕ) : Function.Injective (iota i) := by
  intro A B h
  funext x y z
  have hxyz := congrFun (congrFun (congrFun h x) y) z
  simp only [iota] at hxyz
  split_ifs at hxyz
  · exact (Bool.xor_left_inj).1 hxyz
  · exact hxyz

theorem round_injective (i : ℕ) : Function.Injective fun A => round A i :=
  (iota_injective i).comp (chi_injective.comp (pi_injective.comp
    (rho_injective.comp theta_injective)))

/-- **The permutation is one.** -/
theorem permute_bijective : Function.Bijective permute := by
  refine Finite.injective_iff_bijective.1 ?_
  have hrounds : ∀ is : List ℕ, Function.Injective fun A => is.foldl round A := by
    intro is
    induction is with
    | nil => exact Function.injective_id
    | cons i is ih => exact ih.comp (round_injective i)
  exact hrounds _

end Keccak
