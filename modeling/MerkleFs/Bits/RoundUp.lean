import Mathlib.Algebra.Group.Nat.Defs
import Mathlib.Data.Nat.Log

/-!
# Rounding up to a power of two by shifting

The usual way to round a number up to a power of two fills in all bits below its highest one, by
or-ing it with itself shifted by `1`, `2`, `4`, … places, and adds one.  `Smears w x a` says that
every bit of `a` collects `w` bits of `x`; a shift by `w` doubles the width (`Smears.step`), and at
full width the bits below the highest one are filled in (`Smears.add_one_eq`).
-/

namespace Bits

/-- Bit `i` of `a` is set when one of the bits `i … i + w - 1` of `x` is. -/
def Smears (w x a : ℕ) : Prop := ∀ i, a.testBit i = true ↔ ∃ d < w, x.testBit (i + d) = true

theorem Smears.self (x : ℕ) : Smears 1 x x := fun i =>
  ⟨fun hi => ⟨0, Nat.one_pos, hi⟩, fun ⟨d, hd, hi⟩ => by rwa [show d = 0 by omega] at hi⟩

/-- Or-ing with a shift doubles the width. -/
theorem Smears.step {w x a : ℕ} (ha : Smears w x a) : Smears (2 * w) x (a ||| a >>> w) := by
  intro i
  rw [Nat.testBit_or, Nat.testBit_shiftRight, Bool.or_eq_true, ha i, ha (w + i)]
  constructor
  · rintro (⟨d, hd, hi⟩ | ⟨d, hd, hi⟩)
    · exact ⟨d, by omega, hi⟩
    · exact ⟨w + d, by omega, by rwa [show i + (w + d) = w + i + d by omega]⟩
  · rintro ⟨d, hd, hi⟩
    rcases Nat.lt_or_ge d w with hlt | hge
    · exact .inl ⟨d, hlt, hi⟩
    · exact .inr ⟨d - w, by omega, by rwa [show w + i + (d - w) = i + d by omega]⟩

/-- At full width one more than `a` is the least power of two above `x`. -/
theorem Smears.add_one_eq {w x a : ℕ} (ha : Smears w x a) (hx : x < 2 ^ w) :
    a + 1 = 2 ^ Nat.clog 2 (x + 1) := by
  generalize hs : Nat.clog 2 (x + 1) = s
  have hxs : x < 2 ^ s := (Nat.clog_le_iff_le_pow Nat.one_lt_two).1 hs.le
  have hsw : s ≤ w := hs ▸ (Nat.clog_le_iff_le_pow Nat.one_lt_two).2 hx
  have heq : a = 2 ^ s - 1 := by
    refine Nat.eq_of_testBit_eq fun i => Bool.eq_iff_iff.2 ?_
    rw [ha i, Nat.testBit_two_pow_sub_one, decide_eq_true_eq]
    constructor
    · rintro ⟨d, -, hd⟩
      have := (Nat.pow_lt_pow_iff_right Nat.one_lt_two).1
        ((Nat.ge_two_pow_of_testBit hd).trans_lt hxs)
      omega
    · intro hi
      -- the highest bit of `x` is bit `s - 1`
      have hlow : 2 ^ (s - 1) ≤ x :=
        Nat.lt_succ_iff.1 ((Nat.lt_clog_iff_pow_lt Nat.one_lt_two).1 (by
          rw [Nat.succ_eq_add_one, hs]; omega))
      obtain ⟨t, ht, hbit⟩ := Nat.exists_ge_and_testBit_of_ge_two_pow hlow
      have := (Nat.pow_lt_pow_iff_right Nat.one_lt_two).1
        ((Nat.ge_two_pow_of_testBit hbit).trans_lt hxs)
      exact ⟨t - i, by omega, by rwa [show i + (t - i) = t by omega]⟩
  have := Nat.two_pow_pos s
  omega

end Bits
