import MerkleFs.Keccak.Basic
import MerkleFs.Sponge.Basic

/-!
# The SHA-3 hash functions

A state is a string of 1600 bits when its lanes are written down one after the other.  The SHA-3
function with an output of `d` bits is the sponge with the Keccak permutation and a capacity of
`2 * d` bits, on the message with the suffix `01`.
-/

namespace Keccak

/-- The state a string stands for. -/
def ofString (S : Sponge.Bits 1600) : State := fun x y z => S ⟨64 * (5 * y + x) + z, by omega⟩

/-- The string that stands for a state. -/
def toString (A : State) : Sponge.Bits 1600 := fun i =>
  A ⟨i / 64 % 5, by omega⟩ ⟨i / 64 / 5, by omega⟩ ⟨i % 64, by omega⟩

/-- The permutation on strings. -/
def permuteString : Sponge.Bits 1600 → Sponge.Bits 1600 := toString ∘ permute ∘ ofString

/-- SHA3-`d`. -/
def sha3 (d : ℕ) (M : List Bool) : List Bool :=
  Sponge.sponge permuteString (1600 - 2 * d) (M ++ [false, true]) d

theorem toString_ofString (S : Sponge.Bits 1600) : toString (ofString S) = S := by
  funext i
  refine congrArg S (Fin.ext ?_)
  show 64 * (5 * (i / 64 / 5) + i / 64 % 5) + i % 64 = i.val
  omega

theorem ofString_toString (A : State) : ofString (toString A) = A := by
  funext x y z
  have hlane : (64 * (5 * y.val + x) + z) / 64 = 5 * y + x := by omega
  simp only [ofString, toString, hlane]
  congr 1 <;> refine Fin.ext ?_ <;> simp only <;> omega

theorem toString_bijective : Function.Bijective toString :=
  Function.bijective_iff_has_inverse.2 ⟨ofString, ofString_toString, toString_ofString⟩

theorem ofString_bijective : Function.Bijective ofString :=
  Function.bijective_iff_has_inverse.2 ⟨toString, toString_ofString, ofString_toString⟩

theorem permuteString_bijective : Function.Bijective permuteString :=
  toString_bijective.comp (permute_bijective.comp ofString_bijective)

end Keccak
