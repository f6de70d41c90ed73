import MerkleFs.Spelling.Basic
import MerkleFs.Tree.Commit

/-!
# What a printed digest says about the digest

`hash_node` prints every byte of a digest with as many hex digits as it needs, one or two, and
nothing between the bytes.  Different digests can have the same string: `01 11` and `11 01` are both
printed as `111`.  `identifies_iff` says which digests have a string of their own.
-/

namespace MerkleFs

open Spelling (Word spell)

attribute [ext] Digest

/-- No other digest is printed like `d`. -/
def Identifies (d : Digest) : Prop := ∀ d', d' ≠ d → printDigest d' ≠ printDigest d

/-- No digit can move between the byte `b` and the byte `c` printed after it. -/
def Apart (b c : Byte) : Prop :=
  (b.toNat < 16 → b = 0) ∧ (16 ≤ b.toNat → c.toNat < 16 → b.toNat % 16 = 0)

/-- A byte as a word of hex digits. -/
def word (b : Byte) : Word (Fin 16) :=
  if b.toNat < 16 then .one (Fin.ofNat 16 b.toNat)
  else .two (Fin.ofNat 16 (b.toNat / 16)) (Fin.ofNat 16 b.toNat)

variable {b c : Byte} {d d' : Digest}

theorem hexDigit_injective : Function.Injective fun n : Fin 16 => hexDigit n := by decide

theorem sprintfX_eq (b : Byte) :
    sprintfX b = (word b).letters.map fun n : Fin 16 => hexDigit n := by
  have hb : b.toNat < 256 := b.toNat_lt
  unfold sprintfX word
  split_ifs with hlt
  · simp [Word.letters, Nat.mod_eq_of_lt hlt]
  · simp [Word.letters, Nat.mod_eq_of_lt (show b.toNat / 16 < 16 by omega)]

theorem bytes_printDigest (d : Digest) :
    (printDigest d).bytes = (spell (d.bytes.map word)).map fun n : Fin 16 => hexDigit n := by
  rw [spell, List.flatMap_map, List.map_flatMap]
  exact List.flatMap_congr fun b _ => sprintfX_eq b

theorem valid_word (b : Byte) : (word b).Valid 0 := by
  have hb : b.toNat < 256 := b.toNat_lt
  unfold word
  split_ifs with hlt
  · trivial
  · intro h0
    have := congrArg Fin.val h0
    simp at this
    omega

/-- The byte a word of hex digits is printed for. -/
def byteOfWord : Word (Fin 16) → Byte
  | .one x => UInt8.ofNat x
  | .two x y => UInt8.ofNat (16 * x + y)

theorem byteOfWord_word (b : Byte) : byteOfWord (word b) = b := by
  have hb : b.toNat < 256 := b.toNat_lt
  refine UInt8.toNat_inj.1 ?_
  unfold word
  split_ifs with hlt
  · simp only [byteOfWord, Fin.val_ofNat, UInt8.toNat_ofNat']
    omega
  · simp only [byteOfWord, Fin.val_ofNat, UInt8.toNat_ofNat']
    omega

theorem word_injective : Function.Injective word := Function.LeftInverse.injective byteOfWord_word

theorem word_byteOfWord {w : Word (Fin 16)} (hw : w.Valid 0) : word (byteOfWord w) = w := by
  cases w with
  | one x =>
    have hx := x.isLt
    have hval : (byteOfWord (.one x)).toNat = x := by
      simp only [byteOfWord, UInt8.toNat_ofNat']
      omega
    rw [word, hval, if_pos hx, Fin.ofNat_val_eq_self]
  | two x y =>
    have hx := x.isLt
    have hy := y.isLt
    have hval : (byteOfWord (.two x y)).toNat = 16 * x + y := by
      simp only [byteOfWord, UInt8.toNat_ofNat']
      omega
    have hx0 : x.val ≠ 0 := fun h0 => hw (Fin.ext h0)
    have hlow : Fin.ofNat 16 (16 * x + y) = y := Fin.ext (by rw [Fin.val_ofNat]; omega)
    rw [word, hval, if_neg (by omega), show (16 * x.val + y.val) / 16 = x by omega, hlow,
      Fin.ofNat_val_eq_self]

theorem printDigest_eq_iff : printDigest d' = printDigest d ↔
    spell (d'.bytes.map word) = spell (d.bytes.map word) := by
  rw [CStr.ext_iff, bytes_printDigest, bytes_printDigest]
  exact (List.map_injective_iff.2 hexDigit_injective).eq_iff

/-- Lists of 32 valid words are digests. -/
theorem identifies_iff_onlySpelling :
    Identifies d ↔ Spelling.OnlySpelling 0 (d.bytes.map word) := by
  constructor
  · intro hid vs hvs hlen hs
    have hwords : (vs.map byteOfWord).map word = vs := by
      rw [List.map_map]
      exact (List.map_congr_left fun v hv => word_byteOfWord (hvs v hv)).trans (List.map_id vs)
    let d' : Digest := ⟨vs.map byteOfWord, by
      rw [List.length_map, hlen, List.length_map, d.length_eq]⟩
    by_contra hne
    refine hid d' (fun heq => hne ?_) (printDigest_eq_iff.2 ?_)
    · rw [← hwords, ← heq]
    · rw [hwords, hs]
  · intro honly d' hne heq
    refine hne ?_
    have hlen : (d'.bytes.map word).length = (d.bytes.map word).length := by
      rw [List.length_map, List.length_map, d.length_eq, d'.length_eq]
    have hwords := honly _ (fun w hw => ?_) hlen (printDigest_eq_iff.1 heq)
    · exact Digest.ext (List.map_injective_iff.2 word_injective hwords)
    · obtain ⟨b, -, rfl⟩ := List.mem_map.1 hw
      exact valid_word b

theorem single_word : (word b).Single ↔ b.toNat < 16 := by
  unfold word
  split_ifs with hlt
  · exact iff_of_true trivial hlt
  · exact iff_of_false id hlt

theorem tight_word : Spelling.Tight 0 (word b) (word c) ↔ Apart b c := by
  have hzero : ∀ n : ℕ, Fin.ofNat 16 n = 0 ↔ n % 16 = 0 := fun n => Fin.ext_iff
  have hb : b = 0 ↔ b.toNat = 0 := UInt8.toNat_inj.symm
  unfold Apart
  rw [word]
  split_ifs with hb'
  · rw [Spelling.Tight, hzero, hb]
    omega
  · rw [word]
    split_ifs with hc'
    · rw [Spelling.Tight, hzero]
      omega
    · exact iff_of_true trivial ⟨fun h => absurd h hb', fun _ h => absurd h hc'⟩

/-- **The digests that can be told from their strings.** -/
theorem identifies_iff (d : Digest) :
    Identifies d ↔ (∀ b ∈ d.bytes, b.toNat < 16) ∨ d.bytes.IsChain Apart := by
  have hvalid : ∀ w ∈ d.bytes.map word, w.Valid 0 := by
    intro w hw
    obtain ⟨b, -, rfl⟩ := List.mem_map.1 hw
    exact valid_word b
  rw [identifies_iff_onlySpelling, Spelling.onlySpelling_iff hvalid, List.forall_mem_map,
    List.isChain_map]
  refine or_congr (forall₂_congr fun b _ => single_word) (List.IsChain.iff fun b c => tight_word)

/-- The digests `01 11 …` and `11 01 …`. -/
theorem not_printDigest_injective : ¬ ∀ d d', d ≠ d' → printDigest d ≠ printDigest d' := by
  intro hall
  exact hall (digestOf 0x01 0x11) (digestOf 0x11 0x01) (by decide) (by decide)

end MerkleFs
