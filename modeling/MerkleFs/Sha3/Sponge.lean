import MerkleFs.Keccak.Hash
import MerkleFs.Sha3.Permutation
import MerkleFs.Sha3.Update
import Mathlib.Data.List.OfFn
import Mathlib.Tactic.LinearCombination

/-!
# `sha3.c` is SHA-3

A context is an absorber (`Sha3Context.absorber`): its bits are those of the state with the saved
bytes added, and its position is the first bit that has not been written.  A byte of data is eight
bits for it (`absorber_stepByte`), the constants of `sha3_Finalize` are the suffix and the padding
(`stringOf_finalize`), and so the interface computes the SHA-3 functions (`sha3Finalize_bits`).
-/

namespace MerkleFs

/-- The bits of a byte, the least significant one first. -/
def byteBits (b : Byte) : List Bool := List.ofFn fun i : Fin 8 => b.toBitVec.getLsbD i

/-- The bits of a buffer. -/
def dataBits (buf : List Byte) : List Bool := buf.flatMap byteBits

/-- The state as a string. -/
def stringOf (s : Words) : Sponge.Bits 1600 := Keccak.toString (bitsOf s)

/-- The number of bits of the state that data go to. -/
def Sha3Context.rate (ctx : Sha3Context) : ℕ :=
  64 * (SHA3_KECCAK_SPONGE_WORDS - ctx.capacityWords)

/-- The state with the saved bytes. -/
def Sha3Context.absorber (ctx : Sha3Context) : Sponge.Absorber 1600 where
  state := stringOf (xorWord ctx.s ctx.wordIndex ctx.saved)
  pos := 64 * ctx.wordIndex + 8 * ctx.byteIndex

variable {ctx : Sha3Context} {s : Words} {w : U64} {b : Byte} {i k : ℕ}

/-! ### Bits of words -/

@[simp] theorem length_byteBits (b : Byte) : (byteBits b).length = 8 := List.length_ofFn

@[simp] theorem length_dataBits (buf : List Byte) : (dataBits buf).length = 8 * buf.length := by
  induction buf with
  | nil => rfl
  | cons b buf ih =>
    rw [dataBits, List.flatMap_cons, List.length_append, length_byteBits, ← dataBits, ih,
      List.length_cons]
    omega

theorem getD_byteBits (b : Byte) (i : ℕ) : (byteBits b).getD i false = b.toBitVec.getLsbD i := by
  rw [List.getD_eq_getElem?_getD]
  by_cases hi : i < 8
  · rw [List.getElem?_eq_getElem (by rwa [length_byteBits]), Option.getD_some]
    exact List.getElem_ofFn _
  · rw [List.getElem?_eq_none (by rw [length_byteBits]; omega),
      BitVec.getLsbD_of_ge _ _ (by omega), Option.getD_none]

theorem stringOf_apply (s : Words) (j : Fin 1600) :
    stringOf s j = (s.get ⟨j / 64, by omega⟩).getLsbD (j % 64) := by
  have hlane : lane ⟨j / 64 / 5, by omega⟩ ⟨j / 64 % 5, by omega⟩ = ⟨j / 64, by omega⟩ :=
    Fin.ext (Nat.div_add_mod (j / 64) 5)
  rw [← hlane]
  rfl

theorem stringOf_keccakf (s : Words) :
    stringOf (keccakf s) = Keccak.permuteString (stringOf s) := by
  rw [stringOf, bitsOf_keccakf, stringOf, Keccak.permuteString, Function.comp_apply,
    Function.comp_apply, Keccak.ofString_toString]

theorem stringOf_zero : stringOf (Vector.replicate 25 0) = fun _ => false := by
  funext j
  have hget : (Vector.replicate 25 (0 : U64)).get ⟨j / 64, by omega⟩ = 0 :=
    Vector.getElem_replicate _
  rw [stringOf_apply, hget]
  exact BitVec.getLsbD_zero

theorem stringOf_xorWord (s : Words) (k : ℕ) (w : U64) (j : Fin 1600) :
    stringOf (xorWord s k w) j =
      (stringOf s j ^^ (decide (j.val / 64 = k) && w.getLsbD (j % 64))) := by
  rw [stringOf_apply, stringOf_apply, get_xorWord]
  by_cases hk : j.val / 64 = k
  · rw [if_pos hk, BitVec.getLsbD_xor, decide_eq_true hk, Bool.true_and]
  · rw [if_neg hk, decide_eq_false hk, Bool.false_and, Bool.xor_false]

/-- A byte that is added to a word. -/
theorem xorAt_byteBits (s : Words) (k : ℕ) (w : U64) (hi : i < 8) (b : Byte) :
    Sponge.xorAt (stringOf (xorWord s k w)) (64 * k + 8 * i) (byteBits b) =
      stringOf (xorWord s k (w ^^^ shiftByte b i)) := by
  funext j
  have hj := j.isLt
  have hlt : j.val % 64 < 64 := Nat.mod_lt _ (by decide)
  rw [Sponge.xorAt, stringOf_xorWord, stringOf_xorWord, getD_byteBits, BitVec.getLsbD_xor,
    getLsbD_shiftByte, decide_eq_true hlt, Bool.true_and]
  by_cases hk : j.val / 64 = k
  · have hle : 64 * k + 8 * i ≤ j.val ↔ 8 * i ≤ j.val % 64 := by omega
    rw [decide_eq_true hk, show j.val - (64 * k + 8 * i) = j.val % 64 - 8 * i by omega,
      decide_eq_decide.2 hle, Bool.true_and, Bool.true_and, Bool.xor_assoc]
  · rw [decide_eq_false hk, Bool.false_and, Bool.false_and, Bool.xor_false]
    by_cases hle : 64 * k + 8 * i ≤ j.val
    · -- a later word
      rw [BitVec.getLsbD_of_ge _ _ (by omega : 8 ≤ j.val - (64 * k + 8 * i)), Bool.and_false,
        Bool.xor_false]
    · rw [decide_eq_false hle, Bool.false_and, Bool.xor_false]

theorem xorWord_zero (s : Words) (k : ℕ) : xorWord s k 0 = s := by
  refine Vector.ext fun n hn => ?_
  rw [getElem_xorWord]
  split_ifs
  · exact BitVec.xor_zero
  · rfl

/-! ### Data -/

theorem Sha3Context.Ready.or_shiftByte (h : ctx.Ready) (b : Byte) :
    ctx.saved ||| shiftByte b ctx.byteIndex = ctx.saved ^^^ shiftByte b ctx.byteIndex := by
  refine BitVec.eq_of_getLsbD_eq fun k _ => ?_
  rw [BitVec.getLsbD_or, BitVec.getLsbD_xor, getLsbD_shiftByte]
  by_cases hk : 8 * ctx.byteIndex ≤ k
  · rw [h.saved k hk, Bool.false_or, Bool.false_xor]
  · rw [decide_eq_false hk, Bool.false_and, Bool.and_false, Bool.or_false, Bool.xor_false]

theorem absorber_absorbWord (ctx : Sha3Context) (t : U64) :
    (absorbWord (clearSaved ctx) t).absorber =
      if ctx.wordIndex + 1 = SHA3_KECCAK_SPONGE_WORDS - ctx.capacityWords then
        ⟨Keccak.permuteString (stringOf (xorWord ctx.s ctx.wordIndex t)), 0⟩
      else ⟨stringOf (xorWord ctx.s ctx.wordIndex t), 64 * (ctx.wordIndex + 1)⟩ := by
  rw [← stringOf_keccakf]
  unfold absorbWord clearSaved Sha3Context.absorber
  simp only
  split_ifs <;> simp only [xorWord_zero, Nat.mul_zero, Nat.add_zero]

/-- **A byte is eight bits** for the sponge. -/
theorem absorber_stepByte (h : ctx.Ready) (b : Byte) : (stepByte ctx b).absorber =
    (byteBits b).foldl (.feed Keccak.permuteString ctx.rate) ctx.absorber := by
  have hbyte := h.byteIndex
  have hword := h.wordIndex
  have hrate : ctx.rate = 64 * (SHA3_KECCAK_SPONGE_WORDS - ctx.capacityWords) := rfl
  have hpos : ctx.absorber.pos = 64 * ctx.wordIndex + 8 * ctx.byteIndex := rfl
  have hlen := length_byteBits b
  have hadd : Sponge.xorAt ctx.absorber.state ctx.absorber.pos (byteBits b) =
      stringOf (xorWord ctx.s ctx.wordIndex (saveByte ctx b).saved) :=
    (xorAt_byteBits ctx.s ctx.wordIndex ctx.saved hbyte b).trans (by rw [← h.or_shiftByte]; rfl)
  unfold stepByte
  by_cases hfull : ctx.byteIndex + 1 = 8
  · rw [if_pos hfull, absorber_absorbWord]
    by_cases hlast : ctx.wordIndex + 1 = SHA3_KECCAK_SPONGE_WORDS - ctx.capacityWords
    · rw [if_pos (by exact hlast),
        Sponge.feed_of_eq (List.length_pos_iff.1 (by omega)) (by omega), hadd]
      rfl
    · rw [if_neg (by exact hlast), Sponge.feed_of_lt (by omega), hadd]
      exact congrArg (Sponge.Absorber.mk _) (by show 64 * (ctx.wordIndex + 1) = _; omega)
  · rw [if_neg hfull, Sponge.feed_of_lt (by omega), hadd]
    exact congrArg (Sponge.Absorber.mk _)
      (by show 64 * ctx.wordIndex + 8 * (ctx.byteIndex + 1) = _; omega)

@[simp] theorem rate_stepByte : (stepByte ctx b).rate = ctx.rate := by
  unfold stepByte
  split_ifs
  · simp only [Sha3Context.rate, absorbWord_capacityWords]
    rfl
  · rfl

theorem absorber_sha3Update (h : ctx.Ready) (buf : List Byte) :
    (sha3Update ctx buf).rate = ctx.rate ∧ (sha3Update ctx buf).absorber =
      (dataBits buf).foldl (.feed Keccak.permuteString ctx.rate) ctx.absorber := by
  rw [sha3Update_eq_foldl h]
  induction buf generalizing ctx with
  | nil => exact ⟨rfl, rfl⟩
  | cons b buf ih =>
    obtain ⟨hrate, habsorber⟩ := ih (h.stepByte b)
    refine ⟨hrate.trans rate_stepByte, habsorber.trans ?_⟩
    rw [rate_stepByte, absorber_stepByte h, dataBits, dataBits, List.flatMap_cons,
      List.foldl_append]

/-! ### The end of the data -/

/-- The words that `sha3_Finalize` applies the permutation to. -/
def finalWords (ctx : Sha3Context) : Words :=
  xorWord (xorWord ctx.s ctx.wordIndex (ctx.saved ^^^ (0x02 ||| 1 <<< 2) <<< (ctx.byteIndex * 8)))
    (SHA3_KECCAK_SPONGE_WORDS - ctx.capacityWords - 1) 0x8000000000000000

theorem sha3Finalize_eq (ctx : Sha3Context) :
    sha3Finalize ctx = stateBytes (keccakf (finalWords ctx)) := rfl

theorem suffix_pad {m r p : ℕ} (hr : 8 ∣ r) (hp : 8 ∣ p) (hlt : p < r) (hm : m % r = p) :
    [false, true] ++ Sponge.pad r (m + 2) =
      [false, true, true] ++ (List.replicate (r - 1 - (p + 3)) false ++ [true]) := by
  have hlen : ((-((m + 2 : ℕ) : ℤ) - 2) % r).toNat = r - 1 - (p + 3) := by
    have hsplit : -((m + 2 : ℕ) : ℤ) - 2 = (r - 1 - (p + 3) : ℕ) + r * -((m / r : ℕ) + 1 : ℤ) := by
      have hdiv : ((m % r + r * (m / r) : ℕ) : ℤ) = m := congrArg _ (Nat.mod_add_div m r)
      rw [Nat.cast_sub (by omega), Nat.cast_sub (by omega)]
      rw [hm] at hdiv
      push_cast at hdiv ⊢
      linear_combination hdiv
    rw [hsplit, Int.add_mul_emod_self_left, Int.emod_eq_of_lt (by omega) (by omega),
      Int.toNat_natCast]
  rw [Sponge.pad, hlen]
  rfl

theorem xorAt_six (S : Sponge.Bits 1600) (p : ℕ) :
    Sponge.xorAt S p [false, true, true] = Sponge.xorAt S p (byteBits 6) := by
  rw [show byteBits 6 = [false, true, true] ++ List.replicate 5 false by decide,
    Sponge.xorAt_append, Sponge.xorAt_replicate_false]

theorem xorAt_top (S : Sponge.Bits 1600) (p : ℕ) :
    Sponge.xorAt S (p + 7) [true] = Sponge.xorAt S p (byteBits 0x80) := by
  rw [show byteBits 0x80 = List.replicate 7 false ++ [true] by decide, Sponge.xorAt_append,
    Sponge.xorAt_replicate_false, List.length_replicate]

/-- **The constants are the suffix and the padding.** -/
theorem stringOf_finalize (h : ctx.Ready) {m : ℕ} (hm : m % ctx.rate = ctx.absorber.pos) :
    ([false, true] ++ Sponge.pad ctx.rate (m + 2)).foldl
      (.feed Keccak.permuteString ctx.rate) ctx.absorber =
        ⟨stringOf (keccakf (finalWords ctx)), 0⟩ := by
  have hbyte := h.byteIndex
  have hword := h.wordIndex
  have hrate : ctx.rate = 64 * (SHA3_KECCAK_SPONGE_WORDS - ctx.capacityWords) := rfl
  have hpos : ctx.absorber.pos = 64 * ctx.wordIndex + 8 * ctx.byteIndex := rfl
  have htop : ctx.absorber.pos + 3 + (ctx.rate - 1 - (ctx.absorber.pos + 3)) =
      64 * (SHA3_KECCAK_SPONGE_WORDS - ctx.capacityWords - 1) + 8 * 7 + 7 := by omega
  have hsix := xorAt_byteBits ctx.s ctx.wordIndex ctx.saved hbyte 6
  have htopByte := xorAt_byteBits
    (xorWord ctx.s ctx.wordIndex (ctx.saved ^^^ shiftByte 6 ctx.byteIndex))
    (SHA3_KECCAK_SPONGE_WORDS - ctx.capacityWords - 1) 0 (by decide : 7 < 8) 0x80
  rw [xorWord_zero, show 0 ^^^ shiftByte 0x80 7 = 0x8000000000000000 from by decide] at htopByte
  rw [suffix_pad (by omega) (by omega) (by omega) hm, Sponge.feed_of_eq (by simp) (by simp; omega),
    stringOf_keccakf, Sponge.xorAt_append, Sponge.xorAt_append, Sponge.xorAt_replicate_false,
    List.length_replicate]
  refine congrArg (fun S => Sponge.Absorber.mk (Keccak.permuteString S) 0) ?_
  refine Eq.trans ?_ htopByte
  rw [← xorAt_top, ← hsix, ← xorAt_six, ← htop]
  rfl

/-! ### The hash -/

/-- The bytes of a word. -/
def wordBytes (w : U64) : List Byte := List.ofFn fun k : Fin 8 => ⟨(w >>> (8 * k.val)).setWidth 8⟩

theorem dataBits_append (buf buf' : List Byte) :
    dataBits (buf ++ buf') = dataBits buf ++ dataBits buf' := List.flatMap_append

theorem dataBits_take {n : ℕ} {buf : List Byte} (h : n ≤ buf.length) :
    dataBits (buf.take n) = (dataBits buf).take (8 * n) := by
  conv_rhs => rw [← List.take_append_drop n buf, dataBits_append]
  refine (List.take_left' ?_).symm
  rw [length_dataBits, List.length_take, Nat.min_eq_left h]

theorem dataBits_wordBytes (w : U64) :
    dataBits (wordBytes w) = List.ofFn fun z : Fin (8 * 8) => w.getLsbD z := by
  rw [List.ofFn_mul', dataBits, wordBytes, List.flatMap_def, List.map_ofFn]
  refine congrArg _ (congrArg _ (funext fun k => congrArg _ (funext fun z => ?_)))
  show BitVec.getLsbD ((w >>> (8 * k.val)).setWidth 8) z = _
  rw [BitVec.getLsbD_setWidth, BitVec.getLsbD_ushiftRight, decide_eq_true z.isLt, Bool.true_and]

theorem stateBytes_eq (s : Words) :
    stateBytes s = (List.finRange 25).flatMap fun i => wordBytes (s.get i) := by
  have hlow : ∀ (k : ℕ) (w : U64), k ≤ 24 →
      (w.setWidth 32 >>> k).setWidth 8 = (w >>> k).setWidth 8 := fun k w hk => by
    refine BitVec.eq_of_getLsbD_eq fun z hz => ?_
    simp only [BitVec.getLsbD_setWidth, BitVec.getLsbD_ushiftRight,
      decide_eq_true (show k + z < 32 by omega), Bool.true_and]
  have hhigh : ∀ (k : ℕ) (w : U64), k ≤ 24 →
      ((w >>> 16 >>> 16).setWidth 32 >>> k).setWidth 8 = (w >>> (32 + k)).setWidth 8 :=
    fun k w hk => by
      rw [hlow _ _ hk, ← BitVec.shiftRight_add, ← BitVec.shiftRight_add, ← Nat.add_assoc]
  refine List.flatMap_congr fun i _ => ?_
  have hzero := hlow 0 (s.get i) (by decide)
  have hfour := hhigh 0 (s.get i) (by decide)
  simp only [BitVec.ushiftRight_zero, Nat.add_zero] at hzero hfour
  simp only [List.map_cons, List.map_nil, hzero, hfour, hlow _ (s.get i) (by decide : 8 ≤ 24),
    hlow _ (s.get i) (by decide : 16 ≤ 24), hlow _ (s.get i) (by decide : 24 ≤ 24),
    hhigh _ (s.get i) (by decide : 8 ≤ 24), hhigh _ (s.get i) (by decide : 16 ≤ 24),
    hhigh _ (s.get i) (by decide : 24 ≤ 24)]
  rfl

theorem dataBits_stateBytes (s : Words) : dataBits (stateBytes s) = List.ofFn (stringOf s) := by
  have hmul : List.ofFn (stringOf s) = _ := List.ofFn_mul' (m := 64) (n := 25) (stringOf s)
  rw [hmul, List.ofFn_eq_map, ← List.flatMap_def, stateBytes_eq, dataBits, List.flatMap_assoc]
  refine List.flatMap_congr fun i _ => (dataBits_wordBytes _).trans ?_
  refine congrArg _ (funext fun z => ?_)
  rw [stringOf_apply]
  have hword : (64 * i.val + z.val) / 64 = i := by omega
  have hbit : (64 * i.val + z.val) % 64 = z := by omega
  simp only [hword, hbit]

theorem length_stateBytes (s : Words) : (stateBytes s).length = 200 := by
  have hlen := congrArg List.length (dataBits_stateBytes s)
  rw [length_dataBits, List.length_ofFn] at hlen
  omega

/-- The state from which the hash is taken. -/
theorem stringOf_finalWords {bits : ℕ} (hbits : bits ∈ [256, 384, 512]) (bufs : List (List Byte)) :
    stringOf (keccakf (finalWords (bufs.foldl sha3Update (sha3Init bits)))) =
      Sponge.final Keccak.permuteString (1600 - 2 * bits)
        (dataBits bufs.flatten ++ [false, true]) := by
  have hready := ready_sha3Init bits hbits
  obtain ⟨hctx, hready'⟩ := sha3Update_pieces hready bufs
  obtain ⟨hrate', habsorber⟩ := absorber_sha3Update hready bufs.flatten
  rw [← hctx] at hrate' habsorber
  have hrate : (sha3Init bits).rate = 1600 - 2 * bits := by
    have hall : ∀ bits ∈ [256, 384, 512], (sha3Init bits).rate = 1600 - 2 * bits := by decide
    exact hall bits hbits
  have hpos : 0 < 1600 - 2 * bits := by
    have hword : 64 * 0 < (sha3Init bits).rate :=
      Nat.mul_lt_mul_of_pos_left hready.wordIndex (by decide)
    omega
  have hinit : (sha3Init bits).absorber = .init :=
    congrArg (Sponge.Absorber.mk · 0) ((congrArg stringOf (xorWord_zero _ 0)).trans stringOf_zero)
  rw [hinit, hrate] at habsorber
  rw [hrate] at hrate'
  have hend := stringOf_finalize hready' (m := (dataBits bufs.flatten).length) (by
    rw [habsorber, Sponge.pos_foldl_feed hpos, hrate']
    exact congrArg (· % _) (Nat.zero_add _).symm)
  have hbit := Sponge.final_eq_feed (f := Keccak.permuteString) hpos
    (dataBits bufs.flatten ++ [false, true])
  rw [List.append_assoc, List.foldl_append, ← habsorber, List.length_append, ← hrate'] at hbit
  rw [← hrate']
  exact congrArg Sponge.Absorber.state (hend.symm.trans hbit)

/-- **The interface computes the SHA-3 functions**, whatever the pieces of the data are. -/
theorem sha3Finalize_bits {bits : ℕ} (hbits : bits ∈ [256, 384, 512]) (bufs : List (List Byte)) :
    dataBits ((sha3Finalize (bufs.foldl sha3Update (sha3Init bits))).take (bits / 8)) =
      Keccak.sha3 bits (dataBits bufs.flatten) := by
  have hfinal := stringOf_finalWords hbits bufs
  have hmul : 8 * (bits / 8) = bits ∧ bits / 8 ≤ 200 := by
    have hall : ∀ bits ∈ [256, 384, 512], 8 * (bits / 8) = bits ∧ bits / 8 ≤ 200 := by decide
    exact hall bits hbits
  have hlen : (sha3Finalize (bufs.foldl sha3Update (sha3Init bits))).length = 200 :=
    length_stateBytes _
  rw [dataBits_take (by omega), hmul.1, Keccak.sha3, Sponge.sponge, List.map_take, ← hfinal,
    ← List.ofFn_eq_map, ← dataBits_stateBytes]
  rfl

/-- The hash of `"abc"`, handed over in two pieces. -/
theorem sha3Finalize_bits_abc :
    dataBits ((sha3Finalize ([[0x61], [0x62, 0x63]].foldl sha3Update (sha3Init 256))).take
      (256 / 8)) = Keccak.sha3 256 (dataBits [0x61, 0x62, 0x63]) :=
  sha3Finalize_bits (by decide) [[0x61], [0x62, 0x63]]

/-! ### Different data -/

theorem byteBits_injective : Function.Injective byteBits := by
  intro b b' h
  have hbits := List.ofFn_injective h
  exact UInt8.toBitVec_inj.1 (BitVec.eq_of_getLsbD_eq fun i hi => congrFun hbits ⟨i, hi⟩)

theorem dataBits_injective : Function.Injective dataBits := by
  intro d d' h
  induction d generalizing d' with
  | nil =>
    have hlen := congrArg List.length h
    rw [length_dataBits, length_dataBits] at hlen
    exact (List.length_eq_zero_iff.1 (by simpa using hlen.symm)).symm
  | cons b d ih =>
    cases d' with
    | nil => exact absurd (congrArg List.length h) (by simp)
    | cons b' d' =>
      rw [dataBits, dataBits, List.flatMap_cons, List.flatMap_cons] at h
      obtain ⟨hhead, htail⟩ := List.append_inj h (by simp)
      rw [byteBits_injective hhead, ih htail]

theorem length_padded {m n r : ℕ} (hr : 8 ∣ r) (hm : 8 ∣ m) (hpos : 0 < r) (hn : m / r = n) :
    m + 2 + (Sponge.pad r (m + 2)).length = (n + 1) * r := by
  have hlt := Nat.mod_lt m hpos
  have hmod : 8 ∣ m % r := (Nat.dvd_mod_iff hr).2 hm
  have hlen := congrArg List.length (suffix_pad hr hmod hlt rfl)
  simp only [List.length_append, List.length_cons, List.length_nil, List.length_replicate] at hlen
  have hdiv := Nat.mod_add_div m r
  rw [hn, Nat.mul_comm] at hdiv
  rw [Nat.add_mul, Nat.one_mul]
  omega

theorem take_blocks {n block : ℕ} {d : List Byte} {P : List Bool} (hd : d.length / block = n) :
    (dataBits d ++ P).take (n * (8 * block)) = dataBits (d.take (n * block)) := by
  have hle : n * block ≤ d.length := hd ▸ Nat.div_mul_le_self _ _
  rw [Nat.mul_left_comm, dataBits_take hle,
    List.take_append_of_le_length (by rw [length_dataBits]; omega)]

/-- **Data that differ in the last block only lead to different states**: of the bytes that
`sha3_Finalize` leaves in the context some differ, if not of those that are the hash. -/
theorem sha3Finalize_ne {bits n : ℕ} (hbits : bits ∈ [256, 384, 512]) {d d' : List Byte}
    (hd : d.length / (200 - bits / 4) = n) (hd' : d'.length / (200 - bits / 4) = n)
    (htake : d.take (n * (200 - bits / 4)) = d'.take (n * (200 - bits / 4))) (hne : d ≠ d') :
    sha3Finalize (sha3Update (sha3Init bits) d) ≠ sha3Finalize (sha3Update (sha3Init bits) d') := by
  intro h
  have hbytes : 1600 - 2 * bits = 8 * (200 - bits / 4) ∧ 0 < 200 - bits / 4 := by
    have hall : ∀ bits ∈ [256, 384, 512],
      1600 - 2 * bits = 8 * (200 - bits / 4) ∧ 0 < 200 - bits / 4 := by decide
    exact hall bits hbits
  set block := 200 - bits / 4
  have hfinal : ∀ d, stringOf (keccakf (finalWords (sha3Update (sha3Init bits) d))) =
      Sponge.final Keccak.permuteString (8 * block) (dataBits d ++ [false, true]) := fun d => by
    have hone := stringOf_finalWords hbits [d]
    rwa [hbytes.1, List.flatten_singleton] at hone
  have hstate : List.ofFn (stringOf (keccakf (finalWords (sha3Update (sha3Init bits) d)))) =
      List.ofFn (stringOf (keccakf (finalWords (sha3Update (sha3Init bits) d')))) := by
    rw [← dataBits_stateBytes, ← dataBits_stateBytes]
    exact congrArg dataBits h
  have hsponge := List.ofFn_injective hstate
  rw [hfinal, hfinal] at hsponge
  have hlen : ∀ {d : List Byte}, d.length / block = n →
      (dataBits d ++ [false, true]).length +
        (Sponge.pad (8 * block) (dataBits d ++ [false, true]).length).length =
          (n + 1) * (8 * block) := fun {d} hd => by
    rw [List.length_append, length_dataBits]
    exact length_padded ⟨block, rfl⟩ ⟨d.length, rfl⟩ (by omega)
      (by rw [Nat.mul_div_mul_left _ _ (by decide), hd])
  refine hne (dataBits_injective (List.append_cancel_right (Sponge.final_injective
    Keccak.permuteString_bijective.injective (by omega) (by omega) (hlen hd) (hlen hd') ?_
    hsponge)))
  rw [List.append_assoc, List.append_assoc, take_blocks hd, take_blocks hd', htake]

/-- The states for `"a"` and `"b"`. -/
theorem sha3Finalize_ne_a_b : sha3Finalize (sha3Update (sha3Init 256) [0x61]) ≠
    sha3Finalize (sha3Update (sha3Init 256) [0x62]) :=
  sha3Finalize_ne (n := 0) (by decide) rfl rfl rfl (by decide)

end MerkleFs
