import Mathlib.Data.List.Infix
import MerkleFs.Sha3.Basic

/-!
# Data in pieces

`sha3_Update` fills up the word that has been begun, goes on in whole words and saves what is left.
This comes to the same as adding the bytes one by one (`sha3Update_eq_foldl`), so that it does not
matter in which pieces the data are handed over (`sha3Update_pieces`).
-/

namespace MerkleFs

/-- What holds of a context between two calls: what the assertions in `sha3_Update`, which are
compiled to nothing, would check, and that nothing but the bytes that are kept is in `saved`. -/
structure Sha3Context.Ready (ctx : Sha3Context) : Prop where
  /-- The word is not full. -/
  byteIndex : ctx.byteIndex < 8
  /-- The word is one that data go to. -/
  wordIndex : ctx.wordIndex < SHA3_KECCAK_SPONGE_WORDS - ctx.capacityWords
  /-- The other bytes of `saved` are zero. -/
  saved : ∀ k, 8 * ctx.byteIndex ≤ k → ctx.saved.getLsbD k = false

/-- Begins a new word. -/
def clearSaved (ctx : Sha3Context) : Sha3Context := { ctx with byteIndex := 0, saved := 0 }

/-- Adds one byte. -/
def stepByte (ctx : Sha3Context) (b : Byte) : Sha3Context :=
  if ctx.byteIndex + 1 = 8 then absorbWord (clearSaved (saveByte ctx b)) (saveByte ctx b).saved
  else saveByte ctx b

variable {ctx : Sha3Context} {buf : List Byte} {b : Byte} {t : U64} {k : ℕ}

theorem getLsbD_shiftByte (b : Byte) (i k : ℕ) : (shiftByte b i).getLsbD k =
    (decide (k < 64) && (decide (8 * i ≤ k) && b.toBitVec.getLsbD (k - 8 * i))) := by
  unfold shiftByte
  rw [BitVec.getLsbD_shiftLeft, BitVec.getLsbD_setWidth, Nat.mul_comm i 8]
  by_cases hk : k < 64
  · by_cases hi : 8 * i ≤ k
    · simp [hk, hi, show k - 8 * i < 64 by omega, Nat.not_lt.2 hi]
    · simp [hk, hi, Nat.lt_of_not_le hi]
  · simp [hk]

/-! ### One byte -/

@[simp] theorem saveByte_wordIndex : (saveByte ctx b).wordIndex = ctx.wordIndex := rfl

@[simp] theorem saveByte_byteIndex : (saveByte ctx b).byteIndex = ctx.byteIndex + 1 := rfl

@[simp] theorem saveByte_capacityWords :
    (saveByte ctx b).capacityWords = ctx.capacityWords := rfl

@[simp] theorem absorbWord_saved : (absorbWord ctx t).saved = ctx.saved := by
  unfold absorbWord
  simp only
  split_ifs <;> rfl

@[simp] theorem absorbWord_byteIndex : (absorbWord ctx t).byteIndex = ctx.byteIndex := by
  unfold absorbWord
  simp only
  split_ifs <;> rfl

@[simp] theorem absorbWord_capacityWords :
    (absorbWord ctx t).capacityWords = ctx.capacityWords := by
  unfold absorbWord
  simp only
  split_ifs <;> rfl

theorem absorbWord_wordIndex : (absorbWord ctx t).wordIndex =
    if ctx.wordIndex + 1 = SHA3_KECCAK_SPONGE_WORDS - ctx.capacityWords then 0
    else ctx.wordIndex + 1 := by
  unfold absorbWord
  simp only
  split_ifs <;> rfl

theorem ready_absorbWord (hword : ctx.wordIndex < SHA3_KECCAK_SPONGE_WORDS - ctx.capacityWords) :
    (absorbWord (clearSaved ctx) t).Ready := by
  refine ⟨?_, ?_, fun k _ => ?_⟩
  · rw [absorbWord_byteIndex]
    exact Nat.zero_lt_succ 7
  · rw [absorbWord_wordIndex, absorbWord_capacityWords]
    show (if ctx.wordIndex + 1 = SHA3_KECCAK_SPONGE_WORDS - ctx.capacityWords then 0
      else ctx.wordIndex + 1) < SHA3_KECCAK_SPONGE_WORDS - ctx.capacityWords
    split_ifs <;> omega
  · rw [absorbWord_saved]
    exact BitVec.getLsbD_zero

theorem Sha3Context.Ready.stepByte (h : ctx.Ready) (b : Byte) : (stepByte ctx b).Ready := by
  have hbyte := h.byteIndex
  unfold MerkleFs.stepByte
  split_ifs with hfull
  · exact ready_absorbWord h.wordIndex
  · refine ⟨by rw [saveByte_byteIndex]; omega, h.wordIndex, fun k hk => ?_⟩
    rw [saveByte_byteIndex] at hk
    rw [saveByte, BitVec.getLsbD_or, h.saved k (by omega), getLsbD_shiftByte,
      BitVec.getLsbD_of_ge _ _ (by omega : 8 ≤ k - 8 * ctx.byteIndex)]
    simp

theorem Sha3Context.Ready.foldl_stepByte (h : ctx.Ready) (buf : List Byte) :
    (buf.foldl MerkleFs.stepByte ctx).Ready := by
  induction buf generalizing ctx with
  | nil => exact h
  | cons b buf ih => exact ih (h.stepByte b)

/-! ### Several bytes -/

theorem foldl_stepByte_of_lt (h : ctx.byteIndex + buf.length < 8) :
    buf.foldl stepByte ctx = buf.foldl saveByte ctx := by
  induction buf generalizing ctx with
  | nil => rfl
  | cons b buf ih =>
    rw [List.length_cons] at h
    have hstep : stepByte ctx b = saveByte ctx b :=
      if_neg (by omega)
    rw [List.foldl_cons, List.foldl_cons, hstep, ih (by rw [saveByte_byteIndex]; omega)]

theorem foldl_saveByte_byteIndex :
    (buf.foldl saveByte ctx).byteIndex = ctx.byteIndex + buf.length := by
  induction buf generalizing ctx with
  | nil => rfl
  | cons b buf ih =>
    rw [List.foldl_cons, ih, saveByte_byteIndex, List.length_cons]
    omega

theorem foldl_stepByte_of_eq (hne : buf ≠ []) (h : ctx.byteIndex + buf.length = 8) :
    buf.foldl stepByte ctx =
      absorbWord (clearSaved (buf.foldl saveByte ctx)) (buf.foldl saveByte ctx).saved := by
  obtain rfl | ⟨buf, b, rfl⟩ := List.eq_nil_or_concat buf
  · exact absurd rfl hne
  rw [List.concat_eq_append] at h ⊢
  rw [List.length_append, List.length_singleton] at h
  simp only [List.foldl_append, List.foldl_cons, List.foldl_nil]
  rw [foldl_stepByte_of_lt (by omega)]
  exact if_pos (by rw [foldl_saveByte_byteIndex]; omega)

/-- A whole word. -/
theorem foldl_stepByte_word (hbyte : ctx.byteIndex = 0) (hsaved : ctx.saved = 0)
    (h : 8 ≤ buf.length) :
    (buf.take 8).foldl stepByte ctx = absorbWord ctx (loadWord buf) := by
  match buf, h with
  | b₀ :: b₁ :: b₂ :: b₃ :: b₄ :: b₅ :: b₆ :: b₇ :: buf, _ =>
    have hclear : clearSaved ctx = ctx := by
      rw [clearSaved, ← hbyte, ← hsaved]
    have hsave : ∀ l : List Byte, clearSaved (l.foldl saveByte ctx) = ctx := fun l => by
      induction l using List.reverseRecOn with
      | nil => exact hclear
      | append_singleton l b ih =>
        rw [List.foldl_append, List.foldl_cons, List.foldl_nil]
        exact ih
    have htake : List.take 8 (b₀ :: b₁ :: b₂ :: b₃ :: b₄ :: b₅ :: b₆ :: b₇ :: buf) =
        [b₀, b₁, b₂, b₃, b₄, b₅, b₆, b₇] := rfl
    rw [htake, foldl_stepByte_of_eq (List.cons_ne_nil _ _) (by rw [hbyte]; rfl), hsave]
    simp [saveByte, loadWord, hbyte, hsaved]

theorem words_keep (buf : List Byte) (is : List ℕ) (hbyte : ctx.byteIndex = 0)
    (hsaved : ctx.saved = 0) :
    (is.foldl (fun ctx i => absorbWord ctx (loadWord (buf.drop (8 * i)))) ctx).byteIndex = 0 ∧
      (is.foldl (fun ctx i => absorbWord ctx (loadWord (buf.drop (8 * i)))) ctx).saved = 0 := by
  induction is generalizing ctx with
  | nil => exact ⟨hbyte, hsaved⟩
  | cons i is ih => exact ih (absorbWord_byteIndex.trans hbyte) (absorbWord_saved.trans hsaved)

theorem foldl_stepByte_words (buf : List Byte) (hbyte : ctx.byteIndex = 0) (hsaved : ctx.saved = 0)
    {n : ℕ} (h : 8 * n ≤ buf.length) : (buf.take (8 * n)).foldl stepByte ctx =
      (List.range n).foldl (fun ctx i => absorbWord ctx (loadWord (buf.drop (8 * i)))) ctx := by
  induction n with
  | zero => rfl
  | succ n ih =>
    obtain ⟨hb, hs⟩ := words_keep buf (List.range n) hbyte hsaved
    rw [Nat.mul_succ, List.take_add, List.foldl_append, ih (by omega),
      foldl_stepByte_word hb hs (by rw [List.length_drop]; omega), List.range_succ,
      List.foldl_append]
    rfl

/-! ### `sha3_Update` -/

theorem foldl_words_tail (hbyte : ctx.byteIndex = 0) (hsaved : ctx.saved = 0) (buf : List Byte) :
    (buf.drop (8 * (buf.length / 8))).foldl saveByte ((List.range (buf.length / 8)).foldl
      (fun ctx i => absorbWord ctx (loadWord (buf.drop (8 * i)))) ctx) =
        buf.foldl stepByte ctx := by
  have hwords := foldl_stepByte_words buf hbyte hsaved (n := buf.length / 8) (by omega)
  conv_rhs => rw [← List.take_append_drop (8 * (buf.length / 8)) buf, List.foldl_append, hwords]
  refine (foldl_stepByte_of_lt ?_).symm
  rw [(words_keep buf _ hbyte hsaved).1, List.length_drop]
  omega

theorem oldTail_eq : ∀ i < 8, (8 - i) &&& 7 = if i = 0 then 0 else 8 - i := by decide

/-- **`sha3_Update` adds the bytes of its buffer one by one.** -/
theorem sha3Update_eq_foldl (h : ctx.Ready) (buf : List Byte) :
    sha3Update ctx buf = buf.foldl stepByte ctx := by
  have hbyte := h.byteIndex
  unfold sha3Update
  simp only [oldTail_eq _ hbyte]
  by_cases h0 : ctx.byteIndex = 0
  · have hsaved : ctx.saved = 0 :=
      BitVec.eq_of_getLsbD_eq fun k _ => (h.saved k (by omega)).trans BitVec.getLsbD_zero.symm
    rw [if_pos h0, if_neg (Nat.not_lt_zero _), if_pos rfl, List.drop_zero]
    exact foldl_words_tail h0 hsaved buf
  · rw [if_neg h0]
    split_ifs with hshort htail
    · exact (foldl_stepByte_of_lt (by omega)).symm
    · omega
    · have htake : (buf.take (8 - ctx.byteIndex)).length = 8 - ctx.byteIndex := by
        rw [List.length_take]
        omega
      have hne : buf.take (8 - ctx.byteIndex) ≠ [] := List.length_pos_iff.1 (by omega)
      have hfull := foldl_stepByte_of_eq hne (show ctx.byteIndex + _ = 8 by omega)
      conv_rhs => rw [← List.take_append_drop (8 - ctx.byteIndex) buf, List.foldl_append, hfull]
      exact foldl_words_tail absorbWord_byteIndex absorbWord_saved _

theorem Sha3Context.Ready.sha3Update (h : ctx.Ready) (buf : List Byte) :
    (sha3Update ctx buf).Ready := by
  rw [sha3Update_eq_foldl h]
  exact h.foldl_stepByte buf

theorem sha3Update_append (h : ctx.Ready) (buf buf' : List Byte) :
    sha3Update (sha3Update ctx buf) buf' = sha3Update ctx (buf ++ buf') := by
  rw [sha3Update_eq_foldl (h.sha3Update buf), sha3Update_eq_foldl h, sha3Update_eq_foldl h,
    List.foldl_append]

/-- **The pieces do not matter** in which the data are handed over: the context is the same after
any calls of `sha3_Update`, and it is always ready for the next one. -/
theorem sha3Update_pieces (h : ctx.Ready) (bufs : List (List Byte)) :
    bufs.foldl sha3Update ctx = sha3Update ctx bufs.flatten ∧
      (bufs.foldl sha3Update ctx).Ready := by
  induction bufs generalizing ctx with
  | nil =>
    have hnil : sha3Update ctx [] = ctx := sha3Update_eq_foldl h []
    exact ⟨hnil.symm, h⟩
  | cons buf bufs ih =>
    obtain ⟨heq, hready⟩ := ih (h.sha3Update buf)
    exact ⟨heq.trans (sha3Update_append h buf _), hready⟩

theorem ready_sha3Init : ∀ bits ∈ [256, 384, 512], (sha3Init bits).Ready := by
  intro bits hbits
  refine ⟨Nat.zero_lt_succ 7, ?_, fun k _ => BitVec.getLsbD_zero⟩
  revert bits
  decide

/-- The context after `"abc"`, handed over in two pieces. -/
theorem sha3Update_pieces_abc :
    [[0x61], [0x62, 0x63]].foldl sha3Update (sha3Init 256) =
        sha3Update (sha3Init 256) [0x61, 0x62, 0x63] ∧
      ([[0x61], [0x62, 0x63]].foldl sha3Update (sha3Init 256)).Ready :=
  sha3Update_pieces (ready_sha3Init 256 (by decide)) [[0x61], [0x62, 0x63]]

end MerkleFs
