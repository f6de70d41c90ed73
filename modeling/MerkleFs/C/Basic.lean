import Mathlib.Data.List.TakeWhile
import Mathlib.Data.Nat.Log
import Mathlib.Tactic.NormNum

/-!
# The part of C the program rests on

The program keeps its data in C strings and C `int`s, and its errors are as often undefined
behaviour as a return code.  This file fixes how these are modelled.

* `Run α` : a run of C code, which returns a value or stops with a `Fault` (undefined
  behaviour, or an assertion that aborts the process).
* `CStr` : a C string, the bytes before the terminating NUL.
* `readStr`, `strncpy`, `strlcpy` : the string functions on a block of memory.  A function that
  runs past the end of its block is a fault.
* `intOf`, `checkInt`, `shl1`, `log2` : conversion to `int`, signed arithmetic, `1 << n` and
  `(int) log2(n)`.

`malloc` and `calloc` are assumed to succeed, and a pointer that has not been assigned in a
block `malloc` returns is taken to be NULL.
-/

namespace MerkleFs

/-- A byte (`char`, `uint8_t`). -/
abbrev Byte := UInt8

/-- A character constant. -/
def byteOf (c : Char) : Byte := UInt8.ofNat c.toNat

/-- The ways a run stops without returning. -/
inductive Fault where
  /-- Signed arithmetic leaves the range of `int`. -/
  | overflow
  /-- A shift `1 << n` with `n` outside `0..30`. -/
  | shift
  /-- `(int) log2(n)` with `n ≤ 0`. -/
  | log2
  /-- A NULL pointer is read through. -/
  | nullDeref
  /-- An access outside a block. -/
  | bounds
  /-- An `assert` fails. -/
  | assertion
  /-- `free` of something that is not a live block. -/
  | invalidFree
  /-- A local variable is used before it is assigned. -/
  | unset
  deriving DecidableEq, Repr

/-- A run of C code. -/
abbrev Run (α : Type) := Except Fault α

namespace Run

variable {α β : Type}

@[simp] theorem ok_bind (a : α) (f : α → Run β) : (Except.ok a >>= f : Run β) = f a := rfl

@[simp] theorem error_bind (e : Fault) (f : α → Run β) :
    ((Except.error e : Run α) >>= f) = .error e := rfl

@[simp] theorem pure_eq (a : α) : (pure a : Run α) = .ok a := rfl

theorem bind_eq_ok {x : Run α} {f : α → Run β} {b : β} :
    x >>= f = .ok b ↔ ∃ a, x = .ok a ∧ f a = .ok b := by
  cases x with
  | error e => simp
  | ok a => simp

end Run

/-! ### Strings -/

/-- A C string. -/
@[ext]
structure CStr where
  /-- The bytes before the terminating NUL. -/
  bytes : List Byte
  /-- None of them is NUL. -/
  nulFree : 0 ∉ bytes
  deriving DecidableEq

namespace CStr

/-- The empty string. -/
def nil : CStr := ⟨[], List.not_mem_nil⟩

/-- `strlen`. -/
def strlen (s : CStr) : ℕ := s.bytes.length

/-- `strcat`. -/
def strcat (s t : CStr) : CStr := ⟨s.bytes ++ t.bytes, by simp [s.nulFree, t.nulFree]⟩

/-- The first `n` characters. -/
def take (n : ℕ) (s : CStr) : CStr := ⟨s.bytes.take n, fun h => s.nulFree (List.mem_of_mem_take h)⟩

/-- The string at the start of a block: the bytes before its first NUL. -/
def ofBlock (b : List Byte) : CStr :=
  ⟨b.takeWhile (· != 0), fun h => by simpa using List.mem_takeWhile_imp h⟩

/-- The first `n` bytes of the memory a string is in; the bytes behind its terminator are taken
to be NUL. -/
def block (s : CStr) (n : ℕ) : List Byte := (s.bytes ++ List.replicate n 0).take n

/-- A string literal. -/
def ofString (s : String) (h : 0 ∉ s.toList.map byteOf) : CStr := ⟨_, h⟩

@[simp] theorem bytes_nil : nil.bytes = [] := rfl

@[simp] theorem bytes_strcat (s t : CStr) : (s.strcat t).bytes = s.bytes ++ t.bytes := rfl

@[simp] theorem bytes_take (n : ℕ) (s : CStr) : (s.take n).bytes = s.bytes.take n := rfl

@[simp] theorem strlen_nil : nil.strlen = 0 := rfl

@[simp] theorem strlen_strcat (s t : CStr) : (s.strcat t).strlen = s.strlen + t.strlen :=
  List.length_append

theorem strlen_eq_zero {s : CStr} : s.strlen = 0 ↔ s = nil := by
  simp [strlen, CStr.ext_iff]

theorem ofBlock_of_nulFree {b : List Byte} (h : 0 ∉ b) : (ofBlock b).bytes = b := by
  refine List.takeWhile_eq_self_iff.2 fun x hx => ?_
  have : x ≠ 0 := fun hx0 => h (hx0 ▸ hx)
  simpa using this

theorem ofBlock_append_zero_cons (b t : List Byte) : ofBlock (b ++ 0 :: t) = ofBlock b := by
  refine CStr.ext ?_
  simp only [ofBlock, List.takeWhile_append]
  split_ifs with hl
  · simpa using ((List.takeWhile_prefix _).eq_of_length hl).symm
  · rfl

theorem ofBlock_append_of_mem {b : List Byte} (h : 0 ∈ b) (t : List Byte) :
    ofBlock (b ++ t) = ofBlock b := by
  obtain ⟨u, v, rfl⟩ := List.append_of_mem h
  rw [List.append_assoc, List.cons_append, ofBlock_append_zero_cons, ofBlock_append_zero_cons]

theorem bytes_ofBlock_append {b : List Byte} (h : 0 ∉ b) (t : List Byte) :
    (ofBlock (b ++ t)).bytes = b ++ (ofBlock t).bytes := by
  refine (List.takeWhile_append_of_pos fun x hx => ?_)
  have : x ≠ 0 := fun hx0 => h (hx0 ▸ hx)
  simpa using this

theorem ofBlock_append_zero {b : List Byte} (h : 0 ∉ b) (t : List Byte) :
    (ofBlock (b ++ 0 :: t)).bytes = b := by
  rw [ofBlock_append_zero_cons, ofBlock_of_nulFree h]

theorem ofBlock_bytes (s : CStr) : ofBlock s.bytes = s :=
  CStr.ext (ofBlock_of_nulFree s.nulFree)

theorem block_of_le {s : CStr} {n : ℕ} (h : n ≤ s.strlen) : s.block n = s.bytes.take n :=
  List.take_append_of_le_length h

theorem strlen_ofBlock_le (b : List Byte) : (ofBlock b).strlen ≤ b.length :=
  (List.takeWhile_sublist _).length_le

end CStr

/-- The string a pointer to the start of `block` points to.  Without a NUL in the block the
read runs past its end. -/
def readStr (block : List Byte) : Run CStr :=
  if 0 ∈ block then .ok (CStr.ofBlock block) else .error .bounds

/-- What `strncpy(dst, src, n)` leaves in a zeroed `dst`, for `src` the start of `block`. -/
def strncpy (block : List Byte) (n : ℕ) : Run CStr :=
  if 0 ∈ block.take n ∨ n ≤ block.length then .ok (CStr.ofBlock (block.take n))
  else .error .bounds

/-- What `strlcpy(dst, src, n)` leaves in `dst`: at most `n - 1` characters.  The function
returns `strlen(src)`, so it reads `src` to its end. -/
def strlcpy (block : List Byte) (n : ℕ) : Run CStr := do
  let s ← readStr block
  return s.take (n - 1)

theorem readStr_append_zero {b : List Byte} (h : 0 ∉ b) (t : List Byte) :
    readStr (b ++ 0 :: t) = .ok ⟨b, h⟩ := by
  have : CStr.ofBlock (b ++ 0 :: t) = ⟨b, h⟩ := CStr.ext (CStr.ofBlock_append_zero h t)
  simp [readStr, this]

theorem readStr_of_mem {b : List Byte} (h : 0 ∈ b) : readStr b = .ok (CStr.ofBlock b) := by
  simp [readStr, h]

theorem strncpy_of_le {b : List Byte} {n : ℕ} (h : n ≤ b.length) :
    strncpy b n = .ok (CStr.ofBlock (b.take n)) := by
  simp [strncpy, h]

/-! ### Integers -/

/-- The largest `int`. -/
def INT_MAX : ℕ := 2147483647

/-- Conversion of a wider integer to `int`. -/
def intOf (x : ℤ) : ℤ := x.bmod (2 ^ 32)

/-- The result of signed `int` arithmetic, which must be in range. -/
def checkInt (x : ℤ) : Run ℤ :=
  if -INT_MAX - 1 ≤ x ∧ x ≤ INT_MAX then .ok x else .error .overflow

/-- `1 << n`. -/
def shl1 (n : ℤ) : Run ℕ :=
  if 0 ≤ n ∧ n ≤ 30 then .ok (2 ^ n.toNat) else .error .shift

/-- `(int) log2(n)`. -/
def log2 (n : ℕ) : Run ℕ := if n = 0 then .error .log2 else .ok (Nat.log 2 n)

theorem intOf_of_lt {x : ℤ} (h₀ : 0 ≤ x) (h : x ≤ INT_MAX) : intOf x = x := by
  unfold intOf INT_MAX at *
  exact Int.bmod_eq_of_le (by norm_num; omega) (by norm_num; omega)

theorem intOf_add_of_le {k n : ℕ} (h : k + n ≤ INT_MAX) : intOf ((k : ℤ) + n) = (k + n : ℕ) := by
  rw [← Nat.cast_add]
  exact intOf_of_lt (Int.natCast_nonneg _) (by exact_mod_cast h)

theorem intOf_add_neg {k n : ℕ} (hk : k ≤ INT_MAX) (hn : n ≤ INT_MAX + 1) (h : INT_MAX < k + n) :
    intOf ((k : ℤ) + n) < 0 := by
  have hmod : ((k : ℤ) + n) % (2 ^ 32 : ℕ) = k + n := by
    unfold INT_MAX at hk hn
    omega
  rw [intOf, Int.bmod_def, hmod, if_neg] <;> unfold INT_MAX at * <;> omega

theorem checkInt_of_le {x : ℤ} (h₀ : 0 ≤ x) (h : x ≤ INT_MAX) : checkInt x = .ok x := by
  unfold checkInt
  exact if_pos ⟨by omega, h⟩

theorem checkInt_eq_ok {x y : ℤ} (h : checkInt x = .ok y) : -INT_MAX - 1 ≤ x ∧ x ≤ INT_MAX := by
  unfold checkInt at h
  split_ifs at h with hx
  exact hx

theorem checkInt_of_gt {x : ℤ} (h : (INT_MAX : ℤ) < x) : checkInt x = .error .overflow := by
  unfold checkInt
  exact if_neg (by omega)

theorem shl1_natCast {n : ℕ} (h : n ≤ 30) : shl1 n = .ok (2 ^ n) := by
  have : (n : ℤ) ≤ 30 := by omega
  simp [shl1, this]

theorem shl1_sub_one {h : ℕ} (h₀ : 1 ≤ h) (h₁ : h ≤ 31) :
    shl1 ((h : ℤ) - 1) = .ok (2 ^ (h - 1)) := by
  have : ((h : ℤ) - 1) = ((h - 1 : ℕ) : ℤ) := by omega
  rw [this, shl1_natCast (by omega)]

theorem log2_two_pow (k : ℕ) : log2 (2 ^ k) = .ok k := by
  simp [log2]

end MerkleFs
