import Mathlib.Data.List.FinRange
import MerkleFs.C.Basic

/-!
# SHA-3

The functions of `sha3.c`.  A caller initialises a context, hands over the data in one or more
calls of `sha3_Update`, and takes the hash from `sha3_Finalize`.  The data go into the state a word
at a time; the bytes that do not make up a word yet are kept in `saved`.

* `keccakf` : the permutation, with the loops over the 25 words of the state.
* `sha3Init`, `sha3Update`, `sha3Finalize` : the interface.
-/

namespace MerkleFs

/-- `uint64_t`. -/
abbrev U64 := BitVec 64

/-- `SHA3_KECCAK_SPONGE_WORDS`. -/
def SHA3_KECCAK_SPONGE_WORDS : ℕ := 1600 / 8 / 8

/-- Keccak's state, `uint64_t s[25]`. -/
abbrev Words := Vector U64 25

/-- `SHA3_ROTL64`. -/
def rotl64 (x : U64) (y : ℕ) : U64 := x <<< y ||| x >>> (8 * 8 - y)

def keccakfRndc : Vector U64 24 := #v[
  0x0000000000000001, 0x0000000000008082, 0x800000000000808a, 0x8000000080008000,
  0x000000000000808b, 0x0000000080000001, 0x8000000080008081, 0x8000000000008009,
  0x000000000000008a, 0x0000000000000088, 0x0000000080008009, 0x000000008000000a,
  0x000000008000808b, 0x800000000000008b, 0x8000000000008089, 0x8000000000008003,
  0x8000000000008002, 0x8000000000000080, 0x000000000000800a, 0x800000008000000a,
  0x8000000080008081, 0x8000000000008080, 0x0000000080000001, 0x8000000080008008]

def keccakfRotc : Vector ℕ 24 :=
  #v[1, 3, 6, 10, 15, 21, 28, 36, 45, 55, 2, 14, 27, 41, 56, 8, 25, 43, 62, 18, 39, 61, 20, 44]

def keccakfPiln : Vector (Fin 25) 24 :=
  #v[10, 7, 11, 17, 18, 3, 5, 16, 8, 21, 24, 4, 15, 23, 19, 13, 12, 2, 20, 14, 22, 9, 6, 1]

/-! ### The permutation -/

/-- The number of `s[5 * j + i]`. -/
def lane (j i : Fin 5) : Fin 25 := ⟨5 * j + i, by omega⟩

/-- `s[k] = t`. -/
def setWord (s : Words) (k : Fin 25) (t : U64) : Words := s.set k t

/-- `s[k] ^= t`. -/
def xorWord (s : Words) (k : ℕ) (t : U64) : Words :=
  if h : k < 25 then s.set k (s[k] ^^^ t) else s

/-- What the first loop for Theta assigns to `bc[i]`. -/
def columnParity (s : Words) (i : Fin 5) : U64 :=
  s[i.val] ^^^ s[i.val + 5] ^^^ s[i.val + 10] ^^^ s[i.val + 15] ^^^ s[i.val + 20]

/-- The loops of `keccakf` for Theta. -/
def keccakfTheta (s : Words) : Words :=
  let bc := Vector.ofFn (columnParity s)
  (List.finRange 5).foldl (fun s (i : Fin 5) =>
    let t := bc.get ⟨(i + 4) % 5, by omega⟩ ^^^ rotl64 (bc.get ⟨(i + 1) % 5, by omega⟩) 1
    (List.finRange 5).foldl (fun s j => xorWord s (lane j i) t) s) s

/-- The loop for Rho and Pi: every word is rotated into the place of the next one. -/
def keccakfRhoPi (s : Words) : Words :=
  ((List.finRange 24).foldl (fun (s, t) (i : Fin 24) =>
    let j := keccakfPiln.get i
    (setWord s j (rotl64 t (keccakfRotc.get i)), s.get j)) (s, s[1])).1

/-- The loops for Chi. -/
def keccakfChi (s : Words) : Words :=
  (List.finRange 5).foldl (fun s j =>
    let bc := Vector.ofFn fun i : Fin 5 => s.get (lane j i)
    (List.finRange 5).foldl (fun s (i : Fin 5) =>
      xorWord s (lane j i)
        (~~~bc.get ⟨(i + 1) % 5, by omega⟩ &&& bc.get ⟨(i + 2) % 5, by omega⟩)) s) s

/-- One round of `keccakf`; Iota is its last statement. -/
def keccakfRound (s : Words) (round : Fin 24) : Words :=
  xorWord (keccakfChi (keccakfRhoPi (keccakfTheta s))) 0 (keccakfRndc.get round)

/-- `keccakf`. -/
def keccakf (s : Words) : Words := (List.finRange 24).foldl keccakfRound s

/-! ### The interface -/

/-- `sha3_context`. -/
@[ext]
structure Sha3Context where
  /-- The bytes that are not in the state yet. -/
  saved : U64
  /-- The state. -/
  s : Words
  /-- The number of these bytes. -/
  byteIndex : ℕ
  /-- The word they go to. -/
  wordIndex : ℕ
  /-- The number of words at the end of the state that no data go to. -/
  capacityWords : ℕ

/-- `sha3_Init256`, `sha3_Init384` and `sha3_Init512`, for hashes of 256, 384 and 512 bits. -/
def sha3Init (bits : ℕ) : Sha3Context := ⟨0, Vector.replicate 25 0, 0, 0, 2 * bits / (8 * 8)⟩

/-- `(uint64_t) b << (i * 8)`. -/
def shiftByte (b : Byte) (i : ℕ) : U64 := b.toBitVec.setWidth 64 <<< (i * 8)

/-- `ctx->saved |= (uint64_t) (*(buf++)) << ((ctx->byteIndex++) * 8)`. -/
def saveByte (ctx : Sha3Context) (b : Byte) : Sha3Context :=
  { ctx with saved := ctx.saved ||| shiftByte b ctx.byteIndex, byteIndex := ctx.byteIndex + 1 }

/-- `ctx->s[ctx->wordIndex] ^= t`, and `keccakf` when all words that data go to have been filled. -/
def absorbWord (ctx : Sha3Context) (t : U64) : Sha3Context :=
  let s := xorWord ctx.s ctx.wordIndex t
  if ctx.wordIndex + 1 = SHA3_KECCAK_SPONGE_WORDS - ctx.capacityWords then
    { ctx with s := keccakf s, wordIndex := 0 }
  else { ctx with s := s, wordIndex := ctx.wordIndex + 1 }

/-- The word at the start of `buf`. -/
def loadWord (buf : List Byte) : U64 :=
  let b := fun k => shiftByte (buf.getD k 0) k
  b 0 ||| b 1 ||| b 2 ||| b 3 ||| b 4 ||| b 5 ||| b 6 ||| b 7

/-- `sha3_Update`. -/
def sha3Update (ctx : Sha3Context) (buf : List Byte) : Sha3Context :=
  let oldTail := (8 - ctx.byteIndex) &&& 7
  -- not enough for a word
  if buf.length < oldTail then buf.foldl saveByte ctx
  else
    let ctx :=
      if oldTail = 0 then ctx
      else
        let ctx := (buf.take oldTail).foldl saveByte ctx
        absorbWord { ctx with byteIndex := 0, saved := 0 } ctx.saved
    let buf := buf.drop oldTail
    let words := buf.length / 8
    let ctx := (List.range words).foldl
      (fun ctx i => absorbWord ctx (loadWord (buf.drop (8 * i)))) ctx
    (buf.drop (8 * words)).foldl saveByte ctx

/-- The bytes of the state, `ctx->sb`, as `sha3_Finalize` leaves them. -/
def stateBytes (s : Words) : List Byte :=
  (List.finRange 25).flatMap fun i : Fin 25 =>
    let t₁ := (s.get i).setWidth 32
    let t₂ := (s.get i >>> 16 >>> 16).setWidth 32
    [t₁, t₁ >>> 8, t₁ >>> 16, t₁ >>> 24, t₂, t₂ >>> 8, t₂ >>> 16, t₂ >>> 24].map
      fun t : BitVec 32 => ⟨t.setWidth 8⟩

/-- `sha3_Finalize`. -/
def sha3Finalize (ctx : Sha3Context) : List Byte :=
  let s := xorWord ctx.s ctx.wordIndex (ctx.saved ^^^ (0x02 ||| 1 <<< 2) <<< (ctx.byteIndex * 8))
  let s := xorWord s (SHA3_KECCAK_SPONGE_WORDS - ctx.capacityWords - 1) 0x8000000000000000
  stateBytes (keccakf s)

end MerkleFs
