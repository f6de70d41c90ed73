import Mathlib.Data.List.ReduceOption
import MerkleFs.Split.Tokens
import MerkleFs.Tree.Format

/-!
# The two assertions of `str_split`

`str_split` counts the delimiters of a string, makes an array of that size and fills it with one
token after the other.  It asserts that there is room for every token, and at the end that the
array is full.  `splitRun` keeps the two assertions apart; `strSplit_eq_splitRun` says that
otherwise it is `strSplit`.

`splitRun_spec` : there is always room, and the array is full for the clean strings.
-/

namespace MerkleFs

/-- How a call of `str_split` ends. -/
inductive Splitting where
  /-- `assert(idx < count)` fails. -/
  | overfull
  /-- `assert(idx == count - 1)` fails. -/
  | notFull
  /-- The array is returned; `none` is the terminating NULL. -/
  | returned (result : List (Option CStr))

/-- The value of `count` after the counting pass. -/
def splitCount (aStr : CStr) (aDelim : Byte) : ℕ :=
  let (count, lastComma) := countDelims aDelim aStr.bytes 0 (0, none)
  -- a null `last_comma` compares below every address
  let trailing := match lastComma with
    | none => 1
    | some p => if p + 1 < aStr.strlen then 1 else 0
  count + trailing + 1

/-- `strtok`, called for the rest of a string: the next token, and what the call after it starts
from. -/
def strtok (delim : Byte) (rest : List Byte) : Option (List Byte × List Byte) :=
  Split.next delim rest

/-- The loop of `str_split` over the tokens. -/
def fillTokens (delim : Byte) (count : ℕ) (rest : List Byte) (idx : ℕ)
    (result : List (Option CStr)) : Splitting :=
  match _htoken : strtok delim rest with
  | none => if idx = count - 1 then .returned (result ++ [none]) else .notFull
  | some (token, rest') =>
    if idx < count then
      fillTokens delim count rest' (idx + 1) (result ++ [some (CStr.ofBlock token)])
    else .overfull
termination_by rest.length
decreasing_by exact (Split.pieces_of_next _htoken).2

/-- `str_split`. -/
def splitRun (aStr : CStr) (aDelim : Byte) : Splitting :=
  fillTokens aDelim (splitCount aStr aDelim) aStr.bytes 0 []

/-- The entries before the terminating NULL. -/
def Splitting.toRun : Splitting → Run (List CStr)
  | .overfull => .error .assertion
  | .notFull => .error .assertion
  | .returned result => .ok result.reduceOption

variable {d : Byte} {s : CStr} {count idx : ℕ} {rest : List Byte} {result : List (Option CStr)}

theorem splitCount_eq (s : CStr) (d : Byte) :
    splitCount s d = s.bytes.count d + Split.trailing d s.bytes + 1 := by
  rw [← Nat.zero_add (s.bytes.count d), ← countDelims_fst (d := d) s.bytes 0 (0, none),
    ← trailing_eq]
  rfl

/-- The loop has room for every token when it starts with room for all. -/
theorem fillTokens_eq (hroom : idx + (Split.pieces d rest).length + 1 ≤ count) :
    fillTokens d count rest idx result =
      if idx + (Split.pieces d rest).length + 1 = count then
        .returned (result ++ (Split.pieces d rest).map (fun p => some (CStr.ofBlock p)) ++ [none])
      else .notFull := by
  fun_induction fillTokens d count rest idx result with
  | case1 rest result htoken =>
    have hnil := Split.pieces_of_next_eq_none htoken
    rw [hnil, List.length_nil] at hroom ⊢
    rw [if_pos (by omega), List.map_nil, List.append_nil]
  | case2 rest idx result htoken hidx =>
    have hnil := Split.pieces_of_next_eq_none htoken
    rw [hnil, List.length_nil] at hroom ⊢
    rw [if_neg (by omega)]
  | case3 rest idx result token rest' htoken hidx ih =>
    have hcons := (Split.pieces_of_next htoken).1
    rw [hcons, List.length_cons] at hroom ⊢
    rw [ih (by omega), List.map_cons, List.append_assoc result, List.singleton_append]
    exact if_congr (by omega) rfl rfl
  | case4 rest idx result token rest' htoken hidx =>
    have hcons := (Split.pieces_of_next htoken).1
    rw [hcons, List.length_cons] at hroom
    omega

theorem splitRun_eq (s : CStr) (d : Byte) : splitRun s d =
    if Split.Clean d s.bytes then
      .returned ((Split.pieces d s.bytes).map (fun p => some (CStr.ofBlock p)) ++ [none])
    else .notFull := by
  have hcount := splitCount_eq s d
  have hle := Split.length_pieces_le d s.bytes
  have hfull : 0 + (Split.pieces d s.bytes).length + 1 = splitCount s d ↔
      (Split.pieces d s.bytes).length = s.bytes.count d + Split.trailing d s.bytes := by omega
  rw [splitRun, fillTokens_eq (by omega), List.nil_append]
  exact if_congr (hfull.trans Split.length_pieces_eq_iff) rfl rfl

/-- Without telling the two assertions apart this is `strSplit`. -/
theorem strSplit_eq_splitRun (s : CStr) (d : Byte) : strSplit s d = (splitRun s d).toRun := by
  rw [strSplit_eq, splitRun_eq]
  split_ifs
  · have hentries : ((Split.pieces d s.bytes).map fun p => some (CStr.ofBlock p)).reduceOption =
        (Split.pieces d s.bytes).map CStr.ofBlock := by
      rw [List.reduceOption, List.filterMap_map]
      exact congrFun List.filterMap_eq_map _
    rw [Splitting.toRun, List.reduceOption_append, hentries, List.reduceOption_singleton]
    exact congrArg Except.ok (List.append_nil _).symm
  · rfl

theorem map_bytes_pieces (s : CStr) (d : Byte) :
    ((Split.pieces d s.bytes).map CStr.ofBlock).map CStr.bytes = Split.pieces d s.bytes := by
  rw [List.map_map]
  refine (List.map_congr_left fun p hp => ?_).trans (List.map_id _)
  refine CStr.ofBlock_of_nulFree fun h0 => s.nulFree ?_
  exact (Split.isPiece_of_mem_pieces hp).2 h0

/-- **The assertions of `str_split`, and what it returns.** -/
theorem splitRun_spec (s : CStr) (d : Byte) :
    splitRun s d ≠ .overfull ∧ (splitRun s d ≠ .notFull ↔ Split.Clean d s.bytes) ∧
      (splitRun s d ≠ .notFull → ∃ ps : List CStr,
        splitRun s d = .returned (ps.map some ++ [none]) ∧
        ps.map CStr.bytes = Split.pieces d s.bytes ∧ (∀ p ∈ ps, Split.IsPiece d p.bytes) ∧
        [d].intercalate (ps.map CStr.bytes) ++
          (if s.bytes.getLast? = some d then [d] else []) = s.bytes) := by
  have hends : splitRun s d ≠ .notFull ↔ Split.Clean d s.bytes := by
    rw [splitRun_eq]
    split_ifs with hclean
    · exact iff_of_true (by simp) hclean
    · exact iff_of_false (by simp) hclean
  refine ⟨?_, hends, fun hreturns => ?_⟩
  · rw [splitRun_eq]
    split_ifs <;> simp
  · have hclean := hends.1 hreturns
    refine ⟨(Split.pieces d s.bytes).map CStr.ofBlock, ?_, map_bytes_pieces s d, fun p hp => ?_, ?_⟩
    · rw [splitRun_eq, if_pos hclean, List.map_map]
      rfl
    · have hmem : p.bytes ∈ Split.pieces d s.bytes :=
        map_bytes_pieces s d ▸ List.mem_map_of_mem hp
      exact (Split.isPiece_of_mem_pieces hmem).1
    · rw [map_bytes_pieces, Split.intercalate_pieces hclean]

end MerkleFs
