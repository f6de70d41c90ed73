import MerkleFs.Schedule.Resumption
import MerkleFs.Tree.Tokens

/-!
# The calls of `strtok`

`strtok` remembers where it has stopped in a static variable, which all threads share.  Here
`str_split` and `string_to_tree` are programs whose actions are the calls of `strtok`, with that
variable as their state.

`outcome_stringToTreeCalls` : a thread that is not interrupted reads the tree of its string,
whatever the variable was before.
-/

namespace MerkleFs

/-- A program that calls `strtok`. -/
abbrev StrtokProgram (ρ : Type) := Resumption (List Byte) Fault ρ

/-- What `strtok` remembers: where the rest of the string is. -/
def strtokRest (delim : Byte) (rest : List Byte) : List Byte :=
  ((strtok delim rest).map Prod.snd).getD []

/-- The token it returns. -/
def strtokToken (delim : Byte) (rest : List Byte) : Option (List Byte) :=
  (strtok delim rest).map Prod.fst

variable {ρ : Type}

/-- `strtok(s, delim)`. -/
def strtokFirst (s : List Byte) (delim : Byte) (k : Option (List Byte) → StrtokProgram ρ) :
    StrtokProgram ρ :=
  .act (fun _ => strtokRest delim s) fun _ => k (strtokToken delim s)

/-- `strtok(0, delim)`. -/
def strtokNext (delim : Byte) (k : Option (List Byte) → StrtokProgram ρ) : StrtokProgram ρ :=
  .act (strtokRest delim) fun rest => k (strtokToken delim rest)

/-- The loop of `str_split` over the tokens, with room for `room` entries in the array.  The
assertions are `idx < count` for every token and `idx == count - 1` at the end. -/
def copyCalls (delim : Byte) :
    ℕ → Option (List Byte) → List CStr → StrtokProgram (List CStr)
  | room, none, result => .ret (if room = 1 then .ok result else .error .assertion)
  | 0, some _, _ => .ret (.error .assertion)
  | room + 1, some token, result =>
    strtokNext delim fun next => copyCalls delim room next (result ++ [CStr.ofBlock token])

/-- `str_split`. -/
def strSplitCalls (aStr : CStr) (aDelim : Byte) : StrtokProgram (List CStr) :=
  strtokFirst aStr.bytes aDelim fun token => copyCalls aDelim (splitCount aStr aDelim) token []

/-- The loop of `string_to_tree` over the entries from number `i` on. -/
def readNodesCalls : List CStr → ℕ → MerkleTree → StrtokProgram MerkleTree
  | [], _, mt => .ret (.ok mt)
  | token :: tokens, i, mt => (strSplitCalls token (byteOf ':')).bind fun thing =>
    match thing[1]? with
    | none => .ret (.error .nullDeref)
    | some hashString =>
      if PTR_SIZE * 2 * HASH_SIZE / BYTE_SIZE < 1 + hashString.strlen then .ret (.error .bounds)
      else readNodesCalls tokens (i + 1) (mt.setHash (i + 1) (some hashString))

/-- `string_to_tree`. -/
def stringToTreeCalls (treeString : CStr) : StrtokProgram MerkleTree :=
  (strSplitCalls treeString (byteOf ',')).bind fun tokens =>
    match log2 (tokens.length + 1) with
    | .error e => .ret (.error e)
    | .ok treeHeight => readNodesCalls tokens 0 (.blank (tokens.length + 1) treeHeight)

variable {d : Byte} {rest : List Byte}

/-! ### One call after the other -/

theorem strtok_none (h : strtok d rest = none) :
    strtokToken d rest = none ∧ Split.pieces d rest = [] :=
  ⟨congrArg (Option.map Prod.fst) h, Split.pieces_of_next_eq_none h⟩

theorem strtok_some {token rest' : List Byte} (h : strtok d rest = some (token, rest')) :
    strtokToken d rest = some token ∧ strtokRest d rest = rest' ∧
      Split.pieces d rest = token :: Split.pieces d rest' :=
  ⟨congrArg (Option.map Prod.fst) h, congrArg (fun o => (o.map Prod.snd).getD []) h,
    (Split.pieces_of_next h).1⟩

/-- The loop, behind a call of `strtok`, copies the pieces that were left before it. -/
theorem outcome_copyCalls (d : Byte) (room idx : ℕ) (rest : List Byte) (result : List CStr) :
    (copyCalls d room (strtokToken d rest) result).outcome (strtokRest d rest) = do
      let tokens ← copyTokens (idx + room) (Split.pieces d rest) idx
      return result ++ tokens := by
  induction room generalizing idx rest result with
  | zero =>
    cases h : strtok d rest with
    | none =>
      obtain ⟨htoken, hpieces⟩ := strtok_none h
      rw [htoken, hpieces, copyCalls, copyTokens, if_neg (by omega), if_neg (by omega)]
      rfl
    | some t =>
      obtain ⟨htoken, -, hpieces⟩ := strtok_some h
      rw [htoken, hpieces, copyCalls, copyTokens, if_neg (by omega)]
      rfl
  | succ room ih =>
    cases h : strtok d rest with
    | none =>
      obtain ⟨htoken, hpieces⟩ := strtok_none h
      rw [htoken, hpieces, copyCalls, copyTokens, Resumption.outcome_ret]
      by_cases hroom : room + 1 = 1
      · rw [if_pos hroom, if_pos (by omega), Run.ok_bind, List.append_nil]
        rfl
      · rw [if_neg hroom, if_neg (by omega)]
        rfl
    | some t =>
      obtain ⟨htoken, hrest, hpieces⟩ := strtok_some h
      have hih := ih (idx + 1) t.2 (result ++ [CStr.ofBlock t.1])
      rw [Nat.add_right_comm] at hih
      rw [htoken, hrest, hpieces, copyCalls, copyTokens, if_pos (by omega), bind_assoc]
      refine hih.trans (congrArg _ (funext fun tokens => ?_))
      rw [List.append_assoc]
      rfl

theorem outcome_strSplitCalls (s : CStr) (d : Byte) (rest : List Byte) :
    (strSplitCalls s d).outcome rest = strSplit s d := by
  refine (outcome_copyCalls d (splitCount s d) 0 s.bytes []).trans ?_
  rw [Nat.zero_add]
  exact bind_pure _

theorem outcome_readNodesCalls (tokens : List CStr) (i : ℕ) (mt : MerkleTree) (rest : List Byte) :
    (readNodesCalls tokens i mt).outcome rest = readNodes tokens i mt := by
  induction tokens generalizing i mt rest with
  | nil => rfl
  | cons token tokens ih =>
    have hsplit := outcome_strSplitCalls token (byteOf ':') rest
    rw [readNodesCalls, readNodes, ← hsplit]
    refine Resumption.outcome_bind_of_forall (fun thing rest' => ?_) rest
    cases thing[1]? with
    | none => rfl
    | some hashString =>
      simp only
      split_ifs
      · rfl
      · exact ih _ _ rest'

/-- **A call of `string_to_tree` that is not interrupted** reads the tree of its string. -/
theorem outcome_stringToTreeCalls (s : CStr) (rest : List Byte) :
    (stringToTreeCalls s).outcome rest = stringToTree s := by
  rw [stringToTreeCalls, stringToTree, ← outcome_strSplitCalls s (byteOf ',') rest]
  refine Resumption.outcome_bind_of_forall (fun tokens rest' => ?_) rest
  cases log2 (tokens.length + 1) with
  | error e => rfl
  | ok treeHeight => exact outcome_readNodesCalls tokens 0 _ rest'

end MerkleFs
