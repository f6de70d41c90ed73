import MerkleFs.Split.Basic
import MerkleFs.Tree.Build

/-!
# Trees as strings

A tree is stored as the string `1:hash,2:hash,…`.  `tree_to_string` writes it, and
`string_to_tree` reads it back with two nested calls of `str_split`, ignoring the node numbers and
recovering the height from the number of entries.

* `strSplit_eq` : `str_split` splits the strings that are clean, and fails its assertion on all
  others.
* `treeString n τ` : the string of a tree with nodes `1 … n - 1` and hashes `τ`.
* `treeToString_eq` : `tree_to_string` writes it, as long as the size of its buffer is an `int`.
* `stringToTree_treeString` : `string_to_tree` reads the hashes back, without data
  (`hashTree`); hence the string determines the tree (`treeString_inj`).
-/

namespace MerkleFs

/-- `sprintf(number_string, "%d", i)`.  (`number_string` has room for 9 digits; `tree_to_string`
gets no further than `2^24` nodes.) -/
def sprintfD (i : ℕ) : List Byte := (Nat.toDigits 10 i).map byteOf

theorem digit_of_mem_sprintfD {i : ℕ} {b : Byte} (hb : b ∈ sprintfD i) :
    48 ≤ b.toNat ∧ b.toNat ≤ 57 := by
  obtain ⟨c, hc, rfl⟩ := List.mem_map.1 hb
  have hd : c.isDigit = true := Nat.isDigit_of_mem_toDigits (by norm_num) (by norm_num) hc
  have hd' : 48 ≤ c.toNat ∧ c.toNat ≤ 57 := by
    simpa [Char.isDigit, UInt32.le_iff_toNat_le] using hd
  rw [byteOf, UInt8.toNat_ofNat', Nat.mod_eq_of_lt (by omega)]
  exact hd'

/-- The decimal number of a node, as a string. -/
def numberString (i : ℕ) : CStr where
  bytes := sprintfD i
  nulFree h := by
    have := (digit_of_mem_sprintfD h).1
    simp at this

/-- `","`, which separates the entries of a tree string. -/
def comma : CStr := .ofString "," (by decide)

/-- `":"`, which separates a node number from a hash. -/
def colon : CStr := .ofString ":" (by decide)

/-- The loop of `tree_to_string` over the nodes of a list. -/
def appendNodes (mt : MerkleTree) : List ℕ → CStr → Run CStr
  | [], treeString => .ok treeString
  | i :: is, treeString =>
    match (mt.nodes i).hash with
    | none => .error .nullDeref
    | some hash =>
      let treeString := ((treeString.strcat (numberString i)).strcat colon).strcat hash
      appendNodes mt is (if i + 1 < mt.nbNodes then treeString.strcat comma else treeString)

/-- `tree_to_string`.  (The buffers of its callers are larger than its own.) -/
def treeToString (mt : MerkleTree) : Run CStr := do
  let size ← checkInt (HEX * (HASH_SIZE / BYTE_SIZE) * mt.nbNodes : ℕ)
  let treeString ← appendNodes mt (List.range' 1 (mt.nbNodes - 1)) .nil
  if size < (1 + treeString.strlen : ℕ) then .error .bounds else return treeString

/-! ### Splitting -/

/-- The counting pass of `str_split`: the number of delimiters, and the position of the last. -/
def countDelims (aDelim : Byte) : List Byte → ℕ → ℕ × Option ℕ → ℕ × Option ℕ
  | [], _, st => st
  | b :: bs, tmp, (count, lastComma) =>
    countDelims aDelim bs (tmp + 1)
      (if aDelim = b then (count + 1, some tmp) else (count, lastComma))

/-- The loop of `str_split` over the tokens.  `strtok` is as specified by C: the tokens are the
maximal non-empty pieces of the string without the delimiter. -/
def copyTokens (count : ℕ) : List (List Byte) → ℕ → Run (List CStr)
  | [], idx => if idx + 1 = count then .ok [] else .error .assertion
  | t :: ts, idx =>
    if idx < count then do
      let result ← copyTokens count ts (idx + 1)
      return CStr.ofBlock t :: result
    else .error .assertion

/-- `str_split`: the entries of the array before the terminating NULL. -/
def strSplit (aStr : CStr) (aDelim : Byte) : Run (List CStr) :=
  let (count, lastComma) := countDelims aDelim aStr.bytes 0 (0, none)
  -- a null `last_comma` compares below every address
  let trailing := match lastComma with
    | none => 1
    | some p => if p + 1 < aStr.strlen then 1 else 0
  copyTokens (count + trailing + 1) (Split.pieces aDelim aStr.bytes) 0

/-- The loop of `string_to_tree` over the entries from number `i` on. -/
def readNodes : List CStr → ℕ → MerkleTree → Run MerkleTree
  | [], _, mt => .ok mt
  | token :: tokens, i, mt => do
    let thing ← strSplit token (byteOf ':')
    match thing[1]? with
    | none => .error .nullDeref
    | some hashString =>
      if PTR_SIZE * 2 * HASH_SIZE / BYTE_SIZE < 1 + hashString.strlen then .error .bounds
      else readNodes tokens (i + 1) (mt.setHash (i + 1) (some hashString))

/-- `string_to_tree`. -/
def stringToTree (treeString : CStr) : Run MerkleTree := do
  let tokens ← strSplit treeString (byteOf ',')
  let treeHeight ← log2 (tokens.length + 1)
  readNodes tokens 0 (.blank (tokens.length + 1) treeHeight)

/-! ### The string of a tree -/

/-- The entry of node `i`. -/
def entry (τ : ℕ → CStr) (i : ℕ) : CStr := ((numberString i).strcat colon).strcat (τ i)

/-- Entries separated by commas. -/
def joinComma : List CStr → CStr
  | [] => .nil
  | [s] => s
  | s :: t :: ts => (s.strcat comma).strcat (joinComma (t :: ts))

/-- The string of a tree with nodes `1 … n - 1` and hashes `τ`. -/
def treeString (n : ℕ) (τ : ℕ → CStr) : CStr := joinComma ((List.range' 1 (n - 1)).map (entry τ))

/-- A tree that has hashes but no data. -/
def hashTree (n h : ℕ) (τ : ℕ → CStr) : MerkleTree :=
  (MerkleTree.blank n h).setHashes τ (List.range' 1 (n - 1))

/-- A hexadecimal digit. -/
def IsHexDigit (b : Byte) : Prop :=
  (48 ≤ b.toNat ∧ b.toNat ≤ 57) ∨ (97 ≤ b.toNat ∧ b.toNat ≤ 102) ∨ (65 ≤ b.toNat ∧ b.toNat ≤ 70)

instance (b : Byte) : Decidable (IsHexDigit b) := inferInstanceAs (Decidable (_ ∨ _ ∨ _))

/-- A non-empty hexadecimal string of at most 64 characters. -/
structure IsHash (s : CStr) : Prop where
  /-- It is not empty. -/
  pos : 1 ≤ s.strlen
  /-- It is hexadecimal. -/
  hex : ∀ b ∈ s.bytes, IsHexDigit b
  /-- It has at most 64 characters. -/
  le : s.strlen ≤ 64

variable {mt : MerkleTree} {n h i : ℕ} {τ τ' : ℕ → CStr} {d : Byte}

theorem isHash_printDigest (g : Digest) : IsHash (printDigest g) := by
  have hlen := strlen_printDigest g
  refine ⟨by omega, fun b hb => ?_, hlen.2⟩
  obtain ⟨c, -, hc⟩ := List.mem_flatMap.1 hb
  obtain ⟨k, hk, rfl⟩ := mem_sprintfX hc
  have : ∀ k < 16, (48 ≤ (hexDigit k).toNat ∧ (hexDigit k).toNat ≤ 57) ∨
      (97 ≤ (hexDigit k).toNat ∧ (hexDigit k).toNat ≤ 102) := by decide
  rcases this k hk with h | h
  · exact .inl h
  · exact .inr (.inl h)

theorem isHash_fillerHash : IsHash fillerHash :=
  ⟨by decide, by decide +kernel, by decide⟩

theorem isHash_leafHash (sha3 : List Byte → Digest) (s : CStr) : IsHash (leafHash sha3 s) := by
  unfold leafHash
  split_ifs
  · exact isHash_fillerHash
  · exact isHash_printDigest _

theorem isHash_target {sha3 : List Byte → Digest} {leaf : ℕ → CStr}
    (hτ : Target sha3 heap h leaf τ) (hi : 1 ≤ i) (hi' : i < 2 ^ h) : IsHash (τ i) := by
  rcases Nat.lt_or_ge i (2 ^ (h - 1)) with hlt | hge
  · rw [hτ.inner i hi hlt]; exact isHash_printDigest _
  · rw [hτ.leaf i hge hi']; exact isHash_leafHash _ _

theorem bytes_joinComma (ss : List CStr) :
    (joinComma ss).bytes = [byteOf ','].intercalate (ss.map CStr.bytes) := by
  induction ss with
  | nil => rfl
  | cons s ss ih =>
    cases ss with
    | nil => simp [joinComma]
    | cons t ts =>
      simp only [joinComma, CStr.bytes_strcat, ih, List.map_cons, List.intercalate_cons_cons]
      rfl

theorem strlen_joinComma_le (ss : List CStr) {k : ℕ} (hss : ∀ s ∈ ss, s.strlen < k) :
    (joinComma ss).strlen ≤ k * ss.length := by
  induction ss with
  | nil => simp [joinComma]
  | cons s ss ih =>
    have hs := hss s List.mem_cons_self
    cases ss with
    | nil => simp [joinComma]; omega
    | cons t ts =>
      have := ih fun s hs => hss s (List.mem_cons_of_mem _ hs)
      have hcomma : comma.strlen = 1 := rfl
      simp only [joinComma, CStr.strlen_strcat, hcomma]
      rw [List.length_cons, Nat.mul_succ]
      omega

theorem strlen_entry_lt (hi : i < 10 ^ 8) (hτ : IsHash (τ i)) : (entry τ i).strlen < 74 := by
  have hdig : (sprintfD i).length ≤ 8 := by
    rw [sprintfD, List.length_map]
    exact (Nat.length_toDigits_le_iff (by norm_num) (by norm_num)).2 hi
  have hcolon : colon.strlen = 1 := rfl
  have hlen := hτ.le
  have hnum : (numberString i).strlen = (sprintfD i).length := rfl
  simp only [entry, CStr.strlen_strcat, hcolon, hnum]
  omega

theorem strlen_treeString_le (hn : n ≤ 10 ^ 8) (hτ : ∀ j, 1 ≤ j → j < n → IsHash (τ j)) :
    (treeString n τ).strlen ≤ 74 * (n - 1) := by
  have hle := strlen_joinComma_le ((List.range' 1 (n - 1)).map (entry τ)) (k := 74) fun s hs => by
    obtain ⟨j, hj, rfl⟩ := List.mem_map.1 hs
    rw [List.mem_range'_1] at hj
    exact strlen_entry_lt (by omega) (hτ j hj.1 (by omega))
  simpa [treeString] using hle

/-! ### Writing -/

theorem appendNodes_eq (hn : i + n = mt.nbNodes)
    (hτ : ∀ j, i ≤ j → j < i + n → (mt.nodes j).hash = some (τ j)) (acc : CStr) :
    appendNodes mt (List.range' i n) acc =
      .ok (acc.strcat (joinComma ((List.range' i n).map (entry τ)))) := by
  induction n generalizing i acc with
  | zero => exact congrArg _ (CStr.ext (by simp [joinComma]))
  | succ n ih =>
    rw [List.range'_succ, appendNodes, hτ i le_rfl (by omega)]
    simp only
    rw [ih (by omega) fun j hj hj' => hτ j (by omega) (by omega)]
    refine congrArg _ (CStr.ext ?_)
    cases n with
    | zero => simp [show ¬ i + 1 < mt.nbNodes by omega, joinComma, entry]
    | succ n =>
      simp [show i + 1 < mt.nbNodes by omega, List.range'_succ, joinComma, entry]

theorem treeToString_eq (hn : 1 ≤ mt.nbNodes) (hsize : 128 * mt.nbNodes ≤ INT_MAX)
    (hhash : ∀ j, 1 ≤ j → j < mt.nbNodes → (mt.nodes j).hash = some (τ j))
    (hτ : ∀ j, 1 ≤ j → j < mt.nbNodes → IsHash (τ j)) :
    treeToString mt = .ok (treeString mt.nbNodes τ) := by
  have hsize' : HEX * (HASH_SIZE / BYTE_SIZE) * mt.nbNodes = 128 * mt.nbNodes := rfl
  have hlen : (treeString mt.nbNodes τ).strlen ≤ 74 * (mt.nbNodes - 1) :=
    strlen_treeString_le (by unfold INT_MAX at hsize; omega) hτ
  rw [treeToString, hsize', checkInt_of_le (Int.natCast_nonneg _) (by exact_mod_cast hsize),
    Run.ok_bind, appendNodes_eq (by omega) (fun j hj hj' => hhash j hj (by omega)), Run.ok_bind]
  have hacc : CStr.nil.strcat (joinComma ((List.range' 1 (mt.nbNodes - 1)).map (entry τ))) =
      treeString mt.nbNodes τ := CStr.ext rfl
  rw [hacc, if_neg (by push_cast; omega)]
  rfl

theorem eq_treeString_of_treeToString {s : CStr}
    (hhash : ∀ j, 1 ≤ j → j < mt.nbNodes → (mt.nodes j).hash = some (τ j)) (hn : 1 ≤ mt.nbNodes)
    (hs : treeToString mt = .ok s) : s = treeString mt.nbNodes τ := by
  rw [treeToString, Run.bind_eq_ok] at hs
  obtain ⟨size, -, hs⟩ := hs
  rw [appendNodes_eq (by omega) (fun j hj hj' => hhash j hj (by omega)), Run.ok_bind] at hs
  split_ifs at hs
  exact (Except.ok.inj hs).symm.trans (CStr.ext rfl)

theorem treeToString_overflow (hsize : INT_MAX < 128 * mt.nbNodes) :
    treeToString mt = .error .overflow := by
  have hsize' : HEX * (HASH_SIZE / BYTE_SIZE) * mt.nbNodes = 128 * mt.nbNodes := rfl
  rw [treeToString, hsize', checkInt_of_gt (by exact_mod_cast hsize), Run.error_bind]

theorem treeToString_null (hn : 1 < mt.nbNodes) (hsize : 128 * mt.nbNodes ≤ INT_MAX)
    (h₁ : (mt.nodes 1).hash = none) : treeToString mt = .error .nullDeref := by
  have hsize' : HEX * (HASH_SIZE / BYTE_SIZE) * mt.nbNodes = 128 * mt.nbNodes := rfl
  obtain ⟨k, hk⟩ : ∃ k, mt.nbNodes - 1 = k + 1 := ⟨mt.nbNodes - 2, by omega⟩
  rw [treeToString, hsize', checkInt_of_le (Int.natCast_nonneg _) (by exact_mod_cast hsize),
    Run.ok_bind, hk, List.range'_succ, appendNodes, h₁, Run.error_bind]

/-! ### Reading back -/

theorem countDelims_fst (l : List Byte) (tmp : ℕ) (st : ℕ × Option ℕ) :
    (countDelims d l tmp st).1 = st.1 + l.count d := by
  induction l generalizing tmp st with
  | nil => rfl
  | cons b l ih =>
    rw [countDelims, ih]
    by_cases hb : d = b
    · subst hb; simp; omega
    · simp [hb, Ne.symm hb]

theorem countDelims_snd_lt (l : List Byte) {tmp : ℕ} {st : ℕ × Option ℕ}
    (hst : ∀ q, st.2 = some q → q < tmp) {p : ℕ} (hp : (countDelims d l tmp st).2 = some p) :
    p < tmp + l.length := by
  induction l generalizing tmp st with
  | nil => exact hst p hp
  | cons b l ih =>
    rw [countDelims] at hp
    have := @ih (tmp + 1) _ (fun q hq => by
      split_ifs at hq with hb
      · obtain rfl := Option.some.inj hq; omega
      · have := hst q hq; omega) hp
    rw [List.length_cons]
    omega

theorem countDelims_append (l l' : List Byte) (tmp : ℕ) (st : ℕ × Option ℕ) :
    countDelims d (l ++ l') tmp st =
      countDelims d l' (tmp + l.length) (countDelims d l tmp st) := by
  induction l generalizing tmp st with
  | nil => rfl
  | cons b l ih =>
    rw [List.cons_append, countDelims, ih, countDelims, List.length_cons]
    congr 1
    omega

theorem copyTokens_eq (ts : List (List Byte)) {idx count : ℕ} (hc : idx + ts.length + 1 = count) :
    copyTokens count ts idx = .ok (ts.map CStr.ofBlock) := by
  induction ts generalizing idx with
  | nil => rw [copyTokens, if_pos (by simpa using hc)]; rfl
  | cons t ts ih =>
    rw [List.length_cons] at hc
    rw [copyTokens, if_pos (by omega), ih (by omega)]
    rfl

/-- What `str_split` adds for a trailing token. -/
theorem trailing_eq (l : List Byte) :
    (match (countDelims d l 0 (0, none)).2 with
      | none => 1
      | some p => if p + 1 < l.length then 1 else 0) = Split.trailing d l := by
  rcases List.eq_nil_or_concat l with rfl | ⟨l, b, rfl⟩
  · rfl
  · rw [List.concat_eq_append, countDelims_append, Split.trailing, List.getLast?_append]
    simp only [List.getLast?_singleton, Option.some_or, countDelims, Option.some.injEq]
    by_cases hb : d = b
    · rw [if_pos hb, if_pos hb.symm]
      simp
    · rw [if_neg hb, if_neg (Ne.symm hb)]
      cases hp : (countDelims d l 0 (0, none)).2 with
      | none => rfl
      | some p =>
        have := countDelims_snd_lt l (by simp) hp
        exact if_pos (by simp; omega)

theorem copyTokens_of_lt (ts : List (List Byte)) {idx count : ℕ}
    (hc : idx + ts.length + 1 < count) :
    copyTokens count ts idx = .error .assertion := by
  induction ts generalizing idx with
  | nil => rw [copyTokens, if_neg (by simp at hc; omega)]
  | cons t ts ih =>
    rw [List.length_cons] at hc
    rw [copyTokens, if_pos (by omega), ih (by omega)]
    rfl

/-- **`str_split` splits clean strings into their pieces.** -/
theorem strSplit_eq (s : CStr) (d : Byte) : strSplit s d =
    if Split.Clean d s.bytes then .ok ((Split.pieces d s.bytes).map CStr.ofBlock)
    else .error .assertion := by
  have hsplit : strSplit s d = copyTokens (0 + s.bytes.count d + Split.trailing d s.bytes + 1)
      (Split.pieces d s.bytes) 0 := by
    rw [← countDelims_fst (d := d) s.bytes 0 (0, none), ← trailing_eq]
    rfl
  rw [hsplit]
  have hle := Split.length_pieces_le d s.bytes
  split_ifs with hclean
  · have := Split.length_pieces_eq_iff.2 hclean
    exact copyTokens_eq _ (by omega)
  · have hne : (Split.pieces d s.bytes).length ≠ s.bytes.count d + Split.trailing d s.bytes :=
      fun h => hclean (Split.length_pieces_eq_iff.1 h)
    exact copyTokens_of_lt _ (by omega)

theorem strSplit_intercalate {ps : List CStr} (hne : ps ≠ [])
    (hps : ∀ p ∈ ps, Split.IsPiece d p.bytes) {s : CStr}
    (hs : s.bytes = [d].intercalate (ps.map CStr.bytes)) : strSplit s d = .ok ps := by
  have hps' : ∀ p ∈ ps.map CStr.bytes, Split.IsPiece d p := List.forall_mem_map.2 hps
  rw [strSplit_eq, hs, if_pos (Split.clean_intercalate (by simpa using hne) hps'),
    Split.pieces_intercalate hps', List.map_map]
  refine congrArg _ ((List.map_congr_left fun p _ => CStr.ofBlock_bytes p).trans ?_)
  simp

theorem isPiece_sprintfD (hd : d.toNat < 48 ∨ 57 < d.toNat) (i : ℕ) :
    Split.IsPiece d (sprintfD i) := by
  refine ⟨by simp [sprintfD, Nat.toDigits_ne_nil], fun hmem => ?_⟩
  have := digit_of_mem_sprintfD hmem
  omega

theorem IsHash.not_mem {s : CStr} (hs : IsHash s) (hd : ¬ IsHexDigit d) : d ∉ s.bytes :=
  fun hmem => hd (hs.hex d hmem)

theorem bytes_entry (τ : ℕ → CStr) (i : ℕ) :
    (entry τ i).bytes = [byteOf ':'].intercalate ([numberString i, τ i].map CStr.bytes) := by
  simp only [List.map_cons, List.map_nil, List.intercalate_cons_cons, List.intercalate_singleton]
  rfl

theorem isPiece_entry (hhash : byteOf ',' ∉ (τ i).bytes) :
    Split.IsPiece (byteOf ',') (entry τ i).bytes := by
  have hnum : byteOf ',' ∉ sprintfD i := (isPiece_sprintfD (by decide) i).2
  have hsplit : (entry τ i).bytes = sprintfD i ++ byteOf ':' :: (τ i).bytes := by
    simp [entry, numberString, colon, CStr.ofString]
  rw [hsplit]
  refine ⟨by simp, fun hmem => ?_⟩
  rcases List.mem_append.1 hmem with hmem | hmem
  · exact hnum hmem
  · rcases List.mem_cons.1 hmem with hmem | hmem
    · exact absurd hmem (by decide)
    · exact hhash hmem

theorem strSplit_entry (hτ : IsHash (τ i)) :
    strSplit (entry τ i) (byteOf ':') = .ok [numberString i, τ i] := by
  refine strSplit_intercalate (by simp) (fun p hp => ?_) (bytes_entry τ i)
  simp only [List.mem_cons, List.not_mem_nil, or_false] at hp
  rcases hp with rfl | rfl
  · exact isPiece_sprintfD (by decide) i
  · exact ⟨fun h => by have := hτ.pos; simp [CStr.strlen, h] at this,
      hτ.not_mem (by decide)⟩

theorem readNodes_entries (hτ : ∀ j, i + 1 ≤ j → j < i + 1 + n → IsHash (τ j)) :
    readNodes ((List.range' (i + 1) n).map (entry τ)) i mt =
      .ok (mt.setHashes τ (List.range' (i + 1) n)) := by
  induction n generalizing i mt with
  | zero => rfl
  | succ n ih =>
    have hi := hτ (i + 1) le_rfl (by omega)
    rw [List.range'_succ, List.map_cons, readNodes, strSplit_entry hi, Run.ok_bind]
    simp only [List.getElem?_cons_succ, List.getElem?_cons_zero]
    rw [if_neg (by have := hi.le; simp [PTR_SIZE, HASH_SIZE, BYTE_SIZE]; omega),
      ih fun j hj hj' => hτ j (by omega) (by omega)]
    rfl

/-- **`string_to_tree` reads back the hashes of the string of a tree.** -/
theorem stringToTree_treeString (hh : 1 ≤ h) (hτ : ∀ j, 1 ≤ j → j < 2 ^ h → IsHash (τ j)) :
    stringToTree (treeString (2 ^ h) τ) = .ok (hashTree (2 ^ h) h τ) := by
  have hp := BinTree.two_pow_pred hh
  have hpos := Nat.two_pow_pos (h - 1)
  have hsplit : strSplit (treeString (2 ^ h) τ) (byteOf ',') =
      .ok ((List.range' 1 (2 ^ h - 1)).map (entry τ)) := by
    refine strSplit_intercalate ?_ (fun p hp => ?_) (bytes_joinComma _)
    · simp only [ne_eq, List.map_eq_nil_iff, List.range'_eq_nil_iff]
      omega
    · obtain ⟨j, hj, rfl⟩ := List.mem_map.1 hp
      rw [List.mem_range'_1] at hj
      exact isPiece_entry ((hτ j hj.1 (by omega)).not_mem (by decide))
  rw [stringToTree, hsplit, Run.ok_bind, List.length_map, List.length_range',
    show 2 ^ h - 1 + 1 = 2 ^ h by omega, log2_two_pow, Run.ok_bind]
  exact readNodes_entries fun j hj hj' => hτ j (by omega) (by omega)

@[simp] theorem hashTree_nbNodes : (hashTree n h τ).nbNodes = n := by
  simp [hashTree, MerkleTree.blank]

@[simp] theorem hashTree_treeHeight : (hashTree n h τ).treeHeight = h := by
  simp [hashTree, MerkleTree.blank]

@[simp] theorem hashTree_data : ((hashTree n h τ).nodes i).data = none := by
  simp [hashTree, MerkleTree.blank]

theorem hashTree_hash (hi : 1 ≤ i) (hi' : i < n) :
    ((hashTree n h τ).nodes i).hash = some (τ i) := by
  rw [hashTree, MerkleTree.setHashes_hash, if_pos (by rw [List.mem_range'_1]; omega)]

/-- Written to a string, read back and written again, a tree with `h` levels and the hashes `τ`
keeps its shape, its hashes and its string. -/
def RoundTrips (h : ℕ) (τ : ℕ → CStr) (mt : MerkleTree) : Prop :=
  ∃ s mt', treeToString mt = .ok s ∧ stringToTree s = .ok mt' ∧
    (mt'.nbNodes = 2 ^ h ∧ mt'.treeHeight = h ∧
      ∀ i, 1 ≤ i → i < 2 ^ h → (mt'.nodes i).hash = some (τ i)) ∧
    treeToString mt' = .ok s

/-- **Encoding then decoding a tree gives it back**, up to the height at which the size of the
buffer of `tree_to_string` is still an `int`. -/
theorem roundTrips_of_le (hh : 1 ≤ h) (hh' : h ≤ 23) (hn : mt.nbNodes = 2 ^ h)
    (hhash : ∀ i, 1 ≤ i → i < 2 ^ h → (mt.nodes i).hash = some (τ i))
    (hτ : ∀ i, 1 ≤ i → i < 2 ^ h → IsHash (τ i)) : RoundTrips h τ mt := by
  have hpow : 2 ^ h ≤ 2 ^ 23 := Nat.pow_le_pow_right (by norm_num) hh'
  have hsize : 128 * 2 ^ h ≤ INT_MAX := by unfold INT_MAX; omega
  have hwrite : ∀ mt' : MerkleTree, mt'.nbNodes = 2 ^ h →
      (∀ i, 1 ≤ i → i < 2 ^ h → (mt'.nodes i).hash = some (τ i)) →
        treeToString mt' = .ok (treeString (2 ^ h) τ) := fun mt' hn' hhash' => by
    rw [← hn'] at hsize hhash' hτ ⊢
    exact treeToString_eq (by rw [hn']; exact Nat.two_pow_pos h) hsize hhash' hτ
  have hread : ∀ i, 1 ≤ i → i < 2 ^ h → ((hashTree (2 ^ h) h τ).nodes i).hash = some (τ i) :=
    fun i hi hi' => hashTree_hash hi hi'
  exact ⟨_, _, hwrite mt hn hhash, stringToTree_treeString hh hτ,
    ⟨hashTree_nbNodes, hashTree_treeHeight, hread⟩, hwrite _ hashTree_nbNodes hread⟩

/-- The hashes of a tree over four filler pages, if all other strings have the digest zero. -/
def fillerHashes (i : ℕ) : CStr := if i < 4 then printDigest zeroDigest else fillerHash

theorem isHash_fillerHashes (i : ℕ) : IsHash (fillerHashes i) := by
  unfold fillerHashes
  split_ifs
  · exact isHash_printDigest _
  · exact isHash_fillerHash

theorem roundTrips_fillerHashes : RoundTrips 3 fillerHashes (hashTree 8 3 fillerHashes) :=
  roundTrips_of_le (by norm_num) (by norm_num) hashTree_nbNodes
    (fun _ hi hi' => hashTree_hash hi hi') fun i _ _ => isHash_fillerHashes i

/-- From height 24 on the buffer size is out of range, although `2^24 < 10^9`. -/
theorem not_roundTrips_height24 :
    ¬ ∀ (h : ℕ) (τ : ℕ → CStr) (mt : MerkleTree), 1 ≤ h → 2 ^ h < 10 ^ 9 → mt.nbNodes = 2 ^ h →
      (∀ i, 1 ≤ i → i < 2 ^ h → (mt.nodes i).hash = some (τ i)) →
      (∀ i, 1 ≤ i → i < 2 ^ h → IsHash (τ i)) → RoundTrips h τ mt := by
  intro hall
  obtain ⟨s, -, hwrite, -⟩ := hall 24 (fun _ => fillerHash)
    (hashTree (2 ^ 24) 24 fun _ => fillerHash)
    (by norm_num) (by norm_num) hashTree_nbNodes (fun _ hi hi' => hashTree_hash hi hi')
    fun _ _ _ => isHash_fillerHash
  rw [treeToString_overflow (by rw [hashTree_nbNodes]; decide)] at hwrite
  cases hwrite

/-- The string of a tree determines its nodes and hashes. -/
theorem treeString_inj {h' : ℕ} (hh : 1 ≤ h) (hh' : 1 ≤ h')
    (hτ : ∀ j, 1 ≤ j → j < 2 ^ h → IsHash (τ j)) (hτ' : ∀ j, 1 ≤ j → j < 2 ^ h' → IsHash (τ' j))
    (heq : treeString (2 ^ h) τ = treeString (2 ^ h') τ') :
    h = h' ∧ ∀ j, 1 ≤ j → j < 2 ^ h → τ j = τ' j := by
  have htree : hashTree (2 ^ h) h τ = hashTree (2 ^ h') h' τ' := by
    have := stringToTree_treeString hh hτ
    rw [heq, stringToTree_treeString hh' hτ'] at this
    exact (Except.ok.inj this).symm
  have hhh : h = h' := by simpa using congrArg MerkleTree.treeHeight htree
  subst hhh
  refine ⟨rfl, fun j hj hj' => ?_⟩
  have hhash : ((hashTree (2 ^ h) h τ).nodes j).hash = ((hashTree (2 ^ h) h τ').nodes j).hash := by
    rw [htree]
  rw [hashTree_hash hj hj', hashTree_hash hj hj'] at hhash
  exact Option.some.inj hhash

theorem treeString_congr (hττ' : ∀ j, 1 ≤ j → j < n → τ j = τ' j) :
    treeString n τ = treeString n τ' := by
  unfold treeString
  congr 1
  refine List.map_congr_left fun j hj => ?_
  rw [List.mem_range'_1] at hj
  rw [entry, entry, hττ' j hj.1 (by omega)]

end MerkleFs
