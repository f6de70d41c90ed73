import MerkleFs.Tree.Format

/-!
# Which strings are trees

`str_split` asserts that it finds as many tokens as it has counted (`strSplit_eq`), and
`string_to_tree` uses the second part of every entry without looking whether there is one.

* `stringToTree_eq_ok_iff` : what `string_to_tree` reads from a string.
* `survives_iff` : the attributes that are read as a tree with `2^h` nodes.
-/

namespace MerkleFs

variable {d : Byte} {s t : CStr} {mt mt' : MerkleTree} {i n : ℕ} {τ τ' : ℕ → CStr}

/-! ### `string_to_tree` -/

/-- The part of an entry behind its first `:`. -/
def entryHash (p : List Byte) : CStr := .ofBlock ((Split.pieces (byteOf ':') p).getD 1 [])

/-- An entry that is split into parts, with a second part that has room in the block of a hash. -/
def IsEntry (p : List Byte) : Prop :=
  Split.Clean (byteOf ':') p ∧ 1 < (Split.pieces (byteOf ':') p).length ∧
    1 + (entryHash p).strlen ≤ PTR_SIZE * 2 * HASH_SIZE / BYTE_SIZE

instance (p : List Byte) : Decidable (IsEntry p) := inferInstanceAs (Decidable (_ ∧ _ ∧ _))

/-- The hash string of node `j` in a string. -/
def readHash (s : List Byte) (j : ℕ) : CStr :=
  entryHash ((Split.pieces (byteOf ',') s).getD (j - 1) [])

theorem setHashes_congr {is : List ℕ} (hττ' : ∀ j ∈ is, τ j = τ' j) :
    mt.setHashes τ is = mt.setHashes τ' is := by
  induction is generalizing mt with
  | nil => rfl
  | cons i is ih =>
    rw [MerkleTree.setHashes_cons, MerkleTree.setHashes_cons, hττ' i List.mem_cons_self,
      ih fun j hj => hττ' j (List.mem_cons_of_mem _ hj)]

/-- One entry is read. -/
theorem readNodes_cons {tokens : List CStr} : readNodes (t :: tokens) i mt = .ok mt' ↔
    IsEntry t.bytes ∧
      readNodes tokens (i + 1) (mt.setHash (i + 1) (some (entryHash t.bytes))) = .ok mt' := by
  rw [readNodes, strSplit_eq, IsEntry]
  by_cases hclean : Split.Clean (byteOf ':') t.bytes
  · rw [if_pos hclean, Run.ok_bind, List.getElem?_map]
    cases hpart : (Split.pieces (byteOf ':') t.bytes)[1]? with
    | none =>
      have := List.getElem?_eq_none_iff.1 hpart
      simp only [Option.map_none, reduceCtorEq, false_iff]
      omega
    | some p =>
      have hlen := (List.getElem?_eq_some_iff.1 hpart).1
      have hhash : entryHash t.bytes = CStr.ofBlock p := by
        rw [entryHash, List.getD_eq_getElem?_getD, hpart, Option.getD_some]
      simp only [Option.map_some, ← hhash]
      by_cases hroom : 1 + (entryHash t.bytes).strlen ≤ PTR_SIZE * 2 * HASH_SIZE / BYTE_SIZE
      · rw [if_neg (by omega)]
        simp [hclean, hlen, hroom]
      · rw [if_pos (by omega)]
        simp [hroom]
  · rw [if_neg hclean, Run.error_bind]
    simp [hclean]

theorem readNodes_eq_ok_iff {tokens : List CStr} : readNodes tokens i mt = .ok mt' ↔
    (∀ t ∈ tokens, IsEntry t.bytes) ∧
      mt' = mt.setHashes (fun j => entryHash (tokens.getD (j - (i + 1)) .nil).bytes)
        (List.range' (i + 1) tokens.length) := by
  induction tokens generalizing i mt with
  | nil => simp [readNodes, eq_comm]
  | cons t tokens ih =>
    have hset : (mt.setHash (i + 1) (some (entryHash t.bytes))).setHashes
        (fun j => entryHash (tokens.getD (j - (i + 1 + 1)) .nil).bytes)
          (List.range' (i + 1 + 1) tokens.length) =
        mt.setHashes (fun j => entryHash ((t :: tokens).getD (j - (i + 1)) .nil).bytes)
          (List.range' (i + 1) (tokens.length + 1)) := by
      rw [List.range'_succ, MerkleTree.setHashes_cons, Nat.sub_self, List.getD_cons_zero]
      refine setHashes_congr fun j hj => ?_
      rw [List.mem_range'_1] at hj
      rw [show j - (i + 1) = j - (i + 1 + 1) + 1 by omega, List.getD_cons_succ]
    rw [readNodes_cons, ih, hset, List.forall_mem_cons, and_assoc, List.length_cons]

/-- **What `string_to_tree` reads.** -/
theorem stringToTree_eq_ok_iff : stringToTree s = .ok mt ↔
    Split.Clean (byteOf ',') s.bytes ∧ (∀ p ∈ Split.pieces (byteOf ',') s.bytes, IsEntry p) ∧
      mt = hashTree ((Split.pieces (byteOf ',') s.bytes).length + 1)
        (Nat.log 2 ((Split.pieces (byteOf ',') s.bytes).length + 1)) (readHash s.bytes) := by
  have hfree : ∀ p ∈ Split.pieces (byteOf ',') s.bytes, (CStr.ofBlock p).bytes = p := fun p hp => by
    refine CStr.ofBlock_of_nulFree fun h0 => s.nulFree ?_
    exact (Split.isPiece_of_mem_pieces hp).2 h0
  rw [stringToTree, strSplit_eq]
  by_cases hclean : Split.Clean (byteOf ',') s.bytes
  · set ps := Split.pieces (byteOf ',') s.bytes with hps
    have hlog : log2 (ps.length + 1) = .ok (Nat.log 2 (ps.length + 1)) := if_neg (by omega)
    have hentries : (∀ t ∈ ps.map CStr.ofBlock, IsEntry t.bytes) ↔ ∀ p ∈ ps, IsEntry p := by
      rw [List.forall_mem_map]
      exact forall₂_congr fun p hp => by rw [hfree p hp]
    rw [if_pos hclean, Run.ok_bind, List.length_map, hlog, Run.ok_bind, readNodes_eq_ok_iff,
      hentries,
      List.length_map, hashTree, Nat.add_sub_cancel, and_iff_right hclean]
    refine and_congr_right fun _ => Eq.congr_right (setHashes_congr fun j hj => ?_)
    rw [List.mem_range'_1] at hj
    have hlt : j - 1 < ps.length := by omega
    have hget : ps[j - 1]? = some ps[j - 1] := List.getElem?_eq_getElem _
    rw [readHash, ← hps, List.getD_eq_getElem?_getD, List.getD_eq_getElem?_getD, List.getElem?_map,
      Nat.zero_add, hget, Option.map_some, Option.getD_some, Option.getD_some,
      hfree _ (List.getElem_mem _)]
  · rw [if_neg hclean, Run.error_bind]
    simp [hclean]

/-! ### Attributes -/

/-- `string_to_tree` reads an attribute, up to its first NUL, as a tree with `2^h` nodes that all
have a hash. -/
def Survives (v : List Byte) : Prop :=
  ∃ mt, stringToTree (.ofBlock v) = .ok mt ∧ mt.nbNodes = 2 ^ mt.treeHeight ∧
    ∀ i, 1 ≤ i → i < mt.nbNodes → (mt.nodes i).hash ≠ none

/-- The strings of trees: entries separated by single commas, in number one less than a power of
two. -/
structure IsTreeString (s : List Byte) : Prop where
  /-- There are entries, and there is one before every comma. -/
  clean : Split.Clean (byteOf ',') s
  /-- Each has a hash. -/
  entries : ∀ p ∈ Split.pieces (byteOf ',') s, IsEntry p
  /-- They are the nodes of a perfect tree. -/
  count : ∃ h, (Split.pieces (byteOf ',') s).length + 1 = 2 ^ h

/-- **Which attributes are read as trees.** -/
theorem survives_iff {v : List Byte} : Survives v ↔ IsTreeString (CStr.ofBlock v).bytes := by
  constructor
  · rintro ⟨mt, htree, hn, -⟩
    obtain ⟨hclean, hentries, rfl⟩ := stringToTree_eq_ok_iff.1 htree
    rw [hashTree_nbNodes, hashTree_treeHeight] at hn
    exact ⟨hclean, hentries, _, hn⟩
  · rintro ⟨hclean, hentries, h, hcount⟩
    refine ⟨_, stringToTree_eq_ok_iff.2 ⟨hclean, hentries, rfl⟩, ?_, fun i hi hi' => ?_⟩
    · rw [hashTree_nbNodes, hashTree_treeHeight, hcount, Nat.log_pow Nat.one_lt_two]
    · rw [hashTree_nbNodes] at hi'
      rw [hashTree_hash hi hi']
      simp

/-- A comma has no entries. -/
theorem not_survives_comma : ¬ ∀ v : List Byte, Survives v := by
  intro hall
  obtain ⟨mt, htree, -⟩ := hall [byteOf ',']
  exact absurd (stringToTree_eq_ok_iff.1 htree).1 (by decide)

end MerkleFs
