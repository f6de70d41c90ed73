import MerkleFs.Tree.Parser

/-!
# The attribute of a file

`bb_write` stores the string of a tree in the extended attribute `merkle`, without a terminator,
and a later call reads it into a block that it has not cleared.  `setxattr` and `getxattr` store
and copy exactly the bytes they are given.

* `stringToTree_append` : what may follow the string of a tree without changing what is read.
* `readsBack_iff` : when a stored tree is read back as it was written.
-/

namespace MerkleFs

/-- The limit for the size of an attribute. -/
def MAX_TREE_SIZE : ℕ := 64000000

/-- `getxattr` into a block: it returns the length of the attribute, or `-1` when there is none or
it is longer than `size`. -/
def getxattr (attr : Option (List Byte)) (block : List Byte) (size : ℕ) : ℤ × List Byte :=
  match attr with
  | none => (-1, block)
  | some v => if size < v.length then (-1, block) else (v.length, v ++ block.drop v.length)

/-- The attribute after `setxattr(.., result, strlen(result), ..)`. -/
def setxattr (result : CStr) : Option (List Byte) := some result.bytes

/-- The part of `bb_write` that reads the attribute into the block `treeString`; `none` when it
finds no attribute. -/
def readTree (attr : Option (List Byte)) (treeString : List Byte) : Run (Option MerkleTree) :=
  let (attrSize, treeString) := getxattr attr treeString MAX_TREE_SIZE
  if 0 < attrSize then do
    let s ← readStr treeString
    let mt ← stringToTree s
    return some mt
  else return none

/-- A tree that is written to the attribute is read back from it, into the given block. -/
def ReadsBack (mt : MerkleTree) (treeString : List Byte) : Prop :=
  ∃ s mt', treeToString mt = .ok s ∧ readTree (setxattr s) treeString = .ok (some mt') ∧
    mt'.nbNodes = mt.nbNodes ∧ mt'.treeHeight = mt.treeHeight ∧
    ∀ i, 1 ≤ i → i < mt.nbNodes → (mt'.nodes i).hash = (mt.nodes i).hash

/-- A hash string that can be stored: not empty, without the two separators, and no longer than
the block `string_to_tree` copies it to. -/
structure IsPart (s : CStr) : Prop where
  /-- It is not empty. -/
  pos : 1 ≤ s.strlen
  /-- It is not split into parts. -/
  noColon : byteOf ':' ∉ s.bytes
  /-- It is not split into entries. -/
  noComma : byteOf ',' ∉ s.bytes
  /-- It has room in its block. -/
  le : s.strlen ≤ 511

/-- A tree that can be stored, with the hashes `τ`: any tree that `build_tree` builds or
`string_to_tree` reads. -/
structure Storable (mt : MerkleTree) (τ : ℕ → CStr) : Prop where
  /-- There is a root. -/
  two_le : 2 ≤ mt.nbNodes
  /-- The height belongs to the number of nodes. -/
  treeHeight : mt.treeHeight = Nat.log 2 mt.nbNodes
  /-- Every node has a hash. -/
  hash : ∀ i, 1 ≤ i → i < mt.nbNodes → (mt.nodes i).hash = some (τ i)
  /-- They can be stored. -/
  part : ∀ i, 1 ≤ i → i < mt.nbNodes → IsPart (τ i)

/-- What may follow the last hash of a tree in its entry: nothing, or a `:` and parts that are
ignored. -/
def HarmlessPart (u : List Byte) : Prop :=
  u = [] ∨ ∃ v, u = byteOf ':' :: v ∧ (v = [] ∨ Split.Clean (byteOf ':') v)

/-- What may follow the string of a tree: the rest of its last entry, and possibly a comma. -/
def HarmlessTail (t : List Byte) : Prop :=
  ∃ u, byteOf ',' ∉ u ∧ HarmlessPart u ∧ (t = u ∨ t = u ++ [byteOf ','])

/-- A block that ends, and starts with a harmless string. -/
def Harmless (block : List Byte) : Prop := 0 ∈ block ∧ HarmlessTail (CStr.ofBlock block).bytes

variable {mt mt' : MerkleTree} {n h i : ℕ} {τ : ℕ → CStr} {s s' : CStr} {t u block : List Byte}

/-! ### Entries -/

theorem exists_first (d : Byte) (t : List Byte) :
    ∃ u, d ∉ u ∧ (t = u ∨ ∃ v, t = u ++ d :: v) := by
  by_cases hmem : d ∈ t
  · obtain ⟨u, v, rfl, hu⟩ := List.eq_append_cons_of_mem hmem
    exact ⟨u, hu, .inr ⟨v, rfl⟩⟩
  · exact ⟨t, hmem, .inl rfl⟩

/-- Bytes behind a hash that do not change it. -/
theorem hash_append (hτ : IsPart s) :
    (Split.Clean (byteOf ':') (s.bytes ++ u) ∧
        (Split.pieces (byteOf ':') (s.bytes ++ u)).getD 0 [] = s.bytes) ↔ HarmlessPart u := by
  have hcolon := hτ.noColon
  have hpiece : ∀ w, byteOf ':' ∉ w → Split.IsPiece (byteOf ':') (s.bytes ++ w) := fun w hw => by
    refine ⟨fun h => ?_, by simp [hcolon, hw]⟩
    have := hτ.pos
    rw [CStr.strlen, (List.append_eq_nil_iff.1 h).1] at this
    simp at this
  obtain ⟨w, hw, rfl | ⟨v, rfl⟩⟩ := exists_first (byteOf ':') u
  · rw [Split.pieces_of_isPiece (hpiece _ hw), and_iff_right (Split.clean_of_isPiece (hpiece _ hw)),
      List.getD_cons_zero]
    refine ⟨fun h => .inl (by simpa using h), ?_⟩
    rintro (rfl | ⟨v, rfl, -⟩)
    · exact List.append_nil _
    · exact absurd List.mem_cons_self hw
  · have hp := hpiece w hw
    rw [← List.append_assoc, Split.pieces_append_delim, Split.pieces_of_isPiece hp,
      Split.clean_append_delim (Split.clean_of_isPiece hp) fun h => hp.2 (List.mem_of_getLast? h),
      List.cons_append, List.getD_cons_zero]
    constructor
    · rintro ⟨hv, hnil⟩
      obtain rfl : w = [] := by simpa using hnil
      exact .inr ⟨v, rfl, hv⟩
    · rintro (h | ⟨v', h, hv⟩)
      · simp at h
      · cases w with
        | nil =>
          obtain rfl := (List.cons.inj h).2
          exact ⟨hv, List.append_nil _⟩
        | cons b w => exact absurd ((List.cons.inj h).1 ▸ List.mem_cons_self) hw

/-- Bytes behind an entry that do not change its hash. -/
theorem entry_append (hτ : IsPart (τ i)) (hu : 0 ∉ u) :
    (IsEntry ((entry τ i).bytes ++ u) ∧ entryHash ((entry τ i).bytes ++ u) = τ i) ↔
      HarmlessPart u := by
  have hnum := isPiece_sprintfD (d := byteOf ':') (by decide) i
  have hbytes : (entry τ i).bytes ++ u = sprintfD i ++ byteOf ':' :: ((τ i).bytes ++ u) := by
    simp [entry, numberString, colon, CStr.ofString]
  have hne : (τ i).bytes ++ u ≠ [] := fun h => by
    have := hτ.pos
    rw [CStr.strlen, (List.append_eq_nil_iff.1 h).1] at this
    simp at this
  have hpieces : Split.pieces (byteOf ':') ((entry τ i).bytes ++ u) =
      sprintfD i :: Split.pieces (byteOf ':') ((τ i).bytes ++ u) := by
    rw [hbytes, Split.pieces_append_delim, Split.pieces_of_isPiece hnum, List.singleton_append]
  have hclean : Split.Clean (byteOf ':') ((entry τ i).bytes ++ u) ↔
      Split.Clean (byteOf ':') ((τ i).bytes ++ u) := by
    rw [hbytes, Split.clean_append_delim (Split.clean_of_isPiece hnum)
      fun h => hnum.2 (List.mem_of_getLast? h)]
    simp [hne]
  have hhash : entryHash ((entry τ i).bytes ++ u) =
      CStr.ofBlock ((Split.pieces (byteOf ':') ((τ i).bytes ++ u)).getD 0 []) := by
    rw [entryHash, hpieces, List.getD_cons_succ]
  rw [← hash_append hτ, IsEntry, hclean]
  constructor
  · rintro ⟨⟨hc, hlen, -⟩, heq⟩
    refine ⟨hc, ?_⟩
    rw [hhash] at heq
    -- the piece has no NUL, so it is the string read from it
    obtain ⟨p, ps, hps⟩ := List.exists_cons_of_ne_nil hc.pieces_ne_nil
    have hp := (Split.isPiece_of_mem_pieces (hps ▸ List.mem_cons_self :
      p ∈ Split.pieces (byteOf ':') ((τ i).bytes ++ u))).2
    rw [hps, List.getD_cons_zero] at heq ⊢
    rw [← heq, CStr.ofBlock_of_nulFree fun h0 => ?_]
    exact (List.mem_append.1 (hp h0)).elim (τ i).nulFree hu
  · rintro ⟨hc, heq⟩
    have hh : entryHash ((entry τ i).bytes ++ u) = τ i := by
      rw [hhash, heq, CStr.ofBlock_bytes]
    refine ⟨⟨hc, ?_, ?_⟩, hh⟩
    · rw [hpieces, List.length_cons]
      have := List.length_pos_iff.2 hc.pieces_ne_nil
      omega
    · rw [hh]
      have := hτ.le
      unfold PTR_SIZE HASH_SIZE BYTE_SIZE
      omega

theorem isEntry_entry (hτ : IsPart (τ i)) :
    IsEntry (entry τ i).bytes ∧ entryHash (entry τ i).bytes = τ i := by
  simpa using (entry_append hτ List.not_mem_nil).2 (.inl rfl)

/-! ### Strings -/

/-- The entries of a string that ends in the last entry of a tree and the bytes `u`. -/
theorem entries_append {k : ℕ} (hτ : ∀ i, 1 ≤ i → i < k + 2 → IsPart (τ i)) (hu : 0 ∉ u)
    (hps : Split.pieces (byteOf ',') t =
      (List.range' 1 k).map (fun i => (entry τ i).bytes) ++ [(entry τ (k + 1)).bytes ++ u]) :
    ((∀ p ∈ Split.pieces (byteOf ',') t, IsEntry p) ∧
      ∀ i, 1 ≤ i → i < k + 2 → readHash t i = τ i) ↔ HarmlessPart u := by
  rw [← entry_append (hτ (k + 1) (by omega) (by omega)) hu]
  have hlast : readHash t (k + 1) = entryHash ((entry τ (k + 1)).bytes ++ u) := by
    rw [readHash, hps, List.getD_eq_getElem?_getD, List.getElem?_append_right (by simp)]
    simp
  constructor
  · rintro ⟨hentry, hread⟩
    exact ⟨hentry _ (by rw [hps]; simp), hlast ▸ hread (k + 1) (by omega) (by omega)⟩
  · rintro ⟨hentry, hread⟩
    refine ⟨fun p hp => ?_, fun i hi hi' => ?_⟩
    · rw [hps, List.mem_append, List.mem_map, List.mem_singleton] at hp
      rcases hp with ⟨i, hi, rfl⟩ | rfl
      · rw [List.mem_range'_1] at hi
        exact (isEntry_entry (hτ i hi.1 (by omega))).1
      · exact hentry
    · rcases Nat.lt_or_ge i (k + 1) with hlt | hge
      · have hget : (Split.pieces (byteOf ',') t)[i - 1]? = some (entry τ i).bytes := by
          rw [hps, List.getElem?_append_left (by simp; omega), List.getElem?_map,
            List.getElem?_range' (by omega), show 1 + 1 * (i - 1) = i by omega]
          rfl
        rw [readHash, List.getD_eq_getElem?_getD, hget, Option.getD_some]
        exact (isEntry_entry (hτ i hi hi')).2
      · obtain rfl : i = k + 1 := by omega
        rw [hlast, hread]

/-- The tree of such a string. -/
theorem stringToTree_of_entries {k : ℕ} (hτ : ∀ i, 1 ≤ i → i < k + 2 → IsPart (τ i)) (hu : 0 ∉ u)
    (hclean : Split.Clean (byteOf ',') s.bytes)
    (hps : Split.pieces (byteOf ',') s.bytes =
      (List.range' 1 k).map (fun i => (entry τ i).bytes) ++ [(entry τ (k + 1)).bytes ++ u]) :
    (∃ mt, stringToTree s = .ok mt ∧ mt.nbNodes = k + 2 ∧ mt.treeHeight = Nat.log 2 (k + 2) ∧
      ∀ i, 1 ≤ i → i < k + 2 → (mt.nodes i).hash = some (τ i)) ↔ HarmlessPart u := by
  have hlen : (Split.pieces (byteOf ',') s.bytes).length + 1 = k + 2 := by simp [hps]
  rw [← entries_append hτ hu hps]
  constructor
  · rintro ⟨mt, htree, -, -, hhash⟩
    obtain ⟨-, hentries, rfl⟩ := stringToTree_eq_ok_iff.1 htree
    refine ⟨hentries, fun i hi hi' => ?_⟩
    have := hhash i hi hi'
    rw [hlen, hashTree_hash hi hi'] at this
    exact Option.some.inj this
  · rintro ⟨hentries, hhash⟩
    refine ⟨_, stringToTree_eq_ok_iff.2 ⟨hclean, hentries, rfl⟩, ?_, ?_, fun i hi hi' => ?_⟩
    · rw [hashTree_nbNodes, hlen]
    · rw [hashTree_treeHeight, hlen]
    · rw [hlen, hashTree_hash hi hi', hhash i hi hi']

theorem treeString_append_bytes (k : ℕ) (τ : ℕ → CStr) (u : List Byte) :
    (treeString (k + 2) τ).bytes ++ u = [byteOf ','].intercalate
      ((List.range' 1 k).map (fun i => (entry τ i).bytes) ++ [(entry τ (k + 1)).bytes ++ u]) := by
  rw [← Split.intercalate_append, treeString, bytes_joinComma, List.map_map,
    show k + 2 - 1 = k + 1 by omega, List.range'_concat]
  simp only [Nat.one_mul, Nat.add_comm 1 k, List.map_append, List.map_cons, List.map_nil]
  rfl

theorem isPiece_of_mem_entries {k : ℕ} (hτ : ∀ i, 1 ≤ i → i < k + 2 → IsPart (τ i))
    (hu : byteOf ',' ∉ u) {p : List Byte} (hp : p ∈
      (List.range' 1 k).map (fun i => (entry τ i).bytes) ++ [(entry τ (k + 1)).bytes ++ u]) :
    Split.IsPiece (byteOf ',') p := by
  rw [List.mem_append, List.mem_map, List.mem_singleton] at hp
  rcases hp with ⟨i, hi, rfl⟩ | rfl
  · rw [List.mem_range'_1] at hi
    exact isPiece_entry (hτ i hi.1 (by omega)).noComma
  · have hlast := isPiece_entry (hτ (k + 1) (by omega) (by omega)).noComma
    exact ⟨by simp [hlast.1], by simp [hlast.2, hu]⟩

/-- **What may follow the string of a tree.** -/
theorem stringToTree_append (hn : 2 ≤ n) (hτ : ∀ i, 1 ≤ i → i < n → IsPart (τ i))
    (hs : s.bytes = (treeString n τ).bytes ++ t) :
    (∃ mt, stringToTree s = .ok mt ∧ mt.nbNodes = n ∧ mt.treeHeight = Nat.log 2 n ∧
      ∀ i, 1 ≤ i → i < n → (mt.nodes i).hash = some (τ i)) ↔ HarmlessTail t := by
  obtain ⟨k, rfl⟩ : ∃ k, n = k + 2 := ⟨n - 2, by omega⟩
  obtain ⟨u, hu, ht⟩ := exists_first (byteOf ',') t
  have hu0 : 0 ∉ u := fun h0 => s.nulFree (by
    rw [hs]
    rcases ht with rfl | ⟨v, rfl⟩
    · exact List.mem_append_right _ h0
    · exact List.mem_append_right _ (List.mem_append_left _ h0))
  -- the string, with `u` as part of its last entry
  have hbytes := treeString_append_bytes k τ u
  have hpieces := fun p hp => isPiece_of_mem_entries hτ hu (p := p) hp
  have hclean := Split.clean_intercalate (by simp) hpieces
  rcases ht with rfl | ⟨v, rfl⟩
  · rw [hbytes] at hs
    rw [stringToTree_of_entries hτ hu0 (by rwa [hs]) (by rw [hs, Split.pieces_intercalate hpieces])]
    refine ⟨fun h => ⟨t, hu, h, .inl rfl⟩, ?_⟩
    rintro ⟨w, -, h, rfl | rfl⟩
    · exact h
    · simp at hu
  · rw [← List.append_assoc, hbytes] at hs
    have hps : Split.pieces (byteOf ',') s.bytes = (List.range' 1 k).map
        (fun i => (entry τ i).bytes) ++ [(entry τ (k + 1)).bytes ++ u] ++
          Split.pieces (byteOf ',') v := by
      rw [hs, Split.pieces_append_delim, Split.pieces_intercalate hpieces]
    have hcl : Split.Clean (byteOf ',') s.bytes ↔ v = [] ∨ Split.Clean (byteOf ',') v := by
      rw [hs, Split.clean_append_delim hclean (Split.getLast?_intercalate hpieces)]
    by_cases hv : v = []
    · subst hv
      rw [stringToTree_of_entries hτ hu0 (hcl.2 (.inl rfl)) (by rw [hps]; simp)]
      refine ⟨fun h => ⟨u, hu, h, .inr rfl⟩, ?_⟩
      rintro ⟨w, hw, h, h' | h'⟩
      · exact absurd (h' ▸ by simp) hw
      · rwa [List.append_cancel_right h']
    · -- a further entry is a further node
      refine iff_of_false ?_ ?_
      · rintro ⟨mt, htree, hnodes, -⟩
        obtain ⟨hcl', -, rfl⟩ := stringToTree_eq_ok_iff.1 htree
        rw [hashTree_nbNodes, hps] at hnodes
        have := List.length_pos_iff.2 ((hcl.1 hcl').resolve_left hv).pieces_ne_nil
        simp only [List.length_append, List.length_map, List.length_range',
          List.length_singleton] at hnodes
        omega
      · rintro ⟨w, hw, -, h | h⟩
        · exact hw (h ▸ by simp)
        · exact hv ((List.append_cons_inj_of_notMem hw List.not_mem_nil).1 h.symm).2.2.symm

/-! ### Reading back -/

theorem readTree_eq_ok_iff (hpos : 0 < s.strlen) : readTree (setxattr s) block = .ok (some mt) ↔
    s.strlen ≤ MAX_TREE_SIZE ∧ 0 ∈ block.drop s.strlen ∧
      stringToTree (.ofBlock (s.bytes ++ block.drop s.strlen)) = .ok mt := by
  have hmem : 0 ∈ s.bytes ++ block.drop s.strlen ↔ 0 ∈ block.drop s.strlen := by simp [s.nulFree]
  rw [← hmem]
  unfold readTree setxattr getxattr readStr CStr.strlen at *
  by_cases hle : s.bytes.length ≤ MAX_TREE_SIZE
  · by_cases h0 : 0 ∈ s.bytes ++ block.drop s.bytes.length
    · simp only [not_lt.2 hle, hle, hpos, h0, if_true, if_false, true_and, Run.ok_bind,
        Int.natCast_pos]
      cases stringToTree (.ofBlock (s.bytes ++ block.drop s.bytes.length)) <;> simp
    · simp [not_lt.2 hle, hpos, h0]
  · simp [not_le.1 hle, hle]

theorem strlen_treeString_pos (hn : 2 ≤ n) : 0 < (treeString n τ).strlen := by
  obtain ⟨k, rfl⟩ : ∃ k, n = k + 2 := ⟨n - 2, by omega⟩
  rw [treeString, show k + 2 - 1 = k + 1 by omega, List.range'_succ, List.map_cons]
  cases (List.range' (1 + 1) k).map (entry τ) <;>
    simp [joinComma, entry, colon, CStr.ofString, CStr.strlen]

theorem harmless_of_readsBack (hmt : Storable mt τ) (hs : treeToString mt = .ok s)
    (hback : ReadsBack mt block) : s.strlen ≤ MAX_TREE_SIZE ∧ Harmless (block.drop s.strlen) := by
  obtain rfl := eq_treeString_of_treeToString hmt.hash (by have := hmt.two_le; omega) hs
  obtain ⟨s, mt', hs', hread, hn, hh, hhash⟩ := hback
  obtain rfl := Except.ok.inj (hs.symm.trans hs')
  obtain ⟨hle, h0, htree⟩ := (readTree_eq_ok_iff (strlen_treeString_pos hmt.two_le)).1 hread
  refine ⟨hle, h0, (stringToTree_append hmt.two_le hmt.part
    (CStr.bytes_ofBlock_append (treeString mt.nbNodes τ).nulFree _)).1 ⟨mt', htree, hn, ?_, ?_⟩⟩
  · exact hh.trans hmt.treeHeight
  · exact fun i hi hi' => (hhash i hi hi').trans (hmt.hash i hi hi')

/-- **When a stored tree is read back**: it is not too long, and what the block holds behind it
ends and is harmless. -/
theorem readsBack_iff (hmt : Storable mt τ) (hs : treeToString mt = .ok s) :
    ReadsBack mt block ↔ s.strlen ≤ MAX_TREE_SIZE ∧ Harmless (block.drop s.strlen) := by
  refine ⟨harmless_of_readsBack hmt hs, ?_⟩
  rintro ⟨hle, h0, htail⟩
  obtain rfl := eq_treeString_of_treeToString hmt.hash (by have := hmt.two_le; omega) hs
  obtain ⟨mt', htree, hn, hh, hhash⟩ := (stringToTree_append hmt.two_le hmt.part
    (CStr.bytes_ofBlock_append (treeString mt.nbNodes τ).nulFree _)).2 htail
  refine ⟨_, mt', hs, (readTree_eq_ok_iff (strlen_treeString_pos hmt.two_le)).2 ⟨hle, h0, htree⟩,
    hn, hh.trans hmt.treeHeight.symm, fun i hi hi' => ?_⟩
  exact (hhash i hi hi').trans (hmt.hash i hi hi').symm

theorem IsHash.isPart (hs : IsHash s) : IsPart s :=
  ⟨hs.pos, hs.not_mem (by decide), hs.not_mem (by decide),
    by have := hs.le; omega⟩

theorem storable_filler : Storable (hashTree 2 1 fun _ => fillerHash) fun _ => fillerHash where
  two_le := by rw [hashTree_nbNodes]
  treeHeight := by rw [hashTree_nbNodes, hashTree_treeHeight]; decide
  hash i hi hi' := hashTree_hash hi (by rwa [hashTree_nbNodes] at hi')
  part _ _ _ := isHash_fillerHash.isPart

theorem treeToString_filler : treeToString (hashTree 2 1 fun _ => fillerHash) =
    .ok (treeString 2 fun _ => fillerHash) := by
  rw [treeToString_eq (τ := fun _ => fillerHash) (by simp) (by simp [INT_MAX])
    storable_filler.hash fun _ _ _ => isHash_fillerHash, hashTree_nbNodes]

theorem strlen_treeString_filler : (treeString 2 fun _ => fillerHash).strlen = 65 := by decide

/-- The tree over one filler page is read back into a block of NULs. -/
theorem readsBack_filler :
    ReadsBack (hashTree 2 1 fun _ => fillerHash) (List.replicate 66 0) := by
  refine (readsBack_iff storable_filler treeToString_filler).2 ?_
  rw [strlen_treeString_filler]
  exact ⟨by decide, by decide, [], by decide, .inl rfl, .inl (by decide)⟩

/-- With an `f` behind it, its last hash gets longer. -/
theorem not_readsBack_leftover :
    ¬ ∀ (mt : MerkleTree) (τ : ℕ → CStr) (s : CStr) (block : List Byte), Storable mt τ →
      treeToString mt = .ok s → ReadsBack mt block := by
  intro hall
  have hback := hall _ _ _ (List.replicate 65 0 ++ [byteOf 'f', 0]) storable_filler
    treeToString_filler
  obtain ⟨-, -, u, -, hu, hu'⟩ := harmless_of_readsBack storable_filler treeToString_filler hback
  rw [strlen_treeString_filler] at hu'
  have htail : (CStr.ofBlock ((List.replicate 65 0 ++ [byteOf 'f', 0]).drop 65)).bytes =
      [byteOf 'f'] := by decide
  rw [htail] at hu'
  have hhead : u.head? = some (byteOf 'f') := by
    rcases hu' with rfl | hu'
    · rfl
    · cases u with
      | nil => exact absurd hu' (by decide)
      | cons b u => rw [List.head?_cons, (List.cons.inj hu').1]
  rcases hu with rfl | ⟨v, rfl, -⟩
  · cases hhead
  · exact absurd (Option.some.inj hhead) (by decide)

end MerkleFs
