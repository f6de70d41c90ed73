import MerkleFs.BinTree.Difference
import MerkleFs.Tree.Merkle

/-!
# What the root says about the pages

Two trees with the same root should hold the same pages, unless SHA3 has a collision.  They need
not: a digest is printed without padding, and an inner node is hashed from 32 characters of each
child hash only, so that different digests can look the same (`Masked`).

* `root_ne_iff` : how a difference reaches the root.  The buffers of the two builds may hold
  different bytes behind the child hashes; such a difference is a source of its own.
* `commitsToPages_iff` : equal roots mean equal pages, or a collision, exactly when the hash
  function has no two digests that look alike.
-/

namespace MerkleFs

variable (sha3 : List Byte → Digest) (heap heap' : Heap) (h : ℕ) (ps qs : List CStr)

/-- The hash strings of the tree with `h` levels over the pages `ps`. -/
def pageHashes : ℕ → CStr :=
  BinTree.solution h (fun i => leafHash sha3 (leafAt (2 ^ (h - 1)) ps i)) (parentHash sha3 heap)

/-- The byte string that the digest of node `i` is taken of. -/
def handed (i : ℕ) : List Byte :=
  if i < 2 ^ (h - 1) then (concat heap i (pageHashes sha3 heap h ps (2 * i))
    (pageHashes sha3 heap h ps (2 * i + 1))).bytes
  else (leafAt (2 ^ (h - 1)) ps i).bytes

/-- What a parent copies of a printed digest. -/
def kept (d : Digest) : List Byte := (printDigest d).bytes.take (HASH_SIZE / BYTE_SIZE)

/-- What is kept of the digest of `s` when `s` was handed over for node `i`: at the root the
printed digest, below it the characters that the parent copies. -/
def shown (i : ℕ) (s : List Byte) : List Byte :=
  if i = 1 then (printDigest (sha3 s)).bytes else kept (sha3 s)

/-- All byte strings handed over in the builds of two trees. -/
def handedStrings : Set (List Byte) :=
  {s | ∃ i ∈ BinTree.Nodes h, s = handed sha3 heap h ps i ∨ s = handed sha3 heap' h qs i}

/-- Two different strings that are handed over have the same digest. -/
def Collision : Prop :=
  ∃ x ∈ handedStrings sha3 heap heap' h ps qs, ∃ y ∈ handedStrings sha3 heap heap' h ps qs,
    x ≠ y ∧ sha3 x = sha3 y

/-- The two builds put something different into node `i`: another page into a leaf, or other
bytes behind the child hashes of an inner node. -/
def Source (i : ℕ) : Prop :=
  if i < 2 ^ (h - 1) then CStr.ofBlock (heap.tail i) ≠ CStr.ofBlock (heap'.tail i)
  else leafAt (2 ^ (h - 1)) ps i ≠ leafAt (2 ^ (h - 1)) qs i

/-- Different strings are handed over for node `i`, but what is kept of their digests is the
same. -/
def Masked (i : ℕ) : Prop :=
  handed sha3 heap h ps i ≠ handed sha3 heap' h qs i ∧
    shown sha3 i (handed sha3 heap h ps i) = shown sha3 i (handed sha3 heap' h qs i)

/-- `build_tree` can build a tree with `h` levels over the pages `ps`: its size is an `int`, the
pages fit, and no buffer is read past its end. -/
def Builds : Prop := h ≤ 30 ∧ heap.Terminated h ∧ Fits 0 ps

/-- Equal roots of two trees built from `datas` and `datas'` mean equal pages or a collision. -/
def RootCommits (datas datas' : ℕ → Ptr) : Prop :=
  ∀ mt₀ mt₀' mt mt', mt₀.treeHeight = h → mt₀'.treeHeight = h →
    buildTree sha3 heap mt₀ datas = .ok (0, mt) →
    buildTree sha3 heap' mt₀' datas' = .ok (0, mt') →
    (mt.nodes 1).hash = (mt'.nodes 1).hash →
      ps = qs ∨ Collision sha3 heap heap' h ps qs

/-- Equal roots mean equal pages or a collision, for all trees. -/
def CommitsToPages : Prop :=
  ∀ (heap heap' : Heap) (h : ℕ) (ps qs : List CStr) (datas datas' : ℕ → Ptr), 1 ≤ h →
    ps.length = 2 ^ (h - 1) → qs.length = 2 ^ (h - 1) → (∀ p ∈ ps, p ≠ .nil) →
    (∀ q ∈ qs, q ≠ .nil) → Layout datas 0 ps → Layout datas' 0 qs →
      RootCommits sha3 heap heap' h ps qs datas datas'

/-- A string that a leaf can hold, and not empty. -/
def IsLeafString (s : CStr) : Prop := s ≠ .nil ∧ 1 + s.strlen ≤ PTR_SIZE * 2 * PAGE_LENGTH

/-- Different digests of such strings differ in what a parent copies of them. -/
def LooksApart : Prop :=
  ∀ s t : CStr, IsLeafString s → IsLeafString t → sha3 s.bytes ≠ sha3 t.bytes →
    kept (sha3 s.bytes) ≠ kept (sha3 t.bytes)

variable {sha3 heap heap' h ps qs} {datas datas' : ℕ → Ptr} {i : ℕ} {s t u : CStr}

theorem target_pageHashes (sha3 : List Byte → Digest) (heap : Heap) (h : ℕ) (ps : List CStr) :
    Target sha3 heap h (leafAt (2 ^ (h - 1)) ps) (pageHashes sha3 heap h ps) :=
  BinTree.solves_solution _ _

theorem leafHash_eq (hfill : printDigest (sha3 filler.bytes) = fillerHash) (d : CStr) :
    leafHash sha3 d = printDigest (sha3 d.bytes) := by
  unfold leafHash
  split_ifs with hd
  · rw [hd, hfill]
  · rfl

theorem pageHashes_eq (hfill : printDigest (sha3 filler.bytes) = fillerHash) (hi : 1 ≤ i)
    (hi' : i < 2 ^ h) :
    pageHashes sha3 heap h ps i = printDigest (sha3 (handed sha3 heap h ps i)) := by
  have hτ := target_pageHashes sha3 heap h ps
  unfold handed
  split_ifs with hin
  · rw [hτ.inner i hi hin]; rfl
  · rw [hτ.leaf i (by omega) hi', leafHash_eq hfill]

theorem handed_inner (hfill : printDigest (sha3 filler.bytes) = fillerHash) (hh : 1 ≤ h)
    (hi : 1 ≤ i) (hi' : i < 2 ^ (h - 1)) :
    handed sha3 heap h ps i =
      shown sha3 (2 * i) (handed sha3 heap h ps (2 * i)) ++
        shown sha3 (2 * i + 1) (handed sha3 heap h ps (2 * i + 1)) ++
          (CStr.ofBlock (heap.tail i)).bytes := by
  have hp := BinTree.two_pow_pred hh
  conv_lhs => rw [handed, if_pos hi']
  rw [pageHashes_eq hfill (by omega) (by omega), pageHashes_eq hfill (by omega) (by omega),
    bytes_concat (strlen_printDigest _).1 (strlen_printDigest _).1, shown, shown,
    if_neg (by omega), if_neg (by omega)]
  rfl

theorem length_kept (d : Digest) : (kept d).length = 32 := by
  have hlen := (strlen_printDigest d).1
  rw [kept, List.length_take]
  exact Nat.min_eq_left hlen

theorem length_shown {s : List Byte} (hi : i ≠ 1) : (shown sha3 i s).length = 32 := by
  rw [shown, if_neg hi, length_kept]

theorem shown_ne_iff :
    shown sha3 i (handed sha3 heap h ps i) ≠ shown sha3 i (handed sha3 heap' h qs i) ↔
      handed sha3 heap h ps i ≠ handed sha3 heap' h qs i ∧ ¬ Masked sha3 heap heap' h ps qs i := by
  unfold Masked
  constructor
  · exact fun hne => ⟨fun heq => hne (by rw [heq]), fun hm => hne hm.2⟩
  · exact fun ⟨hne, hm⟩ heq => hm ⟨hne, heq⟩

theorem append_eq_iff {l l' t t' : List Byte} (hl : l.length = l'.length) :
    l ++ t = l' ++ t' ↔ l = l' ∧ t = t' :=
  ⟨fun heq => List.append_inj heq hl, fun ⟨heq, heq'⟩ => by rw [heq, heq']⟩

/-- Differences spread from the sources towards the root. -/
theorem spreads (hfill : printDigest (sha3 filler.bytes) = fillerHash) (hh : 1 ≤ h) :
    BinTree.Spreads h (Source heap heap' h ps qs) (Masked sha3 heap heap' h ps qs)
      fun i => handed sha3 heap h ps i ≠ handed sha3 heap' h qs i := by
  refine ⟨fun i hi hi' => ?_, fun i hi hi' => ?_⟩
  · rw [handed, handed, Source, if_neg (by omega), if_neg (by omega), if_neg (by omega), ne_eq,
      ← CStr.ext_iff]
  · rw [← shown_ne_iff, ← shown_ne_iff, handed_inner hfill hh hi hi', handed_inner hfill hh hi hi',
      Source, if_pos hi']
    have hlen : ∀ c s s', c ≠ 1 → (shown sha3 c s).length = (shown sha3 c s').length :=
      fun c s s' hc => by rw [length_shown hc, length_shown hc]
    have hl := hlen (2 * i) (handed sha3 heap h ps (2 * i)) (handed sha3 heap' h qs (2 * i))
      (by omega)
    have hr := hlen (2 * i + 1) (handed sha3 heap h ps (2 * i + 1))
      (handed sha3 heap' h qs (2 * i + 1)) (by omega)
    rw [ne_eq, List.append_assoc, List.append_assoc, append_eq_iff hl, append_eq_iff hr,
      ne_eq, ← CStr.ext_iff, not_and_or, not_and_or, ← or_assoc]
    exact or_comm

/-- The roots differ exactly when some difference reaches them. -/
theorem root_ne_iff (hfill : printDigest (sha3 filler.bytes) = fillerHash) (hh : 1 ≤ h) :
    pageHashes sha3 heap h ps 1 ≠ pageHashes sha3 heap' h qs 1 ↔
      ∃ j ∈ BinTree.Nodes h, Source heap heap' h ps qs j ∧
        ∀ i, 1 ≤ i → BinTree.Below i j → ¬ Masked sha3 heap heap' h ps qs i := by
  have hone : 1 < 2 ^ h := Nat.one_lt_two_pow (by omega)
  rw [← (spreads hfill hh).root_iff hh, ← shown_ne_iff, shown, shown, if_pos rfl, if_pos rfl,
    pageHashes_eq hfill le_rfl hone, pageHashes_eq hfill le_rfl hone, ne_eq, CStr.ext_iff]

theorem buildTree_root {mt₀ mt : MerkleTree} (hh : 1 ≤ h) (hmt : mt₀.treeHeight = h)
    (hl : Layout datas 0 ps) (hps : ps.length = 2 ^ (h - 1))
    (hb : buildTree sha3 heap mt₀ datas = .ok (0, mt)) :
    Builds heap h ps ∧ (mt.nodes 1).hash = some (pageHashes sha3 heap h ps 1) := by
  have hone : 1 < 2 ^ h := Nat.one_lt_two_pow (by omega)
  obtain ⟨hh', hheap, ss, τ, hw, hfit, hτ, rfl⟩ := buildTree_eq_ok hh hmt hb
  rw [walk_eq_some_iff.2 ⟨hl, hps⟩] at hw
  obtain rfl := Option.some.inj hw
  refine ⟨⟨hh', hheap, hfit⟩, ?_⟩
  rw [builtTree, ← hτ.unique hh (target_pageHashes _ _ _ _) 1 le_rfl hone]
  exact if_pos ⟨le_rfl, hone⟩

/-! ### Digests that look alike -/

theorem Heap.length_tail (heap : Heap) (i : ℕ) : (heap.tail i).length = 448 := by
  rw [Heap.tail, List.length_map, List.length_range]
  rfl

/-- What is handed over could be a page. -/
theorem exists_handed (sha3 : List Byte → Digest) (heap : Heap) (hh : 1 ≤ h)
    (hps : ps.length = 2 ^ (h - 1)) (hne : ∀ p ∈ ps, p ≠ .nil) (hfit : Fits 0 ps) (hi : 1 ≤ i)
    (hi' : i < 2 ^ h) :
    ∃ s, IsLeafString s ∧ handed sha3 heap h ps i = s.bytes := by
  have hp := BinTree.two_pow_pred hh
  unfold handed
  split_ifs with hin
  · refine ⟨_, ⟨fun hnil => ?_, ?_⟩, rfl⟩
    all_goals
      have hτ := target_pageHashes sha3 heap h ps
      have hbytes : (concat heap i _ _).bytes = _ := bytes_concat
        (strlen_target hτ (i := 2 * i) (by omega) (by omega))
        (strlen_target hτ (i := 2 * i + 1) (by omega) (by omega))
      have hl := strlen_target hτ (i := 2 * i) (by omega) (by omega)
    · rw [hnil] at hbytes
      have hlen := congrArg List.length hbytes
      rw [List.length_append, List.length_append, List.length_take, CStr.bytes_nil,
        List.length_nil] at hlen
      unfold CStr.strlen at hl
      omega
    · have htail := CStr.strlen_ofBlock_le (heap.tail i)
      rw [Heap.length_tail] at htail
      have hlen := congrArg List.length hbytes
      rw [List.length_append, List.length_append, List.length_take, List.length_take] at hlen
      unfold CStr.strlen at htail ⊢
      unfold PTR_SIZE PAGE_LENGTH
      omega
  · obtain ⟨j, rfl⟩ := Nat.exists_eq_add_of_le (not_lt.1 hin)
    have hj : j < ps.length := by omega
    refine ⟨ps[j], ⟨hne _ (List.getElem_mem hj), (fits_iff.1 hfit).1 _ (List.getElem_mem hj)⟩, ?_⟩
    rw [leafAt_add, List.getElem?_eq_getElem hj]
    rfl

theorem LooksApart.not_masked (hapart : LooksApart sha3) (hh : 1 ≤ h)
    (hps : ps.length = 2 ^ (h - 1)) (hqs : qs.length = 2 ^ (h - 1)) (hne : ∀ p ∈ ps, p ≠ .nil)
    (hne' : ∀ q ∈ qs, q ≠ .nil) (hfit : Fits 0 ps) (hfit' : Fits 0 qs)
    (hcol : ¬ Collision sha3 heap heap' h ps qs) (hi : 1 ≤ i) (hi' : i < 2 ^ h) :
    ¬ Masked sha3 heap heap' h ps qs i := by
  rintro ⟨hdiff, hsame⟩
  obtain ⟨s, hs, heq⟩ := exists_handed sha3 heap hh hps hne hfit hi hi'
  obtain ⟨t, ht, heq'⟩ := exists_handed sha3 heap' hh hqs hne' hfit' hi hi'
  have hdigest : sha3 s.bytes ≠ sha3 t.bytes := fun hsha =>
    hcol ⟨_, ⟨i, ⟨hi, hi'⟩, .inl rfl⟩, _, ⟨i, ⟨hi, hi'⟩, .inr rfl⟩, hdiff, by rw [heq, heq', hsha]⟩
  refine hapart s t hs ht hdigest ?_
  rw [heq, heq', shown, shown] at hsame
  split_ifs at hsame
  · rw [kept, kept, hsame]
  · exact hsame

/-- When no digests look alike, equal roots mean equal pages or a collision. -/
theorem LooksApart.commitsToPages (hfill : printDigest (sha3 filler.bytes) = fillerHash)
    (hapart : LooksApart sha3) : CommitsToPages sha3 := by
  intro heap heap' h ps qs datas datas' hh hps hqs hne hne' hl hl' mt₀ mt₀' mt mt' hmt hmt' hb hb'
    hroot
  have hp := BinTree.two_pow_pred hh
  obtain ⟨⟨-, -, hfit⟩, hmt₁⟩ := buildTree_root hh hmt hl hps hb
  obtain ⟨⟨-, -, hfit'⟩, hmt₁'⟩ := buildTree_root hh hmt' hl' hqs hb'
  rw [hmt₁, hmt₁'] at hroot
  by_cases hcol : Collision sha3 heap heap' h ps qs
  · exact .inr hcol
  refine .inl (List.ext_getElem (by omega) fun j hj hj' => ?_)
  by_contra hpage
  -- a leaf with different pages is a source, and nothing masks it
  refine (root_ne_iff hfill hh).2 ⟨2 ^ (h - 1) + j, ⟨?_, ?_⟩, ?_, fun i hi hbelow => ?_⟩
    (Option.some.inj hroot)
  · have := Nat.two_pow_pos (h - 1)
    omega
  · omega
  · rw [Source, if_neg (by omega), leafAt_add, leafAt_add, List.getElem?_eq_getElem hj,
      List.getElem?_eq_getElem hj']
    exact hpage
  · have hle := hbelow.le
    exact hapart.not_masked hh hps hqs hne hne' hfit hfit' hcol hi (by omega)

theorem fits_pair (hs : IsLeafString s) (ht : IsLeafString t) : Fits 0 [s, t] := by
  refine ⟨hs.2, Nat.zero_le _, ht.2, ?_, trivial⟩
  have hroom := hs.2
  unfold PTR_SIZE PAGE_LENGTH at hroom
  unfold INT_MAX
  omega

theorem handed_root (hfill : printDigest (sha3 filler.bytes) = fillerHash) :
    handed sha3 .nul 2 [s, t] 1 = kept (sha3 s.bytes) ++ kept (sha3 t.bytes) := by
  rw [handed_inner hfill (by decide) le_rfl (by decide)]
  exact List.append_nil _

/-- Two trees of two pages have the same root if the digests of their first pages look alike. -/
theorem not_commitsToPages (hfill : printDigest (sha3 filler.bytes) = fillerHash)
    (hs : IsLeafString s) (ht : IsLeafString t) (hkept : kept (sha3 s.bytes) = kept (sha3 t.bytes))
    (hst : sha3 s.bytes ≠ sha3 t.bytes) (hu : u.bytes = kept (sha3 s.bytes) ++ kept (sha3 s.bytes))
    (hus : u = s ∨ sha3 u.bytes ≠ sha3 s.bytes) (hut : sha3 u.bytes ≠ sha3 t.bytes) :
    ¬ CommitsToPages sha3 := by
  intro hcommit
  have hbuild : ∀ p, IsLeafString p → (∀ q ∈ [p, s], q ≠ .nil) ∧ ∃ mt,
      buildTree sha3 .nul (.blank 0 2) (arrayOf [p, s]) = .ok (0, mt) ∧
        (mt.nodes 1).hash = some (pageHashes sha3 .nul 2 [p, s] 1) := by
    intro p hp
    have hne : ∀ q ∈ [p, s], q ≠ .nil := by
      intro q hq
      rcases List.mem_cons.1 hq with rfl | hq
      · exact hp.1
      · rw [List.mem_singleton.1 hq]
        exact hs.1
    obtain ⟨τ, -, hb⟩ := exists_builtTree sha3 (h := 2) (by decide) (by decide)
      (layout_arrayOf hne) rfl (fits_pair hp hs)
    exact ⟨hne, _, hb, (buildTree_root (by decide) rfl (layout_arrayOf hne) rfl hb).2⟩
  obtain ⟨hne, mt, hb, hroot⟩ := hbuild s hs
  obtain ⟨hne', mt', hb', hroot'⟩ := hbuild t ht
  have hsame : (mt.nodes 1).hash = (mt'.nodes 1).hash := by
    rw [hroot, hroot', pageHashes_eq hfill le_rfl (by decide),
      pageHashes_eq hfill le_rfl (by decide), handed_root hfill, handed_root hfill, hkept]
  rcases hcommit .nul .nul 2 [s, s] [t, s] _ _ (by decide) rfl rfl hne hne' (layout_arrayOf hne)
    (layout_arrayOf hne') _ _ _ _ rfl rfl hb hb' hsame with heq | ⟨x, hx, y, hy, hxy, hsha⟩
  · obtain ⟨rfl, -⟩ := List.cons.inj heq
    exact hst rfl
  · -- the strings handed over are the two pages and the one for the root
    have hthree : ∀ x ∈ handedStrings sha3 .nul .nul 2 [s, s] [t, s],
        x = s.bytes ∨ x = t.bytes ∨ x = u.bytes := by
      rintro x ⟨i, ⟨hi, hi'⟩, hx⟩
      have hcases : i = 1 ∨ i = 2 ∨ i = 3 := by omega
      rcases hcases with rfl | rfl | rfl
      · rw [handed_root hfill, handed_root hfill, ← hkept, ← hu] at hx
        exact .inr (.inr (hx.elim id id))
      · exact hx.imp id .inl
      · exact .inl (hx.elim id id)
    have hsu : u.bytes ≠ s.bytes → sha3 u.bytes ≠ sha3 s.bytes := fun hne =>
      hus.resolve_left fun heq => hne (congrArg CStr.bytes heq)
    rcases hthree x hx with rfl | rfl | rfl <;> rcases hthree y hy with rfl | rfl | rfl
    · exact hxy rfl
    · exact hst hsha
    · exact hsu hxy.symm hsha.symm
    · exact hst hsha.symm
    · exact hxy rfl
    · exact hut hsha.symm
    · exact hsu hxy hsha
    · exact hut hsha
    · exact hxy rfl

/-- **The root commits to the pages** exactly when no two digests look alike. -/
theorem commitsToPages_iff (hfill : printDigest (sha3 filler.bytes) = fillerHash) :
    CommitsToPages sha3 ↔ LooksApart sha3 := by
  refine ⟨fun hcommit s t hs ht hst hkept => ?_, LooksApart.commitsToPages hfill⟩
  have hne : ∀ p ∈ [s, s], p ≠ .nil := by simp [hs.1]
  obtain ⟨u, hu, hbytes⟩ := exists_handed (i := 1) sha3 .nul (h := 2) (by decide) rfl hne
    (fits_pair hs hs) le_rfl (by decide)
  rw [handed_root hfill] at hbytes
  by_cases hus : sha3 u.bytes = sha3 s.bytes
  · -- then this string is a page that looks like `t` as well
    refine not_commitsToPages hfill hu ht (by rw [hus, hkept]) (by rwa [hus]) ?_ (.inl rfl)
      (by rwa [hus]) hcommit
    rw [hus, hbytes]
  by_cases hut : sha3 u.bytes = sha3 t.bytes
  · refine not_commitsToPages hfill hu hs (by rw [hut, hkept]) (by rwa [hut, ne_comm]) ?_ (.inl rfl)
      (by rwa [hut, ne_comm]) hcommit
    rw [hut, ← hkept, hbytes]
  · exact not_commitsToPages hfill hs ht hkept hst hbytes.symm (.inr hus) hut hcommit

/-! ### Two pages with one root -/

/-- A digest that starts with the bytes `b₀` and `b₁`. -/
def digestOf (b₀ b₁ : Byte) : Digest :=
  ⟨b₀ :: b₁ :: List.replicate 30 0, by simp [HASH_SIZE, BYTE_SIZE]⟩

/-- The digest behind `fillerHash`. -/
def fillerDigest : Digest where
  bytes := [0x60, 0xe8, 0x93, 0xe6, 0xd5, 0x4d, 0x85, 0x26, 0xe5, 0x5a, 0x81, 0xf9, 0x8b, 0xfa,
    0xc5, 0xda, 0x23, 0x6b, 0xb2, 0x3e, 0x84, 0xed, 0x59, 0x67, 0xa8, 0xf5, 0x27, 0xd5, 0xbf,
    0x3d, 0x4a, 0x04]
  length_eq := rfl

/-- The page `b`. -/
def pageB : CStr := .ofString "b" (by decide)

/-- A hash function that tells the pages `a` and `b` apart, although their digests `01 11 …` and
`11 01 …` are both printed as `111…`. -/
def twoDigests (s : List Byte) : Digest :=
  if s = filler.bytes then fillerDigest
  else if s = pageA.bytes then digestOf 0x01 0x11
  else digestOf 0x11 0x01

/-- A hash function with two digests that do not look alike. -/
def fillerApart (s : List Byte) : Digest :=
  if s = filler.bytes then fillerDigest else zeroDigest

theorem looksApart_fillerApart : LooksApart fillerApart := by
  intro s t _ _ hne
  unfold fillerApart at hne ⊢
  split_ifs at hne ⊢ with hs ht ht
  · exact absurd rfl hne
  · decide
  · decide
  · exact absurd rfl hne

theorem commitsToPages_digests : CommitsToPages fillerApart ∧ ¬ CommitsToPages twoDigests := by
  refine ⟨(commitsToPages_iff (by decide)).2 looksApart_fillerApart, fun hcommit => ?_⟩
  exact (commitsToPages_iff (by decide)).1 hcommit pageA pageB ⟨by decide, by decide⟩
    ⟨by decide, by decide⟩ (by decide) (by decide)

theorem exists_rootHash (sha3 : List Byte → Digest) (hs : IsLeafString s) :
    Layout (arrayOf [s]) 0 [s] ∧ ∃ mt,
      buildTree sha3 .nul (.blank 0 1) (arrayOf [s]) = .ok (0, mt) ∧
        (mt.nodes 1).hash = some (leafHash sha3 s) := by
  have hl : Layout (arrayOf [s]) 0 [s] := layout_arrayOf fun p hp => by
    rw [List.mem_singleton.1 hp]
    exact hs.1
  obtain ⟨τ, -, hb⟩ := exists_builtTree sha3 le_rfl (by decide) hl rfl
    ⟨hs.2, Nat.zero_le _, trivial⟩
  refine ⟨hl, _, hb, ?_⟩
  rw [(buildTree_root le_rfl rfl hl rfl hb).2,
    (target_pageHashes sha3 .nul 1 [s]).leaf 1 le_rfl (by decide)]
  rfl

/-- The trees of the pages `a` and `b` have the same root. -/
theorem not_rootCommits_twoDigests :
    ¬ ∀ (sha3 : List Byte → Digest) (h : ℕ) (ps qs : List CStr) (datas datas' : ℕ → Ptr),
      printDigest (sha3 filler.bytes) = fillerHash → 1 ≤ h → ps.length = 2 ^ (h - 1) →
      qs.length = 2 ^ (h - 1) → (∀ p ∈ ps, p ≠ .nil) → (∀ q ∈ qs, q ≠ .nil) →
      Layout datas 0 ps → Layout datas' 0 qs →
        RootCommits sha3 .nul .nul h ps qs datas datas' := by
  intro hall
  obtain ⟨hl, mt, hmt, hroot⟩ := exists_rootHash twoDigests (s := pageA) ⟨by decide, by decide⟩
  obtain ⟨hl', mt', hmt', hroot'⟩ := exists_rootHash twoDigests (s := pageB) ⟨by decide, by decide⟩
  have hsame : leafHash twoDigests pageA = leafHash twoDigests pageB := by decide
  rcases hall twoDigests 1 [pageA] [pageB] _ _ (by decide) le_rfl rfl rfl (by decide) (by decide)
    hl hl' (.blank 0 1) (.blank 0 1) mt mt' rfl rfl hmt hmt'
    (by rw [hroot, hroot', hsame]) with heq | ⟨x, hx, y, hy, hxy, hsha⟩
  · exact absurd heq (by decide)
  · -- the strings handed over are the two pages, which have different digests
    have hpage : ∀ s ∈ handedStrings twoDigests .nul .nul 1 [pageA] [pageB],
        s = pageA.bytes ∨ s = pageB.bytes := by
      rintro s ⟨i, ⟨hi, hi'⟩, hs⟩
      obtain rfl : i = 1 := by omega
      exact hs
    rcases hpage x hx with rfl | rfl <;> rcases hpage y hy with rfl | rfl
    · exact hxy rfl
    · exact absurd hsha (by decide)
    · exact absurd hsha (by decide)
    · exact hxy rfl

end MerkleFs
