import MerkleFs.Sha3.Sponge
import MerkleFs.Tree.Commit

/-!
# Trees with SHA3-256

The results about trees hold for any hash function.  `hash_node` uses the one in `sha3.c`
(`sha3Hash`), with a shortcut: the hash of the filler page is written down in the source.  It is
the right one (`printDigest_filler`), so that all nodes have the SHA3-256 hashes of what was handed
over for them (`buildTree_sha3`).

To compute a hash in a proof, `keccakf` has to be evaluated round by round: `freeze` goes on with a
state only when its words are numbers.
-/

namespace MerkleFs

/-- The hash that `hash_node` computes: `sha3_Init256`, `sha3_Update`, and the first bytes of what
`sha3_Finalize` returns. -/
def sha3Hash (buf : List Byte) : Digest where
  bytes := (sha3Finalize (sha3Update (sha3Init 256) buf)).take (HASH_SIZE / BYTE_SIZE)
  length_eq := by
    rw [List.length_take, sha3Finalize, length_stateBytes]
    rfl

theorem dataBits_sha3Hash (buf : List Byte) :
    dataBits (sha3Hash buf).bytes = Keccak.sha3 256 (dataBits buf) := by
  have h := sha3Finalize_bits (by decide : 256 ∈ [256, 384, 512]) [buf]
  rwa [List.flatten_singleton] at h

/-! ### Evaluation -/

section Freeze

variable {α : Type}

/-- Goes on with `n` when it is a numeral. -/
def force (n : ℕ) (k : ℕ → α) : α :=
  match n with
  | 0 => k 0
  | n + 1 => k (n + 1)

/-- Goes on with the words at `is`. -/
def forceWords (s : Words) (k : List ℕ → α) : List (Fin 25) → List ℕ → α
  | [], ns => k ns
  | i :: is, ns => force (s.get i).toNat fun n => forceWords s k is (n :: ns)

/-- Goes on with the state. -/
def freeze (s : Words) (k : Words → α) : α :=
  forceWords s (fun ns => k (Vector.ofFn fun i : Fin 25 => BitVec.ofNat 64 (ns.getD i 0)))
    (List.finRange 25).reverse []

/-- Goes on after the rounds `is`. -/
def freezeRounds (k : Words → α) : List (Fin 24) → Words → α
  | [], s => k s
  | i :: is, s =>
    freeze (keccakfTheta s) fun s => freeze (keccakfRhoPi s) fun s =>
      freeze (xorWord (keccakfChi s) 0 (keccakfRndc.get i)) (freezeRounds k is)

variable {k : Words → α}

theorem force_eq (n : ℕ) (k : ℕ → α) : force n k = k n := by
  cases n <;> rfl

theorem forceWords_eq (s : Words) (k : List ℕ → α) (is : List (Fin 25)) (ns : List ℕ) :
    forceWords s k is ns = k ((is.map fun i => (s.get i).toNat).reverse ++ ns) := by
  induction is generalizing ns with
  | nil => rfl
  | cons i is ih => rw [forceWords, force_eq, ih, List.map_cons, List.reverse_cons,
      List.append_assoc, List.singleton_append]

theorem freeze_eq (s : Words) : freeze s k = k s := by
  rw [freeze, forceWords_eq, List.map_reverse, List.reverse_reverse, List.append_nil]
  refine congrArg k (Vector.ext fun i hi => ?_)
  rw [Vector.getElem_ofFn, List.getD_eq_getElem _ _ (by simpa using hi), List.getElem_map,
    List.getElem_finRange]
  exact (BitVec.ofNat_toNat _ _).trans (BitVec.setWidth_eq _)

theorem freezeRounds_eq (is : List (Fin 24)) (s : Words) :
    freezeRounds k is s = k (is.foldl keccakfRound s) := by
  induction is generalizing s with
  | nil => rfl
  | cons i is ih =>
    rw [freezeRounds, freeze_eq, freeze_eq, freeze_eq, ih, List.foldl_cons, keccakfRound]

end Freeze

theorem bytes_printDigest_sha3Hash (buf : List Byte) : (printDigest (sha3Hash buf)).bytes =
    freezeRounds (fun s => ((stateBytes s).take (HASH_SIZE / BYTE_SIZE)).flatMap sprintfX)
      (List.finRange 24) (finalWords (sha3Update (sha3Init 256) buf)) := by
  rw [freezeRounds_eq, ← keccakf, ← sha3Finalize_eq]
  simp only [printDigest, sha3Hash]

/-- The hash that is written down is that of the filler page. -/
theorem printDigest_filler : printDigest (sha3Hash filler.bytes) = fillerHash := by
  rw [CStr.ext_iff, bytes_printDigest_sha3Hash]
  decide +kernel

/-! ### Nodes -/

/-- **The shortcut agrees with the hash function**: every leaf has the SHA3-256 hash of its page. -/
theorem leafHash_sha3Hash (d : CStr) : leafHash sha3Hash d = printDigest (sha3Hash d.bytes) :=
  leafHash_eq printDigest_filler d

variable {heap : Heap} {h i : ℕ} {ps : List CStr} {datas : ℕ → Ptr} {mt₀ mt : MerkleTree}

/-- **The nodes of a tree have SHA3-256 hashes**: each is the printed SHA3-256 hash of the string
that was handed over for the node. -/
theorem buildTree_sha3 (hh : 1 ≤ h) (hmt : mt₀.treeHeight = h) (hl : Layout datas 0 ps)
    (hps : ps.length = 2 ^ (h - 1)) (hb : buildTree sha3Hash heap mt₀ datas = .ok (0, mt))
    (hi : 1 ≤ i) (hi' : i < 2 ^ h) :
    ∃ d : Digest, (mt.nodes i).hash = some (printDigest d) ∧
      dataBits d.bytes = Keccak.sha3 256 (dataBits (handed sha3Hash heap h ps i)) := by
  obtain ⟨-, -, ss, τ, hw, -, hτ, rfl⟩ := buildTree_eq_ok hh hmt hb
  rw [walk_eq_some_iff.2 ⟨hl, hps⟩] at hw
  obtain rfl := Option.some.inj hw
  refine ⟨sha3Hash (handed sha3Hash heap h ps i), ?_, dataBits_sha3Hash _⟩
  rw [← pageHashes_eq printDigest_filler hi hi',
    ← hτ.unique hh (target_pageHashes _ _ _ _) i hi hi']
  exact if_pos ⟨hi, hi'⟩

theorem buildTree_sha3_fourPages :
    ∃ mt, buildTree sha3Hash .nul (.blank 0 3) (arrayOf fourPages) = .ok (0, mt) ∧
      ∃ d : Digest, (mt.nodes 1).hash = some (printDigest d) ∧
        dataBits d.bytes = Keccak.sha3 256 (dataBits (handed sha3Hash .nul 3 fourPages 1)) := by
  obtain ⟨τ, -, hb⟩ := exists_builtTree sha3Hash (h := 3) (by decide) (by decide) layout_fourPages
    rfl fits_fourPages
  exact ⟨_, hb, buildTree_sha3 (by decide) rfl layout_fourPages rfl hb le_rfl (by decide)⟩

end MerkleFs
