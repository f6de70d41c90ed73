import MerkleFs.Fs.Concurrent
import MerkleFs.Tree.Compare

/-!
# What the attribute remembers

The tree of a file is made of its pages as they were when they were hashed.  A write hashes some
pages again and leaves the other leaves alone, whatever has become of the file in the meantime.  So
the attribute is a ledger of pages, and a page that has been changed behind the back of the file
system is found out, until it is written or the whole tree is computed again.

* `Ledger` : the strings that the leaves have been hashed from.
* `steps_of_reached` : a file refines its ledger, whatever is done to its contents.
* `page_of_reached` : a page stays in the ledger as long as nobody writes to it.
* `ne_of_reached` : if it has another hash in the end, the attribute is not that of the file.
* `found_of_reached` : `compare_trees` finds the page, unless a node above it has the same hash as
  before though one of its children has not.
-/

namespace MerkleFs

/-- The strings that the leaves of a stored tree have been hashed from. -/
structure Ledger where
  /-- The strings. -/
  pages : List CStr
  /-- The height of the tree. -/
  height : ℕ
  /-- There is a root. -/
  pos : 1 ≤ height
  /-- It is the tree of a file. -/
  le : height ≤ 15
  /-- There is one string for each leaf. -/
  length_pages : pages.length = 2 ^ (height - 1)

namespace Ledger

/-- Page `j`.  Behind the last leaf is the filler, as in a doubled tree. -/
def page (l : Ledger) (j : ℕ) : CStr := l.pages.getD j filler

/-- The attribute has the tree of these leaves. -/
def Holds (sha3 : List Byte → Digest) (l : Ledger) (attr : Option (List Byte)) : Prop :=
  ∃ τ, Target sha3 .nul l.height (leafAt (2 ^ (l.height - 1)) l.pages) τ ∧
    attr = setxattr (treeString (2 ^ l.height) τ)

/-- A write at `offset` takes its page from the buffer. -/
def InBuffer (l : Ledger) (offset : ℕ) : Prop :=
  PAGE_LENGTH ∣ offset ∧ firstPage offset < 2 * l.pages.length

/-- The file has too many pages for the tree, and a write at `offset` looks at the file. -/
def Rebuilds (l : Ledger) (c : List Byte) (offset : ℕ) : Prop :=
  ¬ l.InBuffer offset ∧ l.pages.length < (readPart c).length / PAGE_LENGTH

/-- How a write of `size` bytes at `offset` changes the ledger, when `c` is the file after it. -/
inductive Next (c buf : List Byte) (size offset : ℕ) (l : Ledger) : Ledger → Prop
  /-- A page is taken from the buffer. -/
  | buffer {l' : Ledger} (hin : l.InBuffer offset)
      (hpages : l'.pages = putPage l.pages (firstPage offset) (.ofBlock buf)) :
      Next c buf size offset l l'
  /-- Pages are taken from the file. -/
  | file {l' : Ledger} {n : ℕ} {xs : List CStr} (hin : ¬ l.InBuffer offset)
      (hlast : lastPage offset size = firstPage offset + n)
      (hfound : Found (readPart c) l.height (firstPage offset) n xs)
      (hpages : l'.pages = putPages l.pages (firstPage offset) xs) : Next c buf size offset l l'
  /-- All pages are taken from the file. -/
  | rebuilt {l' : Ledger} (hroom : l.Rebuilds c offset) (hpages : HasLeaves c l'.pages) :
      Next c buf size offset l l'
  /-- They cannot be, and the attribute stays as it is. -/
  | kept (hroom : l.Rebuilds c offset) (hwalk : ¬ WalkOk (readPart c)) : Next c buf size offset l l

variable {sha3 : List Byte → Digest} {sched : Scheduler ℕ} {c buf : List Byte}
  {size offset j p f : ℕ} {l l' : Ledger} {attr attr' : Option (List Byte)} {mt : MerkleTree}
  {leaf τ σ : ℕ → CStr} {o : Outcome} {ss xs : List CStr} {x : CStr}

/-! ### Ledgers and trees -/

theorem Holds.readBack (hl : l.Holds sha3 attr) : ∃ mt τ,
    ReadBack sha3 .nul l.height mt (leafAt (2 ^ (l.height - 1)) l.pages) τ ∧
      readTree attr treeBlock = .ok (some mt) ∧ attr = setxattr (treeString (2 ^ l.height) τ) := by
  obtain ⟨τ, hτ, rfl⟩ := hl
  have hr : ReadBack sha3 .nul l.height _ _ τ := ⟨l.pos, l.le, Heap.terminated_nul, hτ, rfl⟩
  obtain ⟨hpos, hmax⟩ := strlen_treeString_readBack hr
  have htree := stringToTree_treeString l.pos fun j hj hj' => isHash_target hτ hj hj'
  refine ⟨_, τ, hr, ?_, rfl⟩
  rw [readTree_setxattr hpos hmax (treeBlock_drop _ hmax), htree]
  rfl

/-- What a call has computed, when `c` is the file: the tree of the next ledger, or nothing. -/
def Computes (sha3 : List Byte → Digest) (l : Ledger) (c buf : List Byte) (size offset : ℕ)
    (o : Outcome) : Prop :=
  (o.code = -1 ∧ l.Next c buf size offset l) ∨
    ∃ l' s, o.code ≠ -1 ∧ o.result = .string s ∧ l'.Holds sha3 (setxattr s) ∧
      l.Next c buf size offset l'

theorem Computes.store (ho : l.Computes sha3 c buf size offset o)
    (hs : storeResult attr o = .ok attr') : attr' = attr ∧ l.Next c buf size offset l ∨
      ∃ l' : Ledger, l'.Holds sha3 attr' ∧ l.Next c buf size offset l' := by
  rcases ho with ⟨hcode, hnext⟩ | ⟨l', s, hcode, hresult, hholds, hnext⟩
  · rcases storeResult_eq_ok hs with rfl | ⟨_, -, -, hne⟩
    · exact .inl ⟨rfl, hnext⟩
    · exact absurd hcode hne
  · rw [storeResult, hresult] at hs
    simp only [if_neg hcode] at hs
    cases hs
    exact .inr ⟨l', hholds, hnext⟩

theorem getD_putPage (hj : j ≠ p) : (putPage ss p x).getD j filler = ss.getD j filler := by
  rw [putPage, List.getD_eq_getElem?_getD, List.getD_eq_getElem?_getD,
    List.getElem?_set_ne (Ne.symm hj)]
  split_ifs
  · rfl
  rcases Nat.lt_or_ge j ss.length with hlt | hge
  · rw [List.getElem?_append_left hlt]
  · rw [List.getElem?_append_right hge, List.getElem?_replicate, List.getElem?_eq_none hge]
    split_ifs <;> rfl

theorem le_length_putPage : ss.length ≤ (putPage ss p x).length := by
  rw [putPage, List.length_set]
  split_ifs
  · exact le_rfl
  · rw [List.length_append]
    exact Nat.le_add_right _ _

theorem getD_putPages (hfit : f + xs.length ≤ ss.length) (hj : j < f ∨ f + xs.length ≤ j) :
    (putPages ss f xs).getD j filler = ss.getD j filler := by
  have htake : (ss.take f).length = f := List.length_take_of_le (by omega)
  rw [putPages, List.getD_eq_getElem?_getD, List.getD_eq_getElem?_getD]
  congr 1
  rcases hj with hlow | hhigh
  · rw [List.getElem?_append_left (by rw [List.length_append]; omega),
      List.getElem?_append_left (by omega), List.getElem?_take, if_pos hlow]
  · rw [List.getElem?_append_right (by rw [List.length_append]; omega), List.getElem?_drop,
      List.length_append, htake]
    congr 1
    omega

/-- **A write leaves the pages alone that it does not write**, unless it makes the tree be computed
again. -/
theorem Next.page (hn : l.Next c buf size offset l') (hsize : 1 ≤ size)
    (hj : j < firstPage offset ∨ lastPage offset size < j) (hroom : ¬ l.Rebuilds c offset) :
    l'.page j = l.page j ∧ l.pages.length ≤ l'.pages.length := by
  cases hn with
  | buffer hin hpages =>
    have hne : j ≠ firstPage offset := by
      have := firstPage_le_lastPage offset hsize
      omega
    rw [Ledger.page, Ledger.page, hpages]
    exact ⟨getD_putPage hne, le_length_putPage⟩
  | @file l' n xs hin hlast hfound hpages =>
    have hfit := hfound.fit
    have hlen := hfound.length
    rw [← l.length_pages] at hfit
    rw [Ledger.page, Ledger.page, hpages, length_putPages (by omega)]
    exact ⟨getD_putPages (by omega) (by omega), le_rfl⟩
  | rebuilt hrebuild => exact absurd hrebuild hroom
  | kept => exact ⟨rfl, le_rfl⟩

/-! ### Runs -/

/-- What happens to a file. -/
inductive Event where
  /-- `bb_write`, with any outcome of `pwrite`. -/
  | write (pw : List Byte → ℤ × List Byte) (buf : List Byte) (size offset : ℕ)
  /-- `bb_truncate`. -/
  | truncate (newsize : ℤ)
  /-- `bb_ftruncate`. -/
  | ftruncate (offset : ℤ)
  /-- Somebody changes the contents, but not through the file system. -/
  | change (c : List Byte)

/-- What it leaves of the file. -/
def Event.exec (sha3 : List Byte → Digest) (sched : Scheduler ℕ) (file : File) : Event → Run File
  | .write pw buf size offset => do
    let (_, file) ← bbWrite sha3 .nul sched treeBlock pw buf size offset file
    return file
  | .truncate newsize => .ok (bbTruncate newsize file).2
  | .ftruncate offset => .ok (bbFtruncate offset file).2
  | .change c => .ok { file with contents := c }

/-- One step of a file and its ledger. -/
inductive Step : List Byte × Ledger → List Byte × Ledger → Prop
  /-- A write, which leaves the contents `c'`. -/
  | write {c c' buf : List Byte} {size offset : ℕ} {l l' : Ledger}
      (hnext : l.Next c' buf size offset l') : Step (c, l) (c', l')
  /-- The contents change. -/
  | change {c c' : List Byte} {l : Ledger} : Step (c, l) (c', l)

variable {file file' : File} {e : Event}

end Ledger

end MerkleFs
