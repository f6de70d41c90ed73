import MerkleFs.Fs.Write
import MerkleFs.Parse.Found

/-!
# Writes that leave `result` unassigned

`bb_write` frees `result`, whatever the functions it has called returned.  `compute_merkle` and
`m_compute_merkle` assign it before they can fail, `quick_change` assigns it unless it fails, and
then `pages_in_need` is called.  That one assigns it behind `change_and_rebuild`, whose failure it
returns at once.

* `ne_unset_of_mComputeMerkle` : a file without the attribute.
* `ne_unset_of_aligned` : a write to a page boundary.
* `assignsResult_iff` : the writes that assign `result`.
-/

namespace MerkleFs

/-- Whenever the tree of a file, which has its string in the attribute or no attribute, has been
computed after a write, `result` has been assigned.  The string is read back as it was written. -/
def AssignsResult (c data rest : List Byte) (offset : ℕ) : Prop :=
  ∀ sha3 heap sched treeString attr tree o,
    (attr = none ∨ ∃ s, Gives sha3 heap c s ∧ attr = setxattr s ∧
      readTree attr treeString = (do
        let mt ← stringToTree s
        return some mt)) →
    readTree attr treeString = .ok tree →
    updateTree sha3 heap sched (data ++ rest) data.length offset (pwrite c data offset) tree =
      .ok o → o.result ≠ .unset

/-- `change_and_rebuild` fails for the pages `f … f + n` of a file `c'`, in the tree of `c`. -/
structure GivesUp (c c' : List Byte) (f n : ℕ) : Prop where
  /-- The tree has room for the full pages of the file. -/
  room : c'.length / PAGE_LENGTH ≤ leafCount c.length
  /-- The last page does not start behind the end of the file. -/
  last : (f + n) * PAGE_LENGTH ≤ c'.length
  /-- A string is found for each page. -/
  pages : FullOrEmpty c' f n
  /-- The last page has no leaf, or the run of pages overruns the tree. -/
  out : leafCount c.length ≤ f + n ∨ PastEnd c f n

variable {sha3 : List Byte → Digest} {heap : Heap} {sched : Scheduler ℕ}
  {c c' buf data rest treeString : List Byte} {size offset f n T : ℕ} {mt : MerkleTree}
  {ss : List CStr} {leaf τ : ℕ → CStr} {o : Outcome} {tree : Option MerkleTree}

theorem bbWrite_of_unset {pw : List Byte → ℤ × List Byte} {file : File}
    (hread : readTree file.attr treeString = .ok tree)
    (hu : updateTree sha3 heap sched buf size offset (pw file.contents).2 tree = .ok o)
    (hunset : o.result = .unset) :
    bbWrite sha3 heap sched treeString pw buf size offset file = .error .unset := by
  have hstore : storeResult file.attr o = .error .unset := by rw [storeResult, hunset]
  rcases hpw : pw file.contents with ⟨k, contents⟩
  rw [hpw] at hu
  rw [bbWrite, hpw]
  simp only [hread, hu, hstore, Run.ok_bind, Run.error_bind]

/-! ### Functions that assign it -/

theorem ne_unset_of_finishMerkle {p : Parsed} (ho : finishMerkle p mt = .ok o) :
    o.result ≠ .unset := by
  obtain ⟨s, -, ho⟩ := Run.bind_eq_ok.1 ho
  obtain ⟨_, -, ho⟩ := Run.bind_eq_ok.1 ho
  cases ho
  exact Result.noConfusion

theorem ne_unset_of_computeMerkle (ho : computeMerkle sha3 heap (some c) mt = .ok o) :
    o.result ≠ .unset := by
  obtain ⟨_, -, ho⟩ := Run.bind_eq_ok.1 ho
  obtain ⟨p, -, ho⟩ := Run.bind_eq_ok.1 ho
  obtain ⟨_, -, ho⟩ := Run.bind_eq_ok.1 ho
  obtain ⟨⟨code, mt'⟩, -, ho⟩ := Run.bind_eq_ok.1 ho
  simp only at ho
  split_ifs at ho with hcode
  · cases ho
    exact Result.noConfusion
  · exact ne_unset_of_finishMerkle ho

/-- `m_compute_merkle` assigns the result whenever it returns. -/
theorem ne_unset_of_mComputeMerkle (ho : mComputeMerkle sha3 heap sched (some c) mt T = .ok o) :
    o.result ≠ .unset := by
  obtain ⟨_, -, ho⟩ := Run.bind_eq_ok.1 ho
  simp only at ho
  split_ifs at ho with hfew
  · exact ne_unset_of_computeMerkle ho
  obtain ⟨p, -, ho⟩ := Run.bind_eq_ok.1 ho
  obtain ⟨_, -, ho⟩ := Run.bind_eq_ok.1 ho
  obtain ⟨⟨code, mt'⟩, -, ho⟩ := Run.bind_eq_ok.1 ho
  exact ne_unset_of_finishMerkle ho

/-- `quick_change` has assigned it when it returns `0`. -/
theorem ne_unset_of_quickChange {size offset : ℤ}
    (hq : quickChange sha3 heap size offset buf mt = .ok o) (hcode : o.code = 0) :
    o.result ≠ .unset := by
  rw [quickChange] at hq
  obtain ⟨call, -, hq⟩ := Run.bind_eq_ok.1 hq
  cases call with
  | none =>
    cases hq
    cases hcode
  | some x =>
    obtain ⟨⟨code, newMt⟩, -, hq⟩ := Run.bind_eq_ok.1 hq
    rw [finishChange] at hq
    by_cases hfail : code = -1
    · rw [if_pos hfail] at hq
      cases hq
      cases hcode
    · rw [if_neg hfail] at hq
      obtain ⟨s, -, hq⟩ := Run.bind_eq_ok.1 hq
      cases hq
      exact Result.noConfusion

/-! ### Pages from the file -/

/-- **What a write must be for `pages_in_need` not to assign it.** -/
theorem givesUp_of_unset {size offset : ℤ}
    (hr : ReadBack sha3 heap (heightOf (readPart c).length) mt leaf τ)
    (hq : pagesInNeed sha3 heap size offset mt (some c') = .ok o) (hunset : o.result = .unset) :
    0 ≤ intOf c'.length ∧ ∃ f n : ℕ, pageRange size offset = .ok ((f : ℕ), (f + n : ℕ)) ∧
      GivesUp (readPart c) (readPart c') f n := by
  have hpow := leafCount_eq_pow (readPart c).length
  have hint := nonneg_of_pagesInNeed hq
  have hroom : (readPart c').length / PAGE_LENGTH ≤ 2 ^ (heightOf (readPart c).length - 1) := by
    by_contra hlarge
    exact ne_unset_of_computeMerkle
      (computeMerkle_of_pagesInNeed hr.shape (not_le.1 hlarge) hq) hunset
  have hmax : (readPart c').length < 2 ^ 30 + PAGE_LENGTH := by
    have := two_pow_le_of_le hr.le
    unfold PAGE_LENGTH at *
    omega
  rw [pagesInNeed_readPart hint] at hq
  obtain ⟨f, n, ss, hrange, hlast, hl, hss, ⟨hout, -⟩ | ⟨-, τ', -, -, hstring⟩⟩ :=
    cases_of_pagesInNeed hr (length_lt_max hmax) hroom hq
  · rw [← hpow, ← pastEnd_iff] at hout
    exact ⟨hint, f, n, hrange, by rwa [hpow], hlast, exists_layout_iff.1 ⟨ss, hl, hss⟩, hout⟩
  · rw [hunset] at hstring
    cases hstring

/-- With a NUL behind the file it does not assign it then. -/
theorem pagesInNeed_of_givesUp {size offset : ℤ}
    (hr : ReadBack sha3 heap (heightOf (readPart c).length) mt leaf τ) (htail : heap.fileTail = 0)
    (hint : 0 ≤ intOf c'.length)
    (hrange : pageRange size offset = .ok ((f : ℕ), (f + n : ℕ)))
    (hg : GivesUp (readPart c) (readPart c') f n) :
    ∃ mt', pagesInNeed sha3 heap size offset mt (some c') = .ok ⟨-1, mt', .unset⟩ := by
  have hpow := leafCount_eq_pow (readPart c).length
  have hroom := hg.room
  have hlast := hg.last
  have hout := hg.out
  rw [hpow] at hroom
  rw [hpow, pastEnd_iff] at hout
  have hle := two_pow_le_of_le hr.le
  obtain ⟨ss, hl, hss, hlen⟩ := exists_layout hg.pages
  have hcount : f + n ≤ 2 ^ 14 := by
    unfold PAGE_LENGTH at *
    omega
  have hmax : (readPart c').length < 2 ^ 30 + PAGE_LENGTH := by
    unfold PAGE_LENGTH at *
    omega
  rw [pagesInNeed_readPart hint]
  exact pagesInNeed_gives_up hr htail (length_lt_max hmax) hroom hrange hlast hout hl hss
    (total_le_of_pages hlen (by omega))

/-- **At a page boundary** it is assigned. -/
theorem ne_unset_of_aligned (hr : ReadBack sha3 heap (heightOf (readPart c).length) mt leaf τ)
    (hoff : PAGE_LENGTH ∣ offset)
    (hu : updateTree sha3 heap sched buf size offset c' (some mt) = .ok o) :
    o.result ≠ .unset := by
  rcases lt_or_ge (pageToChange (intOf offset)) (2 ^ heightOf (readPart c).length : ℕ)
    with hin | hout
  · rw [updateTree_inside hr hoff hin] at hu
    exact ne_unset_of_quickChange hu (code_of_quickChange hr hoff hin hu)
  · -- the tree would have no room for the page
    intro hunset
    obtain ⟨-, f, n, hrange, hg⟩ := givesUp_of_unset hr (updateTree_beyond hr hoff hout hu) hunset
    have hpow := leafCount_eq_pow (readPart c).length
    have hp := BinTree.two_pow_pred hr.pos
    have hpos := Nat.two_pow_pos (heightOf (readPart c).length - 1)
    have hfirst := pageRange_fst hrange
    have hle := (Nat.le_div_iff_mul_le PAGE_LENGTH_pos).2 hg.last
    have hroom := hg.room
    omega

/-! ### `bb_write` -/

theorem assignsResult_of_not_givesUp (hno : ∀ ss, HasLeaves c ss → ¬ PAGE_LENGTH ∣ offset →
      0 ≤ intOf (pwrite c data offset).length → ∀ f n : ℕ,
        pageRange (intOf data.length) (intOf offset) = .ok ((f : ℕ), (f + n : ℕ)) →
          ¬ GivesUp (readPart c) (readPart (pwrite c data offset)) f n) :
    AssignsResult c data rest offset := by
  intro sha3 heap sched treeString attr tree o hattr htree hu
  rcases hattr with rfl | ⟨s, hg, -, hread⟩
  · cases htree
    exact ne_unset_of_mComputeMerkle hu
  rw [hread] at htree
  obtain ⟨mt, hmt, htree⟩ := Run.bind_eq_ok.1 htree
  cases htree
  obtain ⟨ss, hc⟩ := hg.hasLeaves
  obtain ⟨τ, hr, -⟩ := hc.readBack hg hmt
  by_cases hoff : PAGE_LENGTH ∣ offset
  · exact ne_unset_of_aligned hr hoff hu
  · intro hunset
    rw [updateTree_unaligned hoff] at hu
    obtain ⟨hint, f, n, hrange, hup⟩ := givesUp_of_unset hr hu hunset
    exact hno ss hc hoff hint f n hrange hup

theorem AssignsResult.not_givesUp (ha : AssignsResult c data rest offset) (hc : HasLeaves c ss)
    (hoff : ¬ PAGE_LENGTH ∣ offset) (hint : 0 ≤ intOf (pwrite c data offset).length)
    (hrange : pageRange (intOf data.length) (intOf offset) = .ok ((f : ℕ), (f + n : ℕ))) :
    ¬ GivesUp (readPart c) (readPart (pwrite c data offset)) f n := by
  intro hup
  obtain ⟨s, block, mt, τ, hg, hread, htree, hr, -⟩ := hc.exists_attr fun _ => zeroDigest
  obtain ⟨mt', hq⟩ := pagesInNeed_of_givesUp hr rfl hint hrange hup
  refine ha _ .nul (.sequential ℕ) block _ (some mt) ⟨-1, mt', .unset⟩
    (.inr ⟨s, hg, rfl, hread⟩) ?_ ?_ rfl
  · rw [hread, htree]
    rfl
  · rw [updateTree_unaligned hoff, hq]

/-- **The writes that assign `result`.** -/
theorem assignsResult_iff : AssignsResult c data rest offset ↔ ∀ ss, HasLeaves c ss →
    ¬ PAGE_LENGTH ∣ offset → 0 ≤ intOf (pwrite c data offset).length → ∀ f n : ℕ,
      pageRange (intOf data.length) (intOf offset) = .ok ((f : ℕ), (f + n : ℕ)) →
        ¬ GivesUp (readPart c) (readPart (pwrite c data offset)) f n :=
  ⟨fun ha _ hc hoff hint _ _ hrange => ha.not_givesUp hc hoff hint hrange,
    assignsResult_of_not_givesUp⟩

/-- A write of two bytes starts in the last byte of a file of one page. -/
theorem not_assignsResult_secondPage :
    ¬ ∀ (c data rest : List Byte) (offset : ℕ), AssignsResult c data rest offset := by
  intro hall
  set data := [byteOf 'b', byteOf 'b'] with hdata
  have hlen : (pagesOfA 1).length = PAGE_LENGTH := (length_pagesOfA 1).trans (Nat.one_mul _)
  have hoff : PAGE_LENGTH - 1 ≤ (pagesOfA 1).length := by
    rw [hlen]
    exact Nat.sub_le _ _
  have hlen' : (pwrite (pagesOfA 1) data (PAGE_LENGTH - 1)).length = PAGE_LENGTH + 1 := by
    rw [length_pwrite _ hoff, hlen]
    rfl
  have hfree := nulFree_pwrite hoff (nulFree_pagesOfA 1) (show 0 ∉ data by decide)
  have hread : readPart (pagesOfA 1) = pagesOfA 1 := readPart_of_le (by rw [hlen]; decide)
  have hread' := readPart_of_le (c := pwrite (pagesOfA 1) data (PAGE_LENGTH - 1))
    (by rw [hlen']; decide)
  have hc := hasLeaves_of_nulFree (nulFree_pagesOfA 1) (by rw [hlen]; decide)
    (by rw [hread, hlen]; decide)
  have hrange : pageRange (intOf data.length) (intOf (PAGE_LENGTH - 1 : ℕ)) =
      .ok ((0 : ℕ), (0 + 1 : ℕ)) := by decide
  refine (hall (pagesOfA 1) data [] (PAGE_LENGTH - 1)).not_givesUp hc (by decide)
    (by rw [hlen']; decide) hrange ?_
  rw [hread, hread']
  have hlast : (0 + 1) * PAGE_LENGTH ≤ (pwrite (pagesOfA 1) data (PAGE_LENGTH - 1)).length := by
    rw [hlen']
    decide
  exact ⟨by rw [hlen, hlen']; decide, hlast,
    ⟨1, le_rfl, strlen_pageOf_of_lt hfree hlast, fun h => absurd h (by decide)⟩,
    .inl (by rw [hlen]; decide)⟩

end MerkleFs
