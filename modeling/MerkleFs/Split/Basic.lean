import Mathlib.Data.List.Infix

/-!
# Lists joined and split at a delimiter

`Split.pieces d l` are the maximal non-empty pieces of `l` that do not contain the delimiter `d`,
in order.  A list of such pieces joined by single delimiters is split into the pieces it was made
of (`pieces_intercalate`); it has one delimiter less than pieces (`count_intercalate`) and does
not end in one (`getLast?_intercalate`).

`Split.Clean d l` says that every delimiter of `l` ends a piece.  These are the lists in which
counting the delimiters counts the pieces (`length_pieces_eq_iff`); in other lists it counts too
many (`length_pieces_le`).
-/

namespace Split

variable {α : Type*} [DecidableEq α]

/-- The maximal non-empty pieces of `l` without `d`. -/
def pieces (d : α) (l : List α) : List (List α) := (l.splitOn d).filter (· ≠ [])

/-- A list that is non-empty and does not contain `d`. -/
def IsPiece (d : α) (p : List α) : Prop := p ≠ [] ∧ d ∉ p

/-- The list is not empty, does not start with `d` and has no two `d` next to each other. -/
structure Clean (d : α) (l : List α) : Prop where
  /-- It is not empty. -/
  ne_nil : l ≠ []
  /-- It does not start with a delimiter. -/
  head : l.head? ≠ some d
  /-- No delimiter follows another. -/
  isolated : ¬ [d, d] <:+: l

instance (d : α) (l : List α) : Decidable (Clean d l) :=
  decidable_of_iff (l ≠ [] ∧ l.head? ≠ some d ∧ ¬ [d, d] <:+: l)
    ⟨fun h => ⟨h.1, h.2.1, h.2.2⟩, fun h => ⟨h.ne_nil, h.head, h.isolated⟩⟩

/-- One if the list does not end in a delimiter: what is behind the last delimiter is a piece. -/
def trailing (d : α) (l : List α) : ℕ := if l.getLast? = some d then 0 else 1

variable {d x y : α} {l l' : List α} {ps : List (List α)}

theorem pieces_intercalate (hps : ∀ p ∈ ps, IsPiece d p) : pieces d ([d].intercalate ps) = ps := by
  by_cases hne : ps = []
  · subst hne; simp [pieces]
  · rw [pieces, List.splitOn_intercalate d (fun p hp => (hps p hp).2) hne]
    exact List.filter_eq_self.2 fun p hp => by simpa using (hps p hp).1

theorem count_intercalate (hps : ∀ p ∈ ps, IsPiece d p) :
    ([d].intercalate ps).count d = ps.length - 1 := by
  induction ps with
  | nil => rfl
  | cons p ps ih =>
    have hp : p.count d = 0 := List.count_eq_zero.2 (hps p List.mem_cons_self).2
    cases ps with
    | nil => simp [hp]
    | cons q ps =>
      have := ih fun r hr => hps r (List.mem_cons_of_mem _ hr)
      rw [List.intercalate_cons_cons]
      simp only [List.count_append, hp, this, List.count_singleton_self, List.length_cons]
      omega

omit [DecidableEq α] in
theorem intercalate_ne_nil (hne : ps ≠ []) (hps : ∀ p ∈ ps, IsPiece d p) :
    [d].intercalate ps ≠ [] := by
  cases ps with
  | nil => exact absurd rfl hne
  | cons p ps =>
    have hp := (hps p List.mem_cons_self).1
    cases ps with
    | nil => simpa using hp
    | cons q ps => rw [List.intercalate_cons_cons]; simp

omit [DecidableEq α] in
theorem getLast?_intercalate (hps : ∀ p ∈ ps, IsPiece d p) :
    ([d].intercalate ps).getLast? ≠ some d := by
  induction ps with
  | nil => simp
  | cons p ps ih =>
    have hp := hps p List.mem_cons_self
    cases ps with
    | nil =>
      intro hl
      rw [List.intercalate_singleton] at hl
      exact hp.2 (List.mem_of_getLast? hl)
    | cons q ps =>
      have hps' : ∀ r ∈ q :: ps, IsPiece d r := fun r hr => hps r (List.mem_cons_of_mem _ hr)
      have hne := intercalate_ne_nil (by simp) hps'
      rw [List.intercalate_cons_cons, List.getLast?_append_of_ne_nil _ hne]
      exact ih hps'

/-! ### Piece by piece -/

omit [DecidableEq α] in
theorem induction {P : List α → Prop} (d : α) (nil : P []) (delim : ∀ l, P l → P (d :: l))
    (last : ∀ x, x ≠ d → P [x]) (piece : ∀ x, x ≠ d → ∀ l, P l → P (x :: d :: l))
    (cons : ∀ x, x ≠ d → ∀ y, y ≠ d → ∀ l, P (y :: l) → P (x :: y :: l)) : ∀ l, P l := by
  classical
  suffices key : ∀ l, P l ∧ ∀ x, x ≠ d → P (x :: l) from fun l => (key l).1
  intro l
  induction l with
  | nil => exact ⟨nil, last⟩
  | cons y l ih =>
    by_cases hy : y = d
    · subst hy
      exact ⟨delim l ih.1, fun x hx => piece x hx l ih.1⟩
    · exact ⟨ih.2 y hy, fun x hx => cons x hx y hy l (ih.2 y hy)⟩

@[simp] theorem pieces_nil : pieces d [] = [] := by simp [pieces]

theorem pieces_append_delim (l l' : List α) :
    pieces d (l ++ d :: l') = pieces d l ++ pieces d l' := by
  rw [pieces, List.splitOn_append_cons_self, List.filter_append, pieces, pieces]

@[simp] theorem pieces_delim : pieces d (d :: l) = pieces d l := by
  simpa using pieces_append_delim (d := d) [] l

theorem pieces_of_isPiece (hl : IsPiece d l) : pieces d l = [l] := by
  simpa using pieces_intercalate (List.forall_mem_singleton.2 hl)

omit [DecidableEq α] in
theorem isPiece_singleton (hx : x ≠ d) : IsPiece d [x] := ⟨by simp, by simpa using Ne.symm hx⟩

theorem pieces_piece (hx : x ≠ d) : pieces d (x :: d :: l) = [x] :: pieces d l := by
  simpa [pieces_of_isPiece (isPiece_singleton hx)] using pieces_append_delim (d := d) [x] l

theorem pieces_cons (hx : x ≠ d) (hy : y ≠ d) :
    pieces d (x :: y :: l) = (pieces d (y :: l)).modifyHead (x :: ·) := by
  obtain ⟨s, ss, hs⟩ := List.exists_cons_of_ne_nil (List.splitOn_ne_nil d l)
  simp [pieces, List.splitOn_cons_eq_if_modifyHead, hx, hy, hs]

omit [DecidableEq α] in
theorem not_infix_cons (hx : x ≠ d) : ¬ [d, d] <:+: x :: l ↔ ¬ [d, d] <:+: l := by
  rw [List.infix_cons_iff, not_or, and_iff_right]
  rw [List.cons_prefix_cons]
  exact fun h => hx h.1.symm

omit [DecidableEq α] in
theorem not_infix_delim : ¬ [d, d] <:+: d :: l ↔ l.head? ≠ some d ∧ ¬ [d, d] <:+: l := by
  rw [List.infix_cons_iff, not_or, List.cons_prefix_cons]
  refine and_congr_left' ?_
  cases l with
  | nil => simp
  | cons y l => rw [List.cons_prefix_cons, List.head?_cons]; simp [eq_comm]

omit [DecidableEq α] in
theorem clean_nil : ¬ Clean d [] := fun h => h.ne_nil rfl

omit [DecidableEq α] in
theorem clean_delim : ¬ Clean d (d :: l) := fun h => h.head rfl

omit [DecidableEq α] in
theorem clean_cons_iff (hx : x ≠ d) : Clean d (x :: l) ↔ ¬ [d, d] <:+: l := by
  rw [← not_infix_cons hx]
  exact ⟨fun h => h.isolated, fun h => ⟨List.cons_ne_nil _ _, by simpa using hx, h⟩⟩

omit [DecidableEq α] in
theorem clean_piece (hx : x ≠ d) : Clean d (x :: d :: l) ↔ l = [] ∨ Clean d l := by
  rw [clean_cons_iff hx, not_infix_delim]
  cases l with
  | nil => simp
  | cons y l =>
    refine ⟨fun h => .inr ⟨List.cons_ne_nil _ _, h.1, h.2⟩, ?_⟩
    rintro (h | h)
    · cases h
    · exact ⟨h.head, h.isolated⟩

omit [DecidableEq α] in
theorem clean_cons (hx : x ≠ d) (hy : y ≠ d) : Clean d (x :: y :: l) ↔ Clean d (y :: l) := by
  rw [clean_cons_iff hx, clean_cons_iff hy, not_infix_cons hy]

theorem trailing_cons (hne : l ≠ []) : trailing d (x :: l) = trailing d l := by
  obtain ⟨y, l, rfl⟩ := List.exists_cons_of_ne_nil hne
  rw [trailing, trailing, List.getLast?_cons_cons]

/-- **There are not more pieces than delimiters say**, and as many only in a clean list. -/
theorem length_pieces_aux (d : α) (l : List α) :
    (pieces d l).length ≤ l.count d + trailing d l ∧
      ((pieces d l).length = l.count d + trailing d l ↔ Clean d l) := by
  induction l using induction d with
  | nil => simp [trailing, clean_nil]
  | delim l ih =>
    have hlt : (pieces d l).length < l.count d + 1 + trailing d (d :: l) := by
      by_cases hne : l = []
      · subst hne; simp only [pieces_nil, List.length_nil, List.count_nil]; omega
      · have := ih.1; rw [trailing_cons hne]; omega
    rw [pieces_delim, List.count_cons_self]
    exact ⟨Nat.le_of_lt hlt, iff_of_false (Nat.ne_of_lt hlt) clean_delim⟩
  | last x hx => simp [pieces_of_isPiece (isPiece_singleton hx), trailing, hx, clean_cons_iff hx]
  | piece x hx l ih =>
    rw [pieces_piece hx, List.length_cons, List.count_cons_of_ne hx, List.count_cons_self,
      trailing_cons (List.cons_ne_nil _ _), clean_piece hx]
    by_cases hne : l = []
    · subst hne; simp [trailing]
    · have := ih.1
      rw [trailing_cons hne, ← ih.2]
      simp only [hne, false_or]
      omega
  | cons x hx y hy l ih =>
    rwa [pieces_cons hx hy, List.length_modifyHead, List.count_cons_of_ne hx,
      trailing_cons (List.cons_ne_nil _ _), clean_cons hx hy]

theorem length_pieces_le (d : α) (l : List α) :
    (pieces d l).length ≤ l.count d + trailing d l := (length_pieces_aux d l).1

theorem length_pieces_eq_iff : (pieces d l).length = l.count d + trailing d l ↔ Clean d l :=
  (length_pieces_aux d l).2

theorem clean_intercalate (hne : ps ≠ []) (hps : ∀ p ∈ ps, IsPiece d p) :
    Clean d ([d].intercalate ps) := by
  have hlen : ps.length ≠ 0 := by simpa using hne
  rw [← length_pieces_eq_iff, pieces_intercalate hps, count_intercalate hps, trailing,
    if_neg (getLast?_intercalate hps)]
  omega

/-- The pieces of a list are pieces, and made of its elements. -/
theorem isPiece_of_mem_pieces {p : List α} (hp : p ∈ pieces d l) : IsPiece d p ∧ p ⊆ l := by
  induction l using induction d generalizing p with
  | nil => cases hp
  | delim l ih =>
    have hl := ih (by simpa using hp)
    exact ⟨hl.1, List.subset_cons_of_subset _ hl.2⟩
  | last x hx =>
    rw [pieces_of_isPiece (isPiece_singleton hx), List.mem_singleton] at hp
    subst hp
    exact ⟨isPiece_singleton hx, List.Subset.refl _⟩
  | piece x hx l ih =>
    rw [pieces_piece hx] at hp
    rcases List.mem_cons.1 hp with rfl | hp
    · exact ⟨isPiece_singleton hx, by simp⟩
    · exact ⟨(ih hp).1, List.subset_cons_of_subset _ (List.subset_cons_of_subset _ (ih hp).2)⟩
  | cons x hx y hy l ih =>
    rw [pieces_cons hx hy] at hp
    cases hps : pieces d (y :: l) with
    | nil => rw [hps] at hp; cases hp
    | cons q qs =>
      rw [hps, List.modifyHead_cons] at hp
      rcases List.mem_cons.1 hp with rfl | hp
      · have hq := ih (hps ▸ List.mem_cons_self)
        refine ⟨⟨by simp, fun hmem => ?_⟩, List.cons_subset_cons x hq.2⟩
        rcases List.mem_cons.1 hmem with rfl | hmem
        · exact hx rfl
        · exact hq.1.2 hmem
      · have hq := ih (hps ▸ List.mem_cons_of_mem _ hp)
        exact ⟨hq.1, List.subset_cons_of_subset _ hq.2⟩

omit [DecidableEq α] in
theorem clean_of_isPiece (hl : IsPiece d l) : Clean d l := by
  refine ⟨hl.1, fun h => hl.2 (List.mem_of_head? h), fun h => hl.2 (h.subset ?_)⟩
  exact List.mem_cons_self

theorem clean_append_delim (hl : Clean d l) (hlast : l.getLast? ≠ some d) :
    Clean d (l ++ d :: l') ↔ l' = [] ∨ Clean d l' := by
  have hlen := length_pieces_eq_iff.2 hl
  have htrail : trailing d (l ++ d :: l') = trailing d (d :: l') := by
    rw [trailing, trailing, List.getLast?_append_of_ne_nil _ (List.cons_ne_nil _ _)]
  rw [trailing, if_neg hlast] at hlen
  rw [← length_pieces_eq_iff, pieces_append_delim, List.length_append, List.count_append,
    List.count_cons_self, htrail]
  by_cases hne : l' = []
  · subst hne
    simp [trailing, hlen]
  · rw [trailing_cons hne, ← length_pieces_eq_iff]
    simp only [hne, false_or]
    omega

theorem Clean.pieces_ne_nil (hl : Clean d l) : pieces d l ≠ [] := by
  obtain ⟨x, l, rfl⟩ := List.exists_cons_of_ne_nil hl.ne_nil
  have hx : x ≠ d := by simpa using hl.head
  intro hnil
  have hlen := length_pieces_eq_iff.2 hl
  rw [hnil, List.length_nil, trailing] at hlen
  split_ifs at hlen with hlast
  · have := List.count_pos_iff.2 (List.mem_of_getLast? hlast)
    omega

omit [DecidableEq α] in
theorem intercalate_append (ps : List (List α)) (p t : List α) :
    [d].intercalate (ps ++ [p]) ++ t = [d].intercalate (ps ++ [p ++ t]) := by
  induction ps with
  | nil => simp
  | cons q ps ih =>
    obtain ⟨r, rs, hr⟩ := List.exists_cons_of_ne_nil (l := ps ++ [p]) (by simp)
    obtain ⟨r', rs', hr'⟩ := List.exists_cons_of_ne_nil (l := ps ++ [p ++ t]) (by simp)
    rw [List.cons_append, List.cons_append, hr, hr', List.intercalate_cons_cons,
      List.intercalate_cons_cons, List.append_assoc, ← hr, ← hr', ih]

end Split
