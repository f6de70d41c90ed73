import Mathlib.Data.List.TakeWhile
import MerkleFs.Split.Basic

/-!
# Splitting one piece after the other

`Split.next d l` is the first piece of `l` and the list behind the delimiter that ends it.  Taking
one piece after the other gives the pieces in order (`pieces_of_next`).  In a clean list the pieces
and single delimiters between them are all there is (`intercalate_pieces`).
-/

namespace Split

variable {α : Type*} [DecidableEq α]

/-- The first piece of a list, and what is behind the delimiter that ends it. -/
def next (d : α) (l : List α) : Option (List α × List α) :=
  match l.dropWhile (· = d) with
  | [] => none
  | x :: xs => some ((x :: xs).takeWhile (· ≠ d), ((x :: xs).dropWhile (· ≠ d)).tail)

variable {d x y : α} {l r p : List α}

theorem pieces_dropWhile (d : α) (l : List α) : pieces d (l.dropWhile (· = d)) = pieces d l := by
  induction l with
  | nil => rfl
  | cons x l ih =>
    by_cases hx : x = d
    · subst hx
      rw [List.dropWhile_cons_of_pos (by simp), ih, pieces_delim]
    · rw [List.dropWhile_cons_of_neg (by simpa using hx)]

theorem head?_dropWhile (d : α) (l : List α) : (l.dropWhile (· = d)).head? ≠ some d := by
  intro hd
  have := List.head?_dropWhile_not (fun x => decide (x = d)) l
  rw [hd] at this
  simp at this

theorem pieces_takeWhile (hx : x ≠ d) : pieces d (x :: l) =
    (x :: l).takeWhile (· ≠ d) :: pieces d ((x :: l).dropWhile (· ≠ d)).tail := by
  have hpiece : IsPiece d ((x :: l).takeWhile (· ≠ d)) := by
    refine ⟨by simp [hx], fun hmem => ?_⟩
    simpa using List.mem_takeWhile_imp hmem
  conv_lhs => rw [← List.takeWhile_append_dropWhile (p := (· ≠ d)) (l := x :: l)]
  cases hrest : (x :: l).dropWhile (· ≠ d) with
  | nil => rw [List.append_nil, List.tail_nil, pieces_nil, pieces_of_isPiece hpiece]
  | cons y r =>
    have hy : y = d := by
      have := List.head?_dropWhile_not (fun x => decide (x ≠ d)) (x :: l)
      rw [hrest] at this
      simpa using this
    rw [hy, pieces_append_delim, pieces_of_isPiece hpiece]
    rfl

theorem pieces_of_next_eq_none (hn : next d l = none) : pieces d l = [] := by
  rw [← pieces_dropWhile]
  unfold next at hn
  split at hn
  · rename_i hnil
    rw [hnil, pieces_nil]
  · cases hn

/-- **The pieces are the next piece and those of what is left.** -/
theorem pieces_of_next (hn : next d l = some (p, r)) :
    pieces d l = p :: pieces d r ∧ r.length < l.length := by
  unfold next at hn
  split at hn
  · cases hn
  · rename_i x xs hxs
    obtain ⟨rfl, rfl⟩ := Prod.mk.inj (Option.some.inj hn)
    have hx : x ≠ d := by
      have := head?_dropWhile d l
      rw [hxs] at this
      simpa using this
    have hle : (x :: xs).length ≤ l.length := hxs ▸ (List.dropWhile_sublist _).length_le
    refine ⟨by rw [← pieces_dropWhile, hxs, pieces_takeWhile hx], ?_⟩
    rw [List.dropWhile_cons_of_pos (by simpa using hx), List.length_tail]
    have := (List.dropWhile_sublist (fun x => decide (x ≠ d)) (l := xs)).length_le
    rw [List.length_cons] at hle
    omega

/-- A clean list is made of its pieces, with single delimiters between them and at most one behind
them. -/
theorem intercalate_pieces (hl : Clean d l) :
    [d].intercalate (pieces d l) ++ (if l.getLast? = some d then [d] else []) = l := by
  induction l using induction d with
  | nil => exact absurd hl clean_nil
  | delim l => exact absurd hl clean_delim
  | last x hx => simp [pieces_of_isPiece (isPiece_singleton hx), hx]
  | piece x hx l ih =>
    rw [pieces_piece hx]
    rcases (clean_piece hx).1 hl with rfl | hl'
    · simp
    · obtain ⟨q, qs, hqs⟩ := List.exists_cons_of_ne_nil hl'.pieces_ne_nil
      obtain ⟨y, l, rfl⟩ := List.exists_cons_of_ne_nil hl'.ne_nil
      rw [hqs, List.intercalate_cons_cons, ← hqs, List.getLast?_cons_cons, List.getLast?_cons_cons,
        List.append_assoc, ih hl']
      rfl
  | cons x hx y hy l ih =>
    have hl' := (clean_cons hx hy).1 hl
    obtain ⟨q, qs, hqs⟩ := List.exists_cons_of_ne_nil hl'.pieces_ne_nil
    have hih := ih hl'
    rw [pieces_cons hx hy, List.getLast?_cons_cons, hqs, List.modifyHead_cons]
    rw [hqs] at hih
    cases qs with
    | nil =>
      rw [List.intercalate_singleton] at hih ⊢
      rw [List.cons_append, hih]
    | cons q' qs =>
      rw [List.intercalate_cons_cons] at hih ⊢
      rw [List.append_assoc, List.append_assoc] at hih ⊢
      rw [List.cons_append, hih]

end Split
