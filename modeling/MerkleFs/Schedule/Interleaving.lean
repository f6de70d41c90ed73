import Mathlib.Data.List.Perm.Basic

/-!
# Interleavings of several lists

`Interleaving ws l` says that `l` is a merge of the lists `ws` that keeps the order of each: the
schedules of a group of threads, when `ws` are the actions of the threads.  A `Scheduler` picks
an interleaving of every group.

`Interleaving.before` is what order-dependent arguments need: whatever precedes an action in its
own list precedes it in the merge.
-/

/-- `l` is a merge of the lists `ws` that keeps the order of each. -/
inductive Interleaving {α : Type*} : List (List α) → List α → Prop
  /-- All lists are exhausted. -/
  | done {ws : List (List α)} (h : ∀ w ∈ ws, w = []) : Interleaving ws []
  /-- One of the lists moves. -/
  | step {pre post : List (List α)} {a : α} {w l : List α} :
      Interleaving (pre ++ w :: post) l → Interleaving (pre ++ (a :: w) :: post) (a :: l)

/-- A choice of an interleaving for every group of lists. -/
structure Scheduler (α : Type*) where
  /-- The order in which the actions of the group happen. -/
  order : List (List α) → List α
  /-- It keeps the order of every list. -/
  interleaving : ∀ ws, Interleaving ws (order ws)

namespace Interleaving

variable {α : Type*} {ws : List (List α)} {l : List α}

theorem mem_iff (h : Interleaving ws l) {x : α} : x ∈ l ↔ ∃ w ∈ ws, x ∈ w := by
  induction h with
  | done h =>
    simp only [List.not_mem_nil, false_iff, not_exists, not_and]
    intro w hw hx
    rw [h w hw] at hx
    cases hx
  | step _ ih =>
    simp only [List.mem_cons, ih, List.mem_append]
    constructor
    · rintro (rfl | ⟨w, hw | rfl | hw, hx⟩)
      · exact ⟨_, .inr (.inl rfl), List.mem_cons_self⟩
      · exact ⟨w, .inl hw, hx⟩
      · exact ⟨_, .inr (.inl rfl), List.mem_cons_of_mem _ hx⟩
      · exact ⟨w, .inr (.inr hw), hx⟩
    · rintro ⟨w, hw | rfl | hw, hx⟩
      · exact .inr ⟨w, .inl hw, hx⟩
      · rcases List.mem_cons.1 hx with rfl | hx
        · exact .inl rfl
        · exact .inr ⟨_, .inr (.inl rfl), hx⟩
      · exact .inr ⟨w, .inr (.inr hw), hx⟩

/-- Whatever precedes an action in its own list precedes it in the merge. -/
theorem before (h : Interleaving ws l) {pre post : List α} {x : α} (hl : l = pre ++ x :: post) :
    ∃ w ∈ ws, ∃ u v, w = u ++ x :: v ∧ ∀ y ∈ u, y ∈ pre := by
  induction h generalizing pre with
  | done => simp at hl
  | @step wpre wpost a w l _ ih =>
    cases pre with
    | nil =>
      obtain ⟨rfl, rfl⟩ := List.cons.inj hl
      exact ⟨a :: w, by simp, [], w, rfl, by simp⟩
    | cons b pre =>
      obtain ⟨rfl, htail⟩ := List.cons.inj hl
      obtain ⟨w', hw', u, v, rfl, hu⟩ := ih htail
      rcases List.mem_append.1 hw' with hw' | hw'
      · exact ⟨_, by simp [hw'], u, v, rfl, fun y hy => List.mem_cons_of_mem _ (hu y hy)⟩
      · rcases List.mem_cons.1 hw' with rfl | hw'
        · refine ⟨a :: (u ++ x :: v), by simp, a :: u, v, rfl, fun y hy => ?_⟩
          rcases List.mem_cons.1 hy with rfl | hy
          · exact List.mem_cons_self
          · exact List.mem_cons_of_mem _ (hu y hy)
        · exact ⟨_, by simp [hw'], u, v, rfl, fun y hy => List.mem_cons_of_mem _ (hu y hy)⟩

/-- Running the lists one after the other is an interleaving. -/
theorem sequential (ws : List (List α)) : Interleaving ws ws.flatten := by
  -- the lists already run are kept as empty ones
  suffices key : ∀ (pre : List (List α)), (∀ w ∈ pre, w = []) →
      Interleaving (pre ++ ws) ws.flatten by simpa using key [] (by simp)
  induction ws with
  | nil => exact fun pre hpre => .done (by simpa using hpre)
  | cons w ws ih =>
    intro pre hpre
    induction w with
    | nil =>
      have := ih (pre ++ [[]]) (by
        intro w hw
        rcases List.mem_append.1 hw with hw | hw
        · exact hpre w hw
        · simpa using hw)
      simpa using this
    | cons a w ihw => exact .step ihw

end Interleaving

/-- The scheduler that runs the lists one after the other. -/
def Scheduler.sequential (α : Type*) : Scheduler α := ⟨List.flatten, Interleaving.sequential⟩
