import Mathlib.Data.List.Chain

/-!
# Words of one or two letters

A list of words is spelled without separators between the words.  A word has one or two letters,
and a word of two letters does not start with the letter `z`, as a number of two digits does not
start with a zero (`Word.Valid`).

The words of a spelling cannot be told from the letters alone, not even when their number is
known.  `onlySpelling_iff` says for which lists they can: either all words have one letter, or the
words are *tight* (`Tight`), so that no letter can move into the word before or after it.  Tight
lists are the shortest with their spelling (`shortest`).
-/

namespace Spelling

/-- A word. -/
inductive Word (α : Type*) where
  /-- A word of one letter. -/
  | one (x : α)
  /-- A word of two letters. -/
  | two (x y : α)

variable {α : Type*}

namespace Word

/-- The letters of a word. -/
def letters : Word α → List α
  | one x => [x]
  | two x y => [x, y]

/-- A word of two letters does not start with `z`. -/
def Valid (z : α) : Word α → Prop
  | one _ => True
  | two x _ => x ≠ z

/-- The word has one letter. -/
def Single : Word α → Prop
  | one _ => True
  | two _ _ => False

end Word

open Word

/-- The letters of a list of words. -/
def spell (ws : List (Word α)) : List α := ws.flatMap letters

/-- No letter can move between `v` and the word `w` after it: `v` cannot take the first letter of
`w`, nor `w` the last letter of `v`. -/
def Tight (z : α) : Word α → Word α → Prop
  | one x, _ => x = z
  | two _ y, one _ => y = z
  | two _ _, two _ _ => True

/-- Among the lists of as many valid words, `ws` is the only one with its spelling. -/
def OnlySpelling (z : α) (ws : List (Word α)) : Prop :=
  ∀ vs : List (Word α), (∀ v ∈ vs, v.Valid z) → vs.length = ws.length → spell vs = spell ws →
    vs = ws

variable {z x : α} {ws vs : List (Word α)} {w : Word α} {l : List α}

@[simp] theorem spell_nil : spell ([] : List (Word α)) = [] := rfl

@[simp] theorem spell_cons_one : spell (one x :: ws) = x :: spell ws := rfl

@[simp] theorem spell_cons_two {y : α} : spell (two x y :: ws) = x :: y :: spell ws := rfl

theorem spell_append : spell (ws ++ vs) = spell ws ++ spell vs := List.flatMap_append

theorem spell_eq_cons (hs : spell ws = x :: l) :
    (∃ vs, ws = one x :: vs ∧ spell vs = l) ∨ ∃ y vs, ws = two x y :: vs ∧ y :: spell vs = l := by
  rcases ws with _ | ⟨w, ws⟩
  · cases hs
  · cases w with
    | one a =>
      obtain ⟨rfl, rfl⟩ := List.cons.inj hs
      exact .inl ⟨ws, rfl, rfl⟩
    | two a b =>
      obtain ⟨rfl, rfl⟩ := List.cons.inj hs
      exact .inr ⟨b, ws, rfl, rfl⟩

theorem length_le_spell (ws : List (Word α)) : ws.length ≤ (spell ws).length := by
  induction ws with
  | nil => exact le_rfl
  | cons w ws ih =>
    cases w with
    | one x => simpa using ih
    | two x y =>
      rw [spell_cons_two, List.length_cons, List.length_cons, List.length_cons]
      omega

/-! ### Tight lists -/

theorem tight_one (ht : (one x :: ws).IsChain (Tight z)) : ws = [] ∨ x = z := by
  cases ws with
  | nil => exact .inl rfl
  | cons w ws => exact .inr (List.isChain_cons_cons.1 ht).1

/-- Tight lists are the shortest with their spelling, also when a letter is added in front that
the word before them ends with. -/
theorem shortest (ws : List (Word α)) :
    (ws.IsChain (Tight z) → ∀ vs : List (Word α), (∀ v ∈ vs, v.Valid z) → spell vs = spell ws →
      ws.length ≤ vs.length) ∧
    ∀ x y : α, (two x y :: ws).IsChain (Tight z) → ∀ vs : List (Word α), (∀ v ∈ vs, v.Valid z) →
      spell vs = y :: spell ws → ws.length < vs.length := by
  induction ws with
  | nil =>
    refine ⟨fun _ _ _ _ => Nat.zero_le _, fun x y _ vs _ hs => ?_⟩
    refine List.length_pos_of_ne_nil fun hnil => ?_
    rw [hnil] at hs
    cases hs
  | cons w ws ih =>
    have hsame : (w :: ws).IsChain (Tight z) → ∀ vs : List (Word α), (∀ v ∈ vs, v.Valid z) →
        spell vs = spell (w :: ws) → (w :: ws).length ≤ vs.length := by
      intro ht vs hvs hs
      cases w with
      | one a =>
        rcases spell_eq_cons hs with ⟨us, rfl, hus⟩ | ⟨y, us, rfl, hus⟩
        · have := ih.1 ht.tail us (fun u hu => hvs u (List.mem_cons_of_mem _ hu)) hus
          simpa using this
        · -- two letters that start with `a`, where there is only one, or `a` is `z`
          rcases tight_one ht with rfl | rfl
          · cases hus
          · exact absurd rfl (hvs _ List.mem_cons_self)
      | two a b =>
        rcases spell_eq_cons hs with ⟨us, rfl, hus⟩ | ⟨y, us, rfl, hus⟩
        · have := ih.2 a b ht us (fun u hu => hvs u (List.mem_cons_of_mem _ hu)) hus
          simpa using this.le
        · have := ih.1 ht.tail us (fun u hu => hvs u (List.mem_cons_of_mem _ hu))
            (List.cons.inj hus).2
          simpa using this
    refine ⟨hsame, fun x y ht vs hvs hs => ?_⟩
    obtain ⟨hxy, htail⟩ := List.isChain_cons_cons.1 ht
    rcases spell_eq_cons hs with ⟨us, rfl, hus⟩ | ⟨b, us, rfl, hus⟩
    · -- `y` stands alone, and what follows is spelled as before
      have hle := hsame htail us (fun u hu => hvs u (List.mem_cons_of_mem _ hu)) hus
      simp only [List.length_cons] at hle ⊢
      omega
    · -- `y` has taken a letter, so it is not `z` and the next word has two
      have hy : y ≠ z := hvs _ List.mem_cons_self
      cases w with
      | one c => exact absurd hxy hy
      | two c e =>
        have hlt := ih.2 c e htail us (fun u hu => hvs u (List.mem_cons_of_mem _ hu))
          (List.cons.inj hus).2
        simp only [List.length_cons]
        omega

/-! ### The only spelling -/

/-- The first word can be read when it cannot be mistaken for a longer or a shorter one. -/
theorem onlySpelling_cons (hws : OnlySpelling z ws)
    (hone : ∀ x, w = one x → x ≠ z → ∀ vs : List (Word α), (∀ v ∈ vs, v.Valid z) →
      vs.length = ws.length → ∀ y, y :: spell vs ≠ spell ws)
    (htwo : ∀ x y, w = two x y → ∀ vs : List (Word α), (∀ v ∈ vs, v.Valid z) →
      vs.length = ws.length → spell vs ≠ y :: spell ws) :
    OnlySpelling z (w :: ws) := by
  intro vs hvs hlen hs
  have hrest : ∀ u us, vs = u :: us → (∀ v ∈ us, v.Valid z) ∧ us.length = ws.length := by
    rintro u us rfl
    exact ⟨fun v hv => hvs v (List.mem_cons_of_mem _ hv), by simpa using hlen⟩
  cases w with
  | one x =>
    rcases spell_eq_cons hs with ⟨us, rfl, hus⟩ | ⟨y, us, rfl, hus⟩
    · rw [hws us (hrest _ _ rfl).1 (hrest _ _ rfl).2 hus]
    · exact absurd hus
        (hone x rfl (hvs _ List.mem_cons_self) us (hrest _ _ rfl).1 (hrest _ _ rfl).2 y)
  | two x y =>
    rw [spell_cons_two] at hs
    rcases spell_eq_cons hs with ⟨us, rfl, hus⟩ | ⟨b, us, rfl, hus⟩
    · exact absurd hus (htwo x y rfl us (hrest _ _ rfl).1 (hrest _ _ rfl).2)
    · obtain ⟨rfl, htail⟩ := List.cons.inj hus
      rw [hws us (hrest _ _ rfl).1 (hrest _ _ rfl).2 htail]

theorem onlySpelling_of_tight (ht : ws.IsChain (Tight z)) : OnlySpelling z ws := by
  induction ws with
  | nil => exact fun vs _ hlen _ => List.length_eq_zero_iff.1 hlen
  | cons w ws ih =>
    refine onlySpelling_cons (ih ht.tail) ?_ ?_
    · rintro x rfl hx vs - - y hs
      rcases tight_one ht with rfl | rfl
      · cases hs
      · exact hx rfl
    · rintro x y rfl vs hvs hlen hs
      have := (shortest ws).2 x y ht vs hvs hs
      omega

theorem length_spell_of_single (hws : ∀ w ∈ ws, w.Single) : (spell ws).length = ws.length := by
  induction ws with
  | nil => rfl
  | cons w ws ih =>
    have hrest := ih fun u hu => hws u (List.mem_cons_of_mem _ hu)
    cases w with
    | one x => rw [spell_cons_one, List.length_cons, List.length_cons, hrest]
    | two x y => exact (hws _ List.mem_cons_self).elim

theorem onlySpelling_of_single (hws : ∀ w ∈ ws, w.Single) : OnlySpelling z ws := by
  induction ws with
  | nil => exact fun vs _ hlen _ => List.length_eq_zero_iff.1 hlen
  | cons w ws ih =>
    have hrest : ∀ u ∈ ws, u.Single := fun u hu => hws u (List.mem_cons_of_mem _ hu)
    refine onlySpelling_cons (ih hrest) ?_ ?_
    · rintro x rfl - vs - hlen y hs
      have hle := length_le_spell vs
      have hspell := congrArg List.length hs
      rw [List.length_cons, length_spell_of_single hrest] at hspell
      omega
    · rintro x y rfl
      exact (hws _ List.mem_cons_self).elim

/-! ### Other spellings -/

theorem not_onlySpelling_of_swap (us' : List (Word α)) {pre us post : List (Word α)}
    (heq : ws = pre ++ us ++ post) (hws : ∀ w ∈ ws, w.Valid z) (hus' : ∀ w ∈ us', w.Valid z)
    (hlen : us'.length = us.length) (hspell : spell us' = spell us) (hne : us' ≠ us) :
    ¬ OnlySpelling z ws := by
  intro honly
  subst heq
  have hsame := honly (pre ++ us' ++ post) (fun w hw => ?_) (by simp [hlen])
    (by simp only [spell_append, hspell])
  · exact hne (by simpa using hsame)
  · rcases List.mem_append.1 hw with hw | hw
    · rcases List.mem_append.1 hw with hw | hw
      · exact hws w (by simp [hw])
      · exact hus' w hw
    · exact hws w (by simp [hw])

/-- Two words of one letter can be joined when a word of two letters is split for it. -/
theorem not_onlySpelling_of_join {x y : α} {pre post : List (Word α)}
    (heq : ws = pre ++ one x :: one y :: post) (hws : ∀ w ∈ ws, w.Valid z) (hx : x ≠ z) {a b : α}
    (hmem : two a b ∈ ws) : ¬ OnlySpelling z ws := by
  have hsplit : two a b ∈ pre ∨ two a b ∈ post := by simpa [heq] using hmem
  rcases hsplit with hpre | hpost
  · obtain ⟨p, q, rfl⟩ := List.append_of_mem hpre
    have heq' : ws = p ++ (two a b :: (q ++ [one x, one y])) ++ post := by simp [heq]
    refine not_onlySpelling_of_swap (one a :: one b :: (q ++ [two x y])) heq' hws ?_ (by simp)
      (by simp [spell_append]) (by simp)
    intro w hw
    have hcases : w = one a ∨ w = one b ∨ w ∈ q ∨ w = two x y := by simpa using hw
    rcases hcases with rfl | rfl | hq | rfl
    · trivial
    · trivial
    · exact hws w (by simp [heq, hq])
    · exact hx
  · obtain ⟨p, q, rfl⟩ := List.append_of_mem hpost
    have heq' : ws = pre ++ (one x :: one y :: (p ++ [two a b])) ++ q := by simp [heq]
    refine not_onlySpelling_of_swap (two x y :: (p ++ [one a, one b])) heq' hws ?_ (by simp)
      (by simp [spell_append]) (by simp)
    intro w hw
    have hcases : w = two x y ∨ w ∈ p ∨ w = one a ∨ w = one b := by simpa using hw
    rcases hcases with rfl | hp | rfl | rfl
    · exact hx
    · exact hws w (by simp [heq, hp])
    · trivial
    · trivial

/-- A letter that can move gives another spelling. -/
theorem not_onlySpelling_of_not_tight (hws : ∀ w ∈ ws, w.Valid z) {a b : α} (hmem : two a b ∈ ws)
    {v w : Word α} {pre post : List (Word α)} (heq : ws = pre ++ v :: w :: post)
    (hvw : ¬ Tight z v w) : ¬ OnlySpelling z ws := by
  have heq' : ws = pre ++ [v, w] ++ post := by simp [heq]
  cases v with
  | one x =>
    have hx : x ≠ z := hvw
    cases w with
    | one y => exact not_onlySpelling_of_join heq hws hx hmem
    | two c e =>
      refine not_onlySpelling_of_swap [two x c, one e] heq' hws ?_ rfl rfl (by simp)
      intro u hu
      rcases List.mem_pair.1 hu with rfl | rfl
      · exact hx
      · trivial
  | two x y =>
    cases w with
    | one c =>
      refine not_onlySpelling_of_swap [one x, two y c] heq' hws ?_ rfl rfl (by simp)
      intro u hu
      rcases List.mem_pair.1 hu with rfl | rfl
      · trivial
      · exact hvw
    | two c e => exact absurd trivial hvw

/-- **When the words can be told from the letters.** -/
theorem onlySpelling_iff (hws : ∀ w ∈ ws, w.Valid z) :
    OnlySpelling z ws ↔ (∀ w ∈ ws, w.Single) ∨ ws.IsChain (Tight z) := by
  constructor
  · intro honly
    by_contra hno
    rw [not_or, not_forall, List.isChain_iff_forall_rel_of_append_cons_cons] at hno
    obtain ⟨⟨u, hu⟩, htight⟩ := hno
    obtain ⟨hmem, hsingle⟩ := Classical.not_imp.1 hu
    cases u with
    | one x => exact hsingle trivial
    | two a b =>
      refine htight fun v w pre post heq => ?_
      by_contra hvw
      exact not_onlySpelling_of_not_tight hws hmem heq hvw honly
  · rintro (hsingle | htight)
    · exact onlySpelling_of_single hsingle
    · exact onlySpelling_of_tight htight

end Spelling
