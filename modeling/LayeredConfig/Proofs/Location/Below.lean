import LayeredConfig.Proofs.Location.Ancestors
import LayeredConfig.Proofs.Location.Descent

namespace LayeredConfig.Location

theorem filter_dropParts (n : Nat) (parts : List (List Char)) :
    (dropParts n parts).filter (!idle ·) = (parts.filter (!idle ·)).drop n := by
  induction parts generalizing n with
  | nil => cases n <;> rfl
  | cons part rest ih =>
    cases n with
    | zero => rfl
    | succ n => cases quiet : idle part <;> simp [dropParts, quiet, ih]

theorem dropParts_subset (n : Nat) (parts : List (List Char)) : dropParts n parts ⊆ parts := by
  induction parts generalizing n with
  | nil => cases n <;> exact List.Subset.refl _
  | cons part rest ih =>
    cases n with
    | zero => exact List.Subset.refl _
    | succ n =>
      rw [dropParts]
      split <;> exact List.subset_cons_of_subset part (ih _)

/-- Idle parts at the front count for nothing either. -/
theorem filter_dropWhile_idle (parts : List (List Char)) :
    (parts.dropWhile idle).filter (!idle ·) = parts.filter (!idle ·) := by
  induction parts with
  | nil => rfl
  | cons part rest ih => cases quiet : idle part <;> simp [quiet, ih]

theorem dropIdleEnd_prefix (parts : List (List Char)) : dropIdleEnd parts <+: parts := by
  have cut := List.reverse_prefix.mpr (List.dropWhile_suffix (l := parts.reverse) idle)
  rwa [List.reverse_reverse] at cut

/-- The first part is left as long as any is. -/
theorem mem_head?_of_dropIdleEnd {parts : List (List Char)} {part : List Char}
    (first : part ∈ (dropIdleEnd parts).head?) : part ∈ parts.head? := by
  obtain ⟨rest, kept⟩ := List.head?_eq_some_iff.mp first
  obtain ⟨behind, whole⟩ := dropIdleEnd_prefix parts
  rw [← whole, kept]
  rfl

/-- Parts with a start and without idle ones at both ends spell what they are. -/
theorem steps_assemble_trimmed {parts : List (List Char)} (free : ∀ part ∈ parts, '/' ∉ part) :
    (assemble none (dropIdleEnd (parts.dropWhile idle))).steps = (parts.filter (!idle ·)).map stepOf := by
  have kept : ∀ part ∈ dropIdleEnd (parts.dropWhile idle), '/' ∉ part := fun part member =>
    free part ((List.dropWhile_sublist _).subset (dropIdleEnd_subset _ member))
  have busy : ∀ part ∈ (dropIdleEnd (parts.dropWhile idle)).head?, idle part = false := by
    intro part first
    have head := List.head?_dropWhile_not idle parts
    rw [mem_head?_of_dropIdleEnd first] at head
    simpa using head
  have text : (assemble none (dropIdleEnd (parts.dropWhile idle))).text.toList =
      joinWith '/' (dropIdleEnd (parts.dropWhile idle)) := by simp [assemble]
  rw [steps_eq, text, opening_joinWith_of_head kept busy, spelled_joinWith_filter kept, filter_dropIdleEnd,
    filter_dropWhile_idle, List.nil_append]

/-- A place begins at the root, with a dot, or with neither; then it is empty or begins with a part that counts. -/
theorem dissect_cases (l : Location) :
    (∃ body, l.dissect = (some .root, pieces '/' body)) ∨ l.dissect = (some .here, []) ∨
      (∃ body, l.dissect = (some .here, [] :: pieces '/' body)) ∨
      l.dissect = (none, pieces '/' l.text.toList) ∧
        (l.text.toList = [] ∨ ∀ part ∈ (pieces '/' l.text.toList).head?, idle part = false) := by
  unfold dissect
  split
  · exact Or.inl ⟨_, rfl⟩
  · exact Or.inr (Or.inl rfl)
  · exact Or.inr (Or.inr (Or.inl ⟨_, rfl⟩))
  · next root dot here =>
    refine Or.inr (Or.inr (Or.inr ⟨rfl, ?_⟩))
    have joined := joinWith_pieces '/' l.text.toList
    cases cut : pieces '/' l.text.toList with
    | nil => exact absurd cut (pieces_ne_nil _ _)
    | cons first rest =>
      rw [cut] at joined
      by_cases empty : first = []
      · subst empty
        cases rest with
        | nil => exact Or.inl joined.symm
        | cons next more => exact absurd joined.symm (root _)
      · refine Or.inr fun part head => ?_
        obtain rfl := Option.some.inj head
        have noDot : first ≠ ['.'] := by
          rintro rfl
          cases rest with
          | nil => exact dot joined.symm
          | cons next more => exact here _ joined.symm
        simp [idle, empty, noDot]

theorem free_of_mem_dissect {l : Location} {part : List Char} (member : part ∈ l.dissect.2) : '/' ∉ part := by
  rcases dissect_cases l with ⟨body, cut⟩ | cut | ⟨body, cut⟩ | ⟨cut, -⟩ <;> rw [cut] at member
  · exact not_mem_of_mem_pieces member
  · cases member
  · rcases List.mem_cons.mp member with rfl | inside
    · exact List.not_mem_nil
    · exact not_mem_of_mem_pieces inside
  · exact not_mem_of_mem_pieces member

/-- The text of a place without idle parts at its end spells the place. -/
theorem steps_assemble_dissect (l : Location) :
    (assemble l.dissect.1 (dropIdleEnd l.dissect.2)).steps = l.steps := by
  have own : l.steps = l.dissect.1.toList ++ (l.dissect.2.filter (!idle ·)).map stepOf := rfl
  have free : ∀ part ∈ dropIdleEnd l.dissect.2, '/' ∉ part := fun part member =>
    free_of_mem_dissect (dropIdleEnd_subset _ member)
  rw [own, ← filter_dropIdleEnd]
  rcases dissect_cases l with ⟨body, cut⟩ | cut | ⟨body, cut⟩ | ⟨cut, start⟩
  · rw [cut] at free ⊢
    exact steps_assemble_root free
  · rw [cut]
    rfl
  · rw [cut] at free ⊢
    dsimp only at free ⊢
    cases kept : dropIdleEnd ([] :: pieces '/' body) with
    | nil => rfl
    | cons first rest =>
      have empty : [] = first := Option.some.inj (mem_head?_of_dropIdleEnd (by rw [kept]; rfl))
      subst empty
      rw [kept] at free
      cases rest with
      | nil => rfl
      | cons next more =>
        have text : (assemble (some .here) ([] :: next :: more)).text.toList =
            ['.'] ++ '/' :: joinWith '/' (next :: more) := by simp [assemble, Step.text, joinWith]
        have spells := spelled_joinWith_filter fun part member => free part (List.mem_cons_of_mem _ member)
        rw [steps_eq, text, opening_append_slash (by simp), spelled_append_slash, spells]
        rfl
  · rw [cut] at free ⊢
    dsimp only at free ⊢
    have text : (assemble none (dropIdleEnd (pieces '/' l.text.toList))).text.toList =
        joinWith '/' (dropIdleEnd (pieces '/' l.text.toList)) := by simp [assemble]
    have plain : opening (joinWith '/' (dropIdleEnd (pieces '/' l.text.toList))) = [] := by
      rcases start with empty | busy
      · rw [empty]
        rfl
      · exact opening_joinWith_of_head free fun part first => busy part (mem_head?_of_dropIdleEnd first)
    rw [steps_eq, text, plain, spelled_joinWith_filter free]
    rfl

/-- What follows a base spells the steps behind those of the base. -/
theorem steps_below? {l base : Location} {way : String} (below : l.below? base = some way) :
    (⟨way⟩ : Location).steps = l.steps.drop base.steps.length := by
  have own : l.steps = l.dissect.1.toList ++ (l.dissect.2.filter (!idle ·)).map stepOf := rfl
  unfold below? at below
  simp only [] at below
  split at below
  · split at below
    · next none_ =>
      obtain rfl := Option.some.inj below
      rw [List.isEmpty_iff.mp none_, List.length_nil, List.drop_zero]
      exact steps_assemble_dissect l
    · next some_ =>
      have start : l.dissect.1.toList.length ≤ base.steps.length := by
        have few : l.dissect.1.toList.length ≤ 1 := by cases l.dissect.1 <;> simp
        have filled := List.length_pos_iff.mpr (mt List.isEmpty_iff.mpr some_)
        omega
      have free : ∀ part ∈ dropParts (base.steps.length - l.dissect.1.toList.length) l.dissect.2, '/' ∉ part :=
        fun part member => free_of_mem_dissect (dropParts_subset _ _ member)
      obtain rfl := Option.some.inj below
      rw [own, List.drop_append, List.drop_eq_nil_of_le start, List.nil_append]
      refine (steps_assemble_trimmed free).trans ?_
      rw [filter_dropParts, List.map_drop]
  · cases below

theorem below?_eq_none_iff {l base : Location} : l.below? base = none ↔ ¬base.steps <+: l.steps := by
  unfold below?
  simp only []
  split
  · next above => split <;> simpa using above
  · next above => simpa using above

end LayeredConfig.Location
