import LayeredConfig.Proofs.Location.Absolute
import Mathlib.Data.List.Induction

namespace LayeredConfig.Location

theorem dropIdleEnd_concat (front : List (List Char)) (part : List Char) :
    dropIdleEnd (front ++ [part]) = if idle part then dropIdleEnd front else front ++ [part] := by
  cases quiet : idle part <;> simp [dropIdleEnd, quiet]

/-- No part that counts is lost with the idle ones at the end. -/
theorem filter_dropIdleEnd (parts : List (List Char)) :
    (dropIdleEnd parts).filter (!idle ·) = parts.filter (!idle ·) := by
  induction parts using List.reverseRecOn with
  | nil => rfl
  | append_singleton front part ih =>
    rw [dropIdleEnd_concat]
    split
    · next quiet => simp [ih, quiet]
    · rfl

/-- What is left ends with a part that counts. -/
theorem dropIdleEnd_cases (parts : List (List Char)) :
    dropIdleEnd parts = [] ∨
      ∃ front last, dropIdleEnd parts = front ++ [last] ∧ idle last = false ∧ front <+: parts := by
  induction parts using List.reverseRecOn with
  | nil => exact Or.inl rfl
  | append_singleton before part ih =>
    rw [dropIdleEnd_concat]
    split
    · rcases ih with none_ | ⟨front, last, kept, busy, leads⟩
      · exact Or.inl none_
      · exact Or.inr ⟨front, last, kept, busy, leads.trans (List.prefix_append _ _)⟩
    · next busy => exact Or.inr ⟨before, part, rfl, by simpa using busy, List.prefix_append _ _⟩

theorem dropIdleEnd_subset (parts : List (List Char)) : dropIdleEnd parts ⊆ parts := by
  intro part member
  rw [dropIdleEnd, List.mem_reverse] at member
  exact List.mem_reverse.mp ((List.dropWhile_sublist _).subset member)

theorem steps_assemble_root {parts : List (List Char)} (free : ∀ part ∈ parts, '/' ∉ part) :
    (assemble (some .root) parts).steps = .root :: (parts.filter (!idle ·)).map stepOf := by
  have text : (assemble (some .root) parts).text.toList = '/' :: joinWith '/' parts := by
    simp [assemble, Step.text]
  rw [steps_eq, text, spelled_slash, spelled_joinWith_filter free]
  simp [opening]

/-- Above an absolute place is the one with its last step left off; there is none above the root. -/
theorem map_steps_parent? {l : Location} (absolute : l.isAbsolute = true) :
    l.parent?.map steps = if l.steps = [.root] then none else some l.steps.dropLast := by
  obtain ⟨body, written⟩ := isAbsolute_iff.mp absolute
  have cut : l.dissect = (some .root, pieces '/' body) := by simp [dissect, written]
  have own : l.steps = .root :: ((dropIdleEnd (pieces '/' body)).filter (!idle ·)).map stepOf := by
    rw [filter_dropIdleEnd]
    simp [steps, cut]
  rcases dropIdleEnd_cases (pieces '/' body) with none_ | ⟨front, last, kept, busy, leads⟩
  · have parent : l.parent? = none := by simp [parent?, cut, none_]
    rw [parent, own, none_]
    rfl
  · have free : ∀ part ∈ dropIdleEnd front, '/' ∉ part := fun part member =>
      not_mem_of_mem_pieces (leads.subset (dropIdleEnd_subset front member))
    have parent : l.parent? = some (assemble (some .root) (dropIdleEnd front)) := by
      unfold parent?
      simp only [cut, kept]
      split
      · next none_ => simp at none_
      · rw [List.dropLast_concat]
    have split : l.steps = (.root :: (front.filter (!idle ·)).map stepOf) ++ [stepOf last] := by
      rw [own, kept]
      simp [busy]
    rw [parent, Option.map_some, steps_assemble_root free, filter_dropIdleEnd, split, List.dropLast_concat, if_neg]
    simp

theorem length_steps_le {l : Location} (absolute : l.isAbsolute = true) : l.steps.length ≤ l.text.length + 1 := by
  obtain ⟨body, written⟩ := isAbsolute_iff.mp absolute
  have length : l.text.length = body.length + 1 := by rw [← String.length_toList, written, List.length_cons]
  have own : l.steps = .root :: ((pieces '/' body).filter (!idle ·)).map stepOf := by
    simp [steps, dissect, written]
  have few := List.length_filter_le (!idle ·) (pieces '/' body)
  have cut := length_pieces_le '/' body
  rw [own, List.length_cons, List.length_map]
  omega

/-- The directories from an absolute place upwards, the nearest first: its first steps, from all
of them down to the root alone. -/
theorem map_steps_ancestorsWithin {fuel : Nat} {l : Location} (absolute : l.isAbsolute = true)
    (enough : l.steps.length ≤ fuel + 1) :
    (ancestorsWithin fuel l).map steps = (List.range l.steps.length).map fun n =>
      l.steps.take (l.steps.length - n) := by
  induction fuel generalizing l with
  | zero =>
    obtain ⟨rest, steps⟩ := List.head?_eq_some_iff.mp (isAbsolute_iff_steps.mp absolute)
    obtain rfl : rest = [] := by simpa [steps] using enough
    simp [ancestorsWithin, steps]
  | succ fuel ih =>
    have higher := map_steps_parent? absolute
    cases parent : l.parent? with
    | none =>
      have root : l.steps = [.root] := by simpa [parent] using higher
      simp [ancestorsWithin, parent, root]
    | some above =>
      obtain ⟨rest, steps⟩ := List.head?_eq_some_iff.mp (isAbsolute_iff_steps.mp absolute)
      have count : l.steps.length = rest.length + 1 := by rw [steps, List.length_cons]
      have left : above.steps = l.steps.take rest.length := by
        rw [parent, Option.map_some] at higher
        split at higher
        · cases higher
        · rw [Option.some.inj higher, List.dropLast_eq_take, count, Nat.add_sub_cancel]
      have fewer : above.steps.length = rest.length := by
        rw [left, List.length_take, count]
        omega
      have later : ∀ n, above.steps.take (rest.length - n) = l.steps.take (rest.length + 1 - (n + 1)) := by
        intro n
        rw [left, List.take_take]
        congr 1
        omega
      rw [ancestorsWithin, parent, Option.elim_some, List.map_cons,
        ih (isAbsolute_of_parent? absolute parent) (by omega), fewer, count, List.range_succ_eq_map, List.map_cons,
        List.map_map, Nat.sub_zero, ← count, List.take_length, count]
      exact congrArg _ (List.map_congr_left fun n _ => later n)

/-- All directories are met on the way up to the root. -/
theorem map_steps_ancestors {l : Location} (absolute : l.isAbsolute = true) :
    l.ancestors.map steps = (List.range l.steps.length).map fun n => l.steps.take (l.steps.length - n) :=
  map_steps_ancestorsWithin absolute (length_steps_le absolute)

theorem head?_ancestors (l : Location) : l.ancestors.head? = some l := by
  unfold ancestors
  cases l.text.length <;> rfl

end LayeredConfig.Location
