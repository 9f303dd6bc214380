import LayeredConfig.Proofs.Location.Canonical

namespace LayeredConfig

/-- How a line stands in a text: up to a line feed, of which a carriage return before it is
part, or up to the end. At the end there is no empty line. -/
inductive WrittenLine (line : List Char) : (written behind : List Char) → Prop
  | feed {rest} (bare : line.getLast? ≠ some '\r') : WrittenLine line line ('\n' :: rest)
  | returned {rest} : WrittenLine line (line ++ ['\r']) ('\n' :: rest)
  | last (filled : line ≠ []) : WrittenLine line line []

/-- A line of a text by its number, counted from 1: it stands at the start or behind a line
feed, and behind as many line feeds in all as there are lines before it. -/
def LineAt (text : List Char) (number : Nat) (line : List Char) : Prop :=
  ∃ front written behind, text = front ++ (written ++ behind) ∧ (front = [] ∨ ∃ above, front = above ++ ['\n']) ∧
    number = front.count '\n' + 1 ∧ '\n' ∉ written ∧ WrittenLine line written behind

section Lines

variable {text first rest line : List Char} {number : Nat}

theorem WrittenLine.unique {other written behind : List Char} (closed : WrittenLine line written behind)
    (also : WrittenLine other written behind) : line = other := by
  cases closed with
  | feed bare =>
    cases also with
    | feed => rfl
    | returned => simp at bare
  | returned =>
    generalize same : line ++ ['\r'] = written at also
    cases also with
    | feed bare =>
      subst same
      simp at bare
    | returned => exact List.append_cancel_right same
  | last =>
    cases also with
    | last => rfl

/-- A text is one line, or goes on behind its first line feed. -/
@[elab_as_elim]
theorem feedInduction {motive : List Char → Prop} (whole : ∀ text, '\n' ∉ text → motive text)
    (feed : ∀ first rest, '\n' ∉ first → motive rest → motive (first ++ '\n' :: rest)) (text : List Char) :
    motive text := by
  induction length : text.length using Nat.strongRecOn generalizing text with
  | _ n ih =>
    by_cases more : '\n' ∈ text
    · obtain ⟨first, rest, rfl, free⟩ := List.eq_append_cons_of_mem more
      refine feed first rest free (ih rest.length ?_ rest rfl)
      simp only [← length, List.length_append, List.length_cons]
      omega
    · exact whole text more

theorem linesOf_of_not_mem (free : '\n' ∉ text) : linesOf text = if text = [] then [] else [text] := by
  rw [linesOf, pieces_of_not_mem free]
  cases text <;> rfl

/-- The first line is what stands before the first line feed. -/
theorem linesOf_append (free : '\n' ∉ first) (rest : List Char) :
    ∃ line, linesOf (first ++ '\n' :: rest) = line :: linesOf rest ∧ WrittenLine line first ('\n' :: rest) := by
  obtain ⟨piece, more, cut⟩ := List.exists_cons_of_ne_nil (pieces_ne_nil '\n' rest)
  have whole : pieces '\n' (first ++ '\n' :: rest) = first :: piece :: more := by
    rw [pieces_append_sep, pieces_of_not_mem free, cut, List.singleton_append]
  by_cases returned : first.getLast? = some '\r'
  · obtain ⟨line, rfl⟩ := List.getLast?_eq_some_iff.mp returned
    refine ⟨line, ?_, .returned⟩
    simp only [linesOf, whole, cut, List.dropLast_cons_cons, List.map_cons, List.getLast?_cons_cons, returned,
      List.dropLast_concat]
    split <;> rfl
  · refine ⟨first, ?_, .feed returned⟩
    simp only [linesOf, whole, cut, List.dropLast_cons_cons, List.map_cons, List.getLast?_cons_cons]
    split <;> simp

/-- A line feed behind the first line feed of a text is that one or stands in the rest. -/
theorem append_feed_cases {above tail : List Char} (free : '\n' ∉ first)
    (same : first ++ '\n' :: rest = above ++ '\n' :: tail) :
    first = above ∧ rest = tail ∨ ∃ more, above = first ++ '\n' :: more ∧ rest = more ++ '\n' :: tail := by
  rcases List.append_eq_append_iff.mp same with ⟨more, rfl, behind⟩ | ⟨more, rfl, behind⟩
  · cases more with
    | nil => exact Or.inl ⟨by simp, by simpa using behind⟩
    | cons c more =>
      rw [List.cons_append, List.cons.injEq] at behind
      exact Or.inr ⟨more, by rw [behind.1], behind.2⟩
  · cases more with
    | nil => exact Or.inl ⟨by simp, by simpa [eq_comm] using behind⟩
    | cons c more =>
      rw [List.cons_append, List.cons.injEq] at behind
      simp [← behind.1] at free

theorem WrittenLine.cases_behind {written behind : List Char} (closed : WrittenLine line written behind) :
    (∃ rest, behind = '\n' :: rest) ∨ behind = [] ∧ written = line ∧ line ≠ [] := by
  cases closed with
  | feed => exact Or.inl ⟨_, rfl⟩
  | returned => exact Or.inl ⟨_, rfl⟩
  | last filled => exact Or.inr ⟨rfl, rfl, filled⟩

theorem lineAt_of_not_mem (free : '\n' ∉ text) :
    LineAt text number line ↔ text = line ∧ line ≠ [] ∧ number = 1 := by
  constructor
  · rintro ⟨front, written, behind, rfl, start, rfl, -, closed⟩
    rcases closed.cases_behind with ⟨rest, rfl⟩ | ⟨rfl, rfl, filled⟩
    · simp at free
    · rcases start with rfl | ⟨above, rfl⟩
      · exact ⟨by simp, filled, rfl⟩
      · simp at free
  · rintro ⟨rfl, filled, rfl⟩
    exact ⟨[], text, [], by simp, Or.inl rfl, rfl, free, .last filled⟩

/-- Behind the first line feed the lines of a text are those of the rest. -/
theorem lineAt_append_iff (free : '\n' ∉ first) :
    LineAt (first ++ '\n' :: rest) number line ↔
      number = 1 ∧ WrittenLine line first ('\n' :: rest) ∨ ∃ less, number = less + 1 ∧ LineAt rest less line := by
  constructor
  · rintro ⟨front, written, behind, whole, start, rfl, apart, closed⟩
    rcases start with rfl | ⟨above, rfl⟩
    · -- the line is the first, so what ends it is the first line feed
      rw [List.nil_append] at whole
      rcases closed.cases_behind with ⟨tail, rfl⟩ | ⟨rfl, -, -⟩
      · rcases append_feed_cases free whole with ⟨rfl, rfl⟩ | ⟨more, rfl, -⟩
        · exact Or.inl ⟨rfl, closed⟩
        · simp at apart
      · rw [List.append_nil] at whole
        simp [← whole] at apart
    · -- the line feed before the line is the first, or a later one
      rw [List.append_assoc, List.singleton_append] at whole
      rcases append_feed_cases free whole with ⟨rfl, rfl⟩ | ⟨more, rfl, rfl⟩
      · exact Or.inr ⟨1, by simp [List.count_eq_zero_of_not_mem free], [], written, behind, rfl, Or.inl rfl, rfl,
          apart, closed⟩
      · refine Or.inr ⟨(more ++ ['\n']).count '\n' + 1, ?_, more ++ ['\n'], written, behind, by simp,
          Or.inr ⟨more, rfl⟩, rfl, apart, closed⟩
        simp [List.count_eq_zero_of_not_mem free]
  · rintro (⟨rfl, closed⟩ | ⟨less, rfl, front, written, behind, rfl, start, rfl, apart, closed⟩)
    · exact ⟨[], first, '\n' :: rest, rfl, Or.inl rfl, rfl, free, closed⟩
    · refine ⟨first ++ '\n' :: front, written, behind, by simp, Or.inr ?_, ?_, apart, closed⟩
      · rcases start with rfl | ⟨above, rfl⟩
        · exact ⟨first, rfl⟩
        · exact ⟨first ++ '\n' :: above, by simp⟩
      · simp [List.count_eq_zero_of_not_mem free]

theorem LineAt.number_ne_zero (at_ : LineAt text number line) : number ≠ 0 := by
  obtain ⟨_, _, _, _, _, rfl, _⟩ := at_
  exact Nat.succ_ne_zero _

/-- The lines of a text are those that stand in it, in their order. -/
theorem getElem?_linesOf_eq_some_iff {i : Nat} : (linesOf text)[i]? = some line ↔ LineAt text (i + 1) line := by
  induction text using feedInduction generalizing i with
  | whole text free =>
    rw [linesOf_of_not_mem free, lineAt_of_not_mem free]
    constructor
    · intro found
      split at found
      · cases found
      · next filled =>
        obtain ⟨rfl, same⟩ : i = 0 ∧ text = line := by simpa [List.getElem?_singleton] using found
        exact ⟨same, same ▸ filled, rfl⟩
    · rintro ⟨rfl, filled, same⟩
      cases same
      rw [if_neg filled]
      rfl
  | feed first rest free ih =>
    obtain ⟨own, lines, closed⟩ := linesOf_append free rest
    rw [lines, lineAt_append_iff free]
    cases i with
    | zero =>
      have early : ¬∃ less, 0 + 1 = less + 1 ∧ LineAt rest less line := by
        rintro ⟨less, same, later⟩
        exact later.number_ne_zero (by omega)
      rw [or_iff_left early, List.getElem?_cons_zero, Option.some.injEq]
      constructor
      · rintro rfl
        exact ⟨rfl, closed⟩
      · rintro ⟨-, also⟩
        exact closed.unique also
    | succ i => simp [ih]

end Lines

end LayeredConfig
