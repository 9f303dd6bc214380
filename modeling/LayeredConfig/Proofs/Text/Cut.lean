import LayeredConfig.Proofs.Location.Canonical

namespace LayeredConfig

section Pieces

variable (sep : Char)

theorem joinWith_eq_intercalate (parts : List (List Char)) : joinWith sep parts = [sep].intercalate parts := by
  induction parts with
  | nil => rfl
  | cons part rest ih =>
    cases rest with
    | nil => simp [joinWith]
    | cons next more => simp [joinWith, ih]

theorem pieces_eq_splitOn (cs : List Char) : pieces sep cs = cs.splitOn sep := by
  have back := List.splitOn_intercalate sep (fun part member => not_mem_of_mem_pieces member)
    (pieces_ne_nil sep cs)
  rw [← back, ← joinWith_eq_intercalate, joinWith_pieces]

/-- Parts that are joined in two runs have a separator between the runs. -/
theorem joinWith_append {front back : List (List Char)} (some_ : front ≠ []) (more : back ≠ []) :
    joinWith sep (front ++ back) = joinWith sep front ++ sep :: joinWith sep back := by
  induction front with
  | nil => exact absurd rfl some_
  | cons part rest ih =>
    cases rest with
    | nil =>
      obtain ⟨next, later, rfl⟩ := List.exists_cons_of_ne_nil more
      rfl
    | cons next later =>
      have tail := ih (by simp)
      simp only [List.cons_append, joinWith, List.append_assoc] at tail ⊢
      rw [tail]

end Pieces

section Span

variable {p : Char → Bool} {cs front rest : List Char} {c : Char}

theorem dropWhile_append_cons (all : ∀ d ∈ front, p d = true) (stop : p c = false) :
    (front ++ c :: rest).dropWhile p = c :: rest := by
  rw [List.dropWhile_append_of_pos all, List.dropWhile_cons_of_neg (by simp [stop])]

theorem takeWhile_append_cons (all : ∀ d ∈ front, p d = true) (stop : p c = false) :
    (front ++ c :: rest).takeWhile p = front := by
  rw [List.takeWhile_append_of_pos all, List.takeWhile_cons_of_neg (by simp [stop]), List.append_nil]

/-- What is left begins with the first character that is not of the class. -/
theorem of_dropWhile_eq_cons (left : cs.dropWhile p = c :: rest) :
    cs = cs.takeWhile p ++ c :: rest ∧ (∀ d ∈ cs.takeWhile p, p d = true) ∧ p c = false := by
  have whole := List.takeWhile_append_dropWhile (p := p) (l := cs)
  have stop := List.head?_dropWhile_not p cs
  rw [left] at whole stop
  exact ⟨whole.symm, List.all_eq_true.mp List.all_takeWhile, by simpa using stop⟩

end Span

theorem utf8ByteSize_ofList_cons (c : Char) (cs : List Char) :
    (String.ofList (c :: cs)).utf8ByteSize = c.utf8Size + (String.ofList cs).utf8ByteSize := by
  rw [String.ofList_cons, String.utf8ByteSize_append, String.utf8ByteSize_singleton]

theorem cutAt?_cons {c : Char} {bytes : Nat} (whole : c.utf8Size ≤ bytes) (cs : List Char) :
    cutAt? bytes (c :: cs) = (cutAt? (bytes - c.utf8Size) cs).map fun (front, back) => (c :: front, back) := by
  have positive := c.utf8Size_pos
  obtain ⟨less, rfl⟩ := Nat.exists_eq_add_one.mpr (Nat.lt_of_lt_of_le positive whole)
  rw [cutAt?, if_pos whole]

theorem cutAt?_append (front back : List Char) :
    cutAt? (String.ofList front).utf8ByteSize (front ++ back) = some (front, back) := by
  induction front with
  | nil => simp [cutAt?]
  | cons c rest ih =>
    rw [utf8ByteSize_ofList_cons, List.cons_append, cutAt?_cons (Nat.le_add_right _ _),
      Nat.add_sub_cancel_left, ih, Option.map_some]

theorem of_cutAt?_eq_some {bytes : Nat} {cs front back : List Char} (cut : cutAt? bytes cs = some (front, back)) :
    cs = front ++ back ∧ (String.ofList front).utf8ByteSize = bytes := by
  induction cs generalizing bytes front with
  | nil => cases bytes <;> simp_all [cutAt?]
  | cons c rest ih =>
    cases bytes with
    | zero => simp_all [cutAt?]
    | succ less =>
      rw [cutAt?] at cut
      split at cut
      · next whole =>
        obtain ⟨⟨later, tail⟩, found, same⟩ := Option.map_eq_some_iff.mp cut
        cases same
        obtain ⟨rfl, size⟩ := ih found
        refine ⟨rfl, ?_⟩
        rw [utf8ByteSize_ofList_cons, size]
        omega
      · cases cut

/-- A cut leaves the text in two parts, the first of them of the given size. -/
theorem cutAt?_eq_some_iff {bytes : Nat} {cs front back : List Char} :
    cutAt? bytes cs = some (front, back) ↔ cs = front ++ back ∧ (String.ofList front).utf8ByteSize = bytes := by
  constructor
  · exact of_cutAt?_eq_some
  · rintro ⟨rfl, rfl⟩
    exact cutAt?_append front back

theorem cutAt?_eq_none_of_lt {bytes : Nat} {cs : List Char} (short : (String.ofList cs).utf8ByteSize < bytes) :
    cutAt? bytes cs = none := by
  cases cut : cutAt? bytes cs with
  | none => rfl
  | some parts =>
    obtain ⟨rfl, size⟩ := of_cutAt?_eq_some cut
    rw [String.ofList_append, String.utf8ByteSize_append] at short
    omega

/-- A text can be cut between two of its characters and at its ends. -/
theorem isSome_cutAt?_iff {bytes : Nat} {text : String} :
    (cutAt? bytes text.toList).isSome ↔ String.Pos.Raw.IsValid text ⟨bytes⟩ := by
  rw [String.Pos.Raw.isValid_iff_exists_append]
  constructor
  · intro cut
    obtain ⟨⟨front, back⟩, found⟩ := Option.isSome_iff_exists.mp cut
    obtain ⟨whole, size⟩ := of_cutAt?_eq_some found
    refine ⟨String.ofList front, String.ofList back, ?_, ?_⟩
    · rw [← String.ofList_append, ← whole, String.ofList_toList]
    · rw [← size]
      rfl
  · rintro ⟨front, back, rfl, same⟩
    have size : (String.ofList front.toList).utf8ByteSize = bytes := by
      rw [String.ofList_toList]
      exact congrArg String.Pos.Raw.byteIdx same.symm
    rw [String.toList_append, ← size, cutAt?_append]
    rfl

end LayeredConfig
