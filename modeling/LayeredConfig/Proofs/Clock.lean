import LayeredConfig.Clock

namespace LayeredConfig

theorem isDigit_of_mem_padded {width n : Nat} {c : Char} (member : c ∈ padded width n) : c.isDigit = true := by
  rcases List.mem_append.mp member with zero | digit
  · rw [List.eq_of_mem_replicate zero]
    decide
  · exact Nat.isDigit_of_mem_toDigits (by decide) (by decide) digit

namespace Instant

/-- A time stamp is written in digits and a few marks. -/
theorem mem_toMillis {t : Instant} {c : Char} (member : c ∈ t.toMillis.toList) :
    c.isDigit = true ∨ c ∈ ['-', '+', 'T', ':', '.', 'Z'] := by
  have year : ∀ y, c ∈ yearText y → c.isDigit = true ∨ c ∈ ['-', '+', 'T', ':', '.', 'Z'] := by
    intro y inside
    unfold yearText at inside
    split at inside
    · exact Or.inl (isDigit_of_mem_padded inside)
    · rcases List.mem_cons.mp inside with sign | digits
      · split at sign <;> simp [sign]
      · exact Or.inl (isDigit_of_mem_padded digits)
  have digits : ∀ width n, c ∈ padded width n → c.isDigit = true ∨ c ∈ ['-', '+', 'T', ':', '.', 'Z'] :=
    fun width n inside => Or.inl (isDigit_of_mem_padded inside)
  unfold toMillis dayAndTime at member
  simp only [String.toList_ofList, List.mem_append, List.mem_cons] at member
  grind

end Instant

end LayeredConfig
