import LayeredConfig.Proofs.Value.WellFormed
import LayeredConfig.Yaml.Reader

namespace LayeredConfig.Yaml

namespace Node

theorem wellFormed_of_intValue? {n : Int} {v : Value} (read : intValue? n = some v) : v.WellFormed := by
  unfold intValue? at read
  split at read
  · cases read
    simp [Value.WellFormed]
  · cases read

theorem wellFormed_of_plainValue? {content : String} {v : Value} (read : plainValue? content = some v) :
    v.WellFormed := by
  unfold plainValue? at read
  split at read
  case h_3 => exact wellFormed_of_intValue? read
  all_goals
    cases read
    simp [Value.WellFormed]

/-- A scalar has no parts. -/
theorem wellFormed_of_scalarValue? {tag : Option TagBytes} {content : String} {plain : Bool} {v : Value}
    (read : scalarValue? tag content plain = some v) : v.WellFormed := by
  unfold scalarValue? at read
  split at read
  · split at read
    · exact wellFormed_of_plainValue? read
    · cases read
      simp [Value.WellFormed]
  · split at read
    · obtain ⟨b, _, rfl⟩ := Option.map_eq_some_iff.mp read
      simp [Value.WellFormed]
    split at read
    · obtain ⟨n, _, known⟩ := Option.bind_eq_some_iff.mp read
      exact wellFormed_of_intValue? known
    split at read
    · split at read
      · cases read
        simp [Value.WellFormed]
      · obtain ⟨x, _, rfl⟩ := Option.map_eq_some_iff.mp read
        simp [Value.WellFormed]
    split at read
    · split at read
      · cases read
        simp [Value.WellFormed]
      · cases read
    split at read
    · cases read
    split at read
    · exact wellFormed_of_plainValue? read
    · cases read
      simp [Value.WellFormed]

section Parts

variable {found : Anchored} {read : Node Nat → Nat → Option (Value × Nat)}
  (sound : ∀ node left v rest, read node left = some (v, rest) → v.WellFormed)

include sound

theorem wellFormedItems_of_inTurn? {items : List (Node Nat)} {left rest : Nat} {values : List Value}
    (done : inTurn? read items left = some (values, rest)) : Value.WellFormedItems values := by
  induction items generalizing left values with
  | nil =>
    cases done
    rw [Value.WellFormedItems]
    trivial
  | cons item more ih =>
    obtain ⟨⟨v, middle⟩, first, done⟩ := Option.bind_eq_some_iff.mp done
    obtain ⟨⟨others, last⟩, later, done⟩ := Option.bind_eq_some_iff.mp done
    cases done
    rw [Value.WellFormedItems]
    exact ⟨sound _ _ _ _ first, ih later⟩

theorem wellFormed_of_entriesInTurn? {start : Fields} (wellFormed : (Value.object start).WellFormed)
    {entries : List (Node Nat × Node Nat)} {left rest : Nat} {fields : Fields}
    (done : entriesInTurn? found read start entries left = some (fields, rest)) :
    (Value.object fields).WellFormed := by
  induction entries generalizing start left with
  | nil =>
    cases done
    exact wellFormed
  | cons entry more ih =>
    obtain ⟨key, value⟩ := entry
    obtain ⟨⟨target, middle⟩, _, done⟩ := Option.bind_eq_some_iff.mp done
    cases target with
    | scalar mark content plain =>
      obtain ⟨⟨v, after⟩, first, done⟩ := Option.bind_eq_some_iff.mp done
      exact ih (wellFormed.put (sound _ _ _ _ first) content) done
    | _ => cases done

end Parts

theorem wellFormed_of_valueBy? {found : Anchored} {inner : Option (Node Nat → Nat → Option (Value × Nat))}
    (sound : ∀ read ∈ inner, ∀ node left v rest, read node left = some (v, rest) → v.WellFormed)
    {node : Node Nat} {left rest : Nat} {v : Value} (done : valueBy? found inner node left = some (v, rest)) :
    v.WellFormed := by
  obtain ⟨⟨target, middle⟩, _, done⟩ := Option.bind_eq_some_iff.mp done
  rcases target with n | ⟨mark, content, plain⟩ | ⟨mark, items⟩ | ⟨mark, entries⟩
  · cases inner <;> cases done
  · obtain ⟨scalar, meant, same⟩ := Option.map_eq_some_iff.mp
      (show (scalarValue? mark.tag content plain).map (·, middle) = some (v, rest) by cases inner <;> exact done)
    cases same
    exact wellFormed_of_scalarValue? meant
  · cases inner with
    | none => cases done
    | some read =>
      dsimp only at done
      split at done
      · cases done
      · obtain ⟨⟨values, last⟩, parts, same⟩ := Option.map_eq_some_iff.mp done
        cases same
        rw [Value.WellFormed]
        exact wellFormedItems_of_inTurn? (sound read rfl) parts
  · cases inner with
    | none => cases done
    | some read =>
      dsimp only at done
      split at done
      · cases done
      · obtain ⟨⟨fields, last⟩, parts, same⟩ := Option.map_eq_some_iff.mp done
        cases same
        exact wellFormed_of_entriesInTurn? (sound read rfl) Value.wellFormed_nil parts

theorem wellFormed_of_value? {found : Anchored} {depth : Nat} {node : Node Nat} {left rest : Nat} {v : Value}
    (done : value? found depth node left = some (v, rest)) : v.WellFormed := by
  induction depth generalizing node left rest v with
  | zero => exact wellFormed_of_valueBy? (fun read none_ => by cases none_) done
  | succ depth ih =>
    refine wellFormed_of_valueBy? (fun read same node left v rest known => ?_) done
    rw [Option.mem_some_iff] at same
    exact ih (same ▸ known)

end Node

/-- In a value that was read, no mapping has a key twice. -/
theorem wellFormed_of_read? {text : String} {v : Value} (read : read? text = some v) : v.WellFormed := by
  obtain ⟨tokens, _, read⟩ := Option.bind_eq_some_iff.mp read
  obtain ⟨named, _, read⟩ := Option.bind_eq_some_iff.mp read
  obtain ⟨⟨node, _⟩, _, read⟩ := Option.bind_eq_some_iff.mp read
  obtain ⟨⟨value, _⟩, done, read⟩ := Option.bind_eq_some_iff.mp read
  cases read
  exact Node.wellFormed_of_value? done

end LayeredConfig.Yaml
