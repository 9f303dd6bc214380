import LayeredConfig.Combined.Compiled
import LayeredConfig.Proofs.Outcome
import LayeredConfig.Proofs.Value.Overlay

namespace LayeredConfig

/-- The keys a position begins with, up to its first index. -/
def leadingKeys : List Slot → List String
  | .key key :: rest => key :: leadingKeys rest
  | _ => []

/-- What is left of a position after its leading keys. -/
def afterKeys : List Slot → List Slot
  | .key _ :: rest => afterKeys rest
  | position => position

theorem leadingKeys_append_afterKeys (position : List Slot) :
    (leadingKeys position).map Slot.key ++ afterKeys position = position := by
  induction position with
  | nil => rfl
  | cons slot rest ih =>
    cases slot with
    | key key => simpa [leadingKeys, afterKeys] using ih
    | index i => rfl

theorem afterKeys_ne_key (position : List Slot) (key : String) (rest : List Slot) :
    afterKeys position ≠ .key key :: rest := by
  induction position with
  | nil => simp [afterKeys]
  | cons slot more ih =>
    cases slot with
    | key name => simpa [afterKeys] using ih
    | index i => simp [afterKeys]

namespace Value

@[simp] theorem inside?_nil (v : Value) : v.inside? [] = some v :=
  rfl

theorem inside?_cons (v : Value) (slot : Slot) (rest : List Slot) :
    v.inside? (slot :: rest) = (v.slot? slot).bind (·.inside? rest) :=
  List.foldlM_cons

theorem inside?_append (v : Value) (first second : List Slot) :
    v.inside? (first ++ second) = (v.inside? first).bind (·.inside? second) :=
  List.foldlM_append

/-- A position of keys alone is a key path. -/
theorem inside?_map_key (v : Value) (path : List String) : v.inside? (path.map Slot.key) = v.at? path := by
  induction path generalizing v with
  | nil => rfl
  | cons key rest ih =>
    rw [List.map_cons, inside?_cons]
    cases v with
    | object fields => cases found : fields.lookup key <;> simp [slot?, at?, found, ih]
    | _ => rfl

/-- A text at a position of an object stands inside a value without fields, which
the leading keys reach. -/
theorem inside?_eq_string_iff {fields : Fields} {position : List Slot} {text : String} :
    (object fields).inside? position = some (.string text) ↔
      ∃ v, valueAt? fields (leadingKeys position) = some v ∧ v.fields? = none ∧
        v.inside? (afterKeys position) = some (.string text) := by
  have split : (object fields).inside? position =
      ((object fields).at? (leadingKeys position)).bind (·.inside? (afterKeys position)) := by
    rw [← inside?_map_key, ← inside?_append, leadingKeys_append_afterKeys]
  have leaf : ∀ v : Value, v.inside? (afterKeys position) = some (.string text) → v.fields? = none := by
    intro v held
    cases v with
    | object inner =>
      cases rest : afterKeys position with
      | nil => simp [rest] at held
      | cons slot more =>
        cases slot with
        | key key => exact absurd rest (afterKeys_ne_key position key more)
        | index i => simp [rest, inside?_cons, slot?] at held
    | _ => rfl
  constructor
  · intro held
    obtain ⟨v, reached, inside⟩ := Option.bind_eq_some_iff.mp (split ▸ held)
    have nonempty : leadingKeys position ≠ [] := by
      intro none_
      rw [none_, at?, Option.some.injEq] at reached
      exact absurd (leaf v inside) (by simp [← reached, fields?])
    exact ⟨v, at?_object nonempty ▸ reached, leaf v inside, inside⟩
  · rintro ⟨v, reached, -, inside⟩
    have nonempty : leadingKeys position ≠ [] := by
      intro none_
      simp [none_, valueAt?] at reached
    rw [split, at?_object nonempty, reached, Option.bind_some, inside]

theorem hasTagged_of_getElem? {items : List Value} {i : Nat} {v : Value} (found : items[i]? = some v)
    (tagged : v.hasTagged = true) : hasTaggedItem items = true := by
  induction items generalizing i with
  | nil => simp at found
  | cons first rest ih =>
    rw [hasTaggedItem, Bool.or_eq_true]
    cases i with
    | zero =>
      rw [List.getElem?_cons_zero, Option.some.injEq] at found
      exact Or.inl (found ▸ tagged)
    | succ j => exact Or.inr (ih found)

theorem hasTagged_of_lookup {fields : Fields} {key : String} {v : Value} (found : fields.lookup key = some v)
    (tagged : v.hasTagged = true) : hasTaggedField fields = true := by
  induction fields with
  | nil => simp at found
  | cons field rest ih =>
    obtain ⟨name, first⟩ := field
    rw [List.lookup_cons] at found
    rw [hasTaggedField, Bool.or_eq_true]
    split at found
    · exact Or.inl (Option.some.inj found ▸ tagged)
    · exact Or.inr (ih found)

theorem hasTagged_of_slot? {v part : Value} {slot : Slot} (found : v.slot? slot = some part)
    (tagged : part.hasTagged = true) : v.hasTagged = true := by
  cases slot with
  | key key =>
    cases v with
    | object fields => exact hasTagged_of_lookup found tagged
    | _ => cases found
  | index i =>
    cases v with
    | array items => exact hasTagged_of_getElem? found tagged
    | _ => cases found

/-- A value has what a part of it has. -/
theorem hasTagged_of_inside? {v part : Value} {position : List Slot} (found : v.inside? position = some part)
    (tagged : part.hasTagged = true) : v.hasTagged = true := by
  induction position generalizing v with
  | nil =>
    rw [inside?_nil, Option.some.injEq] at found
    exact found ▸ tagged
  | cons slot rest ih =>
    rw [inside?_cons] at found
    obtain ⟨next, step, further⟩ := Option.bind_eq_some_iff.mp found
    exact hasTagged_of_slot? step (ih further)

end Value

/-- The part one step inside a compiled value. A plain part holds nothing
deferred, and has no parts here. -/
def Compiled.slot? (c : Compiled) : Slot → Option Compiled
  | .key k => match c with
    | .object fields => fields.lookup k
    | _ => none
  | .index i => match c with
    | .array items => items[i]?
    | _ => none

/-- The part at a position of a compiled value. -/
def Compiled.inside? (c : Compiled) (position : List Slot) : Option Compiled :=
  position.foldlM slot? c

/-- The part at a position of a configuration. -/
def Configuration.inside? (c : Configuration) (position : List Slot) : Option Compiled :=
  (Compiled.object c.entities).inside? position

theorem Compiled.inside?_cons (c : Compiled) (slot : Slot) (rest : List Slot) :
    c.inside? (slot :: rest) = (c.slot? slot).bind (·.inside? rest) :=
  List.foldlM_cons

/-- A deferred expression keeps its text and the directory it was compiled in. -/
theorem Deferred.compile_eq_some {text : String} {dir : Location} {d : Deferred}
    (compiled : Deferred.compile text dir = .ok (some d)) :
    d.source = text ∧ d.baseDir = dir ∧ (taggedBody? text).isSome := by
  unfold Deferred.compile at compiled
  cases body : taggedBody? text with
  | none => simp [body] at compiled
  | some inner =>
    rw [body] at compiled
    obtain ⟨expr, -, same⟩ := map_eq_ok.mp compiled
    rw [Option.some.injEq] at same
    exact ⟨same ▸ rfl, same ▸ rfl, rfl⟩

namespace Binding

variable {b : Binding} {position : List Slot}

/-- The directory of the document a text comes from. -/
def dirOf (b : Binding) (position : List Slot) (text : String) : Location :=
  (b.origin? position text).elim b.fallback Document.dir

theorem compileText_eq_deferred_iff {text : String} {d : Deferred} :
    b.compileText position text = .ok (.deferred d) ↔
      Deferred.compile text (b.dirOf position text) = .ok (some d) := by
  simp only [compileText, dirOf]
  split <;> simp_all

theorem compile_eq_deferred_iff {v : Value} {d : Deferred} :
    b.compile position v = .ok (.deferred d) ↔
      ∃ text, v = .string text ∧ Deferred.compile text (b.dirOf position text) = .ok (some d) := by
  cases v with
  | string text => simp [compile, compileText_eq_deferred_iff]
  | array items =>
    rw [compile]
    split <;> simp [map_eq_ok]
  | object fields =>
    rw [compile]
    split <;> simp [map_eq_ok]
  | _ => simp [compile]

theorem compile_of_not_hasTagged {v : Value} (untagged : v.hasTagged = false) :
    b.compile position v = .ok (.plain v) := by
  cases v with
  | string text =>
    have body : taggedBody? text = none := by simpa [Value.hasTagged] using untagged
    simp [compile, compileText, Deferred.compile, body]
  | array items =>
    rw [Value.hasTagged] at untagged
    rw [compile, untagged]
    rfl
  | object fields =>
    rw [Value.hasTagged] at untagged
    rw [compile, untagged]
    rfl
  | _ => simp [compile]

/-- Item by item, what is compiled stands where its value stood. -/
theorem compileItems_getElem? {items : List Value} {index : Nat} {compiled : List Compiled}
    (ok : b.compileItems position index items = .ok compiled) (i : Nat) :
    (items[i]? = none ∧ compiled[i]? = none) ∨
      ∃ v c, items[i]? = some v ∧ compiled[i]? = some c ∧
        b.compile (position ++ [.index (index + i)]) v = .ok c := by
  induction items generalizing index compiled i with
  | nil =>
    rw [compileItems, Except.ok.injEq] at ok
    simp [← ok]
  | cons first rest ih =>
    rw [compileItems] at ok
    obtain ⟨c, head, ok⟩ := bind_eq_ok.mp ok
    obtain ⟨more, tail, same⟩ := bind_eq_ok.mp ok
    rw [Except.ok.injEq] at same
    subst same
    cases i with
    | zero => exact Or.inr ⟨first, c, by simp, by simp, head⟩
    | succ j =>
      have place : index + 1 + j = index + (j + 1) := by omega
      simpa [place] using ih tail j

theorem compileFields_lookup {fields : List (String × Value)} {compiled : List (String × Compiled)}
    (ok : b.compileFields position fields = .ok compiled) (key : String) :
    (fields.lookup key = none ∧ compiled.lookup key = none) ∨
      ∃ v c, fields.lookup key = some v ∧ compiled.lookup key = some c ∧
        b.compile (position ++ [.key key]) v = .ok c := by
  induction fields generalizing compiled with
  | nil =>
    rw [compileFields, Except.ok.injEq] at ok
    simp [← ok]
  | cons field rest ih =>
    obtain ⟨name, first⟩ := field
    rw [compileFields] at ok
    obtain ⟨c, head, ok⟩ := bind_eq_ok.mp ok
    obtain ⟨more, tail, same⟩ := bind_eq_ok.mp ok
    rw [Except.ok.injEq] at same
    subst same
    by_cases own : key = name
    · subst own
      exact Or.inr ⟨first, c, by simp, by simp, head⟩
    · have apart : (key == name) = false := by simpa using own
      simpa [List.lookup_cons, apart] using ih tail

/-- One step inside a compiled value leads to what the value's part compiles to. -/
theorem compile_slot? {v : Value} {c : Compiled} (ok : b.compile position v = .ok c)
    (tagged : v.hasTagged = true) (slot : Slot) :
    (v.slot? slot = none ∧ c.slot? slot = none) ∨
      ∃ part inner, v.slot? slot = some part ∧ c.slot? slot = some inner ∧
        b.compile (position ++ [slot]) part = .ok inner := by
  cases v with
  | array items =>
    rw [Value.hasTagged] at tagged
    rw [compile, if_pos tagged] at ok
    obtain ⟨compiled, each, rfl⟩ := map_eq_ok.mp ok
    cases slot with
    | key key => exact Or.inl ⟨rfl, rfl⟩
    | index i => simpa [Value.slot?, Compiled.slot?] using compileItems_getElem? each i
  | object fields =>
    rw [Value.hasTagged] at tagged
    rw [compile, if_pos tagged] at ok
    obtain ⟨compiled, each, rfl⟩ := map_eq_ok.mp ok
    cases slot with
    | key key => exact compileFields_lookup each key
    | index i => exact Or.inl ⟨rfl, rfl⟩
  | string text =>
    refine Or.inl ⟨by cases slot <;> rfl, ?_⟩
    rw [compile, compileText] at ok
    split at ok <;> cases ok <;> cases slot <;> rfl
  | null | bool _ | number _ => simp [Value.hasTagged] at tagged

/-- A deferred expression stands in a compiled value exactly where a text of the
value compiles to it. -/
theorem inside?_eq_deferred_iff {v : Value} {c : Compiled} (ok : b.compile position v = .ok c)
    {further : List Slot} {d : Deferred} :
    c.inside? further = some (.deferred d) ↔
      ∃ text, v.inside? further = some (.string text) ∧
        Deferred.compile text (b.dirOf (position ++ further) text) = .ok (some d) := by
  induction further generalizing v c position with
  | nil =>
    rw [Compiled.inside?, List.foldlM_nil, List.append_nil]
    simp only [Value.inside?_nil, Option.some.injEq, ← compile_eq_deferred_iff, ok]
    simp
  | cons slot rest ih =>
    cases tagged : v.hasTagged with
    | false =>
      -- nothing deferred can stand in a value that is kept as it is
      rw [compile_of_not_hasTagged tagged, Except.ok.injEq] at ok
      refine iff_of_false (fun found => ?_) ?_
      · cases slot <;> simp [Compiled.inside?_cons, Compiled.slot?, ← ok] at found
      · rintro ⟨text, found, compiled⟩
        have inner := Value.hasTagged_of_inside? found (Deferred.compile_eq_some compiled).2.2
        rw [tagged] at inner
        cases inner
    | true =>
      rw [Compiled.inside?_cons, Value.inside?_cons]
      rcases compile_slot? ok tagged slot with ⟨left, right⟩ | ⟨part, inner, found, step, within⟩
      · simp [left, right]
      · simp [found, step, ih within]

end Binding

end LayeredConfig
