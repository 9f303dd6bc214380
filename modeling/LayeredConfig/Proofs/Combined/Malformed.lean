import LayeredConfig.Proofs.Combined.Evaluation
import Mathlib.Data.List.Induction

namespace LayeredConfig

namespace Value

mutual

/-- The texts of a value with their positions, in the order they are met: fields and
items in turn, what is inside one before the next. The given position is that of the
value itself. -/
def texts (position : List Slot) : Value → List (List Slot × String)
  | .string text => [(position, text)]
  | .array items => textsOfItems position 0 items
  | .object fields => textsOfFields position fields
  | _ => []

/-- The texts of the items from an index on. -/
def textsOfItems (position : List Slot) (index : Nat) : List Value → List (List Slot × String)
  | [] => []
  | item :: rest => texts (position ++ [.index index]) item ++ textsOfItems position (index + 1) rest

def textsOfFields (position : List Slot) : List (String × Value) → List (List Slot × String)
  | [] => []
  | (key, value) :: rest => texts (position ++ [.key key]) value ++ textsOfFields position rest

end

mutual

theorem hasTagged_eq_any_texts : ∀ (position : List Slot) (v : Value),
    v.hasTagged = (v.texts position).any fun entry => (taggedBody? entry.2).isSome
  | position, .string text => by simp [hasTagged, texts]
  | position, .array items => by rw [hasTagged, texts, hasTaggedItem_eq_any_texts position 0 items]
  | position, .object fields => by rw [hasTagged, texts, hasTaggedField_eq_any_texts position fields]
  | _, .null | _, .bool _ | _, .number _ => by simp [hasTagged, texts]

theorem hasTaggedItem_eq_any_texts : ∀ (position : List Slot) (index : Nat) (items : List Value),
    hasTaggedItem items = (textsOfItems position index items).any fun entry => (taggedBody? entry.2).isSome
  | _, _, [] => rfl
  | position, index, item :: rest => by
    rw [hasTaggedItem, textsOfItems, List.any_append, ← hasTagged_eq_any_texts, ← hasTaggedItem_eq_any_texts]

theorem hasTaggedField_eq_any_texts : ∀ (position : List Slot) (fields : List (String × Value)),
    hasTaggedField fields = (textsOfFields position fields).any fun entry => (taggedBody? entry.2).isSome
  | _, [] => rfl
  | position, (key, value) :: rest => by
    rw [hasTaggedField, textsOfFields, List.any_append, ← hasTagged_eq_any_texts, ← hasTaggedField_eq_any_texts]

end

theorem hasTagged_eq_false_iff (position : List Slot) {v : Value} :
    v.hasTagged = false ↔ ∀ entry ∈ v.texts position, taggedBody? entry.2 = none := by
  simp [hasTagged_eq_any_texts position v]

theorem inside?_array_eq_string_iff {items : List Value} {position : List Slot} {text : String} :
    (array items).inside? position = some (.string text) ↔
      ∃ i v inner, items[i]? = some v ∧ position = .index i :: inner ∧ v.inside? inner = some (.string text) := by
  constructor
  · intro held
    cases position with
    | nil => cases held
    | cons slot rest =>
      rw [inside?_cons] at held
      obtain ⟨v, step, below⟩ := Option.bind_eq_some_iff.mp held
      cases slot with
      | key key => cases step
      | index i => exact ⟨i, v, rest, step, rfl, below⟩
  · rintro ⟨i, v, inner, found, rfl, held⟩
    simp [inside?_cons, slot?, found, held]

theorem inside?_object_eq_string_iff {fields : Fields} {position : List Slot} {text : String} :
    (object fields).inside? position = some (.string text) ↔
      ∃ key v inner, fields.lookup key = some v ∧ position = .key key :: inner ∧
        v.inside? inner = some (.string text) := by
  constructor
  · intro held
    cases position with
    | nil => cases held
    | cons slot rest =>
      rw [inside?_cons] at held
      obtain ⟨v, step, below⟩ := Option.bind_eq_some_iff.mp held
      cases slot with
      | key key => exact ⟨key, v, rest, step, rfl, below⟩
      | index i => cases step
  · rintro ⟨key, v, inner, found, rfl, held⟩
    simp [inside?_cons, slot?, found, held]

/-- No step leads into a value that is neither a list nor an object. -/
theorem slot?_of_leaf {v : Value} (noItems : ∀ items, v ≠ array items) (noFields : ∀ fields, v ≠ object fields)
    (slot : Slot) : v.slot? slot = none := by
  cases slot <;> cases v <;> simp_all [slot?]

mutual

/-- The texts met are those that stand somewhere in the value. -/
theorem mem_texts_iff : ∀ {v : Value}, v.WellFormed → ∀ {position p : List Slot} {text : String},
    (p, text) ∈ v.texts position ↔ ∃ inner, p = position ++ inner ∧ v.inside? inner = some (.string text)
  | .string own, _, position, p, text => by
    rw [texts, List.mem_singleton, Prod.mk.injEq]
    constructor
    · rintro ⟨rfl, rfl⟩
      exact ⟨[], by simp⟩
    · rintro ⟨inner, rfl, held⟩
      cases inner with
      | nil => simpa [eq_comm] using held
      | cons slot rest => simp [inside?_cons, slot?_of_leaf] at held
  | .array items, wellFormed, position, p, text => by
    rw [WellFormed] at wellFormed
    simp only [texts, mem_textsOfItems_iff wellFormed, inside?_array_eq_string_iff, Nat.zero_add]
    constructor
    · rintro ⟨i, v, inner, found, rfl, held⟩
      exact ⟨_, rfl, i, v, inner, found, rfl, held⟩
    · rintro ⟨_, rfl, i, v, inner, found, rfl, held⟩
      exact ⟨i, v, inner, found, rfl, held⟩
  | .object fields, wellFormed, position, p, text => by
    obtain ⟨distinct, values⟩ := wellFormed_object.mp wellFormed
    simp only [texts, mem_textsOfFields_iff distinct values, inside?_object_eq_string_iff]
    constructor
    · rintro ⟨key, v, inner, found, rfl, held⟩
      exact ⟨_, rfl, key, v, inner, found, rfl, held⟩
    · rintro ⟨_, rfl, key, v, inner, found, rfl, held⟩
      exact ⟨key, v, inner, found, rfl, held⟩
  | .null, _, _, _, _ | .bool _, _, _, _, _ | .number _, _, _, _, _ => by
    simp only [texts]
    refine iff_of_false List.not_mem_nil ?_
    rintro ⟨inner, -, held⟩
    cases inner with
    | nil => cases held
    | cons slot rest => simp [inside?_cons, slot?_of_leaf] at held

theorem mem_textsOfItems_iff : ∀ {items : List Value}, WellFormedItems items →
    ∀ {position p : List Slot} {index : Nat} {text : String}, (p, text) ∈ textsOfItems position index items ↔
      ∃ i v inner, items[i]? = some v ∧ p = position ++ .index (index + i) :: inner ∧
        v.inside? inner = some (.string text)
  | [], _, _, _, _, _ => by simp [textsOfItems]
  | item :: rest, wellFormed, position, p, index, text => by
    rw [WellFormedItems] at wellFormed
    rw [textsOfItems, List.mem_append, mem_texts_iff wellFormed.1, mem_textsOfItems_iff wellFormed.2]
    constructor
    · rintro (⟨inner, rfl, held⟩ | ⟨i, v, inner, found, rfl, held⟩)
      · exact ⟨0, item, inner, rfl, by simp, held⟩
      · exact ⟨i + 1, v, inner, found, by rw [Nat.add_right_comm, Nat.add_assoc], held⟩
    · rintro ⟨i, v, inner, found, rfl, held⟩
      cases i with
      | zero =>
        cases found
        exact Or.inl ⟨inner, by simp, held⟩
      | succ j => exact Or.inr ⟨j, v, inner, found, by rw [Nat.add_right_comm, Nat.add_assoc], held⟩

theorem mem_textsOfFields_iff : ∀ {fields : List (String × Value)}, (keysOf fields).Nodup →
    WellFormedFields fields → ∀ {position p : List Slot} {text : String},
    (p, text) ∈ textsOfFields position fields ↔
      ∃ key v inner, fields.lookup key = some v ∧ p = position ++ .key key :: inner ∧
        v.inside? inner = some (.string text)
  | [], _, _, _, _, _ => by simp [textsOfFields]
  | (name, value) :: rest, distinct, wellFormed, position, p, text => by
    rw [WellFormedFields] at wellFormed
    rw [keysOf, List.map_cons, List.nodup_cons] at distinct
    rw [textsOfFields, List.mem_append, mem_texts_iff wellFormed.1, mem_textsOfFields_iff distinct.2 wellFormed.2]
    constructor
    · rintro (⟨inner, rfl, held⟩ | ⟨key, v, inner, found, rfl, held⟩)
      · exact ⟨name, value, inner, by simp, by simp, held⟩
      · -- the key is bound further on, so it is not the first one
        have apart : (key == name) = false := by
          rw [beq_eq_false_iff_ne]
          rintro rfl
          exact distinct.1 (List.mem_map.mpr ⟨_, mem_of_lookup found, rfl⟩)
        exact ⟨key, v, inner, by rw [List.lookup_cons, apart]; exact found, rfl, held⟩
    · rintro ⟨key, v, inner, found, rfl, held⟩
      rw [List.lookup_cons] at found
      split at found
      · next same =>
        obtain rfl := eq_of_beq same
        cases found
        exact Or.inl ⟨inner, by simp, held⟩
      · exact Or.inr ⟨key, v, inner, found, rfl, held⟩

end

end Value

/-- A step of a position as text. -/
def Slot.written : Slot → String
  | .key k => "." ++ k
  | .index i => "[" ++ toString i ++ "]"

theorem positionText_concat {position : List Slot} (filled : positionText position ≠ "") (slot : Slot) :
    positionText (position ++ [slot]) = positionText position ++ slot.written := by
  rw [positionText, List.foldl_append]
  change (match slot with
    | .key k => if positionText position = "" then k else positionText position ++ "." ++ k
    | .index i => positionText position ++ "[" ++ toString i ++ "]") = _
  cases slot with
  | key k => simp only [if_neg filled, Slot.written, String.append_assoc]
  | index i => simp only [Slot.written, String.append_assoc]

/-- A position that begins with a key is written as that key, with the other steps behind
it. -/
theorem positionText_cons {key : String} (filled : key ≠ "") (rest : List Slot) :
    positionText (.key key :: rest) = key ++ String.join (rest.map Slot.written) := by
  induction rest using List.reverseRecOn with
  | nil => simp [positionText]
  | append_singleton more slot ih =>
    have written : positionText (.key key :: more) ≠ "" := by
      rw [ih]
      simp [filled]
    rw [← List.cons_append, positionText_concat written, ih]
    simp [String.join_append, String.append_assoc]

/-- A text whose tag holds no expression, and why. -/
def Malformed (text : String) (cause : ExprFault) : Prop :=
  ∃ body, taggedBody? text = some body ∧ Expr.read body = .error cause

/-- A document holds a text at a position. -/
def Document.Holds (d : Document) (position : List Slot) (text : String) : Prop :=
  (Value.object d.entities).inside? position = some (.string text)

/-- The file that a text at a position is reported for: the last document that holds it
there, or a given one when none does. -/
def Blamed (documents : List Document) (fallback : Location) (position : List Slot) (text : String)
    (file : Location) : Prop :=
  (∃ before d after, documents = before ++ d :: after ∧ d.Holds position text ∧
      (∀ later ∈ after, ¬later.Holds position text) ∧ file = d.location) ∨
    (∀ d ∈ documents, ¬d.Holds position text) ∧ file = fallback

namespace Binding

variable {b : Binding}

/-- The fault of a text at a position, when it has one. -/
def fault? (b : Binding) (entry : List Slot × String) : Option Fault :=
  error? (b.compileText entry.1 entry.2)

theorem any_string?_iff {d : Document} {position : List Slot} {text : String} :
    (((Value.object d.entities).inside? position).any fun v => v.string? = some text) = true ↔
      d.Holds position text := by
  rw [Document.Holds, Option.any_eq_true]
  constructor
  · rintro ⟨v, held, same⟩
    cases v <;> simp_all [Value.string?]
  · intro held
    exact ⟨_, held, by simp [Value.string?]⟩

theorem origin?_eq_some_iff {position : List Slot} {text : String} {d : Document} :
    b.origin? position text = some d ↔ d.Holds position text ∧
      ∃ before after, b.documents = before ++ d :: after ∧ ∀ later ∈ after, ¬later.Holds position text := by
  simp only [origin?, List.find?_eq_some_iff_append, any_string?_iff, Bool.not_eq_true', Bool.eq_false_iff, ne_eq]
  refine and_congr_right fun _ => ⟨?_, ?_⟩
  · rintro ⟨after, before, split, absent⟩
    refine ⟨before.reverse, after.reverse, ?_, by simpa using absent⟩
    rw [← List.reverse_reverse b.documents, split]
    simp
  · rintro ⟨before, after, split, absent⟩
    exact ⟨after.reverse, before.reverse, by simp [split], by simpa using absent⟩

/-- The file a fault is reported for. -/
theorem blamed_iff {position : List Slot} {text : String} {file : Location} :
    Blamed b.documents b.fallback position text file ↔
      (b.origin? position text).elim b.fallback Document.location = file := by
  cases origin : b.origin? position text with
  | none =>
    have absent : ∀ d ∈ b.documents, ¬d.Holds position text := by
      simpa [origin?, any_string?_iff] using origin
    rw [Option.elim_none]
    constructor
    · rintro (⟨before, d, after, split, held, -, -⟩ | ⟨-, rfl⟩)
      · exact absurd held (absent d (by simp [split]))
      · rfl
    · exact fun same => Or.inr ⟨absent, same.symm⟩
  | some d =>
    rw [Option.elim_some]
    constructor
    · rintro (⟨before, e, after, split, held, later, rfl⟩ | ⟨absent, -⟩)
      · have same := origin?_eq_some_iff.mpr ⟨held, before, after, split, later⟩
        rw [Option.some.inj (origin.symm.trans same)]
      · obtain ⟨held, before, after, split, -⟩ := origin?_eq_some_iff.mp origin
        exact absurd held (absent d (by simp [split]))
    · rintro rfl
      obtain ⟨held, before, after, split, later⟩ := origin?_eq_some_iff.mp origin
      exact Or.inl ⟨before, d, after, split, held, later, rfl⟩

/-- A text has a fault exactly when its tag holds no expression. -/
theorem fault?_eq_some_iff {position : List Slot} {text : String} {fault : Fault} :
    b.fault? (position, text) = some fault ↔ ∃ cause file, Malformed text cause ∧
      Blamed b.documents b.fallback position text file ∧
      fault = .badExpression (positionText position) file cause := by
  simp only [fault?, error?_eq_some_iff, blamed_iff, Malformed]
  rw [compileText, Deferred.compile]
  cases body : taggedBody? text with
  | none => simp
  | some inner => cases read : Expr.read inner <;> simp [read, Except.map, eq_comm (a := fault)]

theorem fault?_eq_none_iff {entry : List Slot × String} :
    b.fault? entry = none ↔ ∀ cause, ¬Malformed entry.2 cause := by
  rw [Option.eq_none_iff_forall_ne_some]
  constructor
  · intro sound cause malformed
    exact sound _ (fault?_eq_some_iff.mpr ⟨cause, _, malformed, blamed_iff.mpr rfl, rfl⟩)
  · intro sound fault faulty
    obtain ⟨cause, file, malformed, -⟩ := fault?_eq_some_iff.mp faulty
    exact sound cause malformed

/-- An untagged value has no text with a fault. -/
theorem findSome?_fault?_of_not_hasTagged (position : List Slot) {v : Value} (untagged : v.hasTagged = false) :
    (v.texts position).findSome? b.fault? = none := by
  refine List.findSome?_eq_none_iff.mpr fun entry member => fault?_eq_none_iff.mpr ?_
  rintro cause ⟨body, tag, -⟩
  rw [(Value.hasTagged_eq_false_iff position).mp untagged entry member] at tag
  cases tag

mutual

/-- What is compiled fails with the fault of the first text that has one. -/
theorem error?_compile : ∀ (position : List Slot) (v : Value),
    error? (b.compile position v) = (v.texts position).findSome? b.fault?
  | position, .string text => by
    rw [compile, Value.texts, List.findSome?_singleton, fault?]
  | position, .array items => by
    cases tagged : Value.hasTaggedItem items with
    | true => rw [compile, if_pos tagged, error?_map, error?_compileItems position 0 items, Value.texts]
    | false =>
      have untagged : (Value.array items).hasTagged = false := by rw [Value.hasTagged, tagged]
      rw [compile_of_not_hasTagged untagged, findSome?_fault?_of_not_hasTagged position untagged, error?]
  | position, .object fields => by
    cases tagged : Value.hasTaggedField fields with
    | true => rw [compile, if_pos tagged, error?_map, error?_compileFields position fields, Value.texts]
    | false =>
      have untagged : (Value.object fields).hasTagged = false := by rw [Value.hasTagged, tagged]
      rw [compile_of_not_hasTagged untagged, findSome?_fault?_of_not_hasTagged position untagged, error?]
  | _, .null | _, .bool _ | _, .number _ => by simp [compile, Value.texts, error?]

theorem error?_compileItems : ∀ (position : List Slot) (index : Nat) (items : List Value),
    error? (b.compileItems position index items) = (Value.textsOfItems position index items).findSome? b.fault?
  | _, _, [] => by simp [compileItems, Value.textsOfItems, error?]
  | position, index, item :: rest => by
    rw [compileItems, error?_bind_bind, Value.textsOfItems, List.findSome?_append, error?_compile,
      error?_compileItems]

theorem error?_compileFields : ∀ (position : List Slot) (fields : List (String × Value)),
    error? (b.compileFields position fields) = (Value.textsOfFields position fields).findSome? b.fault?
  | _, [] => by simp [compileFields, Value.textsOfFields, error?]
  | position, (key, value) :: rest => by
    rw [compileFields, error?_bind_bind, Value.textsOfFields, List.findSome?_append, error?_compile,
      error?_compileFields]

end

end Binding

namespace Configuration

variable {merged : Fields} {documents : List Document} {fallback : Location}

theorem error?_compile (merged : Fields) (documents : List Document) (fallback : Location) :
    error? (compile merged documents fallback) =
      ((Value.object merged).texts []).findSome? (Binding.mk documents fallback).fault? := by
  rw [compile, error?_map, Binding.error?_compileFields, Value.texts]

theorem mem_texts_nil_iff (wellFormed : (Value.object merged).WellFormed) {position : List Slot} {text : String} :
    (position, text) ∈ (Value.object merged).texts [] ↔
      (Value.object merged).inside? position = some (.string text) := by
  rw [Value.mem_texts_iff wellFormed]
  simp

/-- Compiling succeeds exactly when every tag holds an expression. -/
theorem exists_compile_iff (wellFormed : (Value.object merged).WellFormed) :
    (∃ c, compile merged documents fallback = .ok c) ↔
      ∀ position text, TaggedAt merged position text →
        ∃ body expr, taggedBody? text = some body ∧ Expr.read body = .ok expr := by
  rw [← error?_eq_none_iff, error?_compile, List.findSome?_eq_none_iff]
  constructor
  · rintro quiet position text ⟨held, tagged⟩
    obtain ⟨body, tag⟩ := Option.isSome_iff_exists.mp tagged
    cases read : Expr.read body with
    | ok expr => exact ⟨body, expr, tag, read⟩
    | error cause =>
      have sound := Binding.fault?_eq_none_iff.mp (quiet _ ((mem_texts_nil_iff wellFormed).mpr held))
      exact absurd ⟨body, tag, read⟩ (sound cause)
  · rintro each ⟨position, text⟩ member
    refine Binding.fault?_eq_none_iff.mpr ?_
    rintro cause ⟨body, tag, read⟩
    obtain ⟨own, expr, same, ok⟩ := each position text ⟨(mem_texts_nil_iff wellFormed).mp member, by simp [tag]⟩
    cases tag.symm.trans same
    cases read.symm.trans ok

/-- Compiling fails with the first text in order whose tag holds no expression. -/
theorem compile_eq_error_iff {fault : Fault} :
    compile merged documents fallback = .error fault ↔
      ∃ before position text after cause file,
        (Value.object merged).texts [] = before ++ (position, text) :: after ∧
          (∀ earlier ∈ before, ∀ other, ¬Malformed earlier.2 other) ∧ Malformed text cause ∧
          Blamed documents fallback position text file ∧
          fault = .badExpression (positionText position) file cause := by
  rw [← error?_eq_some_iff, error?_compile, List.findSome?_eq_some_iff]
  constructor
  · rintro ⟨before, ⟨position, text⟩, after, split, faulty, quiet⟩
    obtain ⟨cause, file, malformed, blamed, rfl⟩ := Binding.fault?_eq_some_iff.mp faulty
    exact ⟨before, position, text, after, cause, file, split,
      fun earlier member => Binding.fault?_eq_none_iff.mp (quiet earlier member), malformed, blamed, rfl⟩
  · rintro ⟨before, position, text, after, cause, file, split, quiet, malformed, blamed, rfl⟩
    exact ⟨before, (position, text), after, split,
      Binding.fault?_eq_some_iff.mpr ⟨cause, file, malformed, blamed, rfl⟩,
      fun earlier member => Binding.fault?_eq_none_iff.mpr (quiet earlier member)⟩

/-- Compiling succeeds exactly when the body of every tagged text, wherever it stands, is an
expression. Otherwise it ends with the first text in order whose body is none: the fault
has the position of that text, what is wrong with its body, and the last document that
holds the text there, or the directory for texts without one. A position is written as
its first key, dots before the other keys, and indices in brackets. -/
theorem compile_names_first_malformed (wellFormed : (Value.object merged).WellFormed) (documents : List Document)
    (fallback : Location) :
    (∀ position text, (position, text) ∈ (Value.object merged).texts [] ↔
        (Value.object merged).inside? position = some (.string text)) ∧
      ((∃ c, compile merged documents fallback = .ok c) ↔
        ∀ position text, TaggedAt merged position text →
          ∃ body expr, taggedBody? text = some body ∧ Expr.read body = .ok expr) ∧
      (∀ fault, compile merged documents fallback = .error fault ↔
        ∃ before position text after cause file,
          (Value.object merged).texts [] = before ++ (position, text) :: after ∧
            (∀ earlier ∈ before, ∀ other, ¬Malformed earlier.2 other) ∧ Malformed text cause ∧
            Blamed documents fallback position text file ∧
            fault = .badExpression (positionText position) file cause) ∧
      ∀ key rest, key ≠ "" → positionText (.key key :: rest) = key ++ String.join (rest.map Slot.written) :=
  ⟨fun _ _ => mem_texts_nil_iff wellFormed, exists_compile_iff wellFormed, fun _ => compile_eq_error_iff,
    fun _ rest filled => positionText_cons filled rest⟩

/-- Two tags without an expression, behind one with an expression. The first of them is in
a list and is reported for the second of three documents; without documents, for the
directory. -/
theorem compile_names_malformed_in_list :
    let merged : Fields :=
      [("#A", .object [("n", .string "jit('x')"), ("list", .array [.null, .string "jit(y)"])]),
        ("#B", .string "jit(z)")]
    let documents := [
      Document.bare "/ws/p/a.yaml" [("#A", .object [("list", .array [.null, .string "jit(y)"])])],
      Document.bare "/ws/q/a.yaml" [("#A", .object [("list", .array [.null, .string "jit(y)"])])],
      Document.bare "/ws/a.yaml" [("#A", .object [("n", .string "jit('x')")]), ("#B", .string "jit(z)")]]
    compile merged documents ⟨"/ws"⟩ =
        .error (.badExpression "#A.list[1]" ⟨"/ws/q/a.yaml"⟩ (.unknownFunction "y")) ∧
      compile merged [] ⟨"/ws"⟩ = .error (.badExpression "#A.list[1]" ⟨"/ws"⟩ (.unknownFunction "y")) ∧
      ¬∃ c, compile merged documents ⟨"/ws"⟩ = .ok c := by
  intro merged documents
  have wellFormed : (Value.object merged).WellFormed := by
    simp [merged, Value.WellFormed, Value.WellFormedFields, Value.WellFormedItems, keysOf]
  let place : List Slot := [.key "#A", .key "list", .index 1]
  have split : (Value.object merged).texts [] =
      [([.key "#A", .key "n"], "jit('x')")] ++ (place, "jit(y)") :: [([.key "#B"], "jit(z)")] := rfl
  have quiet : ∀ earlier ∈ [([Slot.key "#A", Slot.key "n"], "jit('x')")], ∀ other, ¬Malformed earlier.2 other := by
    rintro earlier member other ⟨body, tag, read⟩
    obtain rfl := List.mem_singleton.mp member
    have own : taggedBody? "jit('x')" = some "'x'" := by decide +kernel
    have expr : Expr.read "'x'" = .ok (.text "x") := by rfl
    cases own.symm.trans tag
    cases expr.symm.trans read
  have malformed : Malformed "jit(y)" (.unknownFunction "y") :=
    ⟨"y", by decide +kernel, eq_error_of_error? (by decide +kernel)⟩
  have second : Blamed documents ⟨"/ws"⟩ place "jit(y)" ⟨"/ws/q/a.yaml"⟩ :=
    Or.inl ⟨[_], _, [_], rfl, rfl, by
      simp [Document.Holds, Document.bare, place, Value.inside?_cons, Value.slot?, List.lookup_cons], rfl⟩
  obtain ⟨-, -, fails, written⟩ := compile_names_first_malformed wellFormed documents ⟨"/ws"⟩
  have location : positionText place = "#A.list[1]" := by
    rw [written "#A" _ (by decide)]
    decide
  have failed : compile merged documents ⟨"/ws"⟩ =
      .error (.badExpression "#A.list[1]" ⟨"/ws/q/a.yaml"⟩ (.unknownFunction "y")) :=
    (fails _).mpr ⟨_, place, _, _, _, _, split, quiet, malformed, second, by rw [location]⟩
  have alone : compile merged [] ⟨"/ws"⟩ = .error (.badExpression "#A.list[1]" ⟨"/ws"⟩ (.unknownFunction "y")) :=
    ((compile_names_first_malformed wellFormed [] ⟨"/ws"⟩).2.2.1 _).mpr
      ⟨_, place, _, _, _, _, split, quiet, malformed, Or.inr ⟨by simp, rfl⟩, by rw [location]⟩
  refine ⟨failed, alone, ?_⟩
  rintro ⟨c, ok⟩
  cases failed.symm.trans ok

end Configuration

end LayeredConfig
