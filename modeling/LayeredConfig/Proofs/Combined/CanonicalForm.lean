import LayeredConfig.Proofs.Combined.Malformed

namespace LayeredConfig

/-- No text of the value is tagged. -/
def Value.Untagged (v : Value) : Prop :=
  ∀ entry ∈ v.texts [], taggedBody? entry.2 = none

theorem Value.untagged_iff {v : Value} : v.Untagged ↔ v.hasTagged = false :=
  (hasTagged_eq_false_iff []).symm

namespace Compiled

/-- A part stands in a compiled value, at any depth. The inside of a plain value is none of
its parts. -/
inductive Part : Compiled → Compiled → Prop
  | self (c : Compiled) : Part c c
  | item {items : List Compiled} {item part : Compiled} : item ∈ items → Part item part → Part (.array items) part
  | field {fields : List (String × Compiled)} {field : String × Compiled} {part : Compiled} :
      field ∈ fields → Part field.2 part → Part (.object fields) part

/-- What may stand in a compiled value: a plain value without tagged texts, a list or an
object with something deferred below it, and an expression under its tag. -/
def Canonical (c : Compiled) : Prop :=
  match c with
  | .plain v => v.Untagged
  | .array _ | .object _ => ∃ d, c.Part (.deferred d)
  | .deferred d => (taggedBody? d.source).isSome

theorem Part.eq_plain {v : Value} {part : Compiled} (inside : (plain v).Part part) : part = plain v := by
  cases inside
  rfl

theorem Part.eq_deferred {d : Deferred} {part : Compiled} (inside : (deferred d).Part part) :
    part = deferred d := by
  cases inside
  rfl

end Compiled

namespace Binding

variable {b : Binding}

mutual

/-- A tagged text leaves an expression behind. -/
theorem exists_deferred_of_hasTagged : ∀ {position : List Slot} {v : Value} {c : Compiled},
    b.compile position v = .ok c → v.hasTagged = true → ∃ d, c.Part (.deferred d)
  | position, .string text, c, ok, tagged => by
    rw [compile] at ok
    rcases compileText_eq_ok ok with ⟨none_, -⟩ | ⟨d, rfl, -⟩
    · simp [Value.hasTagged, none_] at tagged
    · exact ⟨d, .self _⟩
  | position, .array items, c, ok, tagged => by
    rw [Value.hasTagged] at tagged
    rcases compile_array_eq_ok.mp ok with ⟨untagged, -⟩ | ⟨-, compiled, each, rfl⟩
    · simp [tagged] at untagged
    · obtain ⟨item, member, d, inside⟩ := exists_deferred_of_hasTaggedItem each tagged
      exact ⟨d, .item member inside⟩
  | position, .object fields, c, ok, tagged => by
    rw [Value.hasTagged] at tagged
    rcases compile_object_eq_ok.mp ok with ⟨untagged, -⟩ | ⟨-, compiled, each, rfl⟩
    · simp [tagged] at untagged
    · obtain ⟨field, member, d, inside⟩ := exists_deferred_of_hasTaggedField each tagged
      exact ⟨d, .field member inside⟩
  | _, .null, _, _, tagged | _, .bool _, _, _, tagged | _, .number _, _, _, tagged => by
    simp [Value.hasTagged] at tagged

theorem exists_deferred_of_hasTaggedItem : ∀ {position : List Slot} {index : Nat} {items : List Value}
    {compiled : List Compiled}, b.compileItems position index items = .ok compiled →
    Value.hasTaggedItem items = true → ∃ item ∈ compiled, ∃ d, item.Part (.deferred d)
  | _, _, [], _, _, tagged => by simp [Value.hasTaggedItem] at tagged
  | _, _, item :: rest, _, ok, tagged => by
    obtain ⟨c, more, head, tail, rfl⟩ := compileItems_cons_eq_ok.mp ok
    rw [Value.hasTaggedItem, Bool.or_eq_true] at tagged
    rcases tagged with own | later
    · exact ⟨c, List.mem_cons_self, exists_deferred_of_hasTagged head own⟩
    · obtain ⟨found, member, inside⟩ := exists_deferred_of_hasTaggedItem tail later
      exact ⟨found, List.mem_cons_of_mem _ member, inside⟩

theorem exists_deferred_of_hasTaggedField : ∀ {position : List Slot} {fields : List (String × Value)}
    {compiled : List (String × Compiled)}, b.compileFields position fields = .ok compiled →
    Value.hasTaggedField fields = true → ∃ field ∈ compiled, ∃ d, field.2.Part (.deferred d)
  | _, [], _, _, tagged => by simp [Value.hasTaggedField] at tagged
  | _, (key, value) :: rest, _, ok, tagged => by
    obtain ⟨c, more, head, tail, rfl⟩ := compileFields_cons_eq_ok.mp ok
    rw [Value.hasTaggedField, Bool.or_eq_true] at tagged
    rcases tagged with own | later
    · exact ⟨(key, c), List.mem_cons_self, exists_deferred_of_hasTagged head own⟩
    · obtain ⟨found, member, inside⟩ := exists_deferred_of_hasTaggedField tail later
      exact ⟨found, List.mem_cons_of_mem _ member, inside⟩

end

/-- What is kept as it is, is what has no tagged text. -/
theorem plain?_compile {position : List Slot} {v w : Value} {c : Compiled} (ok : b.compile position v = .ok c) :
    c.plain? = some w ↔ v = w ∧ w.Untagged := by
  cases tagged : v.hasTagged with
  | false =>
    rw [compile_of_not_hasTagged tagged, Except.ok.injEq] at ok
    rw [← ok, Compiled.plain?, Option.some.injEq]
    constructor
    · rintro rfl
      exact ⟨rfl, Value.untagged_iff.mpr tagged⟩
    · exact And.left
  | true =>
    obtain ⟨d, inside⟩ := exists_deferred_of_hasTagged ok tagged
    refine iff_of_false (fun plain => ?_) ?_
    · cases c with
      | plain u => cases inside.eq_plain
      | _ => cases plain
    · rintro ⟨rfl, untagged⟩
      simp [Value.untagged_iff.mp untagged] at tagged

/-- A value without tagged texts is kept as one plain part. -/
theorem canonical_of_not_hasTagged {position : List Slot} {v : Value} {c part : Compiled}
    (ok : b.compile position v = .ok c) (untagged : v.hasTagged = false) (inside : c.Part part) :
    part.Canonical := by
  rw [compile_of_not_hasTagged untagged, Except.ok.injEq] at ok
  subst ok
  rw [inside.eq_plain, Compiled.Canonical, Value.untagged_iff, untagged]

mutual

/-- Everything that stands in what is compiled is in canonical form. -/
theorem canonical_compile : ∀ {position : List Slot} {v : Value} {c : Compiled},
    b.compile position v = .ok c → ∀ {part : Compiled}, c.Part part → part.Canonical
  | position, .string text, c, ok, part, inside => by
    cases tagged : Value.hasTagged (.string text) with
    | false => exact canonical_of_not_hasTagged ok tagged inside
    | true =>
      rw [compile] at ok
      rcases compileText_eq_ok ok with ⟨none_, -⟩ | ⟨d, rfl, expression⟩
      · simp [Value.hasTagged, none_] at tagged
      · obtain ⟨source, -, body⟩ := Deferred.compile_eq_some expression
        rw [inside.eq_deferred, Compiled.Canonical, source]
        exact body
  | position, .array items, c, ok, part, inside => by
    rcases compile_array_eq_ok.mp ok with ⟨untagged, -⟩ | ⟨tagged, compiled, each, rfl⟩
    · exact canonical_of_not_hasTagged ok (by rw [Value.hasTagged, untagged]) inside
    · cases inside with
      | self => exact exists_deferred_of_hasTagged ok (by rw [Value.hasTagged, tagged])
      | item member further => exact canonical_compileItems each member further
  | position, .object fields, c, ok, part, inside => by
    rcases compile_object_eq_ok.mp ok with ⟨untagged, -⟩ | ⟨tagged, compiled, each, rfl⟩
    · exact canonical_of_not_hasTagged ok (by rw [Value.hasTagged, untagged]) inside
    · cases inside with
      | self => exact exists_deferred_of_hasTagged ok (by rw [Value.hasTagged, tagged])
      | field member further => exact canonical_compileFields each member further
  | _, .null, _, ok, _, inside | _, .bool _, _, ok, _, inside | _, .number _, _, ok, _, inside =>
    canonical_of_not_hasTagged ok rfl inside

theorem canonical_compileItems : ∀ {position : List Slot} {index : Nat} {items : List Value}
    {compiled : List Compiled}, b.compileItems position index items = .ok compiled →
    ∀ {item : Compiled}, item ∈ compiled → ∀ {part : Compiled}, item.Part part → part.Canonical
  | _, _, [], _, ok, _, member, _, _ => by
    rw [compileItems, Except.ok.injEq] at ok
    simp [← ok] at member
  | _, _, first :: rest, _, ok, _, member, _, inside => by
    obtain ⟨c, more, head, tail, rfl⟩ := compileItems_cons_eq_ok.mp ok
    rcases List.mem_cons.mp member with rfl | later
    · exact canonical_compile head inside
    · exact canonical_compileItems tail later inside

theorem canonical_compileFields : ∀ {position : List Slot} {fields : List (String × Value)}
    {compiled : List (String × Compiled)}, b.compileFields position fields = .ok compiled →
    ∀ {field : String × Compiled}, field ∈ compiled → ∀ {part : Compiled}, field.2.Part part → part.Canonical
  | _, [], _, ok, _, member, _, _ => by
    rw [compileFields, Except.ok.injEq] at ok
    simp [← ok] at member
  | _, (key, value) :: rest, _, ok, _, member, _, inside => by
    obtain ⟨c, more, head, tail, rfl⟩ := compileFields_cons_eq_ok.mp ok
    rcases List.mem_cons.mp member with rfl | later
    · exact canonical_compile head inside
    · exact canonical_compileFields tail later inside

end

end Binding

namespace Configuration

variable {merged : Fields} {documents : List Document} {fallback : Location} {c : Configuration}

/-- What is compiled is in canonical form at every depth, so that an entity is given as a
value exactly when no text of it is tagged, and is then the merged one. -/
theorem compile_canonical (compiled : compile merged documents fallback = .ok c) :
    (∀ field ∈ c.entities, ∀ part, field.2.Part part → part.Canonical) ∧
      ∀ key v, c.entity? key = some v ↔ merged.lookup key = some v ∧ v.Untagged := by
  have each := compile_eq_ok.mp compiled
  refine ⟨fun field member part inside => Binding.canonical_compileFields each member inside, fun key v => ?_⟩
  rw [entity?, get?]
  rcases Binding.compileFields_lookup each key with ⟨left, right⟩ | ⟨w, inner, left, right, within⟩
  · simp [left, right]
  · rw [left, right, Option.bind_some, Binding.plain?_compile within, Option.some.injEq]

/-- A list that keeps its plain items beside a tagged text, and an entity whose text only
looks like a tag. -/
theorem compile_canonical_mixed :
    let merged : Fields :=
      [("#A", .object [("list", .array [.object [("n", .null)], .string " jit('x') "]), ("o", .object [])]),
        ("#B", .array [.string "jit('x'"])]
    ∃ c, compile merged [] ⟨"/d"⟩ = .ok c ∧ c.entity? "#A" = none ∧
      c.entity? "#B" = some (.array [.string "jit('x'"]) ∧
      ∀ field ∈ c.entities, ∀ part, field.2.Part part → part.Canonical := by
  intro merged
  have body : taggedBody? " jit('x') " = some "'x'" := by decide +kernel
  have open_ : taggedBody? "jit('x'" = none := by decide +kernel
  have expr : Expr.read "'x'" = .ok (.text "x") := by rfl
  let c : Configuration :=
    ⟨[("#A", .object
        [("list", .array [.plain (.object [("n", .null)]), .deferred ⟨" jit('x') ", .text "x", ⟨"/d"⟩⟩]),
          ("o", .plain (.object []))]),
      ("#B", .plain (.array [.string "jit('x'"]))]⟩
  have compiled : compile merged [] ⟨"/d"⟩ = .ok c := by
    simp [compile, merged, c, Binding.compileFields, Binding.compileItems, Binding.compile, Binding.compileText,
      Binding.origin?, Deferred.compile, Value.hasTaggedField, Value.hasTaggedItem, Value.hasTagged, body, open_,
      expr, Except.map, bind, Except.bind]
  obtain ⟨canonical, entities⟩ := compile_canonical compiled
  have untagged : (Value.array [.string "jit('x'"]).Untagged := by
    simp [Value.Untagged, Value.texts, Value.textsOfItems, open_]
  exact ⟨c, compiled, rfl, (entities "#B" _).mpr ⟨rfl, untagged⟩, canonical⟩

end Configuration

end LayeredConfig
