import LayeredConfig.Combined.Access
import LayeredConfig.Proofs.Combined.Origin
import LayeredConfig.Proofs.Expr.Printer

namespace LayeredConfig

namespace Value

mutual

/-- The value with each tagged text replaced, by a value for its position and text.
The given position is that of the value itself. -/
def replaced (replacement : List Slot → String → Value) (position : List Slot) : Value → Value
  | .string text => if (taggedBody? text).isSome then replacement position text else .string text
  | .array items => .array (replacedItems replacement position 0 items)
  | .object fields => .object (replacedFields replacement position fields)
  | other => other

/-- The items from an index on. -/
def replacedItems (replacement : List Slot → String → Value) (position : List Slot) (index : Nat) :
    List Value → List Value
  | [] => []
  | item :: rest =>
    replaced replacement (position ++ [.index index]) item :: replacedItems replacement position (index + 1) rest

def replacedFields (replacement : List Slot → String → Value) (position : List Slot) :
    List (String × Value) → List (String × Value)
  | [] => []
  | (key, value) :: rest =>
    (key, replaced replacement (position ++ [.key key]) value) :: replacedFields replacement position rest

end

mutual

/-- Nothing is replaced in a value without tagged texts. -/
theorem replaced_of_not_hasTagged (replacement : List Slot → String → Value) :
    ∀ (position : List Slot) (v : Value),
    v.hasTagged = false → v.replaced replacement position = v
  | position, .string text, untagged => by
    have body : taggedBody? text = none := by simpa [hasTagged] using untagged
    simp [replaced, body]
  | position, .array items, untagged => by
    rw [replaced, replacedItems_of_not_hasTagged replacement position 0 items untagged]
  | position, .object fields, untagged => by
    rw [replaced, replacedFields_of_not_hasTagged replacement position fields untagged]
  | _, .null, _ | _, .bool _, _ | _, .number _, _ => rfl

theorem replacedItems_of_not_hasTagged (replacement : List Slot → String → Value) :
    ∀ (position : List Slot) (index : Nat) (items : List Value), hasTaggedItem items = false →
      replacedItems replacement position index items = items
  | _, _, [], _ => rfl
  | position, index, item :: rest, untagged => by
    rw [hasTaggedItem, Bool.or_eq_false_iff] at untagged
    rw [replacedItems, replaced_of_not_hasTagged replacement _ item untagged.1,
      replacedItems_of_not_hasTagged replacement position (index + 1) rest untagged.2]

theorem replacedFields_of_not_hasTagged (replacement : List Slot → String → Value) :
    ∀ (position : List Slot) (fields : List (String × Value)), hasTaggedField fields = false →
      replacedFields replacement position fields = fields
  | _, [], _ => rfl
  | position, (key, value) :: rest, untagged => by
    rw [hasTaggedField, Bool.or_eq_false_iff] at untagged
    rw [replacedFields, replaced_of_not_hasTagged replacement _ value untagged.1,
      replacedFields_of_not_hasTagged replacement position rest untagged.2]

end

end Value

namespace Binding

variable {b : Binding}

/-- A text compiles to itself, or to the expression in its tag. -/
theorem compileText_eq_ok {position : List Slot} {text : String} {c : Compiled}
    (ok : b.compileText position text = .ok c) :
    (taggedBody? text = none ∧ c = .plain (.string text)) ∨
      ∃ d, c = .deferred d ∧ Deferred.compile text (b.dirOf position text) = .ok (some d) := by
  simp only [compileText] at ok
  split at ok
  · next d compiled => exact Or.inr ⟨d, (Except.ok.inj ok).symm, compiled⟩
  · next none_ =>
    refine Or.inl ⟨?_, (Except.ok.inj ok).symm⟩
    unfold Deferred.compile at none_
    cases body : taggedBody? text with
    | none => rfl
    | some inner =>
      rw [body] at none_
      obtain ⟨expr, _, impossible⟩ := map_eq_ok.mp none_
      cases impossible
  · cases ok

theorem compile_array_eq_ok {position : List Slot} {items : List Value} {c : Compiled} :
    b.compile position (.array items) = .ok c ↔
      (Value.hasTaggedItem items = false ∧ c = .plain (.array items)) ∨
        Value.hasTaggedItem items = true ∧ ∃ compiled, b.compileItems position 0 items = .ok compiled ∧
          c = .array compiled := by
  rw [compile]
  cases Value.hasTaggedItem items <;> simp [map_eq_ok, eq_comm (a := c)]

theorem compile_object_eq_ok {position : List Slot} {fields : List (String × Value)} {c : Compiled} :
    b.compile position (.object fields) = .ok c ↔
      (Value.hasTaggedField fields = false ∧ c = .plain (.object fields)) ∨
        Value.hasTaggedField fields = true ∧ ∃ compiled, b.compileFields position fields = .ok compiled ∧
          c = .object compiled := by
  rw [compile]
  cases Value.hasTaggedField fields <;> simp [map_eq_ok, eq_comm (a := c)]

theorem compileItems_cons_eq_ok {position : List Slot} {index : Nat} {item : Value} {rest : List Value}
    {compiled : List Compiled} : b.compileItems position index (item :: rest) = .ok compiled ↔
      ∃ c more, b.compile (position ++ [.index index]) item = .ok c ∧
        b.compileItems position (index + 1) rest = .ok more ∧ compiled = c :: more := by
  rw [compileItems]
  exact bind_bind_eq_ok

theorem compileFields_cons_eq_ok {position : List Slot} {key : String} {value : Value}
    {rest : List (String × Value)} {compiled : List (String × Compiled)} :
    b.compileFields position ((key, value) :: rest) = .ok compiled ↔
      ∃ c more, b.compile (position ++ [.key key]) value = .ok c ∧
        b.compileFields position rest = .ok more ∧ compiled = (key, c) :: more := by
  rw [compileFields]
  exact bind_bind_eq_ok

mutual

/-- What is compiled shows the value it was compiled from. -/
theorem shown_compile : ∀ {position : List Slot} {v : Value} {c : Compiled},
    b.compile position v = .ok c → c.shown = v
  | position, .string text, c, ok => by
    rw [compile] at ok
    rcases compileText_eq_ok ok with ⟨_, rfl⟩ | ⟨d, rfl, compiled⟩
    · rfl
    · rw [Compiled.shown, (Deferred.compile_eq_some compiled).1]
  | position, .array items, c, ok => by
    rcases compile_array_eq_ok.mp ok with ⟨_, rfl⟩ | ⟨_, compiled, each, rfl⟩
    · rfl
    · rw [Compiled.shown, shownItems_compile each]
  | position, .object fields, c, ok => by
    rcases compile_object_eq_ok.mp ok with ⟨_, rfl⟩ | ⟨_, compiled, each, rfl⟩
    · rfl
    · rw [Compiled.shown, shownFields_compile each]
  | _, .null, _, ok | _, .bool _, _, ok | _, .number _, _, ok => by
    rw [compile_of_not_hasTagged rfl] at ok
    rw [← Except.ok.inj ok, Compiled.shown]

theorem shownItems_compile :
    ∀ {position : List Slot} {index : Nat} {items : List Value} {compiled : List Compiled},
      b.compileItems position index items = .ok compiled → Compiled.shownItems compiled = items
  | _, _, [], _, ok => by
    rw [compileItems] at ok
    rw [← Except.ok.inj ok, Compiled.shownItems]
  | _, _, item :: rest, _, ok => by
    obtain ⟨c, more, head, tail, rfl⟩ := compileItems_cons_eq_ok.mp ok
    rw [Compiled.shownItems, shown_compile head, shownItems_compile tail]

theorem shownFields_compile : ∀ {position : List Slot} {fields : List (String × Value)}
    {compiled : List (String × Compiled)},
    b.compileFields position fields = .ok compiled → Compiled.shownFields compiled = fields
  | _, [], _, ok => by
    rw [compileFields] at ok
    rw [← Except.ok.inj ok, Compiled.shownFields]
  | _, (key, value) :: rest, _, ok => by
    obtain ⟨c, more, head, tail, rfl⟩ := compileFields_cons_eq_ok.mp ok
    rw [Compiled.shownFields, shown_compile head, shownFields_compile tail]

end

end Binding

namespace Compiled

variable {files : FileTree}

theorem evaluateItems_cons_eq_ok {c : Compiled} {rest : List Compiled} {out : List Value} :
    evaluateItems files (c :: rest) = .ok out ↔
      ∃ v more, c.evaluate files = .ok v ∧ evaluateItems files rest = .ok more ∧ out = v :: more := by
  rw [evaluateItems]
  exact bind_bind_eq_ok

theorem evaluateFields_cons_eq_ok {key : String} {c : Compiled} {rest : List (String × Compiled)}
    {out : List (String × Value)} :
    evaluateFields files ((key, c) :: rest) = .ok out ↔
      ∃ v more, c.evaluate files = .ok v ∧ evaluateFields files rest = .ok more ∧ out = (key, v) :: more := by
  rw [evaluateFields]
  exact bind_bind_eq_ok

theorem evaluateItems_getElem? {items : List Compiled} {out : List Value}
    (ok : evaluateItems files items = .ok out) (i : Nat) :
    (items[i]? = none ∧ out[i]? = none) ∨
      ∃ c v, items[i]? = some c ∧ out[i]? = some v ∧ c.evaluate files = .ok v := by
  induction items generalizing out i with
  | nil =>
    rw [evaluateItems] at ok
    simp [← Except.ok.inj ok]
  | cons first rest ih =>
    obtain ⟨v, more, head, tail, rfl⟩ := evaluateItems_cons_eq_ok.mp ok
    cases i with
    | zero => exact Or.inr ⟨first, v, by simp, by simp, head⟩
    | succ j => simpa using ih tail j

theorem evaluateFields_lookup {fields : List (String × Compiled)} {out : List (String × Value)}
    (ok : evaluateFields files fields = .ok out) (key : String) :
    (fields.lookup key = none ∧ out.lookup key = none) ∨
      ∃ c v, fields.lookup key = some c ∧ out.lookup key = some v ∧ c.evaluate files = .ok v := by
  induction fields generalizing out with
  | nil =>
    rw [evaluateFields] at ok
    simp [← Except.ok.inj ok]
  | cons field rest ih =>
    obtain ⟨name, first⟩ := field
    obtain ⟨v, more, head, tail, rfl⟩ := evaluateFields_cons_eq_ok.mp ok
    by_cases own : key = name
    · subst own
      exact Or.inr ⟨first, v, by simp, by simp, head⟩
    · have apart : (key == name) = false := by simpa using own
      simpa [List.lookup_cons, apart] using ih tail

/-- When a value has been evaluated, so has each part of it. -/
theorem exists_evaluate_of_inside? {c part : Compiled} {out : Value} (ok : c.evaluate files = .ok out)
    {position : List Slot} (found : c.inside? position = some part) : ∃ v, part.evaluate files = .ok v := by
  induction position generalizing c out with
  | nil =>
    cases found
    exact ⟨out, ok⟩
  | cons slot rest ih =>
    rw [inside?_cons] at found
    obtain ⟨next, step, further⟩ := Option.bind_eq_some_iff.mp found
    have inner : ∃ v, next.evaluate files = .ok v := by
      cases slot with
      | key key =>
        cases c with
        | object fields =>
          rw [evaluate] at ok
          obtain ⟨values, each, -⟩ := map_eq_ok.mp ok
          rcases evaluateFields_lookup each key with ⟨none_, -⟩ | ⟨child, v, known, -, evaluated⟩
          · simp [slot?, none_] at step
          · obtain rfl : child = next := Option.some.inj (known.symm.trans step)
            exact ⟨v, evaluated⟩
        | _ => cases step
      | index i =>
        cases c with
        | array items =>
          rw [evaluate] at ok
          obtain ⟨values, each, -⟩ := map_eq_ok.mp ok
          rcases evaluateItems_getElem? each i with ⟨none_, -⟩ | ⟨child, v, known, -, evaluated⟩
          · simp [slot?, none_] at step
          · obtain rfl : child = next := Option.some.inj (known.symm.trans step)
            exact ⟨v, evaluated⟩
        | _ => cases step
    obtain ⟨v, evaluated⟩ := inner
    exact ih evaluated further

end Compiled

namespace Binding

variable {b : Binding} {files : FileTree} {replacement : List Slot → String → Value}

mutual

/-- Where each deferred expression has a value, evaluating what was compiled gives the
value it was compiled from, with its tagged texts replaced. -/
theorem evaluate_compile : ∀ {v : Value}, v.WellFormed → ∀ {position : List Slot} {c : Compiled},
    b.compile position v = .ok c →
    (∀ inner d, c.inside? inner = some (.deferred d) →
      d.evaluate files = .ok (replacement (position ++ inner) d.source)) →
    c.evaluate files = .ok (v.replaced replacement position)
  | .string text, _, position, c, ok, values => by
    rw [compile] at ok
    rcases compileText_eq_ok ok with ⟨body, rfl⟩ | ⟨d, rfl, compiled⟩
    · simp [Compiled.evaluate, Value.replaced, body]
    · obtain ⟨source, -, body⟩ := Deferred.compile_eq_some compiled
      have own := values [] d rfl
      rw [List.append_nil, source] at own
      rw [Compiled.evaluate, Value.replaced, if_pos body, own]
  | .array items, wellFormed, position, c, ok, values => by
    rcases compile_array_eq_ok.mp ok with ⟨untagged, rfl⟩ | ⟨_, compiled, each, rfl⟩
    · rw [Compiled.evaluate, Value.replaced_of_not_hasTagged replacement position (.array items) untagged]
    · rw [Value.WellFormed] at wellFormed
      have all := evaluateItems_compile wellFormed each fun i child inner d found held => by
        simpa using values (.index i :: inner) d (by simp [Compiled.inside?_cons, Compiled.slot?, found, held])
      rw [Compiled.evaluate, all, Value.replaced]
      rfl
  | .object fields, wellFormed, position, c, ok, values => by
    rcases compile_object_eq_ok.mp ok with ⟨untagged, rfl⟩ | ⟨_, compiled, each, rfl⟩
    · rw [Compiled.evaluate, Value.replaced_of_not_hasTagged replacement position (.object fields) untagged]
    · obtain ⟨distinct, inners⟩ := Value.wellFormed_object.mp wellFormed
      have all := evaluateFields_compile distinct inners each fun key child inner d found held => by
        simpa using values (.key key :: inner) d (by simp [Compiled.inside?_cons, Compiled.slot?, found, held])
      rw [Compiled.evaluate, all, Value.replaced]
      rfl
  | .null, _, _, _, ok, _ | .bool _, _, _, _, ok, _ | .number _, _, _, _, ok, _ => by
    rw [compile_of_not_hasTagged rfl] at ok
    rw [← Except.ok.inj ok, Compiled.evaluate, Value.replaced]
    all_goals nofun

theorem evaluateItems_compile : ∀ {items : List Value}, Value.WellFormedItems items →
    ∀ {position : List Slot} {index : Nat} {compiled : List Compiled},
    b.compileItems position index items = .ok compiled →
    (∀ (i : Nat) (child : Compiled) inner d, compiled[i]? = some child → child.inside? inner = some (.deferred d) →
      d.evaluate files = .ok (replacement (position ++ .index (index + i) :: inner) d.source)) →
    Compiled.evaluateItems files compiled = .ok (Value.replacedItems replacement position index items)
  | [], _, _, _, _, ok, _ => by
    rw [compileItems] at ok
    rw [← Except.ok.inj ok, Compiled.evaluateItems, Value.replacedItems]
  | item :: rest, wellFormed, position, index, _, ok, values => by
    rw [Value.WellFormedItems] at wellFormed
    obtain ⟨c, more, head, tail, rfl⟩ := compileItems_cons_eq_ok.mp ok
    have first := evaluate_compile wellFormed.1 head fun inner d held => by
      simpa using values 0 c inner d (by simp) held
    have later := evaluateItems_compile wellFormed.2 tail fun i child inner d found held => by
      have place : index + (i + 1) = index + 1 + i := by omega
      simpa [place] using values (i + 1) child inner d (by simpa using found) held
    exact Compiled.evaluateItems_cons_eq_ok.mpr ⟨_, _, first, later, by rw [Value.replacedItems]⟩

theorem evaluateFields_compile : ∀ {fields : List (String × Value)}, (keysOf fields).Nodup →
    Value.WellFormedFields fields → ∀ {position : List Slot} {compiled : List (String × Compiled)},
    b.compileFields position fields = .ok compiled →
    (∀ key child inner d, compiled.lookup key = some child → child.inside? inner = some (.deferred d) →
      d.evaluate files = .ok (replacement (position ++ .key key :: inner) d.source)) →
    Compiled.evaluateFields files compiled = .ok (Value.replacedFields replacement position fields)
  | [], _, _, _, _, ok, _ => by
    rw [compileFields] at ok
    rw [← Except.ok.inj ok, Compiled.evaluateFields, Value.replacedFields]
  | (key, value) :: rest, distinct, wellFormed, position, _, ok, values => by
    rw [Value.WellFormedFields] at wellFormed
    rw [keysOf, List.map_cons, List.nodup_cons] at distinct
    obtain ⟨c, more, head, tail, rfl⟩ := compileFields_cons_eq_ok.mp ok
    have first := evaluate_compile wellFormed.1 head fun inner d held => by
      simpa using values key c inner d (by simp) held
    have later := evaluateFields_compile distinct.2 wellFormed.2 tail fun name child inner d found held => by
      -- a key further on is another one, so the lookup passes the first field
      have apart : (name == key) = false := by
        rw [beq_eq_false_iff_ne]
        rintro rfl
        rcases compileFields_lookup tail name with ⟨-, none_⟩ | ⟨v, _, known, -, -⟩
        · rw [none_] at found
          cases found
        · exact distinct.1 (List.mem_map.mpr ⟨_, mem_of_lookup known, rfl⟩)
      exact values name child inner d (by simpa [List.lookup_cons, apart] using found) held
    exact Compiled.evaluateFields_cons_eq_ok.mpr ⟨_, _, first, later, by rw [Value.replacedFields]⟩

end

/-- A part with a tagged text in it is compiled on its own, and stands where it stood. -/
theorem exists_inside?_of_hasTagged {v part : Value} {position further : List Slot} {c : Compiled}
    (ok : b.compile position v = .ok c) (found : v.inside? further = some part) (tagged : part.hasTagged = true) :
    ∃ inner, c.inside? further = some inner ∧ b.compile (position ++ further) part = .ok inner := by
  induction further generalizing v c position with
  | nil =>
    cases found
    exact ⟨c, rfl, by simpa using ok⟩
  | cons slot rest ih =>
    have whole := Value.hasTagged_of_inside? found tagged
    rw [Value.inside?_cons] at found
    obtain ⟨next, step, below⟩ := Option.bind_eq_some_iff.mp found
    rcases compile_slot? ok whole slot with ⟨none_, _⟩ | ⟨other, child, known, led, within⟩
    · rw [none_] at step
      cases step
    · obtain rfl : other = next := Option.some.inj (known.symm.trans step)
      obtain ⟨inner, ends, compiled⟩ := ih within below
      exact ⟨inner, by rw [Compiled.inside?_cons, led, Option.bind_some, ends], by simpa using compiled⟩

end Binding

theorem Deferred.compile_eq_some_iff {text : String} {dir : Location} {d : Deferred} :
    Deferred.compile text dir = .ok (some d) ↔
      ∃ body expr, taggedBody? text = some body ∧ Expr.read body = .ok expr ∧ d = ⟨text, expr, dir⟩ := by
  unfold Deferred.compile
  cases taggedBody? text with
  | none => simp
  | some body => simp [map_eq_ok, eq_comm (a := d)]

/-- A tagged text stands at a position of fields. -/
def TaggedAt (fields : Fields) (position : List Slot) (text : String) : Prop :=
  (Value.object fields).inside? position = some (.string text) ∧ (taggedBody? text).isSome

namespace Configuration

/-- The expression that the tag of a text holds has a value in the directory which the
configuration binds the text at a position to. -/
def Yields (c : Configuration) (files : FileTree) (position : List Slot) (text : String) (v : Value) : Prop :=
  ∃ body expr dir, taggedBody? text = some body ∧ Expr.read body = .ok expr ∧
    c.inside? position = some (.deferred ⟨text, expr, dir⟩) ∧ expr.evaluate files dir = .ok v

variable {merged : Fields} {documents : List Document} {fallback : Location} {c : Configuration} {files : FileTree}

theorem compile_eq_ok : compile merged documents fallback = .ok c ↔
    (Binding.mk documents fallback).compileFields [] merged = .ok c.entities := by
  unfold compile
  rw [map_eq_ok]
  exact ⟨fun ⟨entities, each, same⟩ => same ▸ each, fun each => ⟨c.entities, each, rfl⟩⟩

/-- Each tagged text was compiled to the expression in its tag. -/
theorem exists_deferred_of_taggedAt (compiled : compile merged documents fallback = .ok c) {position : List Slot}
    {text : String} (tagged : TaggedAt merged position text) :
    ∃ body expr dir, taggedBody? text = some body ∧ Expr.read body = .ok expr ∧
      c.inside? position = some (.deferred ⟨text, expr, dir⟩) := by
  obtain ⟨held, body⟩ := tagged
  have inside : ∃ inner, c.inside? position = some inner ∧
      (Binding.mk documents fallback).compile position (.string text) = .ok inner := by
    cases position with
    | nil => cases held
    | cons slot rest =>
      cases slot with
      | index i => cases held
      | key key =>
        rw [Value.inside?_cons] at held
        obtain ⟨next, step, below⟩ := Option.bind_eq_some_iff.mp held
        rcases Binding.compileFields_lookup (compile_eq_ok.mp compiled) key with
          ⟨none_, _⟩ | ⟨v, child, known, led, within⟩
        · simp [Value.slot?, none_] at step
        · obtain rfl : v = next := Option.some.inj (known.symm.trans step)
          obtain ⟨inner, ends, own⟩ := Binding.exists_inside?_of_hasTagged within below
            (by simpa [Value.hasTagged])
          exact ⟨inner, by simp [inside?, Compiled.inside?_cons, Compiled.slot?, led, ends], by simpa using own⟩
  obtain ⟨inner, there, own⟩ := inside
  rw [Binding.compile] at own
  rcases Binding.compileText_eq_ok own with ⟨none_, _⟩ | ⟨d, rfl, expression⟩
  · simp [none_] at body
  · obtain ⟨inner, expr, tag, read, rfl⟩ := Deferred.compile_eq_some_iff.mp expression
    exact ⟨inner, expr, _, tag, read, there⟩

theorem evaluate_of_yields (wellFormed : (Value.object merged).WellFormed)
    (compiled : compile merged documents fallback = .ok c) {replacement : List Slot → String → Value}
    (values : ∀ position text, TaggedAt merged position text →
      c.Yields files position text (replacement position text)) :
    c.evaluate files = .ok (Value.replacedFields replacement [] merged) := by
  have each : ∀ position d, c.inside? position = some (.deferred d) →
      d.evaluate files = .ok (replacement position d.source) := by
    intro position d held
    obtain ⟨text, stands, expression⟩ := (inside?_eq_deferred_iff compiled).mp held
    obtain ⟨rfl, -, body⟩ := Deferred.compile_eq_some expression
    obtain ⟨_, expr, dir, _, _, same, value⟩ := values position d.source ⟨stands, body⟩
    rw [held, Option.some.injEq, Compiled.deferred.injEq] at same
    rw [same]
    exact value
  obtain ⟨distinct, inners⟩ := Value.wellFormed_object.mp wellFormed
  have all := Binding.evaluateFields_compile distinct inners (compile_eq_ok.mp compiled)
    fun key child inner d found held => each (.key key :: inner) d (by
      simp [inside?, Compiled.inside?_cons, Compiled.slot?, found, held])
  rw [evaluate, all]
  rfl

/-- Compiling changes nothing but the tagged texts. What is shown is what was compiled,
in its order. Evaluation succeeds exactly when every tagged text has a value, and gives
what was compiled with these values in place of the texts. -/
theorem evaluate_eq_ok_iff_replaced (wellFormed : (Value.object merged).WellFormed)
    (compiled : compile merged documents fallback = .ok c) :
    c.shown = merged ∧ ∀ files,
      ((∃ out, c.evaluate files = .ok out) ↔
        ∀ position text, TaggedAt merged position text → ∃ v, c.Yields files position text v) ∧
      ∀ out, c.evaluate files = .ok out ↔
        ∃ replacement : List Slot → String → Value,
          (∀ position text, TaggedAt merged position text →
            c.Yields files position text (replacement position text)) ∧
          out = Value.replacedFields replacement [] merged := by
  refine ⟨Binding.shownFields_compile (compile_eq_ok.mp compiled), fun files => ?_⟩
  have yields : ∀ out, c.evaluate files = .ok out → ∀ position text, TaggedAt merged position text →
      ∃ v, c.Yields files position text v := by
    intro out ok position text tagged
    obtain ⟨body, expr, dir, tag, read, there⟩ := exists_deferred_of_taggedAt compiled tagged
    have whole : (Compiled.object c.entities).evaluate files = .ok (.object out) := by
      rw [Compiled.evaluate, mapError_eq_ok.mp ok]
      rfl
    obtain ⟨v, value⟩ := Compiled.exists_evaluate_of_inside? whole there
    exact ⟨v, body, expr, dir, tag, read, there, value⟩
  refine ⟨⟨fun ⟨out, ok⟩ => yields out ok, fun each => ?_⟩, fun out => ⟨fun ok => ?_, ?_⟩⟩
  · choose! replacement values using each
    exact ⟨_, evaluate_of_yields wellFormed compiled values⟩
  · have each := yields out ok
    choose! replacement values using each
    have same := evaluate_of_yields wellFormed compiled values
    exact ⟨replacement, values, Except.ok.inj (ok.symm.trans same)⟩
  · rintro ⟨replacement, values, rfl⟩
    exact evaluate_of_yields wellFormed compiled values

/-- A text in a list that picks from a file. Where the file is there, its value comes in
the place of the text; without it there is no value at all. -/
theorem evaluate_replaced_pick :
    let text := "jit(pick('p', 'v'))"
    let merged : Fields := [("#A", .object [("list", .array [.null, .string text]), ("n", .string "x")])]
    let files : FileTree := ⟨[(["d"], .directory), (["d", "p"], .file (.text "\x7b\"v\": 7\x7d"))], []⟩
    let out : Fields := [("#A", .object [("list", .array [.null, .number (.int 7)]), ("n", .string "x")])]
    ∃ c, compile merged [] ⟨"/d"⟩ = .ok c ∧ c.shown = merged ∧ c.evaluate files = .ok out ∧
      c.Yields files [.key "#A", .key "list", .index 1] text (.number (.int 7)) ∧
      ¬∃ out, c.evaluate .empty = .ok out := by
  intro text merged files out
  have wellFormed : (Value.object merged).WellFormed := by
    simp [merged, Value.WellFormed, Value.WellFormedFields, Value.WellFormedItems, keysOf]
  have body : taggedBody? text = some "pick('p', 'v')" := by decide +kernel
  have other : taggedBody? "x" = none := by decide +kernel
  let expr : Expr := .call .pick [.text "p", .text "v"]
  have printed : expr.print = "pick('p', 'v')" := by decide +kernel
  have read : Expr.read "pick('p', 'v')" = .ok expr := printed ▸ Expr.read_of_denotes (Expr.denotes_print expr)
  have here : expr.evaluate files ⟨"/d"⟩ = .ok (.number (.int 7)) := eq_ok_of_toOption (by decide +kernel)
  have nowhere : (expr.evaluate .empty ⟨"/d"⟩).toOption = none := by decide +kernel
  let c : Configuration :=
    ⟨[("#A", .object
        [("list", .array [.plain .null, .deferred ⟨text, expr, ⟨"/d"⟩⟩]), ("n", .plain (.string "x"))])]⟩
  have compiled : compile merged [] ⟨"/d"⟩ = .ok c := by
    simp [compile, merged, c, Binding.compileFields, Binding.compileItems, Binding.compile, Binding.compileText,
      Binding.origin?, Deferred.compile, Value.hasTaggedField, Value.hasTaggedItem, Value.hasTagged,
      body, other, read, Except.map, bind, Except.bind]
  have value : c.evaluate files = .ok out := by
    simp [evaluate, c, out, Compiled.evaluateFields, Compiled.evaluateItems, Compiled.evaluate,
      Deferred.evaluate, here, Except.map, Except.mapError, bind, Except.bind]
  obtain ⟨shown, each⟩ := evaluate_eq_ok_iff_replaced wellFormed compiled
  have tagged : TaggedAt merged [.key "#A", .key "list", .index 1] text := ⟨rfl, by simp [body]⟩
  refine ⟨c, compiled, shown, value, ?_, fun evaluated => ?_⟩
  · obtain ⟨v, yields⟩ := (each files).1.mp ⟨out, value⟩ _ _ tagged
    obtain ⟨_, _, _, _, _, same, result⟩ := id yields
    cases same
    rw [here, Except.ok.injEq] at result
    exact result ▸ yields
  · obtain ⟨v, _, _, _, _, _, same, result⟩ := (each .empty).1.mp evaluated _ _ tagged
    cases same
    rw [result] at nowhere
    cases nowhere

end Configuration

end LayeredConfig
