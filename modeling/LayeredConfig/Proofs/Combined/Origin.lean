import LayeredConfig.Proofs.Combined.Position
import LayeredConfig.Proofs.Combined.Precedence
import LayeredConfig.Proofs.Value.Equality

namespace LayeredConfig

/-- The last of some documents that does not lack a key of a path. -/
def LastPresent (documents : List Document) (path : List String) (d : Document) : Prop :=
  ∃ before after, documents = before ++ d :: after ∧ ¬AbsentAt d.entities path ∧
    ∀ later ∈ after, AbsentAt later.entities path

section Merged

variable {documents : List Document} {merged : Fields} (wellFormed : ∀ d ∈ documents, d.WellFormed)
  (merge : mergeDocuments documents = .ok merged)

include wellFormed

theorem wellFormed_overlayDocuments : (Value.object (overlayDocuments documents)).WellFormed := by
  suffices ∀ start, (Value.object start).WellFormed →
      (Value.object (documents.foldl (fun merged d => overlayFields merged d.entities) start)).WellFormed from
    this [] Value.wellFormed_nil
  induction documents with
  | nil => exact fun start lower => lower
  | cons d rest ih =>
    intro start lower
    have own := Value.wellFormed_object.mp (wellFormed d List.mem_cons_self)
    exact ih (fun e member => wellFormed e (List.mem_cons_of_mem _ member)) _ (own.2.overlayFields lower)

include merge

theorem exists_lastPresent {path : List String} {v : Value} (stands : valueAt? merged path = some v) :
    ∃ d, LastPresent documents path d := by
  rcases absentAt_or_last_present documents path with absent | ⟨before, d, after, split, present, absent⟩
  · rw [mergeDocuments_eq_ok merge, overlayDocuments, valueAt?_foldl_of_absentAt wellFormed absent,
      valueAt?_nil_fields] at stands
    cases stands
  · exact ⟨d, before, after, split, present, absent⟩

/-- The last document that does not lack a leading key has the texts of the merged
fields, at the same positions. -/
theorem LastPresent.inside?_eq_string_iff {position : List Slot} {d : Document}
    (last : LastPresent documents (leadingKeys position) d) {text : String} :
    (Value.object merged).inside? position = some (.string text) ↔
      (Value.object d.entities).inside? position = some (.string text) := by
  obtain ⟨before, after, rfl, present, absent⟩ := last
  rw [Value.inside?_eq_string_iff, Value.inside?_eq_string_iff]
  refine exists_congr fun v => ⟨fun ⟨stands, leaf, inside⟩ => ?_, fun ⟨stands, leaf, inside⟩ => ?_⟩
  · exact ⟨(valueAt?_eq_leaf_iff wellFormed merge absent present leaf).mp stands, leaf, inside⟩
  · exact ⟨(valueAt?_eq_leaf_iff wellFormed merge absent present leaf).mpr stands, leaf, inside⟩

end Merged

/-- No text stands where a leading key is missing. -/
theorem AbsentAt.inside?_ne_string {fields : Fields} {position : List Slot}
    (absent : AbsentAt fields (leadingKeys position)) (text : String) :
    (Value.object fields).inside? position ≠ some (.string text) := by
  intro held
  obtain ⟨v, reached, -⟩ := Value.inside?_eq_string_iff.mp held
  exact AbsentAt.not_reached reached absent

theorem LastPresent.origin?_eq {documents : List Document} {position : List Slot} {d : Document}
    (last : LastPresent documents (leadingKeys position) d) {text : String}
    (held : (Value.object d.entities).inside? position = some (.string text)) (fallback : Location) :
    (Binding.mk documents fallback).origin? position text = some d := by
  obtain ⟨before, after, rfl, -, absent⟩ := last
  rw [Binding.origin?, List.reverse_append, List.reverse_cons, List.append_assoc, List.find?_append]
  rw [List.find?_eq_none.mpr, Option.none_or]
  · simp [held, Value.string?]
  · intro e member same
    obtain ⟨v, reached, string⟩ := (Option.any_eq_true _ _).mp same
    have own : v = .string text := by cases v <;> simp_all [Value.string?]
    exact (absent e (List.mem_reverse.mp member)).inside?_ne_string text (own ▸ reached)

namespace Binding

variable {b : Binding}

mutual

/-- Where each text has an origin, the directory for texts without one does not
matter. -/
theorem compile_of_origins (other : Location) : ∀ {v : Value}, v.WellFormed → ∀ position : List Slot,
    (∀ inner text, v.inside? inner = some (.string text) → (b.origin? (position ++ inner) text).isSome) →
    (Binding.mk b.documents other).compile position v = b.compile position v
  | .string text, _, position, origins => by
    obtain ⟨d, found⟩ := Option.isSome_iff_exists.mp (origins [] text rfl)
    rw [List.append_nil] at found
    have same : (Binding.mk b.documents other).origin? position text = some d := found
    simp [compile, compileText, found, same]
  | .array items, wellFormed, position, origins => by
    rw [Value.WellFormed] at wellFormed
    have each := compileItems_of_origins other wellFormed position 0
      fun i v inner text found held => by
        simpa using origins (.index i :: inner) text (by simp [Value.inside?_cons, Value.slot?, found, held])
    simp [compile, each]
  | .object fields, wellFormed, position, origins => by
    obtain ⟨distinct, values⟩ := Value.wellFormed_object.mp wellFormed
    have each := compileFields_of_origins other distinct values position
      fun key v inner text found held => by
        simpa using origins (.key key :: inner) text (by simp [Value.inside?_cons, Value.slot?, found, held])
    simp [compile, each]
  | .null, _, _, _ | .bool _, _, _, _ | .number _, _, _, _ => by simp [compile]

theorem compileItems_of_origins (other : Location) : ∀ {items : List Value}, Value.WellFormedItems items →
    ∀ (position : List Slot) (index : Nat),
    (∀ i v inner text, items[i]? = some v → v.inside? inner = some (.string text) →
      (b.origin? (position ++ .index (index + i) :: inner) text).isSome) →
    (Binding.mk b.documents other).compileItems position index items = b.compileItems position index items
  | [], _, _, _, _ => rfl
  | item :: rest, wellFormed, position, index, origins => by
    rw [Value.WellFormedItems] at wellFormed
    have first := compile_of_origins other wellFormed.1 (position ++ [.index index])
      fun inner text held => by simpa using origins 0 item inner text rfl held
    have later := compileItems_of_origins other wellFormed.2 position (index + 1)
      fun i v inner text found held => by
        have place : index + (i + 1) = index + 1 + i := by omega
        simpa [place] using origins (i + 1) v inner text found held
    rw [compileItems, compileItems, first, later]

theorem compileFields_of_origins (other : Location) : ∀ {fields : List (String × Value)},
    (keysOf fields).Nodup → Value.WellFormedFields fields → ∀ position : List Slot,
    (∀ key v inner text, fields.lookup key = some v → v.inside? inner = some (.string text) →
      (b.origin? (position ++ .key key :: inner) text).isSome) →
    (Binding.mk b.documents other).compileFields position fields = b.compileFields position fields
  | [], _, _, _, _ => rfl
  | (key, value) :: rest, distinct, wellFormed, position, origins => by
    rw [Value.WellFormedFields] at wellFormed
    rw [keysOf, List.map_cons, List.nodup_cons] at distinct
    have first := compile_of_origins other wellFormed.1 (position ++ [.key key])
      fun inner text held => by simpa using origins key value inner text (by simp) held
    have later := compileFields_of_origins other distinct.2 wellFormed.2 position
      fun name v inner text found held => by
        have apart : (name == key) = false := by
          rw [beq_eq_false_iff_ne]
          rintro rfl
          exact distinct.1 (List.mem_map.mpr ⟨_, mem_of_lookup found, rfl⟩)
        exact origins name v inner text (by simp [List.lookup_cons, apart, found]) held
    rw [compileFields, compileFields, first, later]

end

end Binding

theorem Configuration.inside?_eq_deferred_iff {documents : List Document} {merged : Fields} {fallback : Location}
    {c : Configuration} (compiled : Configuration.compile merged documents fallback = .ok c)
    {position : List Slot} {d : Deferred} :
    c.inside? position = some (.deferred d) ↔
      ∃ text, (Value.object merged).inside? position = some (.string text) ∧
        Deferred.compile text ((Binding.mk documents fallback).dirOf position text) = .ok (some d) := by
  obtain ⟨entities, each, rfl⟩ := map_eq_ok.mp compiled
  cases position with
  | nil => simp [inside?, Compiled.inside?]
  | cons slot rest =>
    rw [inside?, Compiled.inside?_cons, Value.inside?_cons]
    cases slot with
    | index i => simp [Compiled.slot?, Value.slot?]
    | key key =>
      rcases Binding.compileFields_lookup each key with ⟨left, right⟩ | ⟨v, inner, left, right, within⟩
      · simp [Compiled.slot?, Value.slot?, left, right]
      · simp [Compiled.slot?, Value.slot?, left, right, Binding.inside?_eq_deferred_iff within]

/-- Where a configuration holds a deferred expression. It is the expression of a
tagged text of the last document that does not lack a leading key of the
position, bound to the directory of that document; no text is bound to the
directory for texts without a document. -/
theorem deferred_iff_last_document {documents : List Document} {merged : Fields} {fallback : Location}
    {c : Configuration} (wellFormed : ∀ d ∈ documents, d.WellFormed)
    (merge : mergeDocuments documents = .ok merged)
    (compiled : Configuration.compile merged documents fallback = .ok c) :
    (∀ position d, c.inside? position = some (.deferred d) ↔
        ∃ document, LastPresent documents (leadingKeys position) document ∧
          (Value.object document.entities).inside? position = some (.string d.source) ∧
          d.baseDir = document.dir ∧ Deferred.compile d.source document.dir = .ok (some d)) ∧
      ∀ other, Configuration.compile merged documents other = .ok c := by
  constructor
  · intro position d
    rw [Configuration.inside?_eq_deferred_iff compiled]
    constructor
    · rintro ⟨text, held, expression⟩
      obtain ⟨v, stands, -⟩ := Value.inside?_eq_string_iff.mp held
      obtain ⟨document, last⟩ := exists_lastPresent wellFormed merge stands
      have own := (last.inside?_eq_string_iff wellFormed merge).mp held
      rw [Binding.dirOf, last.origin?_eq own, Option.elim_some] at expression
      obtain ⟨rfl, bound, -⟩ := Deferred.compile_eq_some expression
      exact ⟨document, last, own, bound, expression⟩
    · rintro ⟨document, last, own, -, expression⟩
      refine ⟨d.source, (last.inside?_eq_string_iff wellFormed merge).mpr own, ?_⟩
      rwa [Binding.dirOf, last.origin?_eq own, Option.elim_some]
  · intro other
    obtain rfl := mergeDocuments_eq_ok merge
    obtain ⟨distinct, values⟩ := Value.wellFormed_object.mp (wellFormed_overlayDocuments wellFormed)
    have same := Binding.compileFields_of_origins (b := ⟨documents, fallback⟩) other distinct values []
      fun key v inner text found held => by
        -- each text of the merged fields has a document, whether it is tagged or not
        have whole : (Value.object (overlayDocuments documents)).inside? (.key key :: inner) =
            some (.string text) := by
          simp [Value.inside?_cons, Value.slot?, found, held]
        obtain ⟨w, stands, -⟩ := Value.inside?_eq_string_iff.mp whole
        obtain ⟨document, last⟩ := exists_lastPresent wellFormed merge stands
        simp [last.origin?_eq ((last.inside?_eq_string_iff wellFormed merge).mp whole)]
    rw [Configuration.compile, same]
    exact compiled

/-- A text in a list of the first document, and the same text in both documents
beside the list: the list's is bound to the first directory, the other one to
the last. -/
theorem deferred_same_text_twice :
    let base := Document.bare "/ws/base/a.yaml"
      [("#A", .object [("list", .array [.string "jit('x')"]), ("one", .string "jit('x')")])]
    let top := Document.bare "/ws/a.yaml" [("#A", .object [("one", .string "jit('x')")])]
    let merged : Fields := [("#A", .object [("list", .array [.string "jit('x')"]), ("one", .string "jit('x')")])]
    let listed : Deferred := ⟨"jit('x')", .text "x", ⟨"/ws/base"⟩⟩
    let own : Deferred := ⟨"jit('x')", .text "x", ⟨"/ws"⟩⟩
    let c : Configuration := ⟨[("#A", .object [("list", .array [.deferred listed]), ("one", .deferred own)])]⟩
    mergeDocuments [base, top] = .ok merged ∧
      (∃ document, LastPresent [base, top] ["#A", "list"] document ∧ listed.baseDir = document.dir) ∧
      (∃ document, LastPresent [base, top] ["#A", "one"] document ∧ own.baseDir = document.dir) ∧
      ∀ other, Configuration.compile merged [base, top] other = .ok c := by
  intro base top merged listed own c
  have wellFormed : ∀ d ∈ [base, top], d.WellFormed := by
    simp [base, top, Document.bare, Document.WellFormed, Value.WellFormed, Value.WellFormedFields,
      Value.WellFormedItems, keysOf]
  have merge : mergeDocuments [base, top] = .ok merged := rfl
  have body : taggedBody? "jit('x')" = some "'x'" := by decide +kernel
  have expr : Expr.read "'x'" = .ok (.text "x") := by rfl
  have text (dir : Location) : Deferred.compile "jit('x')" dir = .ok (some ⟨"jit('x')", .text "x", dir⟩) := by
    simp [Deferred.compile, body, expr, Except.map]
  have baseDir : base.dir = ⟨"/ws/base"⟩ := by decide +kernel
  have topDir : top.dir = ⟨"/ws"⟩ := by decide +kernel
  have compiled : Configuration.compile merged [base, top] ⟨"/"⟩ = .ok c := by
    simp only [base, top, Document.bare] at baseDir topDir
    simp [merged, base, top, c, listed, own, Document.bare, Configuration.compile, Binding.compileFields,
      Binding.compileItems, Binding.compile, Binding.compileText, Binding.origin?, Value.hasTaggedField,
      Value.hasTaggedItem, Value.hasTagged, Value.inside?_cons, Value.slot?, Value.string?, List.lookup_cons,
      Except.map, bind, Except.bind, body, text, baseDir, topDir]
  obtain ⟨bound, always⟩ := deferred_iff_last_document wellFormed merge compiled
  obtain ⟨first, lastFirst, -, inFirst, -⟩ := (bound [.key "#A", .key "list", .index 0] listed).mp rfl
  obtain ⟨second, lastSecond, -, inSecond, -⟩ := (bound [.key "#A", .key "one"] own).mp rfl
  exact ⟨merge, ⟨first, lastFirst, inFirst⟩, ⟨second, lastSecond, inSecond⟩, always⟩

end LayeredConfig
