import LayeredConfig.Combined.Compiled
import LayeredConfig.Origin.Sources
import LayeredConfig.Proofs.Combined.Merge
import LayeredConfig.Proofs.Document.Rest

namespace LayeredConfig

open Document (calm)

namespace Binding

mutual

/-- What is compiled depends on the documents by what they make of the texts. -/
theorem compile_congr {b c : Binding}
    (same : ∀ position text, b.compileText position text = c.compileText position text) :
    ∀ (position : List Slot) (v : Value), b.compile position v = c.compile position v
  | position, .string text => by
    rw [compile, compile]
    exact same position text
  | position, .array items => by rw [compile, compile, compileItems_congr same position 0 items]
  | position, .object fields => by rw [compile, compile, compileFields_congr same position fields]
  | _, .null => rfl
  | _, .bool _ => rfl
  | _, .number _ => rfl

theorem compileItems_congr {b c : Binding}
    (same : ∀ position text, b.compileText position text = c.compileText position text) :
    ∀ (position : List Slot) (index : Nat) (items : List Value),
      b.compileItems position index items = c.compileItems position index items
  | _, _, [] => rfl
  | position, index, item :: rest => by
    rw [compileItems, compileItems, compile_congr same _ item, compileItems_congr same position (index + 1) rest]

theorem compileFields_congr {b c : Binding}
    (same : ∀ position text, b.compileText position text = c.compileText position text) :
    ∀ (position : List Slot) (fields : List (String × Value)),
      b.compileFields position fields = c.compileFields position fields
  | _, [] => rfl
  | position, (key, value) :: rest => by
    rw [compileFields, compileFields, compile_congr same _ value, compileFields_congr same position rest]

end

theorem origin?_map_calm (documents : List Document) (fallback : Location) (position : List Slot) (text : String) :
    (Binding.mk (documents.map calm) fallback).origin? position text =
      ((Binding.mk documents fallback).origin? position text).map calm := by
  rw [origin?, origin?, ← List.map_reverse, List.find?_map]
  rfl

theorem compileText_map_calm (documents : List Document) (fallback : Location) (position : List Slot)
    (text : String) :
    (Binding.mk (documents.map calm) fallback).compileText position text =
      (Binding.mk documents fallback).compileText position text := by
  unfold compileText
  rw [origin?_map_calm]
  cases (Binding.mk documents fallback).origin? position text <;> rfl

end Binding

theorem compile_map_calm (merged : Fields) (documents : List Document) (fallback : Location) :
    Configuration.compile merged (documents.map calm) fallback =
      Configuration.compile merged documents fallback := by
  unfold Configuration.compile
  rw [Binding.compileFields_congr (Binding.compileText_map_calm documents fallback)]

theorem mergeDocuments_map_calm (documents : List Document) :
    mergeDocuments (documents.map calm) = mergeDocuments documents := by
  have keys : checkKeys (documents.map calm) = checkKeys documents := by
    induction documents with
    | nil => rfl
    | cons d rest ih =>
      rw [List.map_cons, checkKeys, checkKeys, ih]
      rfl
  have overlaid : overlayDocuments (documents.map calm) = overlayDocuments documents := List.foldl_map
  rw [mergeDocuments, mergeDocuments, keys, overlaid]

theorem entitySources_map_calm (documents : List Document) :
    entitySources (documents.map calm) = entitySources documents := by
  have found : (documents.map calm).reverse.foldl addSources [] = documents.reverse.foldl addSources [] := by
    rw [← List.map_reverse, List.foldl_map]
    rfl
  rw [entitySources, entitySources, found]

/-- Documents that merge have entity keys alone. -/
theorem foreignKey?_of_mergeDocuments {documents : List Document} {merged : Fields}
    (merge : mergeDocuments documents = .ok merged) : ∀ d ∈ documents, foreignKey? d = none :=
  fun d member => foreignKey?_eq_none_iff.mpr ((mergeDocuments_eq_ok_iff.mp merge).1 d member)

end LayeredConfig
