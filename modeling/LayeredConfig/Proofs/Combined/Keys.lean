import LayeredConfig.Proofs.Combined.Evaluation
import LayeredConfig.Proofs.Combined.Merge
import LayeredConfig.Proofs.Value.KeyPath
import LayeredConfig.Proofs.Workspace

namespace LayeredConfig

/-- The entities that hold the fields of the invocation. -/
def invocationEntities : List String :=
  [workspaceEntity, javascriptEntity, shellEntity]

theorem keysOf_withInvocation (merged : Fields) (workspace root : Location) :
    keysOf (withInvocation merged workspace root) =
      keysOf merged ++ invocationEntities.filter (· ∉ keysOf merged) := by
  have apart : javascriptEntity ≠ workspaceEntity ∧ shellEntity ≠ workspaceEntity ∧
      shellEntity ≠ javascriptEntity := by
    decide
  simp only [withInvocation, rootDirPath, configPathPath, workspaceDirPath, shellDirPath, keysOf_setAt]
  by_cases first : workspaceEntity ∈ keysOf merged <;> by_cases second : javascriptEntity ∈ keysOf merged <;>
    by_cases third : shellEntity ∈ keysOf merged <;> simp [invocationEntities, first, second, third, apart]

theorem keysOf_compileFields {b : Binding} {position : List Slot} {fields : List (String × Value)}
    {compiled : List (String × Compiled)} (ok : b.compileFields position fields = .ok compiled) :
    keysOf compiled = keysOf fields := by
  induction fields generalizing compiled with
  | nil =>
    cases ok
    rfl
  | cons field rest ih =>
    obtain ⟨c, more, _, later, rfl⟩ := Binding.compileFields_cons_eq_ok.mp ok
    exact congrArg (field.1 :: ·) (ih later)

theorem Workspace.keysOf_combine {w : Workspace} {a : Ancestry} {configuration : Configuration}
    (combined : w.combine a = .ok configuration) :
    ∃ merged, mergeDocuments a.documents = .ok merged ∧
      keysOf configuration.entities = keysOf merged ++ invocationEntities.filter (· ∉ keysOf merged) := by
  obtain ⟨merged, merge, compiled⟩ := bind_eq_ok.mp combined
  obtain ⟨entities, each, rfl⟩ := map_eq_ok.mp compiled
  exact ⟨merged, merge, (keysOf_compileFields each).trans (keysOf_withInvocation merged _ _)⟩

/-- Documents merge exactly when all their keys are entity keys. Else the fault is about the
first key that is none, in the first document that has one, and it says where the contents of
a former key belong. What is merged has the keys of all documents, each where it occurs first;
a resolution adds the entities of the invocation that are missing, and no others. -/
theorem merged_keys_law (documents : List Document) :
    ((∃ merged, mergeDocuments documents = .ok merged) ↔ ∀ d ∈ documents, d.Plain) ∧
      (∀ fault, mergeDocuments documents = .error fault ↔
        ∃ before d after front key back moveTo, documents = before ++ d :: after ∧ (∀ e ∈ before, e.Plain) ∧
          keysOf d.entities = front ++ key :: back ∧ (∀ k ∈ front, isEntityKey k = true) ∧
            isEntityKey key = false ∧
          (∀ moved, moveTo = some moved ↔ (key, moved) ∈ formerKeys) ∧
          fault = .foreignKey key d.location moveTo) ∧
      (∀ merged, mergeDocuments documents = .ok merged →
        keysOf merged = (documents.flatMap fun d => keysOf d.entities).eraseDups) ∧
      ∀ (w : Workspace) (now : Instant) (files : FileTree) (place : Location) (r : Resolution),
        (w.resolve now files place).result = .ok r → r.documents = documents →
        ∃ merged, mergeDocuments documents = .ok merged ∧
          keysOf r.configuration.entities = keysOf merged ++ invocationEntities.filter (· ∉ keysOf merged) := by
  refine ⟨?_, fun fault => ⟨fun failed => ?_, ?_⟩, fun merged merge => ?_,
    fun w now files place r resolved same => ?_⟩
  · simp [mergeDocuments_eq_ok_iff]
  · obtain ⟨before, d, after, key, split, plain, foreign, rfl⟩ :=
      checkKeys_eq_error_iff.mp (map_eq_error.mp failed)
    obtain ⟨kind, front, back, keys, entities⟩ := foreignKey?_eq_some_iff.mp foreign
    exact ⟨before, d, after, front, key, back, _, split, plain, keys, entities, kind,
      fun moved => lookup_formerKeys_eq_some_iff, rfl⟩
  · rintro ⟨before, d, after, front, key, back, moveTo, split, plain, keys, entities, kind, hint, rfl⟩
    have known : moveTo = formerKeys.lookup key :=
      Option.ext fun moved => (hint moved).trans lookup_formerKeys_eq_some_iff.symm
    have foreign : foreignKey? d = some key := foreignKey?_eq_some_iff.mpr ⟨kind, front, back, keys, entities⟩
    exact map_eq_error.mpr (checkKeys_eq_error_iff.mpr ⟨before, d, after, key, split, plain, foreign, known ▸ rfl⟩)
  · rw [← (mergeDocuments_eq_ok_iff.mp merge).2]
    exact keysOf_overlayDocuments documents
  · obtain ⟨a, _, combined, _, made, _⟩ := Workspace.resolve_eq_ok resolved
    have own : documents = a.documents := by rw [← same, made]
    exact own ▸ Workspace.keysOf_combine combined

/-- The keys of an ancestor come first, once though it is met twice, and those of the
invocation last. -/
theorem merged_keys_law_extendedTwice :
    ∃ r, ((Workspace.openAt Workspace.extendedTwice ⟨"/w"⟩ Workspace.withSidecars).resolve ⟨0, 0⟩
        Workspace.extendedTwice ⟨"a"⟩).result = .ok r ∧
      keysOf r.configuration.entities = ["#B", "#A", "#workspace", "#javascript-api", "#shell-env"] := by
  obtain ⟨r, resolved, same⟩ := exists_of_toOption_any Workspace.extendedTwice_resolves
  obtain ⟨-, -, order, complete⟩ := merged_keys_law Workspace.extendedTwiceDocuments
  obtain ⟨merged, merge, keys⟩ := complete _ _ _ _ r resolved (eq_of_beq same)
  have first : keysOf merged = ["#B", "#A"] := (order merged merge).trans (by decide)
  refine ⟨r, resolved, ?_⟩
  rw [keys, first]
  decide

end LayeredConfig
