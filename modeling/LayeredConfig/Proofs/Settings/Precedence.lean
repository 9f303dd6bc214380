import LayeredConfig.Proofs.Outcome
import LayeredConfig.Proofs.Toml.Keys
import LayeredConfig.Proofs.Value.Algebra
import LayeredConfig.Settings.Load

namespace LayeredConfig

/-- Whether a value is of a kind. -/
def SettingsKind.takes : SettingsKind → Value → Bool
  | .text, .string _ => true
  | .flag, .bool _ => true
  | .list, .array items => items.all (·.string?.isSome)
  | .whole, .object _ => true
  | _, _ => false

namespace Settings

/-- What the field of a name takes. -/
def kindOf? (name : String) : Option SettingsKind :=
  [("schema_path", SettingsKind.text), ("cache_dir", .text), ("emit_cache", .flag), ("module_dirs", .list),
    ("module_paths", .list), ("backfill_timestamps", .flag)].lookup name

/-- A reading that takes the values of a kind and no others. -/
structure Reads {α : Type} (kind : SettingsKind) (read : Value → Except SettingsIssue α) (value : α → Value) :
    Prop where
  ok_iff : ∀ {v a}, read v = .ok a ↔ v = value a
  takes_iff : ∀ {v}, kind.takes v = true ↔ ∃ a, v = value a

theorem reads_text : Reads .text textOf .string where
  ok_iff := by
    intro v text
    cases v <;> simp [textOf]
  takes_iff := by
    intro v
    cases v <;> simp [SettingsKind.takes]

theorem reads_flag : Reads .flag flagOf .bool where
  ok_iff := by
    intro v b
    cases v <;> simp [flagOf]
  takes_iff := by
    intro v
    cases v <;> simp [SettingsKind.takes]

theorem mapM_textOf_eq_ok {items : List Value} {texts : List String} :
    items.mapM textOf = .ok texts ↔ items = texts.map .string := by
  induction items generalizing texts with
  | nil => cases texts <;> simp [pure, Except.pure]
  | cons item rest ih =>
    rw [List.mapM_cons]
    simp only [bind_eq_ok, reads_text.ok_iff, ih, pure, Except.pure, Except.ok.injEq]
    cases texts <;> simp [eq_comm]

theorem all_strings_iff {items : List Value} :
    items.all (·.string?.isSome) = true ↔ ∃ texts : List String, items = texts.map .string := by
  induction items with
  | nil => simp
  | cons item rest ih =>
    rw [List.all_cons, Bool.and_eq_true, ih]
    constructor
    · rintro ⟨string, texts, rfl⟩
      cases item <;> simp [Value.string?] at string
      next text => exact ⟨text :: texts, rfl⟩
    · rintro ⟨_ | ⟨text, texts⟩, whole⟩
      · cases whole
      · cases whole
        exact ⟨rfl, texts, rfl⟩

theorem reads_list : Reads .list textsOf textList where
  ok_iff := by
    intro v texts
    cases v <;> simp [textsOf, textList, mapM_textOf_eq_ok]
  takes_iff := by
    intro v
    cases v with
    | array items => simpa only [SettingsKind.takes, textList, Value.array.injEq] using all_strings_iff
    | _ => simp [SettingsKind.takes, textList]

theorem isSome_kindOf?_iff {name : String} : (kindOf? name).isSome = true ↔ name ∈ keysOf builtin.ownFields := by
  simp [kindOf?, List.lookup_isSome_iff, keysOf, ownFields]

section TakenOver

variable {s t : Settings} {name : String} {v : Value} {fields : Fields}

/-- What taking over a field does: it succeeds with a value of the right kind, and binds the name to that value if
it is the name of a field. -/
structure TakesOver (s : Settings) (name : String) (v : Value) (result : Except SettingsIssue Settings) :
    Prop where
  succeeds_iff : (∃ t, result = .ok t) ↔ ∀ kind ∈ kindOf? name, kind.takes v = true
  layers : ∀ {t}, result = .ok t → t.layers = s.layers
  ownFields : ∀ {t}, result = .ok t →
    t.ownFields = if (kindOf? name).isSome then put name v s.ownFields else s.ownFields

theorem Reads.takesOver {α : Type} {kind : SettingsKind} {read : Value → Except SettingsIssue α}
    {value : α → Value} (reads : Reads kind read value) (named : kindOf? name = some kind) {change : α → Settings}
    (layers : ∀ a, (change a).layers = s.layers)
    (ownFields : ∀ a, (change a).ownFields = put name (value a) s.ownFields) :
    TakesOver s name v ((read v).map change) where
  succeeds_iff := by
    simp [map_eq_ok, reads.ok_iff, reads.takes_iff, named]
  layers := by
    intro t done
    obtain ⟨a, -, rfl⟩ := map_eq_ok.mp done
    exact layers a
  ownFields := by
    intro t done
    obtain ⟨a, read, rfl⟩ := map_eq_ok.mp done
    rw [reads.ok_iff.mp read, named]
    exact ownFields a

theorem withField_takesOver (s : Settings) (name : String) (v : Value) :
    TakesOver s name v (withField s (name, v)) := by
  unfold withField
  dsimp only
  split_ifs with schema cache emit dirs paths stamping
  · exact schema ▸ reads_text.takesOver rfl (fun _ => rfl) fun _ => rfl
  · exact cache ▸ reads_text.takesOver rfl (fun _ => rfl) fun _ => rfl
  · exact emit ▸ reads_flag.takesOver rfl (fun _ => rfl) fun _ => rfl
  · exact dirs ▸ reads_list.takesOver rfl (fun _ => rfl) fun _ => rfl
  · exact paths ▸ reads_list.takesOver rfl (fun _ => rfl) fun _ => rfl
  · exact stamping ▸ reads_flag.takesOver rfl (fun _ => rfl) fun _ => rfl
  · have unknown : kindOf? name = none := by simp [kindOf?, List.lookup_eq_none_iff, *]
    exact ⟨by simp [unknown], fun done => Except.ok.inj done ▸ rfl, fun done => by
      simp [unknown, ← Except.ok.inj done]⟩

/-- Taking over fields with distinct names: it succeeds with values of the right kinds, and then each field has the
value of its name, or what it had where the name is absent. -/
theorem foldlM_withField_succeeds_iff (s : Settings) (fields : Fields) :
    (∃ t, fields.foldlM withField s = .ok t) ↔ ∀ field ∈ fields, ∀ kind ∈ kindOf? field.1,
      kind.takes field.2 = true := by
  induction fields generalizing s with
  | nil => simp [pure, Except.pure]
  | cons field rest ih =>
    obtain ⟨name, v⟩ := field
    have first := (withField_takesOver s name v).succeeds_iff
    simp only [List.foldlM_cons, bind_eq_ok, List.forall_mem_cons, ← first]
    constructor
    · rintro ⟨t, next, taken, later⟩
      exact ⟨⟨next, taken⟩, (ih next).mp ⟨t, later⟩⟩
    · rintro ⟨⟨next, taken⟩, others⟩
      obtain ⟨t, later⟩ := (ih next).mpr others
      exact ⟨t, next, taken, later⟩

theorem of_foldlM_withField {s t : Settings} {fields : Fields} (distinct : (keysOf fields).Nodup)
    (done : fields.foldlM withField s = .ok t) :
    t.layers = s.layers ∧ ∀ name, (kindOf? name).isSome = true →
      t.ownFields.lookup name = (fields.lookup name).or (s.ownFields.lookup name) := by
  induction fields generalizing s with
  | nil =>
    cases done
    exact ⟨rfl, fun name _ => rfl⟩
  | cons field rest ih =>
    obtain ⟨key, v⟩ := field
    rw [List.foldlM_cons] at done
    obtain ⟨next, taken, later⟩ := bind_eq_ok.mp done
    have first := withField_takesOver s key v
    obtain ⟨fresh, others⟩ := List.nodup_cons.mp distinct
    obtain ⟨layers, bound⟩ := ih others later
    refine ⟨layers.trans (first.layers taken), fun name known => ?_⟩
    rw [bound name known, first.ownFields taken, List.lookup_cons]
    by_cases same : name = key
    · subst same
      have absent : rest.lookup name = none :=
        Option.eq_none_iff_forall_ne_some.mpr fun w found => fresh (mem_keysOf_iff.mpr ⟨w, found⟩)
      simp [known, absent]
    · have apart : (name == key) = false := by simpa using same
      rw [apart]
      split
      · rw [lookup_put_of_ne same]
      · rfl

end TakenOver

/-- A path that may stand in settings. -/
def Usable (path : String) : Prop :=
  path.toList.all isBlank = false ∧ Location.isAbsolute ⟨path⟩ = false

theorem checkPath_eq_ok {field path : String} : checkPath field path = .ok () ↔ Usable path := by
  rw [checkPath, Usable]
  split
  · next blank => simp [blank]
  · next filled =>
    split
    · next absolute => simp [absolute]
    · next relative => simp [filled, relative]

theorem check_eq_ok {s t : Settings} :
    check s = .ok t ↔ t = s ∧ Usable s.schemaPath ∧ Usable s.cacheDir ∧ s.moduleDirs ≠ [] := by
  have dirs :
      (if s.moduleDirs.isEmpty then .error .noModuleDirs else .ok s : Except SettingsIssue Settings) = .ok t ↔
        t = s ∧ s.moduleDirs ≠ [] := by
    cases s.moduleDirs <;> simp [eq_comm]
  simp only [check, bind_eq_ok, dirs]
  constructor
  · rintro ⟨⟨⟩, schema, ⟨⟩, cache, same, some_⟩
    exact ⟨same, checkPath_eq_ok.mp schema, checkPath_eq_ok.mp cache, some_⟩
  · rintro ⟨same, schema, cache, some_⟩
    exact ⟨(), checkPath_eq_ok.mpr schema, (), checkPath_eq_ok.mpr cache, same, some_⟩

/-- Why a value is no good for a field. -/
inductive Refused (name : String) : Value → Prop
  | kind {kind : SettingsKind} {v : Value} : kindOf? name = some kind → kind.takes v = false → Refused name v
  | blank {path : String} : name = "schema_path" ∨ name = "cache_dir" → path.toList.all isBlank = true →
      Refused name (.string path)
  | absolute {path : String} : name = "schema_path" ∨ name = "cache_dir" → Location.isAbsolute ⟨path⟩ = true →
      Refused name (.string path)
  | noDirs : name = "module_dirs" → Refused name (.array [])

theorem Refused.known {name : String} {v : Value} (refused : Refused name v) : (kindOf? name).isSome = true := by
  cases refused with
  | kind known wrong => rw [known]; rfl
  | blank field => rcases field with rfl | rfl <;> rfl
  | absolute field => rcases field with rfl | rfl <;> rfl
  | noDirs field => subst field; rfl

theorem Usable.of_not_refused {name path : String} (field : name = "schema_path" ∨ name = "cache_dir")
    (accepted : ¬Refused name (.string path)) : Usable path := by
  refine ⟨Bool.eq_false_iff.mpr fun blank => accepted (.blank field blank), ?_⟩
  exact Bool.eq_false_iff.mpr fun absolute => accepted (.absolute field absolute)

theorem takes_of_mem_ownFields {s : Settings} {field : String × Value} (member : field ∈ s.ownFields)
    {kind : SettingsKind} (known : kindOf? field.1 = some kind) : kind.takes field.2 = true := by
  simp only [ownFields, List.mem_cons, List.not_mem_nil, or_false] at member
  rcases member with rfl | rfl | rfl | rfl | rfl | rfl <;> cases known
  · rfl
  · rfl
  · rfl
  · exact reads_list.takes_iff.mpr ⟨_, rfl⟩
  · exact reads_list.takes_iff.mpr ⟨_, rfl⟩
  · rfl

theorem fields?_of_mem_ownFields {s : Settings} {field : String × Value} (member : field ∈ s.ownFields) :
    field.2.fields? = none := by
  simp only [ownFields, List.mem_cons, List.not_mem_nil, or_false] at member
  rcases member with rfl | rfl | rfl | rfl | rfl | rfl <;> rfl

/-- Settings pass the check unless a field of theirs is refused. -/
theorem check_eq_self_iff {s : Settings} :
    check s = .ok s ↔ ∀ name v, s.ownFields.lookup name = some v → ¬Refused name v := by
  rw [check_eq_ok]
  constructor
  · rintro ⟨-, schema, cache, dirs⟩ name v found refused
    cases refused with
    | kind known wrong => simp [takes_of_mem_ownFields (mem_of_lookup found) known] at wrong
    | blank field blank =>
      rcases field with rfl | rfl <;> cases found
      · exact absurd schema.1 (by simp [blank])
      · exact absurd cache.1 (by simp [blank])
    | absolute field absolute =>
      rcases field with rfl | rfl <;> cases found
      · exact absurd schema.2 (by simp [absolute])
      · exact absurd cache.2 (by simp [absolute])
    | noDirs field =>
      subst field
      have none_ : textList s.moduleDirs = .array [] := Option.some.inj found
      simp [textList, dirs] at none_
  · intro accepted
    refine ⟨rfl, .of_not_refused (Or.inl rfl) (accepted _ _ rfl),
      .of_not_refused (Or.inr rfl) (accepted _ _ rfl), ?_⟩
    intro none_
    exact accepted "module_dirs" (.array []) (by simp [ownFields, textList, none_, List.lookup_cons]) (.noDirs rfl)

section Merged

variable {fields : Fields} {s : Settings}

theorem ofFields_of_full (full : ∀ name, (kindOf? name).isSome = true → (fields.lookup name).isSome = true) :
    ofFields fields = fields.foldlM withField { builtin with layers := [] } := by
  have known : ∀ name ∈ requiredFields, (kindOf? name).isSome = true := by decide +kernel
  have found : requiredFields.find? (· ∉ keysOf fields) = none := by
    rw [List.find?_eq_none]
    intro name member
    have own := Option.isSome_iff_exists.mp (full name (known name member))
    simpa using mem_keysOf_iff.mpr own
  rw [ofFields, found]
  cases fields.foldlM withField { builtin with layers := [] } <;> rfl

/-- Fields that leave none out make settings with these fields unless one of them is refused. -/
theorem ofFields_check_law (distinct : (keysOf fields).Nodup)
    (full : ∀ name, (kindOf? name).isSome = true → (fields.lookup name).isSome = true) :
    (∀ s, (ofFields fields).bind check = .ok s →
        s.layers = [] ∧ ∀ name, (kindOf? name).isSome = true → s.ownFields.lookup name = fields.lookup name) ∧
      ((∃ s, (ofFields fields).bind check = .ok s) ↔ ∀ name v, fields.lookup name = some v → ¬Refused name v) := by
  have folded {t : Settings} (done : fields.foldlM withField { builtin with layers := [] } = .ok t) :
      t.layers = [] ∧ ∀ name, (kindOf? name).isSome = true → t.ownFields.lookup name = fields.lookup name := by
    obtain ⟨layers, bound⟩ := of_foldlM_withField distinct done
    refine ⟨layers, fun name known => ?_⟩
    obtain ⟨v, own⟩ := Option.isSome_iff_exists.mp (full name known)
    rw [bound name known, own, Option.some_or]
  rw [ofFields_of_full full]
  refine ⟨fun s done => ?_, ?_, ?_⟩
  · obtain ⟨t, made, checked⟩ := bind_eq_ok.mp done
    obtain ⟨rfl, -⟩ := check_eq_ok.mp checked
    exact folded made
  · rintro ⟨s, done⟩ name v found refused
    obtain ⟨t, made, checked⟩ := bind_eq_ok.mp done
    obtain ⟨rfl, -⟩ := check_eq_ok.mp checked
    exact check_eq_self_iff.mp checked name v ((folded made).2 name refused.known ▸ found) refused
  · intro accepted
    obtain ⟨t, made⟩ := (foldlM_withField_succeeds_iff _ fields).mpr fun field member kind known =>
      eq_true_of_ne_false fun wrong => accepted field.1 field.2 (lookup_of_mem distinct member) (.kind known wrong)
    refine ⟨t, bind_eq_ok.mpr ⟨t, made, check_eq_self_iff.mpr fun name v own refused => ?_⟩⟩
    exact accepted name v ((folded made).2 name refused.known ▸ own) refused

end Merged

/-- A value that stands for another one once layers are merged: the same one, or an object for an object. -/
def StandsFor (v top : Value) : Prop :=
  v = top ∨ v.fields?.isSome = true ∧ top.fields?.isSome = true

theorem StandsFor.takes {v top : Value} (stands : StandsFor v top) (kind : SettingsKind) :
    kind.takes v = kind.takes top := by
  rcases stands with rfl | ⟨upper, lower⟩
  · rfl
  · obtain ⟨as, rfl⟩ := Option.isSome_iff_exists.mp upper |>.imp fun _ => Value.fields?_eq_some.mp
    obtain ⟨bs, rfl⟩ := Option.isSome_iff_exists.mp lower |>.imp fun _ => Value.fields?_eq_some.mp
    cases kind <;> rfl

theorem StandsFor.refused_iff {name : String} {v top : Value} (stands : StandsFor v top) :
    Refused name v ↔ Refused name top := by
  rcases id stands with rfl | ⟨upper, lower⟩
  · rfl
  · obtain ⟨as, rfl⟩ := (Option.isSome_iff_exists.mp upper).imp fun _ => Value.fields?_eq_some.mp
    obtain ⟨bs, rfl⟩ := (Option.isSome_iff_exists.mp lower).imp fun _ => Value.fields?_eq_some.mp
    constructor
    · rintro ⟨known, wrong⟩
      exact .kind known (stands.takes _ ▸ wrong)
    · rintro ⟨known, wrong⟩
      exact .kind known (stands.takes _ ▸ wrong)

theorem StandsFor.overlay {v top : Value} (stands : StandsFor v top) (base : Value) :
    StandsFor (base.overlay v) top := by
  cases own : v.fields? with
  | none => rwa [Value.overlay_of_leaf own]
  | some tops =>
    obtain rfl := Value.fields?_eq_some.mp own
    rw [Value.overlay_object]
    rcases stands with rfl | ⟨-, lower⟩
    · exact Or.inr ⟨rfl, rfl⟩
    · exact Or.inr ⟨rfl, lower⟩

theorem StandsFor.eq_of_leaf {v top : Value} (stands : StandsFor v top) (leaf : v.fields? = none) : v = top := by
  rcases stands with same | ⟨upper, -⟩
  · exact same
  · simp [leaf] at upper

theorem StandsFor.exists_right {a b : Option Value} (rel : Option.Rel StandsFor a b) {v : Value}
    (own : a = some v) :
    ∃ top, b = some top ∧ StandsFor v top := by
  cases rel with
  | some stands =>
    cases own
    exact ⟨_, rfl, stands⟩
  | none => cases own

theorem StandsFor.exists_left {a b : Option Value} (rel : Option.Rel StandsFor a b) {top : Value}
    (own : b = some top) :
    ∃ v, a = some v ∧ StandsFor v top := by
  cases rel with
  | some stands =>
    cases own
    exact ⟨_, rfl, stands⟩
  | none => cases own

/-- An object laid over another one, if there is one: each field stands for the upper one, or else is the
lower one. -/
theorem exists_overlay {bases : Fields} (lower : (keysOf bases).Nodup) {layer : Option Fields}
    (upper : ∀ tops ∈ layer, (keysOf tops).Nodup) :
    ∃ merged,
      (layer.elim (.object bases) fun tops => (Value.object bases).overlay (.object tops)) = .object merged ∧
        (keysOf merged).Nodup ∧ ∀ {name : String} {below : Option Value},
        Option.Rel StandsFor (bases.lookup name) below →
          Option.Rel StandsFor (merged.lookup name) ((layer.bind (·.lookup name)).or below) := by
  cases layer with
  | none => exact ⟨bases, rfl, lower, id⟩
  | some tops =>
    refine ⟨overlayFields bases tops, Value.overlay_objects bases tops, nodup_keysOf_overlayFields lower tops, ?_⟩
    intro name below stands
    rw [lookup_overlayFields (upper tops rfl), Option.bind_some]
    cases tops.lookup name with
    | none => exact stands
    | some top =>
      refine .some ?_
      have own : StandsFor top top := Or.inl rfl
      cases bases.lookup name with
      | none => exact own
      | some base => exact own.overlay base

/-- What the settings file of a workspace holds, if it has one: a table, and no other value. -/
inductive FileHolds (files : FileTree) (workspace : Location) (named : Option Location) :
    Option (Location × Fields) → Prop
  | absent : fileOf? files workspace named = none → FileHolds files workspace named none
  | table {file : Location} {fields : Fields} : fileOf? files workspace named = some file →
      readFile files file = .ok (.object fields) → FileHolds files workspace named (some (file, fields))

/-- The value that the layers together give a field: that of the overrides, else that of the table, else the
built-in one. -/
def chosen (table overrides : Option Fields) (name : String) : Option Value :=
  (overrides.bind (·.lookup name)).or ((table.bind (·.lookup name)).or (builtin.ownFields.lookup name))

/-- The layers of settings, from the weakest to the strongest. -/
def layersUpTo (found : Option (Location × Fields)) (overrides : Option Fields) : List (SettingsLayer × Value) :=
  (⟨.builtin, none⟩, .object builtin.ownFields) ::
    (found.elim [] fun f => [(⟨.file, some f.1.text⟩, .object f.2)]) ++
      overrides.elim [] fun fields => [(⟨.cli, none⟩, .object fields)]

section Load

variable {files : FileTree} {workspace : Location} {named : Option Location} {found : Option (Location × Fields)}
  {overrides : Option Fields}

theorem FileHolds.layersOf_eq (holds : FileHolds files workspace named found) (overrides : Option Fields) :
    layersOf files workspace named (overrides.map .object) = .ok (layersUpTo found overrides) := by
  cases holds with
  | absent none_ => cases overrides <;> simp [layersOf, none_, layersUpTo] <;> rfl
  | table chosen_ read => cases overrides <;> simp [layersOf, chosen_, read, layersUpTo, Except.map] <;> rfl

theorem FileHolds.nodup_keysOf (holds : FileHolds files workspace named found) :
    ∀ fields ∈ found.map Prod.snd, (keysOf fields).Nodup := by
  cases holds with
  | absent none_ => simp
  | table chosen_ read =>
    rw [readFile] at read
    split at read
    · cases read
    · split at read
      · next known =>
        cases read
        simpa using Toml.nodup_keysOf_read? known
      · cases read

/-- The layers merge into an object in which each field stands for the chosen one. -/
theorem exists_overlayAll (table : ∀ fields ∈ found.map Prod.snd, (keysOf fields).Nodup)
    (stronger : ∀ fields ∈ overrides, (keysOf fields).Nodup) :
    ∃ merged, overlayAll ((layersUpTo found overrides).map Prod.snd) = .object merged ∧ (keysOf merged).Nodup ∧
      ∀ name, Option.Rel StandsFor (merged.lookup name) (chosen (found.map Prod.snd) overrides name) := by
  have lowest : (keysOf builtin.ownFields).Nodup := by decide
  obtain ⟨middle, laid, distinct, stands⟩ := exists_overlay lowest table
  obtain ⟨merged, whole, all, chosen_⟩ := exists_overlay distinct stronger
  refine ⟨merged, ?_, all, fun name => chosen_ (stands ?_)⟩
  · have bottom : Value.null.overlay (.object builtin.ownFields) = .object builtin.ownFields :=
      Value.overlay_of_base_leaf rfl _
    rw [← whole, ← laid]
    cases found <;> cases overrides <;> simp [layersUpTo, overlayAll, bottom]
  · cases builtin.ownFields.lookup name with
    | none => exact .none
    | some v => exact .some (Or.inl rfl)

/-- Each field has the value of the strongest layer that has it, and settings are refused for such values
and for nothing else. -/
theorem load_takes_strongest (holds : FileHolds files workspace named found)
    (distinct : ∀ fields ∈ overrides, (keysOf fields).Nodup) :
    (∀ s, load files workspace named (overrides.map .object) = .ok s →
        (∀ name ∈ keysOf builtin.ownFields, s.ownFields.lookup name = chosen (found.map Prod.snd) overrides name) ∧
        s.layers = ⟨.builtin, none⟩ :: (found.elim [] fun f => [⟨.file, some f.1.text⟩]) ++
          overrides.elim [] fun _ => [⟨.cli, none⟩]) ∧
      ((∃ issue, load files workspace named (overrides.map .object) = .error (.invalid issue)) ↔
        ∃ name v, chosen (found.map Prod.snd) overrides name = some v ∧ Refused name v) ∧
      ((∃ s, load files workspace named (overrides.map .object) = .ok s) ∨
        ∃ issue, load files workspace named (overrides.map .object) = .error (.invalid issue)) := by
  obtain ⟨merged, whole, all, stands⟩ := exists_overlayAll holds.nodup_keysOf distinct
  have loaded : load files workspace named (overrides.map .object) =
      (((ofFields merged).bind check).mapError .invalid).map fun s =>
        { s with layers := (layersUpTo found overrides).map Prod.fst } := by
    rw [load, holds.layersOf_eq overrides]
    simp only [bind, Except.bind, whole, ofValue]
    cases (ofFields merged).bind check <;> rfl
  have full (name : String) (known : (kindOf? name).isSome = true) : (merged.lookup name).isSome = true := by
    obtain ⟨v, builtin_⟩ := mem_keysOf_iff.mp (isSome_kindOf?_iff.mp known)
    obtain ⟨top, own⟩ : ∃ top, chosen (found.map Prod.snd) overrides name = some top := by
      rw [← Option.isSome_iff_exists, chosen, builtin_]
      simp
    obtain ⟨v, merged_, -⟩ := StandsFor.exists_left (stands name) own
    rw [merged_, Option.isSome_some]
  obtain ⟨made, accepted⟩ := ofFields_check_law all full
  have refused : (∃ name v, chosen (found.map Prod.snd) overrides name = some v ∧ Refused name v) ↔
      ¬∃ s, (ofFields merged).bind check = .ok s := by
    rw [accepted]
    push Not
    constructor
    · rintro ⟨name, top, own, bad⟩
      obtain ⟨v, merged_, stands_⟩ := StandsFor.exists_left (stands name) own
      exact ⟨name, v, merged_, stands_.refused_iff.mpr bad⟩
    · rintro ⟨name, v, merged_, bad⟩
      obtain ⟨top, own, stands_⟩ := StandsFor.exists_right (stands name) merged_
      exact ⟨name, top, own, stands_.refused_iff.mp bad⟩
  rw [loaded, refused]
  cases result : (ofFields merged).bind check with
  | error issue => simp [Except.mapError, Except.map]
  | ok s =>
    refine ⟨?_, by simp [Except.mapError, Except.map], Or.inl ⟨_, rfl⟩⟩
    rintro _ ⟨⟩
    refine ⟨fun name member => ?_, ?_⟩
    · have known := isSome_kindOf?_iff.mpr member
      obtain ⟨v, merged_⟩ := Option.isSome_iff_exists.mp (full name known)
      obtain ⟨top, own, stands_⟩ := StandsFor.exists_right (stands name) merged_
      have bound := ((made s result).2 name known).trans merged_
      rw [own, ← stands_.eq_of_leaf (fields?_of_mem_ownFields (mem_of_lookup bound))]
      exact bound
    · cases found <;> cases overrides <;> rfl

/-- A workspace with a settings file. -/
def configured : FileTree where
  entries := [(["ws"], .directory), (["ws", ".workspace"], .directory),
    (["ws", ".workspace", "wsconfig.toml"],
      .file (.text "cache_dir = 'tmp/cache'\nemit_cache = false\nmodule_dirs = ['lib']\nother = 1\n"))]
  here := ["ws"]

def configuredTable : Fields :=
  [("cache_dir", .string "tmp/cache"), ("emit_cache", .bool false), ("module_dirs", .array [.string "lib"]),
    ("other", .number (.int 1))]

theorem configured_holds :
    FileHolds configured ⟨"/ws"⟩ none (some (⟨"/ws/.workspace/wsconfig.toml"⟩, configuredTable)) :=
  .table (by decide +kernel) (eq_ok_of_toOption (by decide +kernel))

/-- Overrides of two fields, one of which the file has as well. -/
def overriding : Fields :=
  [("emit_cache", .bool true), ("module_paths", textList ["x"])]

theorem load_takes_strongest_configured :
    (∃ s, load configured ⟨"/ws"⟩ none (some (.object overriding)) = .ok s ∧ s.cacheDir = "tmp/cache" ∧
        s.emitCache = true ∧ ∀ name ∈ keysOf builtin.ownFields,
          s.ownFields.lookup name = chosen (some configuredTable) (some overriding) name) ∧
      ∃ issue, load configured ⟨"/ws"⟩ none (some (.object [("emit_cache", .null)])) =
        .error (.invalid issue) := by
  have distinct : ∀ fields ∈ some overriding, (keysOf fields).Nodup := by decide +kernel
  have nulled : ∀ fields ∈ (some [("emit_cache", .null)] : Option Fields), (keysOf fields).Nodup := by
    decide +kernel
  constructor
  · obtain ⟨s, loaded, values⟩ := exists_of_toOption_any
      (r := load configured ⟨"/ws"⟩ none (some (.object overriding)))
      (p := fun s => s.cacheDir = "tmp/cache" ∧ s.emitCache = true) (by decide +kernel)
    have ⟨cache, emit⟩ := of_decide_eq_true values
    exact ⟨s, loaded, cache, emit, ((load_takes_strongest configured_holds distinct).1 s loaded).1⟩
  · exact (load_takes_strongest configured_holds nulled).2.1.mpr ⟨"emit_cache", .null, rfl, .kind rfl rfl⟩

end Load

end Settings

end LayeredConfig
