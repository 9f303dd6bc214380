import LayeredConfig.Proofs.Document.Rest
import Mathlib.Logic.Function.Iterate
import Mathlib.Logic.Relation

namespace LayeredConfig

open Relation (TransGen)

namespace FileTree

theorem entry?_of_read {t : FileTree} {l : Location} {text : String} (read : t.read l = .ok text) :
    ∃ names, t.locate l = .ok names ∧ t.entry? names = some (.file (.text text)) := by
  obtain ⟨names, body, located, found⟩ := isFile_eq_true (isFile_of_read read)
  rw [read_of_locate located, found] at read
  cases body with
  | text s =>
    cases read
    exact ⟨names, located, found⟩
  | bytes bs => cases read

end FileTree

namespace Document

/-- One pass over the text of a file: its fields are brought up to date and written again. -/
def Pass (policy : Upkeep) (now : String) (file : Location) (text after : String) : Prop :=
  ∃ own, fieldsOf file text = .ok own ∧ after = Yaml.print (.object (upkeep policy file.dir now own))

variable {policy : Upkeep} {now : Instant} {t : FileTree} {file : Location} {text after : String} {own : Fields}

theorem fieldsOf_of_read? {fields : Fields} (back : Yaml.read? text = some (.object fields)) :
    fieldsOf file text = .ok fields := by
  simp [fieldsOf, parse, back, Except.bind, topFields]

/-- What fields are after several passes over them. -/
def upkept (policy : Upkeep) (now : String) (dir : Location) (passes : Nat) (own : Fields) : Value :=
  .object ((upkeep policy dir now)^[passes] own)

/-- What passes write reads exactly as what was written, after the first of them and after
each later one. -/
def ReadsPasses (policy : Upkeep) (now : String) (dir : Location) (own : Fields) : Prop :=
  ∀ n, Yaml.read? (Yaml.print (upkept policy now dir (n + 1) own)) = some (upkept policy now dir (n + 1) own)

/-- Where one pass brings fields to rest, what it writes has to read back only once. -/
theorem readsPasses_of_rest {dir : Location} {stamp : String} {done : Fields}
    (once : upkeep policy dir stamp own = done) (still : upkeep policy dir stamp done = done)
    (back : Yaml.read? (Yaml.print (.object done)) = some (.object done)) : ReadsPasses policy stamp dir own := by
  intro n
  rwa [upkept, Function.iterate_succ_apply, once, Function.iterate_fixed still]

/-- Where what is written reads back, a text after passes is that of the fields which were
brought up to date as often as there were passes. -/
theorem exists_upkept_of_passes {stamp : String} (passes : TransGen (Pass policy stamp file) text after)
    (known : fieldsOf file text = .ok own) (faithful : ReadsPasses policy stamp file.dir own) :
    ∃ n, after = Yaml.print (upkept policy stamp file.dir (n + 1) own) := by
  induction passes with
  | single pass =>
    obtain ⟨fields, same, rfl⟩ := pass
    rw [known] at same
    cases same
    exact ⟨0, rfl⟩
  | tail _ pass ih =>
    obtain ⟨n, rfl⟩ := ih
    obtain ⟨fields, same, rfl⟩ := pass
    rw [fieldsOf_of_read? (faithful n)] at same
    cases same
    exact ⟨n + 1, by rw [upkept, Function.iterate_succ_apply' _ (n + 1)]⟩

theorem exists_fieldsOf_of_passes {stamp : String} (passes : TransGen (Pass policy stamp file) text after) :
    ∃ own, fieldsOf file text = .ok own := by
  obtain ⟨_, ⟨own, known, _⟩, _⟩ := TransGen.head'_iff.mp passes
  exact ⟨own, known⟩

/-- A load leaves every entry as it is, save for the file of the document, which it may pass
over once. -/
theorem entry?_load (policy : Upkeep) (now : Instant) (t : FileTree) (place : Location) (names : List String) :
    FileTree.entry? (load policy now t place).files names = t.entry? names ∨
      t.locate place.normalize = .ok names ∧ ∃ text after, t.entry? names = some (.file (.text text)) ∧
        FileTree.entry? (load policy now t place).files names = some (.file (.text after)) ∧
        Pass policy now.toMillis place.normalize text after := by
  have files : (load policy now t place).files = (refresh policy now.toMillis t place.normalize).files := rfl
  rw [files]
  rcases refresh_cases policy now.toMillis t place.normalize with
    ⟨fault, failed⟩ | ⟨text, value, fields, read, parsed, top, ⟨_, kept⟩ | ⟨_, u, written, saved⟩⟩
  · exact Or.inl (by rw [failed, Outcome.files_failed])
  · exact Or.inl (by rw [kept, Outcome.files_done])
  · rw [saved, Outcome.files_done]
    obtain ⟨own, located, held⟩ := FileTree.entry?_of_read read
    obtain ⟨others, there, named, _, rfl⟩ := FileTree.write_eq_ok written
    obtain rfl : own = others := Except.ok.inj (located.symm.trans there)
    by_cases same : names = own
    · subst same
      exact Or.inr ⟨located, text, _, held, FileTree.entry?_put_self t named _, fields,
        fieldsOf_eq_ok.mpr ⟨value, parsed, top⟩, rfl⟩
    · exact Or.inl (FileTree.entry?_put_of_ne t same _)

/-- The files after documents were loaded one after the other, whatever the loads gave. -/
def loads (policy : Upkeep) (now : Instant) (t : FileTree) (places : List Location) : FileTree :=
  places.foldl (fun files place => (load policy now files place).files) t

theorem loads_append (policy : Upkeep) (now : Instant) (t : FileTree) (first second : List Location) :
    loads policy now t (first ++ second) = loads policy now (loads policy now t first) second :=
  List.foldl_append

/-- A file was loaded and its text has gone through passes, one or more. -/
def Passed (policy : Upkeep) (now : Instant) (t u : FileTree) (names : List String) (place : Location) : Prop :=
  t.locate place.normalize = .ok names ∧ ∃ text after, t.entry? names = some (.file (.text text)) ∧
    u.entry? names = some (.file (.text after)) ∧ TransGen (Pass policy now.toMillis place.normalize) text after

/-- A file that has gone through passes held fields, and now holds them up to date, where
what the passes write reads back. -/
theorem Passed.exists_upkept {u : FileTree} {names : List String} {place : Location} {body : Body}
    (passed : Passed policy now t u names place) (file : u.entry? names = some (.file body)) :
    t.locate place.normalize = .ok names ∧
      ∃ text after own, t.entry? names = some (.file (.text text)) ∧ body = .text after ∧
        TransGen (Pass policy now.toMillis place.normalize) text after ∧ fieldsOf place.normalize text = .ok own ∧
        (ReadsPasses policy now.toMillis place.normalize.dir own →
          ∃ n, after = Yaml.print (upkept policy now.toMillis place.normalize.dir (n + 1) own)) := by
  obtain ⟨located, text, after, held, wrote, passes⟩ := passed
  obtain ⟨own, known⟩ := exists_fieldsOf_of_passes passes
  rw [wrote] at file
  cases file
  exact ⟨located, text, after, own, held, rfl, passes, known, exists_upkept_of_passes passes known⟩

/-- Loads leave every entry as it is, save for the files of the documents. -/
theorem entry?_loads {places : List Location} (absolute : ∀ place ∈ places, place.isAbsolute = true)
    (names : List String) :
    FileTree.entry? (loads policy now t places) names = t.entry? names ∨
      ∃ place ∈ places, Passed policy now t (loads policy now t places) names place := by
  induction places generalizing t with
  | nil => exact Or.inl rfl
  | cons first rest ih =>
    have shape := sameShape_load policy now t first
    have later := ih (t := (load policy now t first).files) fun place member =>
      absolute place (List.mem_cons_of_mem _ member)
    change FileTree.entry? (loads policy now (load policy now t first).files rest) names = _ ∨ _
    rcases entry?_load policy now t first names with same | ⟨located, text, after, held, wrote, pass⟩
    · rcases later with kept | ⟨place, member, there, text, after, held, wrote, passes⟩
      · exact Or.inl (kept.trans same)
      · rw [shape.locate] at there
        rw [same] at held
        exact Or.inr ⟨place, List.mem_cons_of_mem _ member, there, text, after, held, wrote, passes⟩
    · rcases later with kept | ⟨place, member, there, between, final, read, wrote', passes⟩
      · exact Or.inr ⟨first, List.mem_cons_self, located, text, after, held, kept.trans wrote, .single pass⟩
      · -- a later load at these names is one of the same place
        rw [shape.locate] at there
        have same : place.normalize = first.normalize := FileTree.eq_of_locate
          ⟨Location.isAbsolute_normalize (absolute place (List.mem_cons_of_mem _ member)),
            place.normalize_normalize⟩
          ⟨Location.isAbsolute_normalize (absolute first List.mem_cons_self),
            first.normalize_normalize⟩ there located
        rw [wrote] at read
        cases read
        rw [same] at passes
        exact Or.inr ⟨first, List.mem_cons_self, located, text, final, held, wrote', .head pass passes⟩

end Document

end LayeredConfig
