import LayeredConfig.Proofs.Document.Load
import LayeredConfig.Proofs.Outcome

namespace LayeredConfig

/-- A fault of a file itself: it cannot be read or written, or holds no document. -/
inductive Fault.OfFile (file : Location) : Fault → Prop
  | access (cause : AccessFault) : OfFile file (.access file cause)
  | unreadable : OfFile file (.unreadable file)
  | malformed {cause : Malformation} (found : cause ≠ .extendsWithoutEnd) : OfFile file (.malformed file cause)

theorem Fault.OfFile.ne_endless {file place : Location} {fault : Fault} (own : fault.OfFile file) :
    fault ≠ .endless place := by
  rintro rfl
  cases own with
  | malformed found => exact found rfl

namespace Document

variable {t : FileTree} {file : Location} {fault : Fault}

theorem parse_eq_error {text : String} (failed : parse file text = .error fault) : fault.OfFile file := by
  unfold parse at failed
  split at failed
  · cases failed
  · cases failed
    exact .unreadable

theorem stored_eq_error (failed : stored t file = .error fault) : fault.OfFile file := by
  unfold stored at failed
  cases read : t.read file with
  | error cause =>
    simp only [read] at failed
    cases failed
    exact .access cause
  | ok text =>
    simp only [read] at failed
    exact parse_eq_error (map_eq_error.mp failed)

theorem topFields_eq_error {v : Value} (failed : topFields file v = .error fault) : fault.OfFile file := by
  cases v with
  | object fields => cases failed
  | null => cases failed
  | _ =>
    cases failed
    exact .malformed nofun

theorem references_eq_error {items : List Value} (failed : references file items = .error fault) :
    fault.OfFile file := by
  induction items with
  | nil => cases failed
  | cons item rest ih =>
    cases item with
    | string s => exact ih (map_eq_error.mp failed)
    | _ =>
      cases failed
      exact .malformed nofun

theorem parentsOf_eq_error {fields : Fields} (failed : parentsOf file fields = .error fault) :
    fault.OfFile file := by
  unfold parentsOf at failed
  split at failed
  · cases failed
  · cases failed
  · cases failed
  · exact references_eq_error failed
  · cases failed
    exact .malformed nofun

theorem ofText_eq_error {text : String} {refreshed : Bool} (failed : ofText file text refreshed = .error fault) :
    fault.OfFile file := by
  rcases bind_eq_error.mp failed with unparsed | ⟨value, _, failed⟩
  · exact parse_eq_error unparsed
  · rcases bind_eq_error.mp failed with topless | ⟨fields, _, failed⟩
    · exact topFields_eq_error topless
    · rcases bind_eq_error.mp failed with unnamed | ⟨parents, _, made⟩
      · exact parentsOf_eq_error unnamed
      · cases made

theorem refresh_eq_error {policy : Upkeep} {now : String}
    (failed : (refresh policy now t file).result = .error fault) :
    fault.OfFile file := by
  unfold refresh at failed
  cases kept : stored t file with
  | error cause =>
    simp only [kept, bind, Except.bind] at failed
    cases failed
    exact stored_eq_error kept
  | ok both =>
    obtain ⟨text, value⟩ := both
    cases top : topFields file value with
    | error cause =>
      simp only [kept, top, bind, Except.bind] at failed
      cases failed
      exact topFields_eq_error top
    | ok fields =>
      simp only [kept, top, bind, Except.bind] at failed
      split at failed
      · cases failed
      · cases written : t.write file (.text (Yaml.print (.object (upkeep policy file.dir now fields)))) with
        | error cause =>
          simp only [save, written, Outcome.andThen_failed] at failed
          cases failed
          exact .access cause
        | ok u =>
          simp only [save, written, Outcome.andThen_done] at failed
          cases failed

/-- Loading a document fails over its own file only. -/
theorem load_eq_error {policy : Upkeep} {now : Instant} {place : Location}
    (failed : (load policy now t place).result = .error fault) : fault.OfFile place.normalize := by
  rcases bind_eq_error.mp failed with stale | ⟨⟨text, refreshed⟩, _, unmade⟩
  · exact refresh_eq_error stale
  · exact ofText_eq_error unmade

end Document

end LayeredConfig
