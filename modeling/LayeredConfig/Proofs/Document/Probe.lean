import LayeredConfig.Proofs.Document.Rest

namespace LayeredConfig

/-- A question to a tree of files: what the file at a place holds, whether there is a file, or
whether there is a directory. -/
inductive Probe
  | text (l : Location)
  | file (l : Location)
  | directory (l : Location)
  deriving DecidableEq, Repr

namespace Probe

/-- Two trees give the same answer. Of a text that cannot be read it does not count why. -/
def Agrees (t u : FileTree) : Probe → Prop
  | text l => (u.read l).toOption = (t.read l).toOption
  | file l => u.isFile l = t.isFile l
  | directory l => u.isDir l = t.isDir l

instance (t u : FileTree) : (p : Probe) → Decidable (p.Agrees t u)
  | text l => inferInstanceAs (Decidable ((u.read l).toOption = (t.read l).toOption))
  | file l => inferInstanceAs (Decidable (u.isFile l = t.isFile l))
  | directory l => inferInstanceAs (Decidable (u.isDir l = t.isDir l))

/-- The place whose text is asked for. -/
def text? : Probe → Option Location
  | text l => some l
  | _ => none

/-- Texts are asked for at absolute places in canonical form, as documents have them. -/
def Placed : Probe → Prop
  | text l => l.isAbsolute = true ∧ l.normalize = l
  | _ => True

theorem Placed.of_text? {p : Probe} (none_ : p.text? = none) : p.Placed := by
  cases p with
  | text l => cases none_
  | file l => trivial
  | directory l => trivial

end Probe

namespace Document

theorem refresh_congr (policy : Upkeep) (now : String) {t u : FileTree} {file : Location}
    (left : t.isFile file = true) (right : u.isFile file = true) (same : u.read file = t.read file) :
    (refresh policy now u file).result = (refresh policy now t file).result ∧
      (refresh policy now u file).files.read file = (refresh policy now t file).files.read file := by
  have kept : stored u file = stored t file := by rw [stored, stored, same]
  unfold refresh
  rw [kept]
  cases stored t file with
  | error fault => exact ⟨rfl, same⟩
  | ok both =>
    obtain ⟨text, value⟩ := both
    cases top : topFields file value with
    | error fault =>
      simp only [bind, Except.bind, top]
      exact ⟨rfl, same⟩
    | ok fields =>
      simp only [bind, Except.bind, top]
      split
      · exact ⟨rfl, same⟩
      · let body := Body.text (Yaml.print (.object (upkeep policy file.dir now fields)))
        obtain ⟨x, writtenT⟩ := FileTree.exists_write left body
        obtain ⟨y, writtenU⟩ := FileTree.exists_write right body
        have textT := FileTree.read_of_write writtenT
        have textU := FileTree.read_of_write writtenU
        simp only [save, writtenT, writtenU, Outcome.andThen_done, Outcome.result_done,
          Outcome.files_done, textT, textU, and_self, body]

end Document

/-- Two outcomes of work on two trees mirror each other: they have the same result, and what
the trees agreed on before, they agree on after. -/
structure Outcome.Mirrors {α : Type} (t u : FileTree) (o p : Outcome α) : Prop where
  result : p.result = o.result
  keeps : ∀ probe : Probe, probe.Placed → probe.Agrees t u → probe.Agrees o.files p.files

namespace Outcome.Mirrors

variable {α β : Type} {t u : FileTree}

theorem done (t u : FileTree) (a : α) : Mirrors t u (.done t a) (.done u a) :=
  ⟨rfl, fun _ _ agrees => agrees⟩

theorem failed (t u : FileTree) (fault : Fault) : Mirrors t u (.failed t fault : Outcome α) (.failed u fault) :=
  ⟨rfl, fun _ _ agrees => agrees⟩

/-- Work that goes on from mirrored outcomes alike ends with mirrored outcomes. -/
theorem andThen {o p : Outcome α} {next other : FileTree → α → Outcome β} (first : Mirrors t u o p)
    (later : ∀ a, o.result = .ok a → Mirrors o.files p.files (next o.files a) (other p.files a)) :
    Mirrors t u (o.andThen next) (p.andThen other) := by
  cases ended : o.result with
  | error fault =>
    rw [andThen_of_error ended, andThen_of_error (first.result.trans ended)]
    exact ⟨rfl, first.keeps⟩
  | ok a =>
    rw [andThen_of_ok ended, andThen_of_ok (first.result.trans ended)]
    have second := later a ended
    exact ⟨second.result, fun probe placed agrees => second.keeps probe placed (first.keeps probe placed agrees)⟩

end Outcome.Mirrors

/-- Loading a document asks for its text alone. On trees that agree on it the outcomes mirror
each other. -/
theorem Document.load_mirrors {policy : Upkeep} {now : Instant} {t u : FileTree} {place : Location}
    (absolute : place.isAbsolute = true) (left : t.isFile place.normalize = true)
    (right : u.isFile place.normalize = true) (own : (Probe.text place.normalize).Agrees t u) :
    Outcome.Mirrors t u (load policy now t place) (load policy now u place) := by
  obtain ⟨result, text⟩ := refresh_congr policy now.toMillis left right
    (FileTree.read_eq_of_toOption left right own)
  refine ⟨by rw [load, load, Outcome.andCheck, Outcome.andCheck, result], fun probe placed agrees => ?_⟩
  have shapeT := sameShape_load policy now t place
  have shapeU := sameShape_load policy now u place
  cases probe with
  | text l =>
    by_cases same : place.normalize = l
    · subst same
      exact congrArg Except.toOption text
    · have anchored := Location.isAbsolute_normalize absolute
      rw [Probe.Agrees, read_load_of_ne anchored placed same, read_load_of_ne anchored placed same]
      exact agrees
  | file l => exact (shapeU.isFile l).trans (agrees.trans (shapeT.isFile l).symm)
  | directory l => exact (shapeU.isDir l).trans (agrees.trans (shapeT.isDir l).symm)

end LayeredConfig
