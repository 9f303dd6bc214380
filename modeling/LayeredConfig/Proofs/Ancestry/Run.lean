import LayeredConfig.Proofs.Ancestry.Package
import LayeredConfig.Proofs.Ancestry.Visit
import LayeredConfig.Proofs.Document.Failure

namespace LayeredConfig

/-- Work that ends because the bound of a walk is spent. -/
def Outcome.Spent {α : Type} (o : Outcome α) : Prop :=
  ∃ place, o.result = .error (.endless place)

theorem Outcome.not_spent_of_ok {α : Type} {o : Outcome α} {a : α} (ok : o.result = .ok a) : ¬o.Spent := by
  rintro ⟨place, spent⟩
  rw [ok] at spent
  cases spent

theorem Outcome.Spent.andThen {α β : Type} {o : Outcome α} (spent : o.Spent) (next : FileTree → α → Outcome β) :
    (o.andThen next).Spent := by
  obtain ⟨place, failed⟩ := spent
  exact ⟨place, by rw [andThen_of_error failed, result_failed]⟩

theorem Outcome.spent_andThen_done {α β : Type} {o : Outcome α} {f : α → β} :
    (o.andThen fun files a => done files (f a)).Spent ↔ o.Spent := by
  refine ⟨fun ⟨place, failed⟩ => ?_, fun spent => spent.andThen _⟩
  cases ended : o.result with
  | ok a =>
    rw [andThen_of_ok ended] at failed
    cases failed
  | error fault =>
    rw [andThen_of_error ended, result_failed] at failed
    exact ⟨place, by rw [ended, Except.error.inj failed]⟩

namespace Surroundings

/-- One turn of a walk: the branch it stands on, and the place it goes on to. -/
structure Turn where
  above : List Location
  place : Location

/-- The branch with the place it goes on to. -/
def Turn.branch (turn : Turn) : List Location :=
  turn.above ++ [turn.place]

mutual

/-- The walk of a document with everything it extends, as far as it goes: a finite run
without any bound. It takes its turns one after the other and ends with an outcome. -/
inductive Walk (s : Surroundings) :
    FileTree → List Location → Option String → Location → List Turn → Outcome Ancestry → Prop
  | unloaded {x : FileTree} {above : List Location} {reference : Option String} {place : Location}
      {fault : Fault} :
      (Document.load s.policy s.now x place).result = .error fault →
      Walk s x above reference place [⟨above, place⟩] (.failed (Document.load s.policy s.now x place).files fault)
  | loaded {x : FileTree} {above : List Location} {reference : Option String} {place : Location} {d : Document}
      {turns : List Turn} {o : Outcome (List Ancestry)} :
      (Document.load s.policy s.now x place).result = .ok d →
      WalkAll s (Document.load s.policy s.now x place).files (above ++ [d.location]) d.location d.parents turns o →
      Walk s x above reference place (⟨above, place⟩ :: turns) (o.andThen fun files parents =>
        .done files ⟨.node d.location reference (parents.map Ancestry.lineage),
          parents.flatMap Ancestry.documents ++ [d]⟩)

/-- The walk of the references of a document in turn, up to the first fault. -/
inductive WalkAll (s : Surroundings) :
    FileTree → List Location → Location → List String → List Turn → Outcome (List Ancestry) → Prop
  | nil {x : FileTree} {branch : List Location} {referrer : Location} :
      WalkAll s x branch referrer [] [] (.done x [])
  | refused {x : FileTree} {branch : List Location} {referrer : Location} {named : String} {rest : List String}
      {fault : Fault} :
      s.parent x branch referrer named = .error fault →
      WalkAll s x branch referrer (named :: rest) [] (.failed x fault)
  | failed {x : FileTree} {branch : List Location} {referrer target : Location} {named : String}
      {rest : List String} {turns : List Turn} {o : Outcome Ancestry} {fault : Fault} :
      s.parent x branch referrer named = .ok target → Walk s x branch (some named) target turns o →
      o.result = .error fault → WalkAll s x branch referrer (named :: rest) turns (.failed o.files fault)
  | next {x : FileTree} {branch : List Location} {referrer target : Location} {named : String} {rest : List String}
      {turns more : List Turn} {o : Outcome Ancestry} {a : Ancestry} {later : Outcome (List Ancestry)} :
      s.parent x branch referrer named = .ok target → Walk s x branch (some named) target turns o →
      o.result = .ok a → WalkAll s o.files branch referrer rest more later →
      WalkAll s x branch referrer (named :: rest) (turns ++ more)
        (later.andThen fun files others => .done files (a :: others))

end

/-- The walk of an ancestry from its first document, if that is a file. -/
inductive Runs (s : Surroundings) (t : FileTree) (root : Location) : List Turn → Outcome Ancestry → Prop
  | missing : t.isFile root.normalize = false →
      Runs s t root [] (.failed t (.missingTarget root.normalize none []))
  | found {turns : List Turn} {o : Outcome Ancestry} : t.isFile root.normalize = true →
      s.Walk t [] none root.normalize turns o → Runs s t root turns o

variable {s : Surroundings}

mutual

/-- A walk goes one way only. -/
theorem Walk.unique {x : FileTree} {above : List Location} {reference : Option String} {place : Location}
    {turns others : List Turn} {o p : Outcome Ancestry} :
    s.Walk x above reference place turns o → s.Walk x above reference place others p → turns = others ∧ o = p
  | .unloaded failed, .unloaded again => by
    rw [failed] at again
    cases again
    exact ⟨rfl, rfl⟩
  | .unloaded failed, .loaded again _ => by
    rw [failed] at again
    cases again
  | .loaded ok _, .unloaded again => by
    rw [ok] at again
    cases again
  | .loaded ok walk, .loaded again other => by
    rw [ok] at again
    cases again
    obtain ⟨rfl, rfl⟩ := walk.unique other
    exact ⟨rfl, rfl⟩

theorem WalkAll.unique {x : FileTree} {branch : List Location} {referrer : Location} {references : List String}
    {turns others : List Turn} {o p : Outcome (List Ancestry)} :
    s.WalkAll x branch referrer references turns o → s.WalkAll x branch referrer references others p →
      turns = others ∧ o = p
  | .nil, .nil => ⟨rfl, rfl⟩
  | .refused refused, .refused again => by
    rw [refused] at again
    cases again
    exact ⟨rfl, rfl⟩
  | .refused refused, .failed again _ _ => by
    rw [refused] at again
    cases again
  | .refused refused, .next again _ _ _ => by
    rw [refused] at again
    cases again
  | .failed found _ _, .refused again => by
    rw [found] at again
    cases again
  | .failed found walk failed, .failed again other stopped => by
    rw [found] at again
    cases again
    obtain ⟨rfl, rfl⟩ := walk.unique other
    rw [failed] at stopped
    cases stopped
    exact ⟨rfl, rfl⟩
  | .failed found walk failed, .next again other ok _ => by
    rw [found] at again
    cases again
    obtain ⟨rfl, rfl⟩ := walk.unique other
    rw [failed] at ok
    cases ok
  | .next found _ _ _, .refused again => by
    rw [found] at again
    cases again
  | .next found walk ok _, .failed again other stopped => by
    rw [found] at again
    cases again
    obtain ⟨rfl, rfl⟩ := walk.unique other
    rw [ok] at stopped
    cases stopped
  | .next found walk ok rest, .next again other done more => by
    rw [found] at again
    cases again
    obtain ⟨rfl, rfl⟩ := walk.unique other
    rw [ok] at done
    cases done
    obtain ⟨rfl, rfl⟩ := rest.unique more
    exact ⟨rfl, rfl⟩

end

theorem Runs.unique {t : FileTree} {root : Location} {turns others : List Turn} {o p : Outcome Ancestry}
    (run : s.Runs t root turns o) (other : s.Runs t root others p) : turns = others ∧ o = p := by
  cases run with
  | missing none_ =>
    cases other with
    | missing => exact ⟨rfl, rfl⟩
    | found file => exact absurd file (by simp [none_])
  | found file walk =>
    cases other with
    | missing none_ => exact absurd file (by simp [none_])
    | found _ again => exact walk.unique again

/-- The bound of a walk is not spent at a reference. -/
theorem parent_ne_endless {x : FileTree} {branch : List Location} {referrer : Location} {named : String}
    {fault : Fault} (failed : s.parent x branch referrer named = .error fault) (place : Location) :
    fault ≠ .endless place := by
  rcases s.parent_cases x branch referrer named with
    ⟨cause, lost, same⟩ | ⟨found, _, ⟨_, same⟩ | ⟨_, _, same⟩ | ⟨_, _, same⟩⟩ <;>
    rw [same] at failed <;> cases failed
  · obtain ⟨_, _, rfl⟩ := locateReference_eq_error lost
    nofun
  · nofun
  · nofun

mutual

/-- A walk is what a visit gives with as much fuel as the walk has turns, or more. -/
theorem Walk.visit_eq {fuel : Nat} {x : FileTree} {above : List Location} {reference : Option String}
    {place : Location} {turns : List Turn} {o : Outcome Ancestry} :
    s.Walk x above reference place turns o → turns.length ≤ fuel → s.visit fuel x above reference place = o
  | .unloaded failed, room => by
    obtain ⟨less, rfl⟩ := Nat.exists_eq_add_of_le' room
    exact visit_of_load_error failed
  | .loaded loaded walk, room => by
    obtain ⟨less, rfl⟩ := Nat.exists_eq_add_of_le' (Nat.one_le_of_lt room)
    rw [visit_of_load_ok loaded, walk.inTurn_eq (Nat.le_of_succ_le_succ room)]

theorem WalkAll.inTurn_eq {fuel : Nat} {x : FileTree} {branch : List Location} {referrer : Location}
    {references : List String} {turns : List Turn} {o : Outcome (List Ancestry)} :
    s.WalkAll x branch referrer references turns o → turns.length ≤ fuel →
      Outcome.inTurn (s.visitParent fuel branch referrer) x references = o
  | .nil, _ => rfl
  | .refused refused, _ => by
    rw [Outcome.inTurn, visitParent_of_parent_error refused, Outcome.andThen_failed]
  | .failed found walk failed, room => by
    rw [Outcome.inTurn, visitParent_of_parent found, walk.visit_eq room, Outcome.andThen_of_error failed]
  | .next found walk ok rest, room => by
    rw [List.length_append] at room
    rw [Outcome.inTurn, visitParent_of_parent found, walk.visit_eq (by omega), Outcome.andThen_of_ok ok,
      rest.inTurn_eq (by omega)]

end

mutual

/-- A walk has no bound that could be spent. -/
theorem Walk.not_spent {x : FileTree} {above : List Location} {reference : Option String} {place : Location}
    {turns : List Turn} {o : Outcome Ancestry} : s.Walk x above reference place turns o → ¬o.Spent
  | .unloaded failed => by
    rintro ⟨l, spent⟩
    exact (Document.load_eq_error failed).ne_endless (Except.error.inj spent)
  | .loaded _ walk => by
    rw [Outcome.spent_andThen_done]
    exact walk.not_spent

theorem WalkAll.not_spent {x : FileTree} {branch : List Location} {referrer : Location} {references : List String}
    {turns : List Turn} {o : Outcome (List Ancestry)} : s.WalkAll x branch referrer references turns o → ¬o.Spent
  | .nil => by
    rintro ⟨l, spent⟩
    cases spent
  | .refused refused => by
    rintro ⟨l, spent⟩
    exact parent_ne_endless refused l (Except.error.inj spent)
  | .failed _ walk failed => by
    rintro ⟨l, spent⟩
    exact walk.not_spent ⟨l, by rw [failed, Except.error.inj spent]⟩
  | .next _ _ _ rest => by
    rw [Outcome.spent_andThen_done]
    exact rest.not_spent

end

variable {fuel : Nat} {t x : FileTree} {root place referrer : Location} {above branch : List Location}
  {reference : Option String} {references : List String} {turns : List Turn}

/-- Visits of parents in turn are a walk when each of the visits is. -/
theorem exists_walkAll_of_inTurn
    (deeper : ∀ y named target, ¬(s.visit fuel y branch (some named) target).Spent →
      ∃ turns, s.Walk y branch (some named) target turns (s.visit fuel y branch (some named) target))
    (ended : ¬(Outcome.inTurn (s.visitParent fuel branch referrer) x references).Spent) :
    ∃ turns, s.WalkAll x branch referrer references turns
      (Outcome.inTurn (s.visitParent fuel branch referrer) x references) := by
  induction references generalizing x with
  | nil => exact ⟨[], .nil⟩
  | cons named rest ih =>
    rw [Outcome.inTurn] at ended ⊢
    cases found : s.parent x branch referrer named with
    | error fault =>
      rw [visitParent_of_parent_error found, Outcome.andThen_failed]
      exact ⟨[], .refused found⟩
    | ok target =>
      rw [visitParent_of_parent found] at ended ⊢
      obtain ⟨turns, walk⟩ := deeper x named target fun spent => ended (spent.andThen _)
      cases visited : (s.visit fuel x branch (some named) target).result with
      | error fault =>
        rw [Outcome.andThen_of_error visited]
        exact ⟨turns, .failed found walk visited⟩
      | ok a =>
        rw [Outcome.andThen_of_ok visited] at ended ⊢
        obtain ⟨more, later⟩ := ih fun spent => ended (spent.andThen _)
        exact ⟨turns ++ more, .next found walk visited later⟩

/-- A visit that ends before its fuel does is a walk. -/
theorem exists_walk_of_visit (ended : ¬(s.visit fuel x above reference place).Spent) :
    ∃ turns, s.Walk x above reference place turns (s.visit fuel x above reference place) := by
  induction fuel generalizing x above reference place with
  | zero => exact absurd ⟨place, rfl⟩ ended
  | succ fuel ih =>
    cases loaded : (Document.load s.policy s.now x place).result with
    | error fault =>
      rw [visit_of_load_error loaded]
      exact ⟨_, .unloaded loaded⟩
    | ok d =>
      rw [visit_of_load_ok loaded] at ended ⊢
      obtain ⟨turns, walk⟩ := exists_walkAll_of_inTurn (fun y named target => ih) fun spent =>
        ended (spent.andThen _)
      exact ⟨_, .loaded loaded walk⟩

/-- The walks are the visits with enough fuel. -/
theorem exists_walk_iff {o : Outcome Ancestry} :
    (∃ turns, s.Walk x above reference place turns o) ↔
      ¬o.Spent ∧ ∃ fuel, s.visit fuel x above reference place = o := by
  constructor
  · rintro ⟨turns, walk⟩
    exact ⟨walk.not_spent, turns.length, walk.visit_eq (Nat.le_refl _)⟩
  · rintro ⟨ended, fuel, rfl⟩
    exact exists_walk_of_visit ended

/-- An ancestry whose bound is not spent is the outcome of a run. -/
theorem exists_run_of_ancestry (ended : ¬(s.ancestry t root).Spent) :
    ∃ turns, s.Runs t root turns (s.ancestry t root) := by
  unfold ancestry at ended ⊢
  dsimp only at ended ⊢
  split at ended
  · next file =>
    obtain ⟨turns, walk⟩ := exists_walk_of_visit ended
    rw [if_pos file]
    exact ⟨turns, .found file walk⟩
  · next missing =>
    rw [if_neg missing]
    exact ⟨[], .missing (by simpa using missing)⟩

end Surroundings

end LayeredConfig
