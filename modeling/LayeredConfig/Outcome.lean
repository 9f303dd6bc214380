import LayeredConfig.Fault

namespace LayeredConfig

/-- What work on files leaves behind: the files, also when it failed, and its
result. -/
structure Outcome (α : Type) where
  files : FileTree
  result : Except Fault α

namespace Outcome

def done {α : Type} (files : FileTree) (a : α) : Outcome α :=
  ⟨files, .ok a⟩

def failed {α : Type} (files : FileTree) (fault : Fault) : Outcome α :=
  ⟨files, .error fault⟩

/-- Goes on with the files and the result, unless there was a fault. -/
def andThen {α β : Type} (o : Outcome α) (next : FileTree → α → Outcome β) : Outcome β :=
  match o.result with
  | .ok a => next o.files a
  | .error fault => failed o.files fault

/-- Goes on with the result alone; the files stay as they are. -/
def andCheck {α β : Type} (o : Outcome α) (next : α → Except Fault β) : Outcome β :=
  ⟨o.files, o.result.bind next⟩

/-- Work on a list in turn, each on the files the one before left, up to the
first fault. -/
def inTurn {α β : Type} (work : FileTree → α → Outcome β) : FileTree → List α → Outcome (List β)
  | files, [] => .done files []
  | files, a :: rest =>
    (work files a).andThen fun files b =>
      (inTurn work files rest).andThen fun files bs => .done files (b :: bs)

@[simp] theorem andThen_done {α β : Type} (files : FileTree) (a : α) (next : FileTree → α → Outcome β) :
    (done files a).andThen next = next files a :=
  rfl

@[simp] theorem andThen_failed {α β : Type} (files : FileTree) (fault : Fault) (next : FileTree → α → Outcome β) :
    (failed files fault).andThen next = failed files fault :=
  rfl

/-- Two steps in a row succeed when both do. -/
theorem andThen_result_eq_ok {α β : Type} {o : Outcome α} {next : FileTree → α → Outcome β} {b : β} :
    (o.andThen next).result = .ok b ↔ ∃ a, o.result = .ok a ∧ (next o.files a).result = .ok b := by
  obtain ⟨files, result⟩ := o
  cases result with
  | ok a => simp [andThen]
  | error fault => simp [andThen, failed]

end Outcome

end LayeredConfig
