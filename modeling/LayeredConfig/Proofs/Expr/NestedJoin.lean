import LayeredConfig.Expr.Evaluation
import LayeredConfig.Proofs.Outcome
import LayeredConfig.Proofs.Value.Equality
import Mathlib.Logic.Relation

namespace LayeredConfig.Expr

/-- A join among the arguments of a join gives place to its own arguments, somewhere in an
expression. -/
inductive Splices : Expr → Expr → Prop
  | join (before inner after : List Expr) :
      Splices (.call .join (before ++ .call .join inner :: after)) (.call .join (before ++ inner ++ after))
  | argument (f : Function) (before after : List Expr) {arg other : Expr} :
      Splices arg other → Splices (.call f (before ++ arg :: after)) (.call f (before ++ other :: after))

/-- What is done to each result may be done to it at once. Without the reasons, it does not matter
which of the two fails first. -/
theorem mapM_bind_mapM {α β γ : Type} (f : α → Option β) (g : β → Option γ) (l : List α) :
    ((l.mapM f).bind fun bs => bs.mapM g) = l.mapM fun a => (f a).bind g := by
  induction l with
  | nil => rfl
  | cons a rest ih =>
    rw [List.mapM_cons, List.mapM_cons, ← ih]
    cases f a with
    | none => rfl
    | some b =>
      cases rest.mapM f with
      | none => cases own : g b <;> simp [own]
      | some bs => simp

section Evaluation

variable (tree : FileTree) (dir : Location)

/-- The value of an expression; none when it has none, for whatever reason. -/
def value? (e : Expr) : Option Value :=
  (evaluate tree dir e).toOption

/-- The text that an expression adds to a join. -/
def textIn? (e : Expr) : Option (List Char) :=
  (value? tree dir e).bind joinText?

/-- The text that expressions make when they are joined. -/
def joined? (args : List Expr) : Option (List Char) :=
  (args.mapM (textIn? tree dir)).map List.flatten

theorem toOption_evaluateAll (args : List Expr) :
    (evaluateAll tree dir args).toOption = args.mapM (value? tree dir) := by
  induction args with
  | nil => rfl
  | cons arg rest ih =>
    rw [List.mapM_cons, ← ih, evaluateAll, value?]
    cases evaluate tree dir arg with
    | error fault => rfl
    | ok v => cases evaluateAll tree dir rest <;> rfl

theorem value?_call (f : Function) (args : List Expr) :
    value? tree dir (.call f args) =
      (args.mapM (value? tree dir)).bind fun values => (apply tree dir f values).toOption := by
  rw [← toOption_evaluateAll, value?, evaluate]
  cases evaluateAll tree dir args <;> rfl

theorem toOption_joinValues (index : Nat) (values : List Value) :
    (joinValues index values).toOption = (values.mapM joinText?).map List.flatten := by
  induction values generalizing index with
  | nil => rfl
  | cons v rest ih =>
    have later := ih (index + 1)
    rw [List.mapM_cons, joinValues]
    cases joinText? v with
    | none => rfl
    | some s =>
      cases joined : joinValues (index + 1) rest <;> cases texts : rest.mapM joinText? <;>
        simp_all [Except.map, Except.toOption]

theorem joined?_eq (args : List Expr) :
    joined? tree dir args =
      (args.mapM (value? tree dir)).bind fun values => (values.mapM joinText?).map List.flatten := by
  have texts : textIn? tree dir = fun arg => (value? tree dir arg).bind joinText? := rfl
  rw [joined?, texts, ← mapM_bind_mapM, Option.map_bind]
  rfl

/-- The number of the argument that a fault names is gone, so a join is what its arguments add. -/
theorem value?_join (args : List Expr) :
    value? tree dir (.call .join args) = (joined? tree dir args).map fun text => .string (String.ofList text) := by
  have texts (values : List Value) : (apply tree dir .join values).toOption =
      ((values.mapM joinText?).map List.flatten).map fun text => .string (String.ofList text) := by
    rw [← toOption_joinValues 0, apply]
    cases joinValues 0 values <;> rfl
  simp only [value?_call, texts, joined?_eq, Option.map_bind]
  rfl

theorem textIn?_join (args : List Expr) : textIn? tree dir (.call .join args) = joined? tree dir args := by
  rw [textIn?, value?_join]
  cases joined? tree dir args with
  | none => rfl
  | some text => simp [joinText?]

theorem joined?_append (front back : List Expr) :
    joined? tree dir (front ++ back) =
      (joined? tree dir front).bind fun text => (joined? tree dir back).map (text ++ ·) := by
  simp only [joined?, List.mapM_append]
  cases front.mapM (textIn? tree dir) with
  | none => rfl
  | some texts => cases back.mapM (textIn? tree dir) <;> simp

theorem joined?_singleton (arg : Expr) : joined? tree dir [arg] = textIn? tree dir arg := by
  rw [joined?, List.mapM_cons]
  cases textIn? tree dir arg <;> simp

variable {tree dir} {e other : Expr}

theorem Splices.value?_eq (spliced : Splices e other) : value? tree dir e = value? tree dir other := by
  induction spliced with
  | join before inner after =>
    rw [value?_join, value?_join, List.append_cons]
    simp only [joined?_append, joined?_singleton, textIn?_join]
  | argument f before after _ ih => simp only [value?_call, List.mapM_append, List.mapM_cons, ih]

theorem value?_eq_of_splices (spliced : Relation.ReflTransGen Splices e other) :
    value? tree dir e = value? tree dir other := by
  induction spliced with
  | refl => rfl
  | tail _ step ih => exact ih.trans step.value?_eq

theorem evaluate_eq_ok_iff_value? {v : Value} : evaluate tree dir e = .ok v ↔ value? tree dir e = some v := by
  unfold value?
  cases evaluate tree dir e <;> simp [Except.toOption]

theorem evaluate_fails_iff_value? : (∃ fault, evaluate tree dir e = .error fault) ↔ value? tree dir e = none := by
  unfold value?
  cases evaluate tree dir e <;> simp [Except.toOption]

end Evaluation

/-- Joins in joins may be taken apart, any of them and anywhere in an expression. It has the
value that it had, and without a value it still has none. -/
theorem evaluate_spliced {e other : Expr} (spliced : Relation.ReflTransGen Splices e other) (tree : FileTree)
    (dir : Location) :
    (∀ v, evaluate tree dir e = .ok v ↔ evaluate tree dir other = .ok v) ∧
      ((∃ fault, evaluate tree dir e = .error fault) ↔ ∃ fault, evaluate tree dir other = .error fault) := by
  have same : value? tree dir e = value? tree dir other := value?_eq_of_splices spliced
  exact ⟨fun v => by rw [evaluate_eq_ok_iff_value?, evaluate_eq_ok_iff_value?, same],
    by rw [evaluate_fails_iff_value?, evaluate_fails_iff_value?, same]⟩

/-- Three joins go, one of them inside the arguments of a pick; the number that is picked is joined
as its text. -/
theorem evaluate_spliced_pick :
    let tree : FileTree := ⟨[(["d"], .directory), (["d", "p.json"], .file (.text "\x7b\"n\": 7\x7d"))], []⟩
    let file (parts : List Expr) : Expr := .call .pick [.call .join (.text "p" :: parts), .text "n"]
    let nested : Expr := .call .join [.text "v", .call .join [file [.call .join [.text ".json"]], .call .join []]]
    let flat : Expr := .call .join [.text "v", file [.text ".json"]]
    Relation.ReflTransGen Splices nested flat ∧ evaluate tree ⟨"/d"⟩ flat = .ok (.string "v7") ∧
      evaluate tree ⟨"/d"⟩ nested = .ok (.string "v7") := by
  intro tree file nested flat
  have value : evaluate tree ⟨"/d"⟩ flat = .ok (.string "v7") := eq_ok_of_toOption (by decide +kernel)
  have outer : Splices nested (.call .join [.text "v", file [.call .join [.text ".json"]], .call .join []]) :=
    .join [.text "v"] [file [.call .join [.text ".json"]], .call .join []] []
  have empty : Splices (.call .join [.text "v", file [.call .join [.text ".json"]], .call .join []])
      (.call .join [.text "v", file [.call .join [.text ".json"]]]) :=
    .join [.text "v", file [.call .join [.text ".json"]]] [] []
  have named : Splices (.call .join [.text "v", file [.call .join [.text ".json"]]]) flat :=
    .argument .join [.text "v"] [] (.argument .pick [] [.text "n"] (.join [.text "p"] [.text ".json"] []))
  have spliced : Relation.ReflTransGen Splices nested flat :=
    ((Relation.ReflTransGen.single outer).tail empty).tail named
  exact ⟨spliced, value, ((evaluate_spliced spliced tree ⟨"/d"⟩).1 _).mpr value⟩

end LayeredConfig.Expr
