import LayeredConfig.Outcome
import Mathlib.Data.List.Forall2

namespace LayeredConfig

theorem eq_ok_of_toOption {ε α : Type} {r : Except ε α} {a : α} (ok : r.toOption = some a) : r = .ok a := by
  cases r with
  | error e => cases ok
  | ok b => rw [Option.some.inj ok]

theorem exists_of_toOption_any {ε α : Type} {r : Except ε α} {p : α → Bool} (any : r.toOption.any p = true) :
    ∃ a, r = .ok a ∧ p a = true := by
  cases r with
  | error e => simp [Except.toOption] at any
  | ok a => exact ⟨a, rfl, by simpa [Except.toOption] using any⟩

/-- The error of a result, if it is one. -/
def error? {ε α : Type} : Except ε α → Option ε
  | .error e => some e
  | .ok _ => none

theorem eq_error_of_error? {ε α : Type} {r : Except ε α} {e : ε} (error : error? r = some e) : r = .error e := by
  cases r with
  | error d => rw [Option.some.inj error]
  | ok a => cases error

section Except

variable {ε δ α β γ : Type} {r : Except ε α}

theorem error?_eq_some_iff {e : ε} : error? r = some e ↔ r = .error e := by
  cases r <;> simp [error?]

theorem error?_eq_none_iff : error? r = none ↔ ∃ a, r = .ok a := by
  cases r <;> simp [error?]

theorem error?_map (r : Except ε α) (f : α → β) : error? (r.map f) = error? r := by
  cases r <;> rfl

/-- Of two results in turn, the first error is that of both. -/
theorem error?_bind_bind (r : Except ε α) (q : Except ε β) (f : α → β → γ) :
    error? (r >>= fun a => q >>= fun b => .ok (f a b)) = (error? r).or (error? q) := by
  cases r <;> cases q <;> rfl

theorem map_eq_ok {f : α → β} {b : β} : r.map f = .ok b ↔ ∃ a, r = .ok a ∧ f a = b := by
  cases r <;> simp [Except.map]

theorem bind_eq_ok {f : α → Except ε β} {b : β} : (r >>= f) = .ok b ↔ ∃ a, r = .ok a ∧ f a = .ok b := by
  cases r <;> simp [bind, Except.bind]

theorem bind_bind_eq_ok {q : Except ε β} {f : α → β → γ} {c : γ} :
    (r >>= fun a => q >>= fun b => .ok (f a b)) = .ok c ↔ ∃ a b, r = .ok a ∧ q = .ok b ∧ c = f a b := by
  simp only [bind_eq_ok, Except.ok.injEq, exists_and_left, eq_comm (a := c)]

theorem map_eq_error {f : α → β} {e : ε} : r.map f = .error e ↔ r = .error e := by
  cases r <;> simp [Except.map]

theorem bind_eq_error {f : α → Except ε β} {e : ε} :
    (r >>= f) = .error e ↔ r = .error e ∨ ∃ a, r = .ok a ∧ f a = .error e := by
  cases r <;> simp [bind, Except.bind]

theorem mapError_eq_ok {f : ε → δ} {a : α} : r.mapError f = .ok a ↔ r = .ok a := by
  cases r <;> simp [Except.mapError]

theorem mapError_eq_error {f : ε → δ} {d : δ} : r.mapError f = .error d ↔ ∃ e, r = .error e ∧ f e = d := by
  cases r <;> simp [Except.mapError]

theorem mem_toOption_elim {f : α → List β} {b : β} : b ∈ r.toOption.elim [] f ↔ ∃ a, r = .ok a ∧ b ∈ f a := by
  cases r <;> simp [Except.toOption]

end Except

namespace Outcome

@[simp] theorem files_done {α : Type} (files : FileTree) (a : α) : (done files a).files = files :=
  rfl

@[simp] theorem result_done {α : Type} (files : FileTree) (a : α) : (done files a).result = .ok a :=
  rfl

@[simp] theorem files_failed {α : Type} (files : FileTree) (fault : Fault) :
    (failed files fault : Outcome α).files = files :=
  rfl

@[simp] theorem result_failed {α : Type} (files : FileTree) (fault : Fault) :
    (failed files fault : Outcome α).result = .error fault :=
  rfl

theorem andThen_of_ok {α β : Type} {o : Outcome α} {a : α} (ok : o.result = .ok a)
    (next : FileTree → α → Outcome β) : o.andThen next = next o.files a := by
  simp [andThen, ok]

theorem andThen_of_error {α β : Type} {o : Outcome α} {fault : Fault} (error : o.result = .error fault)
    (next : FileTree → α → Outcome β) : o.andThen next = failed o.files fault := by
  simp [andThen, error]

@[simp] theorem files_andThen_done {α β : Type} (o : Outcome α) (f : α → β) :
    (o.andThen fun files a => done files (f a)).files = o.files := by
  cases ended : o.result with
  | ok a => rw [andThen_of_ok ended, files_done]
  | error fault => rw [andThen_of_error ended, files_failed]

theorem inTurn_cons {α β : Type} {work : FileTree → α → Outcome β} {files : FileTree} {a : α} {rest : List α}
    {results : List β} (done : (inTurn work files (a :: rest)).result = .ok results) :
    ∃ first later, (work files a).result = .ok first ∧ (inTurn work (work files a).files rest).result = .ok later ∧
      results = first :: later ∧
      (inTurn work files (a :: rest)).files = (inTurn work (work files a).files rest).files := by
  rw [inTurn] at done ⊢
  obtain ⟨first, worked, done⟩ := andThen_result_eq_ok.mp done
  obtain ⟨later, went, made⟩ := andThen_result_eq_ok.mp done
  rw [andThen_of_ok worked, andThen_of_ok went]
  exact ⟨first, later, worked, went, (Except.ok.inj made).symm, rfl⟩

/-- Work in turn keeps what each piece of work keeps of the files. Either all of
it succeeds, or it ends with the fault of one piece. -/
theorem inTurn_cases {α β : Type} {work : FileTree → α → Outcome β} {Keep : FileTree → Prop} {items : List α}
    (keep : ∀ files, Keep files → ∀ a ∈ items, Keep (work files a).files) {files : FileTree} (start : Keep files) :
    Keep (inTurn work files items).files ∧
      ((∃ results, (inTurn work files items).result = .ok results ∧
          List.Forall₂ (fun a b => ∃ before, Keep before ∧ (work before a).result = .ok b) items results) ∨
        ∃ a ∈ items, ∃ before fault, Keep before ∧ (work before a).result = .error fault ∧
          (inTurn work files items).result = .error fault) := by
  induction items generalizing files with
  | nil => exact ⟨start, Or.inl ⟨[], rfl, .nil⟩⟩
  | cons a rest ih =>
    have first := keep files start a List.mem_cons_self
    rw [inTurn]
    cases worked : (work files a).result with
    | error fault =>
      rw [andThen_of_error worked]
      exact ⟨first, Or.inr ⟨a, List.mem_cons_self, files, fault, start, worked, rfl⟩⟩
    | ok b =>
      rw [andThen_of_ok worked]
      obtain ⟨kept, ⟨results, done, each⟩ | ⟨c, member, before, fault, held, failed_, stopped⟩⟩ :=
        ih (fun files held a member => keep files held a (List.mem_cons_of_mem _ member)) first
      · rw [andThen_of_ok done]
        exact ⟨kept, Or.inl ⟨b :: results, rfl, .cons ⟨files, start, worked⟩ each⟩⟩
      · rw [andThen_of_error stopped]
        exact ⟨kept, Or.inr ⟨c, List.mem_cons_of_mem _ member, before, fault, held, failed_, rfl⟩⟩

theorem inTurn_append_of_done {α β : Type} {work : FileTree → α → Outcome β} {files x : FileTree} {before : List α}
    {results : List β} (done_ : inTurn work files before = .done x results) (rest : List α) :
    inTurn work files (before ++ rest) =
      (inTurn work x rest).andThen fun files more => .done files (results ++ more) := by
  induction before generalizing files results with
  | nil =>
    cases done_
    cases later : (inTurn work x rest).result with
    | ok more => rw [andThen_of_ok later, List.nil_append, List.nil_append, done, ← later]
    | error fault => rw [andThen_of_error later, List.nil_append, failed, ← later]
  | cons a before ih =>
    obtain ⟨first, others, worked, ok, rfl, same⟩ := inTurn_cons (congrArg result done_)
    have tail : inTurn work (work files a).files before = .done x others := by
      rw [done_, files_done] at same
      rw [same, done, ← ok]
    rw [List.cons_append, inTurn, andThen_of_ok worked, ih tail]
    cases later : (inTurn work x rest).result with
    | ok more => simp [andThen_of_ok later]
    | error fault => simp [andThen_of_error later]

/-- Work in turn fails with one piece, and all before it succeeds. -/
theorem inTurn_eq_error_iff {α β : Type} {work : FileTree → α → Outcome β} {files : FileTree} {items : List α}
    {fault : Fault} :
    (inTurn work files items).result = .error fault ↔ ∃ before a after x results, items = before ++ a :: after ∧
      inTurn work files before = .done x results ∧ (work x a).result = .error fault := by
  constructor
  · intro stopped
    induction items generalizing files with
    | nil => cases stopped
    | cons a rest ih =>
      rw [inTurn] at stopped
      cases worked : (work files a).result with
      | error cause =>
        rw [andThen_of_error worked] at stopped
        cases stopped
        exact ⟨[], a, rest, files, [], rfl, rfl, worked⟩
      | ok b =>
        rw [andThen_of_ok worked] at stopped
        cases later : (inTurn work (work files a).files rest).result with
        | ok bs =>
          rw [andThen_of_ok later] at stopped
          cases stopped
        | error cause =>
          rw [andThen_of_error later] at stopped
          cases stopped
          obtain ⟨before, c, after, x, results, rfl, done_, failed_⟩ := ih later
          exact ⟨a :: before, c, after, x, b :: results, rfl,
            by rw [inTurn, andThen_of_ok worked, done_]; rfl, failed_⟩
  · rintro ⟨before, a, after, x, results, rfl, done_, failed_⟩
    have last : (inTurn work x (a :: after)).result = .error fault := by
      rw [inTurn, andThen_of_error failed_, result_failed]
    rw [inTurn_append_of_done done_, andThen_of_error last, result_failed]

theorem inTurn_eq_ok {α β : Type} {work : FileTree → α → Outcome β} {files : FileTree} {items : List α}
    {results : List β} (done : (inTurn work files items).result = .ok results) {b : β} (member : b ∈ results) :
    ∃ a ∈ items, ∃ before, (work before a).result = .ok b := by
  induction items generalizing files results with
  | nil =>
    cases done
    cases member
  | cons a rest ih =>
    obtain ⟨first, others, worked, later, rfl, _⟩ := inTurn_cons done
    rcases List.mem_cons.mp member with rfl | inside
    · exact ⟨a, List.mem_cons_self, files, worked⟩
    · obtain ⟨c, known, before, ok⟩ := ih later inside
      exact ⟨c, List.mem_cons_of_mem _ known, before, ok⟩

end Outcome

end LayeredConfig
