import LayeredConfig.Expr.Grammar

namespace LayeredConfig

theorem Function.exists_name (f : Function) :
    ∃ c rest, f.name.toList = c :: rest ∧ isBlank c = false ∧ c ≠ '\'' ∧ c ≠ '"' ∧ c ≠ ')' := by
  cases f <;> exact ⟨_, _, rfl, by decide, by decide, by decide, by decide⟩

theorem Function.eq_of_name_append {f g : Function} {cs ds : List Char}
    (same : f.name.toList ++ cs = g.name.toList ++ ds) : f = g ∧ cs = ds := by
  cases f <;> cases g <;> simp_all [name]

namespace Expr

/-- Blanks between two tokens. -/
abbrev Gap := { cs : List Char // Blanks cs }

abbrev Quote := { c : Char // c = '\'' ∨ c = '"' }

/-- A character between quotes, as it is written. -/
inductive Mark (quote : Char)
  | plain (c : Char) (apart : c ≠ quote) (bare : c ≠ '\\')
  | same (c : Char) (known : c = '\\' ∨ c = '\'' ∨ c = '"')
  | newline
  | tab

namespace Mark

variable {quote : Char}

def chars : Mark quote → List Char
  | plain c _ _ => [c]
  | same c _ => ['\\', c]
  | newline => ['\\', 'n']
  | tab => ['\\', 't']

def value : Mark quote → Char
  | plain c _ _ => c
  | same c _ => c
  | newline => '\n'
  | tab => '\t'

end Mark

mutual

/-- A derivation of an expression: the rule used at each place, with the blanks,
quotes and escapes as they are written. -/
inductive Derivation
  | text (quote : Quote) (body : List (Mark quote.val))
  | nullary (f : Function) (before inside : Gap)
  | call (f : Function) (before : Gap) (args : ArgsDerivation)

inductive ArgsDerivation
  | one (before : Gap) (arg : Derivation) (after : Gap)
  | more (before : Gap) (arg : Derivation) (after : Gap) (rest : ArgsDerivation)

end

mutual

/-- The text that is derived. -/
def Derivation.chars : Derivation → List Char
  | .text quote body => quote.val :: body.flatMap Mark.chars ++ [quote.val]
  | .nullary f before inside => f.name.toList ++ before.val ++ '(' :: inside.val ++ [')']
  | .call f before args => f.name.toList ++ before.val ++ '(' :: args.chars ++ [')']

def ArgsDerivation.chars : ArgsDerivation → List Char
  | .one before arg after => before.val ++ arg.chars ++ after.val
  | .more before arg after rest => before.val ++ arg.chars ++ after.val ++ ',' :: rest.chars

end

mutual

/-- The expression that is derived. -/
def Derivation.expr : Derivation → Expr
  | .text _ body => .text (String.ofList (body.map Mark.value))
  | .nullary f _ _ => .call f []
  | .call f _ args => .call f args.exprs

def ArgsDerivation.exprs : ArgsDerivation → List Expr
  | .one _ arg _ => [arg.expr]
  | .more _ arg _ rest => arg.expr :: rest.exprs

end

/-- A derivation of a whole text, which may have blanks around its expression. -/
structure Sentence where
  before : Gap
  body : Derivation
  after : Gap

namespace Sentence

def chars (s : Sentence) : List Char :=
  s.before.val ++ s.body.chars ++ s.after.val

def expr (s : Sentence) : Expr :=
  s.body.expr

end Sentence

theorem quoted_iff {quote : Char} {cs s : List Char} :
    Quoted quote cs s ↔ ∃ body : List (Mark quote), body.flatMap Mark.chars = cs ∧ body.map Mark.value = s := by
  constructor
  · intro quoted
    induction quoted with
    | nil => exact ⟨[], rfl, rfl⟩
    | @plain c cs s apart bare _ ih =>
      obtain ⟨body, rfl, rfl⟩ := ih
      exact ⟨.plain c apart bare :: body, rfl, rfl⟩
    | @same c cs s known _ ih =>
      obtain ⟨body, rfl, rfl⟩ := ih
      exact ⟨.same c known :: body, rfl, rfl⟩
    | newline _ ih =>
      obtain ⟨body, rfl, rfl⟩ := ih
      exact ⟨.newline :: body, rfl, rfl⟩
    | tab _ ih =>
      obtain ⟨body, rfl, rfl⟩ := ih
      exact ⟨.tab :: body, rfl, rfl⟩
  · rintro ⟨body, rfl, rfl⟩
    induction body with
    | nil => exact .nil
    | cons mark body ih =>
      cases mark with
      | plain c apart bare => exact .plain apart bare ih
      | same c known => exact .same known ih
      | newline => exact .newline ih
      | tab => exact .tab ih

mutual

theorem Derivation.derives : ∀ d : Derivation, Derives d.chars d.expr
  | .text quote body => by
    rw [Derivation.chars, Derivation.expr]
    exact .text quote.property (quoted_iff.mpr ⟨body, rfl, rfl⟩)
  | .nullary f before inside => by
    rw [Derivation.chars, Derivation.expr]
    exact .nullary before.property inside.property
  | .call f before args => by
    rw [Derivation.chars, Derivation.expr]
    exact .call before.property args.derives

theorem ArgsDerivation.derives : ∀ args : ArgsDerivation, DerivesArgs args.chars args.exprs
  | .one before arg after => by
    rw [ArgsDerivation.chars, ArgsDerivation.exprs]
    exact .one before.property arg.derives after.property
  | .more before arg after rest => by
    rw [ArgsDerivation.chars, ArgsDerivation.exprs]
    exact .more before.property arg.derives after.property rest.derives

end

mutual

theorem Derives.exists_derivation {cs : List Char} {e : Expr} :
    Derives cs e → ∃ d : Derivation, d.chars = cs ∧ d.expr = e
  | .text mark quoted => by
    obtain ⟨body, rfl, rfl⟩ := quoted_iff.mp quoted
    exact ⟨.text ⟨_, mark⟩ body, by rw [Derivation.chars], by rw [Derivation.expr]⟩
  | .nullary before inside =>
    ⟨.nullary _ ⟨_, before⟩ ⟨_, inside⟩, by rw [Derivation.chars], by rw [Derivation.expr]⟩
  | .call before args => by
    obtain ⟨a, rfl, rfl⟩ := args.exists_derivation
    exact ⟨.call _ ⟨_, before⟩ a, by rw [Derivation.chars], by rw [Derivation.expr]⟩

theorem DerivesArgs.exists_derivation {cs : List Char} {es : List Expr} :
    DerivesArgs cs es → ∃ a : ArgsDerivation, a.chars = cs ∧ a.exprs = es
  | .one before body after => by
    obtain ⟨d, rfl, rfl⟩ := body.exists_derivation
    exact ⟨.one ⟨_, before⟩ d ⟨_, after⟩, by rw [ArgsDerivation.chars], by rw [ArgsDerivation.exprs]⟩
  | .more before body after rest => by
    obtain ⟨d, rfl, rfl⟩ := body.exists_derivation
    obtain ⟨a, rfl, rfl⟩ := rest.exists_derivation
    exact ⟨.more ⟨_, before⟩ d ⟨_, after⟩ a, by rw [ArgsDerivation.chars], by rw [ArgsDerivation.exprs]⟩

end

/-- The derivations of a text are those of the grammar. -/
theorem denotes_iff {cs : List Char} {e : Expr} : Denotes cs e ↔ ∃ s : Sentence, s.chars = cs ∧ s.expr = e := by
  constructor
  · rintro ⟨before, body, after, blankBefore, derived, blankAfter, rfl⟩
    obtain ⟨d, rfl, rfl⟩ := derived.exists_derivation
    exact ⟨⟨⟨before, blankBefore⟩, d, ⟨after, blankAfter⟩⟩, rfl, rfl⟩
  · rintro ⟨s, rfl, rfl⟩
    exact ⟨_, _, _, s.before.property, s.body.derives, s.after.property, rfl⟩

/-- A text that opens with no blank. -/
def Solid (cs : List Char) : Prop :=
  ∀ c ∈ cs.head?, isBlank c = false

theorem solid_cons {c : Char} (plain : isBlank c = false) (rest : List Char) : Solid (c :: rest) := by
  intro d member
  rw [List.head?_cons, Option.mem_some_iff] at member
  exact member ▸ plain

theorem Solid.append {cs : List Char} (solid : Solid cs) (nonempty : cs ≠ []) (rest : List Char) :
    Solid (cs ++ rest) := by
  cases cs with
  | nil => exact absurd rfl nonempty
  | cons c cs => exact solid_cons (solid c rfl) (cs ++ rest)

theorem skipBlank_of_solid {cs : List Char} (solid : Solid cs) : skipBlank cs = cs := by
  cases cs with
  | nil => rfl
  | cons c rest => exact List.dropWhile_cons_of_neg (by simp [solid c rfl])

theorem skipBlank_gap (w : Gap) (cs : List Char) : skipBlank (w.val ++ cs) = skipBlank cs :=
  List.dropWhile_append_of_pos w.property

/-- Blanks in front of a text end where the text begins. -/
theorem Gap.eq_of_append {w v : Gap} {cs ds : List Char} (left : Solid cs) (right : Solid ds)
    (same : w.val ++ cs = v.val ++ ds) : w = v ∧ cs = ds := by
  have rest : cs = ds := by
    have skipped := congrArg skipBlank same
    rwa [skipBlank_gap, skipBlank_gap, skipBlank_of_solid left, skipBlank_of_solid right] at skipped
  subst rest
  exact ⟨Subtype.ext (List.append_cancel_right same), rfl⟩

theorem Mark.exists_chars {quote : Char} (escape : quote ≠ '\\') (mark : Mark quote) :
    ∃ c rest, mark.chars = c :: rest ∧ c ≠ quote := by
  cases mark with
  | plain c apart bare => exact ⟨c, [], rfl, apart⟩
  | same c known => exact ⟨_, _, rfl, escape.symm⟩
  | newline => exact ⟨_, _, rfl, escape.symm⟩
  | tab => exact ⟨_, _, rfl, escape.symm⟩

theorem Mark.eq_of_chars_append {quote : Char} {mark other : Mark quote} {cs ds : List Char}
    (same : mark.chars ++ cs = other.chars ++ ds) : mark = other ∧ cs = ds := by
  cases mark <;> cases other <;> grind [chars]

/-- A quoted text ends at the first quote that no backslash precedes. -/
theorem Mark.eq_of_append {quote : Char} (escape : quote ≠ '\\') {body other : List (Mark quote)}
    {cs ds : List Char} (same : body.flatMap chars ++ quote :: cs = other.flatMap chars ++ quote :: ds) :
    body = other ∧ cs = ds := by
  induction body generalizing other with
  | nil =>
    cases other with
    | nil => exact ⟨rfl, by simpa using same⟩
    | cons mark other =>
      obtain ⟨c, rest, opens, apart⟩ := mark.exists_chars escape
      rw [List.flatMap_cons, opens] at same
      exact absurd (List.cons.inj same).1.symm apart
  | cons mark body ih =>
    cases other with
    | nil =>
      obtain ⟨c, rest, opens, apart⟩ := mark.exists_chars escape
      rw [List.flatMap_cons, opens] at same
      exact absurd (List.cons.inj same).1 apart
    | cons next other =>
      rw [List.flatMap_cons, List.flatMap_cons, List.append_assoc, List.append_assoc] at same
      obtain ⟨rfl, later⟩ := eq_of_chars_append same
      obtain ⟨rfl, rest⟩ := ih later
      exact ⟨rfl, rest⟩

theorem Quote.ne_escape (quote : Quote) : quote.val ≠ '\\' := by
  rcases quote.property with mark | mark <;> rw [mark] <;> decide

theorem Quote.isBlank_val (quote : Quote) : isBlank quote.val = false := by
  rcases quote.property with mark | mark <;> rw [mark] <;> decide

theorem Derivation.exists_chars (d : Derivation) :
    ∃ c rest, d.chars = c :: rest ∧ isBlank c = false ∧ c ≠ ')' := by
  cases d with
  | text quote body =>
    refine ⟨quote.val, _, by rw [chars, List.cons_append], quote.isBlank_val, ?_⟩
    rcases quote.property with mark | mark <;> rw [mark] <;> decide
  | nullary f before inside =>
    obtain ⟨c, rest, name, solid, _, _, apart⟩ := f.exists_name
    exact ⟨c, _, by simp only [chars, name, List.cons_append]; rfl, solid, apart⟩
  | call f before args =>
    obtain ⟨c, rest, name, solid, _, _, apart⟩ := f.exists_name
    exact ⟨c, _, by simp only [chars, name, List.cons_append]; rfl, solid, apart⟩

theorem Derivation.solid_append (d : Derivation) (cs : List Char) : Solid (d.chars ++ cs) := by
  obtain ⟨c, rest, opens, solid, _⟩ := d.exists_chars
  rw [opens, List.cons_append]
  exact solid_cons solid (rest ++ cs)

theorem Quote.ne_name (quote : Quote) (f : Function) (cs ds : List Char) :
    quote.val :: cs ≠ f.name.toList ++ ds := by
  intro same
  obtain ⟨c, rest, name, _, single, double, _⟩ := f.exists_name
  rw [name, List.cons_append] at same
  have head := (List.cons.inj same).1
  rcases quote.property with mark | mark
  · exact single (head.symm.trans mark)
  · exact double (head.symm.trans mark)

/-- An argument is no closing parenthesis. -/
theorem ArgsDerivation.ne_closing (args : ArgsDerivation) (inside : Gap) (cs ds : List Char) :
    inside.val ++ ')' :: cs ≠ args.chars ++ ds := by
  have opened (before : Gap) (arg : Derivation) (es : List Char) :
      inside.val ++ ')' :: cs ≠ before.val ++ (arg.chars ++ es) := by
    intro same
    obtain ⟨c, rest, opens, _, apart⟩ := arg.exists_chars
    have tail := (Gap.eq_of_append (solid_cons (by decide) cs) (arg.solid_append es) same).2
    rw [opens, List.cons_append] at tail
    exact apart (List.cons.inj tail).1.symm
  cases args with
  | one before arg after => simpa [chars] using opened before arg (after.val ++ ds)
  | more before arg after rest => simpa [chars] using opened before arg (after.val ++ ',' :: (rest.chars ++ ds))

/-- The name of a call ends where its blanks begin, and these where its arguments do. -/
theorem eq_of_call_append {f g : Function} {before first : Gap} {cs ds : List Char}
    (same : f.name.toList ++ (before.val ++ '(' :: cs) = g.name.toList ++ (first.val ++ '(' :: ds)) :
    f = g ∧ before = first ∧ cs = ds := by
  obtain ⟨name, tail⟩ := Function.eq_of_name_append same
  obtain ⟨gap, inside⟩ := Gap.eq_of_append (solid_cons (by decide) cs) (solid_cons (by decide) ds) tail
  exact ⟨name, gap, (List.cons.inj inside).2⟩

/-- The blanks around an argument end where it begins and where what follows begins. -/
theorem eq_of_argument_append {before start after stop : Gap} {arg first : Derivation}
    (unique : ∀ {cs ds : List Char}, arg.chars ++ cs = first.chars ++ ds → arg = first ∧ cs = ds)
    {cs ds : List Char} (left : Solid cs) (right : Solid ds)
    (same : before.val ++ (arg.chars ++ (after.val ++ cs)) = start.val ++ (first.chars ++ (stop.val ++ ds))) :
    before = start ∧ arg = first ∧ after = stop ∧ cs = ds := by
  obtain ⟨lead, tail⟩ := Gap.eq_of_append (arg.solid_append _) (first.solid_append _) same
  obtain ⟨body, ending⟩ := unique tail
  obtain ⟨trail, rest⟩ := Gap.eq_of_append left right ending
  exact ⟨lead, body, trail, rest⟩

mutual

/-- A derived text ends where it does whatever follows, and there is one way only to
derive it. -/
theorem Derivation.eq_of_append : ∀ (d e : Derivation) {cs ds : List Char},
    d.chars ++ cs = e.chars ++ ds → d = e ∧ cs = ds
  | .text quote body, e, cs, ds, same => by
    cases e with
    | text other marks =>
      simp only [Derivation.chars, List.cons_append, List.append_assoc, List.cons.injEq, List.nil_append] at same
      obtain rfl : quote = other := Subtype.ext same.1
      obtain ⟨rfl, rest⟩ := Mark.eq_of_append quote.ne_escape same.2
      exact ⟨rfl, rest⟩
    | nullary f before inside =>
      simp only [Derivation.chars, List.append_assoc, List.cons_append] at same
      exact absurd same (quote.ne_name f _ _)
    | call f before args =>
      simp only [Derivation.chars, List.append_assoc, List.cons_append] at same
      exact absurd same (quote.ne_name f _ _)
  | .nullary f before inside, e, cs, ds, same => by
    cases e with
    | text quote body =>
      simp only [Derivation.chars, List.append_assoc, List.cons_append] at same
      exact absurd same.symm (quote.ne_name f _ _)
    | nullary g first within =>
      simp only [Derivation.chars, List.append_assoc, List.cons_append, List.nil_append] at same
      obtain ⟨rfl, rfl, tail⟩ := eq_of_call_append same
      obtain ⟨rfl, rest⟩ := Gap.eq_of_append (solid_cons (by decide) cs) (solid_cons (by decide) ds) tail
      exact ⟨rfl, (List.cons.inj rest).2⟩
    | call g first args =>
      -- behind the opening one text has a parenthesis and the other an argument
      simp only [Derivation.chars, List.append_assoc, List.cons_append, List.nil_append] at same
      exact absurd (eq_of_call_append same).2.2 (args.ne_closing inside cs _)
  | .call f before args, e, cs, ds, same => by
    cases e with
    | text quote body =>
      simp only [Derivation.chars, List.append_assoc, List.cons_append] at same
      exact absurd same.symm (quote.ne_name f _ _)
    | nullary g first within =>
      simp only [Derivation.chars, List.append_assoc, List.cons_append, List.nil_append] at same
      exact absurd (eq_of_call_append same).2.2.symm (args.ne_closing within ds _)
    | call g first others =>
      simp only [Derivation.chars, List.append_assoc, List.cons_append, List.nil_append] at same
      obtain ⟨rfl, rfl, tail⟩ := eq_of_call_append same
      obtain ⟨rfl, rest⟩ := ArgsDerivation.eq_of_append args others tail
      exact ⟨rfl, rest⟩

theorem ArgsDerivation.eq_of_append : ∀ (args others : ArgsDerivation) {cs ds : List Char},
    args.chars ++ ')' :: cs = others.chars ++ ')' :: ds → args = others ∧ cs = ds
  | .one before arg after, others, cs, ds, same => by
    cases others with
    | one start first stop =>
      simp only [ArgsDerivation.chars, List.append_assoc] at same
      obtain ⟨rfl, rfl, rfl, closing⟩ := eq_of_argument_append (arg.eq_of_append first)
        (solid_cons (by decide) _) (solid_cons (by decide) _) same
      exact ⟨rfl, (List.cons.inj closing).2⟩
    | more start first stop rest =>
      simp only [ArgsDerivation.chars, List.append_assoc, List.cons_append] at same
      obtain ⟨_, _, _, closing⟩ := eq_of_argument_append (arg.eq_of_append first)
        (solid_cons (by decide) _) (solid_cons (by decide) _) same
      exact absurd (List.cons.inj closing).1 (by decide)
  | .more before arg after rest, others, cs, ds, same => by
    cases others with
    | one start first stop =>
      simp only [ArgsDerivation.chars, List.append_assoc, List.cons_append] at same
      obtain ⟨_, _, _, closing⟩ := eq_of_argument_append (arg.eq_of_append first)
        (solid_cons (by decide) _) (solid_cons (by decide) _) same
      exact absurd (List.cons.inj closing).1 (by decide)
    | more start first stop later =>
      simp only [ArgsDerivation.chars, List.append_assoc, List.cons_append] at same
      obtain ⟨rfl, rfl, rfl, next⟩ := eq_of_argument_append (arg.eq_of_append first)
        (solid_cons (by decide) _) (solid_cons (by decide) _) same
      obtain ⟨rfl, closing⟩ := rest.eq_of_append later (List.cons.inj next).2
      exact ⟨rfl, closing⟩

end

/-- The grammar is unambiguous. -/
theorem Sentence.chars_injective : Function.Injective Sentence.chars := by
  rintro ⟨before, body, after⟩ ⟨start, other, stop⟩ same
  simp only [chars, List.append_assoc] at same
  obtain ⟨rfl, tail⟩ := Gap.eq_of_append (body.solid_append _) (other.solid_append _) same
  obtain ⟨rfl, ending⟩ := body.eq_of_append other tail
  rw [Subtype.ext ending]

end Expr

end LayeredConfig
