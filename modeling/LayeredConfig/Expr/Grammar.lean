import LayeredConfig.Expr.Basic
import LayeredConfig.Text.Blank

namespace LayeredConfig.Expr

/-- The text between two quotes stands for the given characters: everything
but the quote and the backslash for itself, and five escapes. -/
inductive Quoted (quote : Char) : List Char → List Char → Prop
  | nil : Quoted quote [] []
  | plain {c : Char} {cs s : List Char} :
      c ≠ quote → c ≠ '\\' → Quoted quote cs s → Quoted quote (c :: cs) (c :: s)
  | same {c : Char} {cs s : List Char} :
      c = '\\' ∨ c = '\'' ∨ c = '"' → Quoted quote cs s → Quoted quote ('\\' :: c :: cs) (c :: s)
  | newline {cs s : List Char} : Quoted quote cs s → Quoted quote ('\\' :: 'n' :: cs) ('\n' :: s)
  | tab {cs s : List Char} : Quoted quote cs s → Quoted quote ('\\' :: 't' :: cs) ('\t' :: s)

/-- A text of blanks only. -/
def Blanks (cs : List Char) : Prop :=
  ∀ c ∈ cs, isBlank c = true

mutual

/-- The text, without blanks around it, is the expression by the grammar: a
quoted text, or a name with arguments in parentheses. -/
inductive Derives : List Char → Expr → Prop
  | text {quote : Char} {body s : List Char} :
      quote = '\'' ∨ quote = '"' → Quoted quote body s →
      Derives (quote :: body ++ [quote]) (.text (String.ofList s))
  | nullary {f : Function} {before inside : List Char} :
      Blanks before → Blanks inside →
      Derives (f.name.toList ++ before ++ '(' :: inside ++ [')']) (.call f [])
  | call {f : Function} {before inside : List Char} {args : List Expr} :
      Blanks before → DerivesArgs inside args →
      Derives (f.name.toList ++ before ++ '(' :: inside ++ [')']) (.call f args)

/-- One argument or more, with blanks around each and commas between. -/
inductive DerivesArgs : List Char → List Expr → Prop
  | one {before body after : List Char} {e : Expr} :
      Blanks before → Derives body e → Blanks after → DerivesArgs (before ++ body ++ after) [e]
  | more {before body after rest : List Char} {e : Expr} {es : List Expr} :
      Blanks before → Derives body e → Blanks after → DerivesArgs rest es →
      DerivesArgs (before ++ body ++ after ++ ',' :: rest) (e :: es)

end

/-- A whole text is an expression with blanks around it. -/
def Denotes (cs : List Char) (e : Expr) : Prop :=
  ∃ before body after, Blanks before ∧ Derives body e ∧ Blanks after ∧ cs = before ++ body ++ after

end LayeredConfig.Expr
