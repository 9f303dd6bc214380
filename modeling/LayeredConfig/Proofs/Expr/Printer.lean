import LayeredConfig.Expr.Deferred
import LayeredConfig.Proofs.Expr.Reader

namespace LayeredConfig

theorem beforeEnding?_append (ending cs : List Char) : beforeEnding? ending (cs ++ ending) = some cs := by
  rw [beforeEnding?, List.reverse_append, afterOpening?_append, Option.map_some, List.reverse_reverse]

namespace Expr

theorem trimBoth_gap (before after : Gap) {body : List Char} (nonempty : body ≠ []) (first : Solid body)
    (last : Solid body.reverse) : trimBoth isBlank (before.val ++ (body ++ after.val)) = body := by
  have blanks : Blanks after.val.reverse := fun c member => after.property c (List.mem_reverse.mp member)
  have front := skipBlank_of_solid (first.append nonempty after.val)
  have back := skipBlank_gap ⟨_, blanks⟩ body.reverse
  rw [trimBoth, ← skipBlank, ← skipBlank, skipBlank_gap, front, List.reverse_append, back, skipBlank_of_solid last,
    List.reverse_reverse]

/-- Nothing but the tag and the blanks around it is taken off, whatever the body is. -/
theorem taggedBody?_tagged {before after : String} (left : Blanks before.toList) (right : Blanks after.toList)
    (body : String) : taggedBody? (before ++ "jit(" ++ body ++ ")" ++ after) = some body := by
  have chars : (before ++ "jit(" ++ body ++ ")" ++ after).toList =
      before.toList ++ ("jit(".toList ++ (body.toList ++ [')']) ++ after.toList) := by
    simp
  have first : Solid ("jit(".toList ++ (body.toList ++ [')'])) :=
    solid_cons (by decide) _
  have last : Solid ("jit(".toList ++ (body.toList ++ [')'])).reverse := by
    rw [← List.append_assoc, List.reverse_append]
    exact solid_cons (by decide) _
  have trimmed := trimBoth_gap ⟨_, left⟩ ⟨_, right⟩ (by simp) first last
  rw [taggedBody?, chars, trimmed, afterOpening?_append]
  simp only [bind, Option.bind, beforeEnding?_append, String.ofList_toList]

theorem quoted_escaped (s : List Char) : Quoted '\'' (s.flatMap escaped) s := by
  induction s with
  | nil => exact .nil
  | cons c s ih =>
    rw [List.flatMap_cons, escaped]
    by_cases quote : c = '\''
    · subst quote
      exact .same (Or.inr (Or.inl rfl)) ih
    by_cases escape : c = '\\'
    · subst escape
      exact .same (Or.inl rfl) ih
    by_cases newline : c = '\n'
    · subst newline
      exact .newline ih
    by_cases tab : c = '\t'
    · subst tab
      exact .tab ih
    simp only [quote, escape, newline, tab, if_false]
    exact .plain quote escape ih

theorem blanks_nil : Blanks [] := by
  intro c member
  cases member

mutual

/-- What is written for an expression is a text that the grammar derives for it. -/
theorem derives_written : ∀ e : Expr, Derives e.written e
  | .text s => by
    have quoted := Derives.text (Or.inl rfl) (quoted_escaped s.toList)
    rw [String.ofList_toList] at quoted
    rwa [written]
  | .call f [] => by
    have call := Derives.nullary (f := f) blanks_nil blanks_nil
    rw [written, writtenArgs]
    rwa [List.append_nil] at call
  | .call f (arg :: rest) => by
    have call := Derives.call (f := f) blanks_nil (derivesArgs_written (arg :: rest) (by simp) blanks_nil)
    rw [written]
    rwa [List.append_nil] at call

theorem derivesArgs_written : ∀ args : List Expr, args ≠ [] → ∀ {before : List Char}, Blanks before →
    DerivesArgs (before ++ writtenArgs args) args
  | [], nonempty, _, _ => absurd rfl nonempty
  | [arg], _, before, blank => by
    have last := DerivesArgs.one blank (derives_written arg) blanks_nil
    rw [writtenArgs]
    rwa [List.append_nil] at last
  | arg :: next :: rest, _, before, blank => by
    have space : Blanks [' '] := by
      intro c member
      rw [List.mem_singleton.mp member]
      decide
    have later := derivesArgs_written (next :: rest) (by simp) space
    have all := DerivesArgs.more blank (derives_written arg) blanks_nil later
    rw [writtenArgs]
    simpa using all

end

theorem denotes_print (e : Expr) : Denotes e.print.toList e := by
  rw [print, String.toList_ofList]
  exact ⟨[], e.written, [], blanks_nil, derives_written e, blanks_nil, by simp⟩

end Expr

/-- Reading undoes printing, and compiling undoes tagging what is printed: the tag
with any blanks around it gives the expression back, bound to the directory, with the
whole text as its source. -/
theorem Deferred.compile_tagged_print (e : Expr) (dir : Location) {before after : String}
    (left : Expr.Blanks before.toList) (right : Expr.Blanks after.toList) :
    Expr.read e.print = .ok e ∧
      Deferred.compile (before ++ "jit(" ++ e.print ++ ")" ++ after) dir =
        .ok (some ⟨before ++ "jit(" ++ e.print ++ ")" ++ after, e, dir⟩) := by
  have read : Expr.read e.print = .ok e := Expr.read_of_denotes (Expr.denotes_print e)
  refine ⟨read, ?_⟩
  rw [compile, Expr.taggedBody?_tagged left right]
  simp only [read, Except.map]

/-- Quotes, backslashes, line ends and parentheses inside texts, a call without
arguments, and blanks of other scripts around the tag. -/
theorem Deferred.compile_tagged_print_nested :
    let e := Expr.call .join [.text "it's (so),\t\"\\\r\n", .call .pick [.text "", .text ")"], .call .join []]
    let source := "\u00a0\njit(join('it\\'s (so),\\t\"\\\\\r\\n', pick('', ')'), join()))\u3000"
    e.print = "join('it\\'s (so),\\t\"\\\\\r\\n', pick('', ')'), join())" ∧ Expr.read e.print = .ok e ∧
      Deferred.compile source ⟨"/d"⟩ = .ok (some ⟨source, e, ⟨"/d"⟩⟩) := by
  intro e source
  have left : Expr.Blanks "\u00a0\n".toList := List.all_eq_true.mp (by decide)
  have right : Expr.Blanks "\u3000".toList := List.all_eq_true.mp (by decide)
  have printed : e.print = "join('it\\'s (so),\\t\"\\\\\r\\n', pick('', ')'), join())" := by decide +kernel
  have tagged : "\u00a0\n" ++ "jit(" ++ e.print ++ ")" ++ "\u3000" = source := by
    rw [printed]
    decide +kernel
  have law := Deferred.compile_tagged_print e ⟨"/d"⟩ left right
  rw [tagged] at law
  exact ⟨printed, law⟩

end LayeredConfig
