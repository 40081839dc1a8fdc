import Contracts.Proofs.Syntax.Expressions
import Contracts.Syntax.Source

/-!
# What the rules of statements give

Every statement is read as a rooted tree, provided that the goals it asks for
are. The recursion of the grammar is tied by a bound on the depth, and by
induction on this bound all goals give rooted trees (`gives_atDepth`). So every
node of a script that was read has a place in its file, and so has the fault of
one that could not be read (`ParsedScript.isEdge_of_read_error`).
-/

namespace Contracts

namespace Rule

open Std.Do Reading Text

set_option mvcgen.warning false

variable [Reading]

@[spec]
theorem gives_checkValueless (kind : VariableKind) (inHead : Bool) {t : Tree}
    (ht : t.Rooted source) : Gives (checkValueless kind inHead t) fun _ => True := by
  unfold checkValueless
  mvcgen
  all_goals grind

/-- A rooted tree whose first child, which is what a declarator declares, is there too. -/
structure Declares (t : Tree) : Prop extends t.Rooted source where
  first : IsEdge source (t.children.headD t).span.lo

attribute [grind →] Declares.toRooted

@[grind .]
theorem declares_node {f : Form} {s : Span} {p : Tree} {cs : List Tree} (hs : IsEdge source s.lo)
    (hp : p.Rooted source) (hcs : ∀ c ∈ cs, c.Placed source) : Declares (.node f s (p :: cs)) :=
  ⟨Tree.rooted_node hs (List.forall_mem_cons.mpr ⟨hp.placed, hcs⟩), hp.start⟩

@[spec]
theorem gives_checkLoopVariables {ds : List Tree} (hds : ∀ d ∈ ds, Declares d) :
    Gives (checkLoopVariables ds) fun _ => True := by
  have hsole : ∀ f s p cs, ds = [.node f s (p :: cs)] → IsEdge source p.span.lo := by
    rintro f s p cs rfl
    exact (hds _ (List.mem_singleton_self _)).first
  unfold checkLoopVariables
  mvcgen
  all_goals grind [→ Declares.first]

@[spec]
theorem gives_variableKind? : Gives variableKind? fun _ => True := by
  unfold variableKind?
  mvcgen
  all_goals grind

@[spec]
theorem gives_jumpStatement (ctx : Context) (isBreak : Bool) :
    Gives (jumpStatement ctx isBreak) (Tree.Rooted source) := by
  unfold jumpStatement
  mvcgen
  all_goals grind

section Goals

variable {self : Self} (hself : ∀ goal ctx, Gives (self goal ctx) (Tree.Rooted source))

include hself

@[spec]
theorem gives_condition (ctx : Context) : Gives (condition self ctx) (Tree.Rooted source) := by
  unfold condition
  mvcgen [hself]
  all_goals grind

@[spec]
theorem gives_labeled (ctx : Context) (text : String) :
    Gives (labeled self ctx text) (Tree.Rooted source) := by
  unfold labeled
  mvcgen [hself]
  all_goals grind

@[spec]
theorem gives_expressionStatement (ctx : Context) :
    Gives (expressionStatement self ctx) (Tree.Rooted source) := by
  unfold expressionStatement
  mvcgen [hself]
  all_goals grind

@[spec]
theorem gives_openStatement (ctx : Context) :
    Gives (openStatement self ctx) (Tree.Rooted source) := by
  unfold openStatement
  mvcgen [hself]
  all_goals grind

@[spec]
theorem gives_branch (ctx : Context) : Gives (branch self ctx) (Tree.Rooted source) := by
  unfold branch
  mvcgen [hself]
  all_goals grind

@[spec]
theorem gives_declarator (ctx : Context) (kind : VariableKind) (inHead : Bool) :
    Gives (declarator self ctx kind inHead) Declares := by
  unfold declarator finishNode finish
  mvcgen [hself]
  all_goals grind

@[spec]
theorem gives_declarators (ctx : Context) (kind : VariableKind) (inHead : Bool) :
    Gives (declarators self ctx kind inHead) fun ts => ∀ t ∈ ts, Declares t := by
  have hmany : ∀ stop item, Gives stop (fun _ => True) → Gives item Declares →
      Gives (many stop item) fun ts => ∀ t ∈ ts, Declares t :=
    fun _ _ => gives_many_of
  unfold declarators
  mvcgen [hself, hmany, -gives_many]
  all_goals grind

@[spec]
theorem gives_endDeclaration (ctx : Context) : Gives (endDeclaration self ctx) fun _ => True := by
  unfold endDeclaration
  mvcgen [hself, -Spec.tryCatch_MonadExcept]
  all_goals grind

@[spec]
theorem gives_variableStatement (ctx : Context) (kind : VariableKind) :
    Gives (variableStatement self ctx kind) (Tree.Rooted source) := by
  unfold variableStatement
  mvcgen [hself]
  all_goals grind

@[spec]
theorem gives_ifStatement (ctx : Context) : Gives (ifStatement self ctx) (Tree.Rooted source) := by
  unfold ifStatement
  mvcgen [hself]
  all_goals grind

@[spec]
theorem gives_forRest (ctx : Context) {start : Nat} {init : Tree} (hstart : IsEdge source start)
    (hinit : init.Placed source) :
    Gives (forRest self ctx start init) (Tree.Rooted source) := by
  unfold forRest
  mvcgen [hself]
  all_goals grind

@[spec]
theorem gives_forEachRest? (ctx : Context) {start : Nat} (isAwait : Bool) {left : Tree}
    (hstart : IsEdge source start) (hleft : left.Placed source) :
    Gives (forEachRest? self ctx start isAwait left) fun o => ∀ t ∈ o, t.Rooted source := by
  unfold forEachRest?
  mvcgen [hself]
  all_goals grind

@[spec]
theorem gives_forStatement (ctx : Context) :
    Gives (forStatement self ctx) (Tree.Rooted source) := by
  unfold forStatement
  mvcgen [hself]
  all_goals grind [→ Tree.rooted_toPattern]

@[spec]
theorem gives_whileStatement (ctx : Context) :
    Gives (whileStatement self ctx) (Tree.Rooted source) := by
  unfold whileStatement
  mvcgen [hself]
  all_goals grind

@[spec]
theorem gives_doWhile (ctx : Context) : Gives (doWhile self ctx) (Tree.Rooted source) := by
  unfold doWhile
  mvcgen [hself]
  all_goals grind

@[spec]
theorem gives_switchCase (ctx : Context) : Gives (switchCase self ctx) (Tree.Rooted source) := by
  unfold switchCase
  mvcgen [hself]
  all_goals grind

@[spec]
theorem gives_switchStatement (ctx : Context) :
    Gives (switchStatement self ctx) (Tree.Rooted source) := by
  unfold switchStatement
  mvcgen [hself]
  all_goals grind

@[spec]
theorem gives_catchClause (ctx : Context) : Gives (catchClause self ctx) (Tree.Rooted source) := by
  unfold catchClause
  mvcgen [hself]
  all_goals grind

@[spec]
theorem gives_tryStatement (ctx : Context) :
    Gives (tryStatement self ctx) (Tree.Rooted source) := by
  unfold tryStatement
  mvcgen [hself]
  all_goals grind

@[spec]
theorem gives_returnStatement (ctx : Context) :
    Gives (returnStatement self ctx) (Tree.Rooted source) := by
  unfold returnStatement
  mvcgen [hself]
  all_goals grind

@[spec]
theorem gives_throwStatement (ctx : Context) :
    Gives (throwStatement self ctx) (Tree.Rooted source) := by
  unfold throwStatement
  mvcgen [hself]
  all_goals grind

@[spec]
theorem gives_withStatement (ctx : Context) :
    Gives (withStatement self ctx) (Tree.Rooted source) := by
  unfold withStatement
  mvcgen [hself]
  all_goals grind

@[spec]
theorem gives_statement (ctx : Context) : Gives (statement self ctx) (Tree.Rooted source) := by
  unfold statement
  mvcgen [hself]
  all_goals grind

theorem gives_ofGoal (goal : Goal) (ctx : Context) :
    Gives (ofGoal self goal ctx) (Tree.Rooted source) := by
  cases goal with
  | statement => exact gives_statement hself ctx
  | expression => exact gives_expression hself ctx
  | assignment => exact gives_assignment hself ctx
  | unary => exact gives_unary hself ctx
  | newTarget => exact gives_chain hself ctx false
  | pattern => exact gives_pattern hself ctx

end Goals

/-- Every goal is read as a rooted tree, however deep goals may be nested. -/
theorem gives_atDepth (n : Nat) (goal : Goal) (ctx : Context) :
    Gives (atDepth n goal ctx) (Tree.Rooted source) := by
  induction n generalizing goal ctx with
  | zero =>
      unfold atDepth
      mvcgen
      all_goals grind
  | succ n ih =>
      rw [atDepth]
      exact gives_ofGoal ih goal ctx

theorem gives_statements (depth : Nat) :
    Gives (statements depth) fun ts => ∀ t ∈ ts, t.Rooted source :=
  gives_directedStatements (gives_atDepth depth) .outermost gives_atEnd

end Rule

namespace ParsedScript

/-- What was read of a script is rooted, and its comments are in place. -/
theorem exists_placed_of_read {cs : List Char} {p : ParsedScript} (h : read cs = .ok p) :
    (∀ t ∈ p.script.body, t.Rooted cs) ∧
      ∃ position, MarksBefore cs position (p.comments.reverse.map Comment.mark) := by
  let _ : Rule.Reading := ⟨cs⟩
  obtain ⟨⟨interpreter, cursor⟩, hstart, h⟩ := exists_of_bind_eq_ok h
  obtain ⟨⟨body, finish⟩, hbody, h⟩ := exists_of_bind_eq_ok h
  obtain ⟨hrooted, hfinish⟩ :=
    (Rule.gives_iff.mp (Rule.gives_statements _) cursor (Cursor.placed_start hstart)).1 _ _ hbody
  dsimp only at h
  split at h
  next => exact absurd h (by simp [throw, throwThe, MonadExceptOf.throw])
  next =>
      obtain rfl := Except.ok.inj h
      refine ⟨hrooted, finish.token.span.lo, ?_⟩
      rw [List.reverse_reverse]
      exact hfinish.comments

/-- Whatever is wrong with a text, it is reported where a character starts, or at the end. -/
theorem isEdge_of_read_error {cs : List Char} {f : Fault} (h : read cs = .error f) :
    Text.IsEdge cs f.span.lo := by
  let _ : Rule.Reading := ⟨cs⟩
  obtain hstart | ⟨⟨interpreter, cursor⟩, hstart, h⟩ := error_or_of_bind_eq_error h
  · exact Cursor.isEdge_of_start_error hstart
  · have hgives := Rule.gives_iff.mp (Rule.gives_statements (4 * cs.length + 16)) cursor
      (Cursor.placed_start hstart)
    obtain hbody | ⟨⟨body, finish⟩, hbody, h⟩ := error_or_of_bind_eq_error h
    · exact hgives.2 f hbody
    · dsimp only at h
      split at h
      next minor hminor =>
          obtain rfl := Except.error.inj h
          exact (hgives.1 _ _ hbody).2.minor _ (List.mem_of_getLast? hminor)
      next => exact absurd h (by simp [pure, Except.pure])

end ParsedScript

namespace Source

/-- All nodes of a script that was read have a place in its file. -/
theorem rooted_of_parse {s : Source} {p : Parsed} (h : s.parse = .ok p) :
    ∀ t ∈ p.script.body, t.Rooted s.text := by
  unfold parse at h
  split at h
  next q hq =>
      obtain rfl := Except.ok.inj h
      exact (ParsedScript.exists_placed_of_read hq).1
  next => exact absurd h (by simp)

/-- The comments of a file that was read stand in it where their spans say, marks included, and
they are listed in the order of the file. -/
theorem comments_of_parse {s : Source} {p : Parsed} (h : s.parse = .ok p) :
    p.source = s ∧ (∀ c ∈ p.comments, c.span.Covers s.text (c.kind.written c.text.toList)) ∧
      p.comments.Pairwise fun a b => a.span.hi ≤ b.span.lo := by
  unfold parse at h
  split at h
  next q hq =>
      obtain rfl := Except.ok.inj h
      obtain ⟨position, hmarks⟩ := (ParsedScript.exists_placed_of_read hq).2
      refine ⟨rfl, fun c hc => ?_, ?_⟩
      · exact hmarks.covers c.mark (List.mem_map_of_mem (List.mem_reverse.mpr hc))
      · have horder := hmarks.order
        rw [List.map_reverse, List.pairwise_reverse, List.pairwise_map] at horder
        exact horder
  next => exact absurd h (by simp)

end Source

end Contracts
