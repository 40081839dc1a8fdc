import Contracts.Proofs.Syntax.Cursor
import Contracts.Syntax.Grammar.Functions

/-!
# What the rules of functions and classes give

Blocks, names, keys, patterns, functions, and the members of objects and classes
are rooted trees, provided that the goals they ask for are.
-/

namespace Contracts.Rule

open Std.Do Reading Text

set_option mvcgen.warning false

variable [Reading]

@[spec]
theorem gives_expect (text : String) : Gives (expect text) fun _ => True := by
  unfold expect
  mvcgen
  all_goals grind

@[spec]
theorem gives_expectWord (text : String) : Gives (expectWord text) fun _ => True := by
  unfold expectWord
  mvcgen
  all_goals grind

@[spec]
theorem gives_mayEnd : Gives mayEnd fun _ => True := by
  unfold mayEnd
  mvcgen
  all_goals grind

@[spec]
theorem gives_endStatement (cause : TokenKind → Cause) :
    Gives (endStatement cause) fun _ => True := by
  unfold endStatement
  mvcgen
  all_goals grind

@[spec]
theorem gives_expectSemicolon : Gives expectSemicolon fun _ => True :=
  gives_endStatement _

theorem gives_commaList_of {close : String} {endsHard : Bool} {item : Rule Tree} {P : Tree → Prop}
    (hitem : Gives item P) : Gives (commaList close endsHard item) fun ts => ∀ t ∈ ts, P t := by
  unfold commaList
  refine gives_many_of (gives_isAt close) ?_
  mvcgen [hitem]
  all_goals grind

@[spec]
theorem gives_commaList {close : String} {endsHard : Bool} {item : Rule Tree}
    (hitem : Gives item (Tree.Placed source)) :
    Gives (commaList close endsHard item) fun ts => ∀ t ∈ ts, t.Placed source :=
  gives_commaList_of hitem

@[spec]
theorem gives_closeBody : Gives closeBody fun _ => True := by
  unfold closeBody
  mvcgen
  all_goals grind

@[spec]
theorem gives_checkName (ctx : Context) (text : String) {span : Span}
    (hspan : IsEdge source span.lo) : Gives (checkName ctx text span) fun _ => True := by
  unfold checkName
  mvcgen
  all_goals grind

@[spec]
theorem gives_checkBinding (ctx : Context) (text : String) {span : Span}
    (hspan : IsEdge source span.lo) : Gives (checkBinding ctx text span) fun _ => True := by
  unfold checkBinding
  mvcgen
  all_goals grind

@[spec]
theorem gives_checkNumber (ctx : Context) (text : String) {span : Span}
    (hspan : IsEdge source span.lo) : Gives (checkNumber ctx text span) fun _ => True := by
  unfold checkNumber
  mvcgen
  all_goals grind

@[spec]
theorem gives_checkText (ctx : Context) (text : String) {span : Span}
    (hspan : IsEdge source span.lo) : Gives (checkText ctx text span) fun _ => True := by
  unfold checkText
  mvcgen
  all_goals grind

@[spec]
theorem gives_name {check : String → Span → Rule Unit}
    (hcheck : ∀ text span, IsEdge source span.lo → Gives (check text span) fun _ => True) :
    Gives (name check) (Tree.Rooted source) := by
  unfold name
  mvcgen [hcheck]
  all_goals grind

@[spec]
theorem gives_anyName : Gives anyName (Tree.Rooted source) := by
  unfold anyName
  mvcgen
  all_goals grind

@[spec]
theorem gives_takeModifier? (text : String) (sameLine : Bool) :
    Gives (takeModifier? text sameLine) fun _ => True := by
  unfold takeModifier?
  mvcgen
  all_goals grind

@[spec]
theorem gives_methodHead : Gives methodHead fun _ => True := by
  unfold methodHead
  mvcgen
  all_goals grind

section Goals

variable {self : Self} (hself : ∀ goal ctx, Gives (self goal ctx) (Tree.Rooted source))

include hself

@[spec]
theorem gives_block (ctx : Context) (isStatement : Bool) :
    Gives (block self ctx isStatement) (Tree.Rooted source) := by
  unfold block
  mvcgen [hself]
  all_goals grind

@[spec]
theorem gives_directedStatements (ctx : Context) {stop : Rule Bool}
    (hstop : Gives stop fun _ => True) :
    Gives (directedStatements self ctx stop) fun ts => ∀ t ∈ ts, t.Rooted source := by
  have hothers : ∀ ctx, Gives (many stop (self .statement ctx)) fun ts => ∀ t ∈ ts,
      t.Rooted source :=
    fun ctx => gives_many_of hstop (hself .statement ctx)
  unfold directedStatements
  mvcgen [hself, hstop, hothers, -gives_many]
  all_goals grind

@[spec]
theorem gives_functionBody (ctx : Context) (hasNamesOnly : Bool) :
    Gives (functionBody self ctx hasNamesOnly) (Tree.Rooted source) := by
  unfold functionBody
  mvcgen [hself]
  all_goals grind

@[spec]
theorem gives_computedKey (ctx : Context) : Gives (computedKey self ctx) (Tree.Rooted source) := by
  unfold computedKey
  mvcgen [hself]
  all_goals grind

@[spec]
theorem gives_propertyKey (ctx : Context) : Gives (propertyKey self ctx) (Tree.Rooted source) := by
  unfold propertyKey
  mvcgen [hself]
  all_goals grind

@[spec]
theorem gives_patternElement (ctx : Context) :
    Gives (patternElement self ctx) (Tree.Rooted source) := by
  unfold patternElement
  mvcgen [hself]
  all_goals grind

@[spec]
theorem gives_restPattern (ctx : Context) (form : Form) :
    Gives (restPattern self ctx form) (Tree.Rooted source) := by
  unfold restPattern
  mvcgen [hself]
  all_goals grind

/-- An element of an array pattern can be missing. -/
@[spec]
theorem gives_arrayPatternElement (ctx : Context) :
    Gives (arrayPatternElement self ctx) (Tree.Placed source) := by
  unfold arrayPatternElement
  mvcgen [hself]
  all_goals grind

@[spec]
theorem gives_objectPatternElement (ctx : Context) :
    Gives (objectPatternElement self ctx) (Tree.Rooted source) := by
  unfold objectPatternElement
  mvcgen [hself]
  all_goals grind

@[spec]
theorem gives_pattern (ctx : Context) : Gives (pattern self ctx) (Tree.Rooted source) := by
  unfold pattern
  mvcgen [hself]
  all_goals grind

@[spec]
theorem gives_parameters (ctx : Context) (isSetter : Bool) :
    Gives (parameters self ctx isSetter) (Tree.Rooted source) := by
  unfold parameters
  mvcgen [hself]
  all_goals grind

@[spec]
theorem gives_functionRest (ctx : Context) (m : Modifiers) (isSetter : Bool) :
    Gives (functionRest self ctx m isSetter) fun ts => ∀ t ∈ ts, t.Placed source := by
  unfold functionRest
  mvcgen [hself]
  all_goals grind

/-- A function starts where its first word does, which may be taken before. -/
@[spec]
theorem gives_functionNode (ctx : Context) {start : Nat} (hstart : IsEdge source start)
    (isAsync isDeclaration : Bool) :
    Gives (functionNode self ctx start isAsync isDeclaration) (Tree.Rooted source) := by
  unfold functionNode
  mvcgen [hself]
  all_goals grind

@[spec]
theorem gives_objectMember (ctx : Context) :
    Gives (objectMember self ctx) (Tree.Rooted source) := by
  unfold objectMember
  mvcgen [hself]
  all_goals grind

/-- A semicolon between the members of a class is no tree. -/
@[spec]
theorem gives_classMember (ctx : Context) : Gives (classMember self ctx) (Tree.Placed source) := by
  unfold classMember
  mvcgen [hself]
  all_goals grind

@[spec]
theorem gives_classBody (ctx : Context) : Gives (classBody self ctx) (Tree.Rooted source) := by
  unfold classBody
  mvcgen [hself]
  all_goals grind

end Goals

end Contracts.Rule
