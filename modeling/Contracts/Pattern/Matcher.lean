import Contracts.Pattern.Bindings
import Contracts.Pattern.Error

/-!
# Matchers

A matcher says whether a node matches and what it binds. A factory makes a matcher from the matchers
of its arguments. This file holds the factories that patterns can name:

* `var` for a declarator, with its name and its initializer;
* `return` for a return statement, with its value;
* `ident` for anything that has a name;
* `expr` for an expression statement;
* `call` for a call, with the function and the arguments;
* `function` for a function declaration, with its name;
* `var!` for a declaration of variables, with exactly one pattern for each declarator;
* `fn-expr` for a function expression, parenthesized or not.
-/

namespace Contracts

abbrev Matcher := Node → Option Bindings

abbrev Factory := List Matcher → Except PatternError Matcher

namespace Matcher

/-- Matches everything and binds nothing. -/
def any : Matcher := fun _ => some .empty

/-- Matches everything that is there and binds it. -/
def capture (name : String) : Matcher := fun n =>
  if n.isAbsent then none else some (.single name n)

/-- Matches what `inner` matches and binds it in addition. -/
def capturing (name : String) (inner : Matcher) : Matcher := fun n =>
  if name.isEmpty then inner n
  else (inner n).bind fun b => b.merge? (.single name n)

/-- Matches whatever has the given name. -/
def named (name : String) : Matcher := fun n =>
  if n.name? = some name then some .empty else none

/-- Match each node with its matcher, and merge what they bind. -/
def matchAll (acc : Bindings) : List (Matcher × Node) → Option Bindings
  | [] => some acc
  | (m, n) :: rest =>
    match m n with
    | some b =>
      match acc.merge? b with
      | some merged => matchAll merged rest
      | none => none
    | none => none

end Matcher

namespace Factory

/-- Fail if there are more than `most` arguments. -/
def expectAtMost (name : String) (args : List Matcher) (most : Nat) (wanted : String) :
    Except PatternError Unit :=
  if most < args.length then .error (.arity name wanted args.length) else .ok ()

def argument (args : List Matcher) (i : Nat) : Matcher :=
  (args[i]?).getD .any

def declarator : Factory := fun args => do
  expectAtMost "var" args 2 "at most 2"
  return fun n =>
    match n.tree with
    | .node .declarator _ [_, _] =>
      Matcher.matchAll .empty [(argument args 0, n.child 0), (argument args 1, n.child 1)]
    | _ => none

def returned : Factory := fun args => do
  expectAtMost "return" args 1 "at most 1"
  return fun n =>
    match n.tree.form with
    | .returnStatement =>
      match args with
      | m :: _ => m (n.child 0)
      | [] => if (n.child 0).isAbsent then some .empty else none
    | _ => none

def identifier : Factory := fun args => do
  expectAtMost "ident" args 1 "at most 1"
  return fun n => if n.name?.isSome then argument args 0 n else none

def expressionStatement : Factory := fun args => do
  expectAtMost "expr" args 1 "at most 1"
  return fun n =>
    match n.tree.form with
    | .expressionStatement => argument args 0 (n.child 0)
    | _ => none

def call : Factory := fun args =>
  .ok fun n =>
    match n.tree.form with
    | .call =>
      if (n.child 0).category = .expression then do
        let bound ← argument args 0 (n.child 0)
        let patterns := args.drop 1
        let actual := (n.childrenFrom 1).map Node.argument
        if patterns.isEmpty then some bound
        else if patterns.length = actual.length then
          bound.merge? (← Matcher.matchAll .empty (patterns.zip actual))
        else none
      else none
    | _ => none

def functionDeclaration : Factory := fun args => do
  expectAtMost "function" args 1 "at most 1"
  return fun n =>
    match n.tree.form with
    | .functionDeclaration _ => argument args 0 (n.child 0)
    | _ => none

def variableDeclaration : Factory := fun args =>
  .ok fun n =>
    if n.isVariableDeclaration then
      let declarators := n.childrenFrom 0
      if declarators.length = args.length then Matcher.matchAll .empty (args.zip declarators) else none
    else none

def functionExpression : Factory := fun args => do
  expectAtMost "fn-expr" args 0 "0"
  return fun n =>
    match n.tree.unparen.form with
    | .functionExpression _ => some .empty
    | _ => none

end Factory

end Contracts
