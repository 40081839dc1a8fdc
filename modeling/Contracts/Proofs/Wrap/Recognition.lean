import Contracts.Proofs.Wrap.Site

/-!
# What the wrapping patterns recognize

The two patterns for functions in variables and in returns are given by their texts. Compiled with
the standard names they recognize the shapes that are meant, at nodes of every kind
(`ShapePatterns.exists_compile_recognizes`): a declaration of exactly one variable with a function
as its initializer, and the return of a function. A function may stand in any number of parentheses.
-/

namespace Contracts

namespace Tree

/-- A function expression in any number of parentheses. -/
inductive IsFunctionExpression : Tree → Prop where
  | bare (m : Modifiers) (s : Span) (cs : List Tree) :
      IsFunctionExpression (node (.functionExpression m) s cs)
  | paren (s : Span) {t : Tree} (h : IsFunctionExpression t) :
      IsFunctionExpression (node .paren s [t])

/-- A declaration of exactly one variable, which is initialized with a function, as a statement or
in the head of a loop. What is declared may be any pattern, but it has to be there. -/
inductive DeclaresFunction : Tree → Prop where
  | statement (k : VariableKind) (s r : Span) {p init : Tree} (hp : p.isAbsent = false)
      (hinit : init.IsFunctionExpression) :
      DeclaresFunction (node (.variableStatement k) s [node .declarator r [p, init]])
  | head (k : VariableKind) (s r : Span) {p init : Tree} (hp : p.isAbsent = false)
      (hinit : init.IsFunctionExpression) :
      DeclaresFunction (node (.variableHead k) s [node .declarator r [p, init]])

/-- The return of a function. -/
inductive ReturnsFunction : Tree → Prop where
  | statement (s : Span) {value : Tree} (rest : List Tree) (hvalue : value.IsFunctionExpression) :
      ReturnsFunction (node .returnStatement s (value :: rest))

theorem isFunction_iff_isFunctionExpression {t : Tree} :
    t.isFunction = true ↔ t.IsFunctionExpression := by
  constructor
  · intro h
    obtain ⟨m, hm⟩ := isFunction_iff.mp h
    clear h
    induction t using Tree.induction with
    | h f s cs ih =>
        by_cases hparen : f = .paren ∧ cs.length = 1
        · obtain ⟨rfl, hlength⟩ := hparen
          obtain ⟨t, rfl⟩ := List.length_eq_one_iff.mp hlength
          rw [unparen_paren] at hm
          exact .paren s (ih t List.mem_cons_self hm)
        · rw [unparen_eq_self (not_and.mp hparen)] at hm
          obtain rfl : f = .functionExpression m := hm
          exact .bare m s cs
  · intro h
    rw [isFunction_iff]
    induction h with
    | bare m s cs =>
        rw [unparen_eq_self (by simp)]
        exact ⟨m, rfl⟩
    | paren s _ ih =>
        rw [unparen_paren]
        exact ih

theorem DeclaresFunction.isVariableDeclaration {t : Tree} (h : t.DeclaresFunction)
    (path : List Nat) : (⟨path, t⟩ : Node).isVariableDeclaration = true := by
  cases h with
  | statement k s r hp hinit => rfl
  | head k s r hp hinit => rfl

theorem declaresFunction_iff {f : Form} {s : Span} {cs : List Tree} :
    (node f s cs).DeclaresFunction ↔
      (⟨[], node f s cs⟩ : Node).isVariableDeclaration = true ∧
        ∃ r p init, cs = [node .declarator r [p, init]] ∧ p.isAbsent = false ∧
          init.IsFunctionExpression := by
  constructor
  · intro h
    refine ⟨h.isVariableDeclaration [], ?_⟩
    cases h with
    | statement _ _ r hp hinit => exact ⟨r, _, _, rfl, hp, hinit⟩
    | head _ _ r hp hinit => exact ⟨r, _, _, rfl, hp, hinit⟩
  · rintro ⟨hf, r, p, init, rfl, hp, hinit⟩
    cases f with
    | variableStatement k => exact .statement k s r hp hinit
    | variableHead k => exact .head k s r hp hinit
    | _ => exact absurd hf (by simp [Node.isVariableDeclaration])

end Tree

namespace ShapePatterns

theorem compile_standard : compile .standard = .ok standard := rfl

theorem functionDeclarator_eq_some_iff {path : List Nat} {d : Tree} {b : Bindings} :
    functionDeclarator ⟨path, d⟩ = some b ↔
      ∃ r p init, d = .node .declarator r [p, init] ∧ p.isAbsent = false ∧
        init.IsFunctionExpression ∧ b = found ⟨path ++ [0], p⟩ ⟨path ++ [1], init⟩ := by
  constructor
  · intro h
    by_cases hd : ∃ r p init, d = .node .declarator r [p, init]
    · obtain ⟨r, p, init, rfl⟩ := hd
      rw [functionDeclarator_eq] at h
      split at h
      next hfound =>
          rw [Bool.and_eq_true, Bool.not_eq_true'] at hfound
          exact ⟨r, p, init, rfl, hfound.1, Tree.isFunction_iff_isFunctionExpression.mp hfound.2,
            (Option.some.inj h).symm⟩
      next => exact absurd h (by simp)
    · rw [functionDeclarator_eq_none fun r p init heq => hd ⟨r, p, init, heq⟩] at h
      exact absurd h (by simp)
  · rintro ⟨r, p, init, rfl, hp, hinit, rfl⟩
    rw [functionDeclarator_eq, hp, Tree.isFunction_iff_isFunctionExpression.mpr hinit]
    rfl

/-- The pattern of a variable binds what is declared and the whole initializer. -/
theorem variableFunction_eq_some_iff {n : Node} {b : Bindings} :
    standard.variableFunction n = some b ↔
      n.tree.DeclaresFunction ∧ b = found ((n.child 0).child 0) ((n.child 0).child 1) := by
  obtain ⟨path, ⟨f, s, cs⟩⟩ := n
  rw [Tree.declaresFunction_iff]
  by_cases hsole : (⟨path, .node f s cs⟩ : Node).isVariableDeclaration = true ∧ cs.length = 1
  · obtain ⟨hf, hlength⟩ := hsole
    obtain ⟨d, rfl⟩ := List.length_eq_one_iff.mp hlength
    rw [variableFunction_of_sole path hf, functionDeclarator_eq_some_iff]
    constructor
    · rintro ⟨r, p, init, rfl, hp, hinit, rfl⟩
      exact ⟨⟨hf, r, p, init, rfl, hp, hinit⟩, rfl⟩
    · rintro ⟨⟨-, r, p, init, hd, hp, hinit⟩, rfl⟩
      obtain rfl := List.head_eq_of_cons_eq hd
      exact ⟨r, p, init, rfl, hp, hinit, rfl⟩
  · rw [variableFunction_eq_none (not_and.mp hsole)]
    refine ⟨fun h => absurd h (by simp), ?_⟩
    rintro ⟨⟨hf, r, p, init, rfl, -⟩, -⟩
    exact absurd ⟨hf, rfl⟩ hsole

/-- The pattern of a return binds the value. -/
theorem returnFunction_eq_some_iff {n : Node} {b : Bindings} :
    standard.returnFunction n = some b ↔
      n.tree.ReturnsFunction ∧ b = .single "f" (n.child 0) := by
  obtain ⟨path, ⟨f, s, cs⟩⟩ := n
  rw [standard_returnFunction]
  split
  next hf =>
      obtain rfl : f = .returnStatement := hf
      rw [boundFunction_eq]
      match cs with
      | [] => exact ⟨fun h => absurd h (by simp [Node.child, Tree.isFunction, Tree.absent,
          Tree.unparen_eq_self]), fun h => by cases h.1⟩
      | value :: rest =>
          change (if value.isFunction then _ else _) = some b ↔ _
          constructor
          · intro h
            split at h
            next hvalue =>
                exact ⟨.statement s rest (Tree.isFunction_iff_isFunctionExpression.mp hvalue),
                  (Option.some.inj h).symm⟩
            next => exact absurd h (by simp)
          · rintro ⟨⟨_, _, hvalue⟩, rfl⟩
            rw [if_pos (Tree.isFunction_iff_isFunctionExpression.mpr hvalue)]
  next hf =>
      refine ⟨fun h => absurd h (by simp), ?_⟩
      rintro ⟨⟨⟩, -⟩
      exact absurd rfl hf

theorem returnFunction_of_variableFunction {n : Node} {b : Bindings}
    (h : standard.variableFunction n = some b) : standard.returnFunction n = none := by
  cases hreturn : standard.returnFunction n with
  | none => rfl
  | some c =>
      obtain ⟨path, t⟩ := n
      have hdeclares : t.DeclaresFunction := (variableFunction_eq_some_iff.mp h).1
      have hreturns : t.ReturnsFunction := (returnFunction_eq_some_iff.mp hreturn).1
      cases hdeclares <;> cases hreturns

/-- The shape of a variable is given just where its pattern finds a name. -/
theorem classify_eq_iff_ident {t : Tree} {name : String} :
    Shape.classify standard t = .variableFunction name ↔
      ∃ b, standard.variableFunction ⟨[], t⟩ = some b ∧
        (b.get? "ident").bind Node.name? = some name := by
  rw [← Option.bind_eq_some_iff]
  obtain ⟨f, s, cs⟩ := t
  by_cases hf : ∃ m, f = .functionDeclaration m
  · obtain ⟨m, rfl⟩ := hf
    rw [variableFunction_eq_none fun h => absurd h (by simp [Node.isVariableDeclaration])]
    simp [Shape.classify]
  · rw [Shape.classify_of_ne fun m hm => hf ⟨m, hm⟩]
    split
    next found hfound => simp [hfound]
    next hnone =>
        rw [hnone]
        split
        next => simp
        next => simp

/-- The name of a function variable is that of the pattern in its declarator. -/
theorem classify_eq_variableFunction_iff {t : Tree} {name : String} :
    Shape.classify standard t = .variableFunction name ↔
      t.DeclaresFunction ∧ (((⟨[], t⟩ : Node).child 0).child 0).name? = some name := by
  rw [classify_eq_iff_ident]
  constructor
  · rintro ⟨b, hb, hname⟩
    obtain ⟨hdeclares, rfl⟩ := variableFunction_eq_some_iff.mp hb
    exact ⟨hdeclares, hname⟩
  · rintro ⟨hdeclares, hname⟩
    exact ⟨_, variableFunction_eq_some_iff.mpr ⟨hdeclares, rfl⟩, hname⟩

/-- The texts of the two patterns compile, and the compiled patterns recognize just the shapes that
are meant, at every node. A declaration of one variable with a function binds what is declared and
the initializer with its parentheses, the return of a function binds the value. No node is taken for
both, and a declaration has the same shape and name as a statement and in the head of a loop. -/
theorem exists_compile_recognizes :
    ∃ patterns, compile .standard = .ok patterns ∧
      (∀ n b, patterns.variableFunction n = some b ↔ n.tree.DeclaresFunction ∧
        b.entries = [("ident", (n.child 0).child 0), ("f", (n.child 0).child 1)]) ∧
      (∀ n b, patterns.returnFunction n = some b ↔ n.tree.ReturnsFunction ∧
        b.entries = [("f", n.child 0)]) ∧
      (∀ n, patterns.variableFunction n = none ∨ patterns.returnFunction n = none) ∧
      (∀ t name, Shape.classify patterns t = .variableFunction name ↔ t.DeclaresFunction ∧
        (((⟨[], t⟩ : Node).child 0).child 0).name? = some name) ∧
      ∀ k s ds, Shape.classify patterns (.node (.variableStatement k) s ds) =
        Shape.classify patterns (.node (.variableHead k) s ds) := by
  have hentries : ∀ b c : Bindings, b = c ↔ b.entries = c.entries :=
    fun b c => ⟨fun h => h ▸ rfl, fun h => by cases b; cases c; cases h; rfl⟩
  refine ⟨standard, compile_standard, fun n b => ?_, fun n b => ?_, fun n => ?_,
    fun t name => classify_eq_variableFunction_iff, fun k s ds => ?_⟩
  · rw [variableFunction_eq_some_iff, hentries]
    rfl
  · rw [returnFunction_eq_some_iff, hentries]
    rfl
  · cases hmatch : standard.variableFunction n with
    | none => exact .inl rfl
    | some b => exact .inr (returnFunction_of_variableFunction hmatch)
  · rw [Shape.classify_variable rfl, Shape.classify_variable rfl]

end ShapePatterns

end Contracts
