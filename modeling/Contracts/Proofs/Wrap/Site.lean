import Contracts.Proofs.Syntax.Copying
import Contracts.Wrap.Basic

/-!
# The sites at which functions are wrapped

A function can be wrapped at four kinds of nodes: a function declaration; a
declaration of one variable with a function as its initializer, which is a
statement or the head of a loop with three parts; and the return of a function.
`Tree.site?` says directly which nodes these are, what they are counted as, and
at which position the comments stand that decide about them.

The pass itself finds them by patterns that are compiled from their texts.
`Shape.classify_standard` says what the compiled patterns recognize, without
patterns and bindings.
-/

namespace Contracts

namespace Tree

/-- The name that a name, a variable or a binding pattern has. -/
def boundName? (t : Tree) : Option String :=
  match t.form with
  | .name text | .identifier text | .binding text => some text
  | _ => none

/-- The name of the variable that a declarator initializes with a function. -/
def functionVariable? : Tree → Option String
  | node .declarator _ [p, init] => if init.isFunction then p.boundName? else none
  | _ => none

/-- The same for declarators, of which there has to be just one. -/
def soleFunctionVariable? : List Tree → Option String
  | [d] => d.functionVariable?
  | _ => none

/-- The shape of a statement or of the head of a loop. -/
def shape : Tree → Shape
  | node (.functionDeclaration _) _ _ => .declaration
  | node (.variableStatement _) _ ds | node (.variableHead _) _ ds =>
    match soleFunctionVariable? ds with
    | some name => .variableFunction name
    | none => .other
  | node .returnStatement _ (value :: _) => if value.isFunction then .returnFunction else .other
  | _ => .other

/-- The kind of the function that is declared, bound or returned at a node, and
the position of the token whose leading comments may carry its signature. -/
def site? : Tree → Option (SiteKind × Nat)
  | node (.functionDeclaration _) s [node (.name _) _ _, _, _] => some (.declaration, s.lo)
  | node (.variableStatement _) s ds =>
    (soleFunctionVariable? ds).map fun _ => (.initializer, s.lo)
  | node .forStatement _ (node (.variableHead _) s ds :: _) =>
    (soleFunctionVariable? ds).map fun _ => (.initializer, s.lo)
  | node .returnStatement s [value] => if value.isFunction then some (.returned, s.lo) else none
  | _ => none

theorem boundName?_eq_some_iff {t : Tree} {text : String} :
    t.boundName? = some text ↔
      t.form = .name text ∨ t.form = .identifier text ∨ t.form = .binding text := by
  rw [boundName?]
  cases t.form <;> simp

theorem functionVariable?_eq_none {t : Tree} (h : t.form ≠ .declarator) :
    t.functionVariable? = none := by
  unfold functionVariable?
  split
  next => exact absurd rfl h
  next => rfl

theorem soleFunctionVariable?_eq_some {ds : List Tree} {name : String}
    (h : soleFunctionVariable? ds = some name) :
    ∃ s p init, ds = [node .declarator s [p, init]] ∧ p.boundName? = some name ∧
      init.isFunction = true := by
  unfold soleFunctionVariable? functionVariable? at h
  split at h
  next d =>
      split at h
      next s p init =>
          split at h
          next hinit => exact ⟨s, p, init, rfl, h, hinit⟩
          next => exact absurd h (by simp)
      next => exact absurd h (by simp)
  next => exact absurd h (by simp)

namespace Copies

variable {copied : Form → Prop} {R : Tree → Tree → Prop}

theorem boundName?_eq (h : Copies copied R) (hpassive : ∀ f : Form, f.isPassive = true → copied f)
    {t u : Tree} (hR : R t u) : u.boundName? = t.boundName? := by
  ext text
  rw [boundName?_eq_some_iff, boundName?_eq_some_iff]
  refine or_congr ?_ (or_congr ?_ ?_)
  all_goals exact h.form_eq hR (hpassive _ rfl)

theorem functionVariable?_eq (h : Copies copied R)
    (hpassive : ∀ f : Form, f.isPassive = true → copied f) {t u : Tree} (hR : R t u) :
    u.functionVariable? = t.functionVariable? := by
  by_cases hf : t.form = .declarator
  · obtain ⟨f, s, cs⟩ := t
    obtain rfl : f = .declarator := hf
    obtain ⟨ds, rfl, hds⟩ := h.copy (hpassive _ rfl) hR
    match cs, ds, hds with
    | [], [], .nil => rfl
    | [_], [_], .cons _ .nil => rfl
    | [p, init], [p', init'], .cons hp (.cons hinit .nil) =>
        rw [functionVariable?, functionVariable?, h.isFunction_eq hpassive hinit,
          h.boundName?_eq hpassive hp]
    | _ :: _ :: _ :: _, _ :: _ :: _ :: _, .cons _ (.cons _ (.cons _ _)) => rfl
  · have hu : u.form ≠ .declarator := fun hu => hf ((h.form_eq hR (hpassive _ rfl)).mp hu)
    rw [functionVariable?_eq_none hu, functionVariable?_eq_none hf]

theorem soleFunctionVariable?_eq (h : Copies copied R)
    (hpassive : ∀ f : Form, f.isPassive = true → copied f) {ds es : List Tree}
    (hR : List.Forall₂ R ds es) : soleFunctionVariable? es = soleFunctionVariable? ds := by
  match ds, es, hR with
  | [], [], .nil => rfl
  | [d], [e], .cons hde .nil => exact h.functionVariable?_eq hpassive hde
  | _ :: _ :: _, _ :: _ :: _, .cons _ (.cons _ _) => rfl

end Copies

theorem shape_eq_other {f : Form} (hform : f.isSiteForm = false)
    (hcategory : f.category = .statement) (s : Span) (cs : List Tree) :
    (node f s cs).shape = .other := by
  unfold shape
  split
  all_goals simp_all [Form.isSiteForm, Form.category]

theorem site?_eq_none {f : Form} (hform : f.isSiteForm = false) (s : Span) (cs : List Tree) :
    (node f s cs).site? = none := by
  unfold site?
  split
  all_goals simp_all [Form.isSiteForm]

theorem site?_declaration (m : Modifiers) (s r : Span) (name : String) (ds : List Tree)
    (params body : Tree) :
    (node (.functionDeclaration m) s [node (.name name) r ds, params, body]).site? =
      some (.declaration, s.lo) := rfl

theorem site?_initializer {p init : Tree} {name : String} (hp : p.boundName? = some name)
    (hinit : init.isFunction = true) (k : VariableKind) (s r : Span) :
    (node (.variableStatement k) s [node .declarator r [p, init]]).site? =
      some (.initializer, s.lo) := by
  simp [site?, soleFunctionVariable?, functionVariable?, hp, hinit]

theorem site?_loopInitializer {p init : Tree} {name : String} (hp : p.boundName? = some name)
    (hinit : init.isFunction = true) (k : VariableKind) (s q r : Span) (rest : List Tree) :
    (node .forStatement s (node (.variableHead k) q [node .declarator r [p, init]] :: rest)).site? =
      some (.initializer, q.lo) := by
  simp [site?, soleFunctionVariable?, functionVariable?, hp, hinit]

theorem site?_returned {value : Tree} (hvalue : value.isFunction = true) (s : Span) :
    (node .returnStatement s [value]).site? = some (.returned, s.lo) := by
  simp [site?, hvalue]

end Tree

namespace ShapePatterns

/-- The matcher of a function expression that is bound to `f`. -/
def boundFunction : Matcher :=
  Matcher.capturing "f" fun n =>
    match n.tree.unparen.form with
    | .functionExpression _ => some .empty
    | _ => none

/-- The matcher of a declarator with a name and a function as initializer. -/
def functionDeclarator : Matcher := fun n =>
  match n.tree with
  | .node .declarator _ [_, _] =>
    Matcher.matchAll .empty [(Matcher.capture "ident", n.child 0), (boundFunction, n.child 1)]
  | _ => none

theorem boundFunction_eq (n : Node) :
    boundFunction n = if n.tree.isFunction then some (.single "f" n) else none := by
  rw [boundFunction, Matcher.capturing, Tree.isFunction]
  cases n.tree.unparen.form <;> rfl

/-- The compiled pattern of a return looks at the value only. -/
theorem standard_returnFunction (n : Node) :
    standard.returnFunction n =
      match n.tree.form with
      | .returnStatement => boundFunction (n.child 0)
      | _ => none := rfl

/-- The compiled pattern of a variable wants one declarator. -/
theorem standard_variableFunction (n : Node) :
    standard.variableFunction n =
      if n.isVariableDeclaration then
        if (n.childrenFrom 0).length = 1 then
          Matcher.matchAll .empty ([functionDeclarator].zip (n.childrenFrom 0))
        else none
      else none := rfl

theorem isAbsent_eq (path : List Nat) (t : Tree) :
    (⟨path, t⟩ : Node).isAbsent = t.isAbsent := by
  have hcategory : t.form.category = .absent ↔ t.form = .absent := by
    cases t.form <;> simp [Form.category]
    all_goals split <;> simp
  rw [Bool.eq_iff_iff, Node.isAbsent, Node.category, beq_iff_eq, hcategory, Tree.isAbsent,
    beq_iff_eq]

theorem boundName?_of_isAbsent {t : Tree} (h : t.isAbsent = true) : t.boundName? = none := by
  rw [Tree.isAbsent, beq_iff_eq] at h
  rw [Tree.boundName?, h]

/-- What is bound where a variable is initialized with a function. -/
def found (p init : Node) : Bindings :=
  ⟨[("ident", p), ("f", init)], by simp⟩

/-- The pattern of a declarator wants something that is there, and a function. -/
theorem functionDeclarator_eq (path : List Nat) (s : Span) (p init : Tree) :
    functionDeclarator ⟨path, .node .declarator s [p, init]⟩ =
      if !p.isAbsent && init.isFunction then some (found ⟨path ++ [0], p⟩ ⟨path ++ [1], init⟩)
      else none := by
  have hmatch : functionDeclarator ⟨path, .node .declarator s [p, init]⟩ = Matcher.matchAll .empty
      [(Matcher.capture "ident", ⟨path ++ [0], p⟩), (boundFunction, ⟨path ++ [1], init⟩)] := rfl
  rw [hmatch, Matcher.matchAll, Matcher.capture, isAbsent_eq]
  cases p.isAbsent with
  | true => rfl
  | false =>
      have hident : Bindings.empty.merge? (.single "ident" ⟨path ++ [0], p⟩) =
          some (.single "ident" ⟨path ++ [0], p⟩) := rfl
      simp only [Bool.false_eq_true, if_false, hident, Matcher.matchAll, boundFunction_eq]
      cases init.isFunction with
      | false => rfl
      | true => rfl

theorem functionDeclarator_eq_none {n : Node}
    (h : ∀ s p init, n.tree ≠ .node .declarator s [p, init]) : functionDeclarator n = none := by
  rw [functionDeclarator]
  split
  next s p init heq => exact absurd heq (h s p init)
  next => rfl

/-- One matcher alone binds what it binds. -/
theorem matchAll_functionDeclarator (n : Node) :
    Matcher.matchAll .empty [(functionDeclarator, n)] = functionDeclarator n := by
  obtain ⟨path, d⟩ := n
  by_cases hd : ∃ s p init, d = .node .declarator s [p, init]
  · obtain ⟨s, p, init, rfl⟩ := hd
    rw [Matcher.matchAll, functionDeclarator_eq]
    cases !p.isAbsent && init.isFunction with
    | false => rfl
    | true => rfl
  · have hnone : functionDeclarator ⟨path, d⟩ = none :=
      functionDeclarator_eq_none fun s p init heq => hd ⟨s, p, init, heq⟩
    rw [Matcher.matchAll, hnone]

/-- The name that the pattern of one declarator finds. -/
theorem functionDeclarator_ident (path : List Nat) (d : Tree) :
    ((functionDeclarator ⟨path, d⟩).bind fun b => (b.get? "ident").bind Node.name?) =
      d.functionVariable? := by
  unfold Tree.functionVariable?
  split
  next s p init =>
      rw [functionDeclarator_eq]
      cases hp : p.isAbsent with
      | true =>
          rw [boundName?_of_isAbsent hp]
          simp
      | false =>
          cases init.isFunction with
          | false => rfl
          | true => rfl
  next hd =>
      rw [functionDeclarator_eq_none hd]
      rfl

/-- A declaration of one variable is judged by its declarator. -/
theorem variableFunction_of_sole (path : List Nat) {f : Form} {s : Span} {d : Tree}
    (hf : (⟨path, .node f s [d]⟩ : Node).isVariableDeclaration = true) :
    standard.variableFunction ⟨path, .node f s [d]⟩ = functionDeclarator ⟨path ++ [0], d⟩ := by
  rw [standard_variableFunction, if_pos hf]
  exact matchAll_functionDeclarator ⟨path ++ [0], d⟩

theorem variableFunction_eq_none {n : Node}
    (hn : n.isVariableDeclaration = true → n.tree.children.length ≠ 1) :
    standard.variableFunction n = none := by
  rw [standard_variableFunction]
  split
  next hdeclares =>
      rw [if_neg]
      simpa [Node.childrenFrom] using hn hdeclares
  next => rfl

/-- The name that the pattern of a variable finds in a declaration of variables. -/
theorem variableFunction_ident {f : Form} {s : Span} {cs : List Tree}
    (hf : (⟨[], .node f s cs⟩ : Node).isVariableDeclaration = true) :
    ((standard.variableFunction ⟨[], .node f s cs⟩).bind
      fun b => (b.get? "ident").bind Node.name?) = Tree.soleFunctionVariable? cs := by
  match cs with
  | [] =>
      rw [variableFunction_eq_none fun _ => by simp]
      rfl
  | [d] =>
      rw [variableFunction_of_sole [] hf]
      exact functionDeclarator_ident [0] d
  | _ :: _ :: rest =>
      rw [variableFunction_eq_none fun _ => by simp]
      rfl

end ShapePatterns

namespace Shape

/-- The two patterns are tried one after the other on what is no function
declaration. -/
theorem classify_of_ne {f : Form} (hf : ∀ m, f ≠ .functionDeclaration m) (s : Span)
    (cs : List Tree) :
    classify .standard (.node f s cs) =
      match (ShapePatterns.standard.variableFunction ⟨[], .node f s cs⟩).bind
        fun b => (b.get? "ident").bind Node.name? with
      | some name => .variableFunction name
      | none =>
        if (ShapePatterns.standard.returnFunction ⟨[], .node f s cs⟩).isSome then .returnFunction
        else .other := by
  rw [classify]
  split
  next m hm => exact absurd hm (hf m)
  next => rfl

theorem returnFunction_eq_none {f : Form} (hf : f ≠ .returnStatement) (s : Span)
    (cs : List Tree) : ShapePatterns.standard.returnFunction ⟨[], .node f s cs⟩ = none := by
  rw [ShapePatterns.standard_returnFunction]
  split
  next h => exact absurd h hf
  next => rfl

/-- A declaration of variables is judged by its declarators alone. -/
theorem classify_variable {f : Form} {s : Span} {cs : List Tree}
    (hf : (⟨[], .node f s cs⟩ : Node).isVariableDeclaration = true) :
    classify .standard (.node f s cs) =
      match Tree.soleFunctionVariable? cs with
      | some name => .variableFunction name
      | none => .other := by
  have hdeclaration : ∀ m, f ≠ .functionDeclaration m := by
    rintro m rfl
    exact absurd hf (by simp [Node.isVariableDeclaration])
  have hreturn : f ≠ .returnStatement := by
    rintro rfl
    exact absurd hf (by simp [Node.isVariableDeclaration])
  rw [classify_of_ne hdeclaration, ShapePatterns.variableFunction_ident hf,
    returnFunction_eq_none hreturn]
  rfl

/-- A return is judged by its value alone. -/
theorem classify_return (s : Span) (cs : List Tree) :
    classify .standard (.node .returnStatement s cs) =
      if (cs.headD Tree.absent).isFunction then .returnFunction else .other := by
  have hvariable : ShapePatterns.standard.variableFunction ⟨[], .node .returnStatement s cs⟩ =
      none := by
    rw [ShapePatterns.standard_variableFunction]
    rfl
  have hchild : ((⟨[], .node .returnStatement s cs⟩ : Node).child 0).tree =
      cs.headD Tree.absent := by cases cs <;> rfl
  have hreturn : ShapePatterns.standard.returnFunction ⟨[], .node .returnStatement s cs⟩ =
      ShapePatterns.boundFunction ((⟨[], .node .returnStatement s cs⟩ : Node).child 0) := by
    rw [ShapePatterns.standard_returnFunction]
    rfl
  rw [classify_of_ne (by simp), hvariable, hreturn, ShapePatterns.boundFunction_eq, hchild]
  cases (cs.headD Tree.absent).isFunction with
  | false => rfl
  | true => rfl

theorem classify_other {f : Form} (hdeclaration : ∀ m, f ≠ .functionDeclaration m)
    (hreturn : f ≠ .returnStatement) {s : Span} {cs : List Tree}
    (hvariable : (⟨[], .node f s cs⟩ : Node).isVariableDeclaration = false) :
    classify .standard (.node f s cs) = .other := by
  rw [classify_of_ne hdeclaration, ShapePatterns.standard_variableFunction, hvariable,
    returnFunction_eq_none hreturn]
  rfl

/-- The compiled patterns recognize the shapes that `Tree.shape` lists. -/
theorem classify_standard (t : Tree) : classify .standard t = t.shape := by
  obtain ⟨f, s, cs⟩ := t
  cases f with
  | functionDeclaration m => rfl
  | variableStatement k => exact classify_variable rfl
  | variableHead k => exact classify_variable rfl
  | returnStatement =>
      rw [classify_return]
      cases cs <;> rfl
  | _ => exact classify_other (by simp) (by simp) rfl

end Shape

end Contracts
