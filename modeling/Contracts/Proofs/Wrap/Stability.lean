import Contracts.Proofs.Wrap.Counting
import Contracts.Proofs.Wrap.Recognition
import Contracts.Syntax.Source

/-!
# A statement keeps its shape while its children are rewritten

The pass classifies a statement, rewrites its children, and then changes the
statement by the shape that it was found to have. In between the statement is
`rewrittenBelow`. It has the same shape then, and the function in question has the
same name (`shape_rewrittenBelow`, `exists_heldFunction?`): what a shape is judged by
are nodes that the pass copies, down to the function itself.

So each shape other than `other` comes to the case that is made for it, where it
is recorded once (`IsHandled`). That the tree is one of the grammar is needed for
this (`Tree.hasParts`): a function declaration without a name has a shape, and
there is nothing to be done about it. Over a whole script, the pass records each
node that is classified, and no other (`classified?_eq_outcome?`).
-/

namespace Contracts

/-- What a node of a shape is recorded as. -/
def Shape.kind? : Shape → Option SiteKind
  | .declaration => some .declaration
  | .variableFunction _ => some .initializer
  | .returnFunction => some .returned
  | .other => none

@[simp] theorem Shape.kind?_eq_none_iff {shape : Shape} : shape.kind? = none ↔ shape = .other := by
  cases shape <;> simp [kind?]

namespace Tree

/-- Whether a node has the children that its production asks for, if they matter to
the pass: a function declaration has a name, parameters and a body, a return has
one value, be it absent, and the head of a loop is no statement. -/
def hasParts : Tree → Bool
  | node (.functionDeclaration _) _ [node (.name _) _ _, _, _] => true
  | node (.functionDeclaration _) _ _ => false
  | node .returnStatement _ cs => cs.length == 1
  | node .forStatement _ (head :: _) => head.form.category != .statement
  | _ => true

/-- The function in question at a node of a shape: what the variable is initialized
with, or what is returned. -/
def heldFunction? (t : Tree) : Option Tree :=
  match t.shape, t.children with
  | .variableFunction _, [node .declarator _ [_, init]] => some init
  | .returnFunction, value :: _ => some value
  | _, _ => none

theorem exists_of_hasParts_declaration {m : Modifiers} {s : Span} {cs : List Tree}
    (h : (node (.functionDeclaration m) s cs).hasParts = true) :
    ∃ name r ds params body, cs = [node (.name name) r ds, params, body] := by
  unfold hasParts at h
  split at h
  next _ name r ds params body heq => exact ⟨name, r, ds, params, body, (node.inj heq).2.2⟩
  all_goals simp_all

theorem exists_of_hasParts_return {s : Span} {cs : List Tree}
    (h : (node .returnStatement s cs).hasParts = true) : ∃ value, cs = [value] :=
  List.length_eq_one_iff.mp (by simpa [hasParts] using h)

theorem shape_variable {f : Form} {s : Span} {ds : List Tree}
    (hf : (⟨[], node f s ds⟩ : Node).isVariableDeclaration = true) :
    (node f s ds).shape = (soleFunctionVariable? ds).elim .other .variableFunction := by
  rw [← Shape.classify_standard, Shape.classify_variable hf]
  cases soleFunctionVariable? ds with
  | none => rfl
  | some name => rfl

theorem exists_of_shape_variable {t : Tree} {name : String}
    (h : t.shape = .variableFunction name) :
    ∃ r p init, t.children = [node .declarator r [p, init]] ∧ init.isFunction = true := by
  rw [← Shape.classify_standard, ShapePatterns.classify_eq_variableFunction_iff] at h
  obtain ⟨f, s, cs⟩ := t
  obtain ⟨-, r, p, init, rfl, -, hinit⟩ := declaresFunction_iff.mp h.1
  exact ⟨r, p, init, rfl, isFunction_iff_isFunctionExpression.mpr hinit⟩

theorem exists_of_shape_return {t : Tree} (h : t.shape = .returnFunction) :
    ∃ value rest, t.children = value :: rest ∧ value.isFunction = true := by
  unfold shape at h
  split at h
  next => exact absurd h (by simp)
  next => split at h <;> exact absurd h (by simp)
  next => split at h <;> exact absurd h (by simp)
  next value rest =>
      split at h
      next hvalue => exact ⟨value, rest, rfl, hvalue⟩
      next => exact absurd h (by simp)
  next => exact absurd h (by simp)

end Tree

namespace Wrap

section Stable

variable (config : Config) (comments : List Comment)

/-- A node as it stands after its children were rewritten. -/
def rewrittenBelow (t : Tree) : Tree :=
  .node t.form t.span (t.children.map (wrapped config comments))

theorem rewrittenBelow_node (f : Form) (s : Span) (cs : List Tree) :
    rewrittenBelow config comments (.node f s cs) =
      .node f s (cs.map (wrapped config comments)) := rfl

/-- What is no statement is not changed itself. -/
theorem wrapped_eq_rewrittenBelow {t : Tree} (h : t.form.category ≠ .statement) :
    wrapped config comments t = rewrittenBelow config comments t := by
  obtain ⟨f, s, cs⟩ := t
  have htree := tree_part config comments h s cs
  exact congrArg Prod.fst htree

theorem soleFunctionVariable?_map_wrapped (ds : List Tree) :
    Tree.soleFunctionVariable? (ds.map (wrapped config comments)) =
      Tree.soleFunctionVariable? ds := by
  refine (copies_wrapped config comments).soleFunctionVariable?_eq
    (fun _ => isSiteForm_of_isPassive) ?_
  rw [List.forall₂_map_right_iff, List.forall₂_same]
  exact fun _ _ => rfl

/-- The shape is judged by nodes that the pass copies. -/
theorem shape_rewrittenBelow (t : Tree) :
    (rewrittenBelow config comments t).shape = t.shape := by
  obtain ⟨f, s, cs⟩ := t
  rw [rewrittenBelow_node]
  cases f with
  | variableStatement k =>
      rw [Tree.shape_variable rfl, Tree.shape_variable rfl, soleFunctionVariable?_map_wrapped]
  | variableHead k =>
      rw [Tree.shape_variable rfl, Tree.shape_variable rfl, soleFunctionVariable?_map_wrapped]
  | returnStatement =>
      cases cs with
      | nil => rfl
      | cons value rest => simp only [List.map_cons, Tree.shape, wrapped_isFunction]
  | _ => rfl

/-- The function in question stays where it is, and keeps its name while it is
rewritten itself. -/
theorem exists_heldFunction? {t : Tree} {kind : SiteKind} (hkind : t.shape.kind? = some kind)
    (hne : kind ≠ .declaration) :
    ∃ function, t.heldFunction? = some function ∧ function.isFunction = true ∧
      (rewrittenBelow config comments t).heldFunction? = some (wrapped config comments function) ∧
      (wrapped config comments function).functionName? = function.functionName? := by
  have hshape := shape_rewrittenBelow config comments t
  have hchildren : (rewrittenBelow config comments t).children =
      t.children.map (wrapped config comments) := rfl
  cases h : t.shape with
  | declaration =>
      rw [h] at hkind
      exact absurd (Option.some.inj hkind).symm hne
  | variableFunction name =>
      obtain ⟨r, p, init, hcs, hinit⟩ := Tree.exists_of_shape_variable h
      rw [hcs, List.map_singleton, wrapped_copy config comments rfl] at hchildren
      refine ⟨init, ?_, hinit, ?_, wrapped_functionName? config comments init⟩
      · rw [Tree.heldFunction?, h, hcs]
      · rw [Tree.heldFunction?, hshape, h, hchildren]
        rfl
  | returnFunction =>
      obtain ⟨value, rest, hcs, hvalue⟩ := Tree.exists_of_shape_return h
      rw [hcs, List.map_cons] at hchildren
      refine ⟨value, ?_, hvalue, ?_, wrapped_functionName? config comments value⟩
      · rw [Tree.heldFunction?, h, hcs]
      · rw [Tree.heldFunction?, hshape, h, hchildren]
  | other =>
      rw [h] at hkind
      exact absurd hkind (by simp [Shape.kind?])

end Stable

section Handling

/-- What is made of a node `t` of a shape. It is recorded once, as what its shape
says, and it holds one check more of this kind if there is a signature. A node of no
kind is passed over. -/
structure IsHandled (config : Config) (shape : Shape) (signature : Option String) (t : Tree)
    (made : Tree × List Site) : Prop where
  records : made.2.map Site.outcome =
    (shape.kind?.map fun kind => (kind, signature.isSome)).toList
  checks : ∀ kind, checks config kind made.1 =
    checks config kind t + if shape.kind? = some kind ∧ signature.isSome then 1 else 0
  unchanged : shape = .other ∨ signature = none → made.1 = t

variable (config : Config) (signature : Option String)

/-- Only a node of the shape `other` is passed over. -/
theorem IsHandled.sites_eq_nil_iff {config : Config} {shape : Shape} {signature : Option String}
    {t : Tree} {made : Tree × List Site} (h : IsHandled config shape signature t made) :
    made.2 = [] ↔ shape = .other := by
  rw [← List.map_eq_nil_iff (f := Site.outcome), h.records, Option.toList_eq_nil_iff,
    Option.map_eq_none_iff, Shape.kind?_eq_none_iff]

theorem isHandled_other (t : Tree) : IsHandled config .other signature t (t, []) :=
  ⟨rfl, fun _ => by simp [Shape.kind?], fun _ => rfl⟩

theorem isHandled_unsigned {shape : Shape} {kind : SiteKind} (hkind : shape.kind? = some kind)
    (t : Tree) : IsHandled config shape none t (t, [⟨kind, none⟩]) :=
  ⟨by rw [hkind]; rfl, fun _ => by simp, fun _ => rfl⟩

/-- A node with a signature is handled if it gets the check that its shape asks for. -/
theorem isHandled_signed {shape : Shape} {kind : SiteKind} (hkind : shape.kind? = some kind)
    (text label : String) {t u : Tree}
    (h : ∀ k, checks config k u = checks config k t + if kind = k then 1 else 0) :
    IsHandled config shape (some text) t (u, [⟨kind, some label⟩]) where
  records := by rw [hkind]; rfl
  checks := fun k => by simp [h, hkind]
  unchanged := by
    rintro (rfl | hnone)
    · exact absurd hkind (by simp [Shape.kind?])
    · exact absurd hnone (by simp)

theorem isHandled_declaration (m : Modifiers) (s r : Span) (name : String) (ds : List Tree)
    (params body : Tree) :
    let t : Tree := .node (.functionDeclaration m) s [.node (.name name) r ds, params, body]
    IsHandled config .declaration signature t (statement config .declaration signature t) := by
  intro t
  cases signature with
  | none => exact isHandled_unsigned config rfl t
  | some text =>
      let function : Tree := .node (.functionExpression m) s [Tree.absent, params, body]
      have hfunction : function.isFunction = true := rfl
      refine isHandled_signed config rfl text name fun kind => ?_
      change checks config kind (forwarding config name s (.node (.name name) r ds)
        (check config (labelFor name text) function)) = _
      rw [check_eq_handed,
        checks_forwarding config kind _ _ _ (isCheck_handed config _ hfunction), checks_handed]
      simp [t, function, checks_node, checkKind?, Tree.absent, Nat.add_assoc]

/-- The declaration of a variable as a statement, or in the head of a loop. -/
theorem isHandled_variable {f : Form} {s : Span}
    (hf : ∀ cs, checkKind? config (.node f s cs) = none) (name : String) (r : Span) (p : Tree)
    {init : Tree} (hinit : init.isFunction = true) :
    let t : Tree := .node f s [.node .declarator r [p, init]]
    IsHandled config (.variableFunction name) signature t
      (variableDeclaration config name signature t) := by
  intro t
  cases signature with
  | none => exact isHandled_unsigned config rfl t
  | some text =>
      have hmade : variableDeclaration config name (some text) t =
          (.node f s [.node .declarator r
            [p, handed config (initializerLabel name text init) init]],
          [⟨.initializer, some (initializerLabel name text init)⟩]) := by
        simp [t, variableDeclaration, declarator, declaratorLabel?, check_eq_handed,
          Tree.not_isAbsent_of_isFunction hinit]
      rw [hmade]
      exact isHandled_signed config rfl text _ fun kind =>
        checks_variable config kind hf _ hinit r p

theorem isHandled_return (s : Span) {value : Tree} (hvalue : value.isFunction = true) :
    let t : Tree := .node .returnStatement s [value]
    IsHandled config .returnFunction signature t (statement config .returnFunction signature t) := by
  intro t
  cases signature with
  | none => exact isHandled_unsigned config rfl t
  | some text =>
      refine isHandled_signed config rfl text (returnLabel text value) fun kind => ?_
      simp [t, checks_node, checkKind?, checks_handed, check_eq_handed,
        isCheck_handed config _ hvalue,
        isCheck_of_isFunction config hvalue]

end Handling

section Arms

variable (config : Config) (comments : List Comment) (signature : Option String)

/-- A declaration of variables has one function as its initializer also after this
was rewritten. -/
theorem isHandled_soleVariable {f : Form} {s : Span}
    (hf : ∀ cs, checkKind? config (.node f s cs) = none) {ds : List Tree} {name : String}
    (h : Tree.soleFunctionVariable? ds = some name) :
    let below : Tree := .node f s (ds.map (wrapped config comments))
    IsHandled config (.variableFunction name) signature below
      (variableDeclaration config name signature below) := by
  rw [← soleFunctionVariable?_map_wrapped config comments] at h
  obtain ⟨r, p, init, hds, -, hinit⟩ := Tree.soleFunctionVariable?_eq_some h
  rw [hds]
  exact isHandled_variable config signature hf name r p hinit

/-- A statement comes to the case of its shape after its children were rewritten. -/
theorem isHandled_statement {t : Tree} (hcategory : t.form.category = .statement)
    (hparts : t.hasParts = true) :
    IsHandled config t.shape signature (rewrittenBelow config comments t)
      (statement config t.shape signature (rewrittenBelow config comments t)) := by
  obtain ⟨f, s, cs⟩ := t
  rw [rewrittenBelow_node]
  cases f with
  | functionDeclaration m =>
      obtain ⟨name, r, ds, params, body, rfl⟩ := Tree.exists_of_hasParts_declaration hparts
      rw [List.map_cons, wrapped_copy config comments rfl]
      exact isHandled_declaration config signature m s r name _ _ _
  | variableStatement k =>
      rw [Tree.shape_variable rfl]
      cases hsole : Tree.soleFunctionVariable? cs with
      | none => exact isHandled_other config signature _
      | some name => exact isHandled_soleVariable config comments signature (fun _ => rfl) hsole
  | returnStatement =>
      obtain ⟨value, rfl⟩ := Tree.exists_of_hasParts_return hparts
      rw [Tree.shape]
      split
      next hvalue =>
          exact isHandled_return config signature s
            ((wrapped_isFunction config comments value).trans hvalue)
      next => exact isHandled_other config signature _
  | variableHead k => exact absurd hcategory (by simp [Form.category])
  | _ => exact isHandled_other config signature _

/-- The head of a loop comes to the case of its shape, which is one of two. -/
theorem isHandled_loopHead {t : Tree} (hcategory : t.form.category ≠ .statement) :
    IsHandled config t.shape signature (rewrittenBelow config comments t)
      (loopHead config t.shape signature (rewrittenBelow config comments t)) := by
  obtain ⟨f, s, cs⟩ := t
  rw [rewrittenBelow_node]
  cases f with
  | variableHead k =>
      rw [Tree.shape_variable rfl]
      cases hsole : Tree.soleFunctionVariable? cs with
      | none => exact isHandled_other config signature _
      | some name => exact isHandled_soleVariable config comments signature (fun _ => rfl) hsole
  | functionDeclaration m => exact absurd rfl hcategory
  | variableStatement k => exact absurd rfl hcategory
  | returnStatement => exact absurd rfl hcategory
  | _ => exact isHandled_other config signature _

end Arms

section Records

/-- The node by whose shape the pass decides about a node: a statement by its own,
but a loop with three parts by that of its head. -/
def judged? : Tree → Option Tree
  | .node .forStatement _ (head :: _) => some head
  | t => if t.form.category = .statement then some t else none

/-- What is recorded about a node, given how it is classified. -/
def classified? (comments : List Comment) (t : Tree) : Option (SiteKind × Bool) :=
  (judged? t).bind fun n =>
    let shape := Shape.classify .standard n
    shape.kind?.map fun kind => (kind, (signatureAt comments shape n.span.lo).isSome)

variable (comments : List Comment)

theorem classified?_variable {f : Form} {s : Span} {ds : List Tree}
    (hf : (⟨[], .node f s ds⟩ : Node).isVariableDeclaration = true) {t : Tree}
    (hjudged : judged? t = some (.node f s ds))
    (hsite : t.site? = (Tree.soleFunctionVariable? ds).map fun _ => (.initializer, s.lo)) :
    classified? comments t = outcome? comments t := by
  rw [classified?, hjudged, outcome?, hsite, Option.bind_some, Shape.classify_standard,
    Tree.shape_variable hf]
  cases Tree.soleFunctionVariable? ds with
  | none => rfl
  | some name => rfl

theorem classified?_eq_none {f : Form} (hf : f.isSiteForm = false) (s : Span) (cs : List Tree) :
    classified? comments (.node f s cs) = none := by
  unfold classified? judged?
  split
  next heq =>
      rw [(Tree.node.inj heq).1] at hf
      exact absurd hf (by decide)
  next =>
      rw [Tree.form_node]
      split
      next hcategory =>
          rw [Option.bind_some, Shape.classify_standard, Tree.shape_eq_other hf hcategory]
          rfl
      next => rfl

/-- The nodes that are classified are the sites. -/
theorem classified?_eq_outcome? {t : Tree} (hparts : t.hasParts = true) :
    classified? comments t = outcome? comments t := by
  obtain ⟨f, s, cs⟩ := t
  cases f with
  | functionDeclaration m =>
      obtain ⟨name, r, ds, params, body, rfl⟩ := Tree.exists_of_hasParts_declaration hparts
      rfl
  | variableStatement k => exact classified?_variable comments rfl rfl rfl
  | returnStatement =>
      obtain ⟨value, rfl⟩ := Tree.exists_of_hasParts_return hparts
      have hjudged : judged? (.node .returnStatement s [value]) =
          some (.node .returnStatement s [value]) := rfl
      rw [classified?, hjudged, outcome?, Option.bind_some, Shape.classify_standard, Tree.shape,
        Tree.site?]
      cases value.isFunction with
      | true => rfl
      | false => rfl
  | forStatement =>
      cases cs with
      | nil => rfl
      | cons head rest =>
          obtain ⟨g, r, ds⟩ := head
          have hhead : g.category ≠ .statement := by simpa [Tree.hasParts] using hparts
          cases g with
          | variableHead k => exact classified?_variable comments rfl rfl rfl
          | functionDeclaration m => exact absurd rfl hhead
          | variableStatement k => exact absurd rfl hhead
          | returnStatement => exact absurd rfl hhead
          | _ => rfl
  | _ => rw [classified?_eq_none comments rfl, outcome?, Tree.site?_eq_none rfl]; rfl

end Records

/-- Rewriting the children of a node never changes its shape, the name of the variable, or the own
name of the function in question. So every statement that is classified comes to the case of its
shape: it is recorded once, as what its shape says, and holds one check more if it has a signature;
passed over are only statements of the shape `other`. The same holds of the heads of loops. In a
whole script, each statement and each head that is classified is recorded once, and nothing else. -/
theorem classify_rewrittenBelow (config : Config) (comments : List Comment) :
    (∀ t, let below := rewrittenBelow config comments t
      Shape.classify .standard below = Shape.classify .standard t ∧
        ∀ kind, (Shape.classify .standard t).kind? = some kind → kind ≠ .declaration →
          ∃ function, t.heldFunction? = some function ∧ function.isFunction = true ∧
            below.heldFunction? = some (wrapped config comments function) ∧
            (wrapped config comments function).functionName? = function.functionName?) ∧
      (∀ t, t.form.category = .statement → t.hasParts = true →
        let shape := Shape.classify .standard t
        let signature := signatureAt comments shape t.span.lo
        let below := rewrittenBelow config comments t
        let made := statement config shape signature below
        IsHandled config shape signature below made ∧ (made.2 = [] ↔ shape = .other) ∧
          (t.form ≠ .forStatement → tree config .standard comments t =
            (made.1, t.children.flatMap (noted config comments) ++ made.2))) ∧
      (∀ s head rest, head.form.category ≠ .statement →
        let shape := Shape.classify .standard head
        let signature := signatureAt comments shape head.span.lo
        let below := rewrittenBelow config comments head
        let made := loopHead config shape signature below
        IsHandled config shape signature below made ∧ (made.2 = [] ↔ shape = .other) ∧
          tree config .standard comments (.node .forStatement s (head :: rest)) =
            (.node .forStatement s (made.1 :: rest.map (wrapped config comments)),
              (head :: rest).flatMap (noted config comments) ++ made.2)) ∧
      ∀ script : Script, (∀ n ∈ script.nodes, n.hasParts = true) →
        ((script.wrapFunctions comments config .standard).2.map Site.outcome).Perm
          (script.nodes.filterMap (classified? comments)) := by
  simp only [Shape.classify_standard]
  refine ⟨fun t => ?_, fun t hcategory hparts => ?_, fun s head rest hcategory => ?_,
    fun script hparts => ?_⟩
  · refine ⟨shape_rewrittenBelow config comments t, fun kind hkind hne => ?_⟩
    exact exists_heldFunction? config comments hkind hne
  · have hhandled := isHandled_statement config comments
      (signatureAt comments t.shape t.span.lo) hcategory hparts
    refine ⟨hhandled, hhandled.sites_eq_nil_iff, fun hfor => ?_⟩
    obtain ⟨f, s, cs⟩ := t
    exact tree_statement config comments hcategory hfor s cs
  · have hhandled := isHandled_loopHead config comments
      (signatureAt comments head.shape head.span.lo) hcategory
    refine ⟨hhandled, hhandled.sites_eq_nil_iff, ?_⟩
    rw [tree_loop, wrapped_eq_rewrittenBelow config comments hcategory]
  · have hsame : script.nodes.filterMap (classified? comments) =
        script.nodes.filterMap (outcome? comments) :=
      List.filterMap_congr fun n hn => classified?_eq_outcome? comments (hparts n hn)
    rw [hsame]
    exact script.wrapFunctions_noted_perm comments config

/-- A declaration with a signature holds a loop with an annotated function in its head, and returns
a function without a signature. -/
theorem classify_rewrittenBelow_nested :
    let s := Source.ofText "a.js"
      "//f::x\nfunction f(){for(/*::y*/var g=function(){};;);return function h(){}}".toList
    let heads (p : Parsed) := p.script.nodes.filterMap fun n =>
      if n.form = .forStatement then judged? n else none
    ∃ p, s.parse = .ok p ∧ (∀ n ∈ p.script.nodes, n.hasParts = true) ∧
      (∀ t ∈ p.script.body, t.form.category = .statement ∧
        (statement .default .declaration (some "x") (rewrittenBelow .default p.comments t)).2 ≠ []) ∧
      (heads p).map Tree.shape = [.variableFunction "g"] ∧
      (∀ head ∈ heads p, head.form.category ≠ .statement ∧
        (loopHead .default (.variableFunction "g") (some "y")
          (rewrittenBelow .default p.comments head)).2 ≠ []) ∧
      ((p.script.wrapFunctions p.comments .default .standard).2.map Site.outcome).Perm
        [(.declaration, true), (.initializer, true), (.returned, false)] := by
  intro s heads
  have hread : (s.parse.toOption.any fun p =>
      p.script.nodes.all Tree.hasParts &&
        (p.script.body.all fun t => t.form.category == .statement && t.hasParts &&
          Shape.classify .standard t == .declaration &&
          signatureAt p.comments .declaration t.span.lo == some "x") &&
        (heads p).map Tree.shape == [.variableFunction "g"] &&
        ((heads p).all fun head => head.form.category != .statement &&
          Shape.classify .standard head == .variableFunction "g" &&
          signatureAt p.comments (.variableFunction "g") head.span.lo == some "y") &&
        p.script.nodes.filterMap (classified? p.comments) ==
          [(.declaration, true), (.initializer, true), (.returned, false)]) = true := by
    decide +kernel
  obtain ⟨p, hparse, htest⟩ := Source.exists_parse_eq_ok hread
  simp only [Bool.and_eq_true, List.all_eq_true, beq_iff_eq, bne_iff_ne] at htest
  obtain ⟨⟨⟨⟨hparts, hbody⟩, hshapes⟩, hheads⟩, hrecords⟩ := htest
  obtain ⟨-, hstatement, hhead, hscript⟩ := classify_rewrittenBelow .default p.comments
  refine ⟨p, hparse, hparts, fun t ht => ?_, hshapes, fun head hmem => ?_, ?_⟩
  · obtain ⟨⟨⟨hcategory, ht⟩, hshape⟩, hsignature⟩ := hbody t ht
    have hsites := (hstatement t hcategory ht).2.1
    simp only [hshape, hsignature] at hsites
    exact ⟨hcategory, fun hnil => absurd (hsites.mp hnil) (by simp)⟩
  · obtain ⟨⟨hcategory, hshape⟩, hsignature⟩ := hheads head hmem
    have hsites := (hhead Span.none head [] hcategory).2.1
    simp only [hshape, hsignature] at hsites
    exact ⟨hcategory, fun hnil => absurd (hsites.mp hnil) (by simp)⟩
  · rw [← hrecords]
    exact hscript p.script hparts

end Wrap

end Contracts
