import Contracts.Proofs.Wrap.Site

/-!
# The equations of the wrapping pass

The pass is a fold that gives a tree together with what it notes. `wrapped` and
`noted` are its two halves. There is one equation for each way in which the pass
treats a node: `tree_statement` for statements, `tree_loop` for loops with three
parts, `tree_part` for what is no statement. From them follows that all nodes
that cannot be sites are copied (`copies_wrapped`), and so that the pass leaves
function values, and the labels made from their names, as they are.
-/

namespace Contracts

namespace Wrap

section Pass

variable (config : Config) (comments : List Comment)

/-- What the pass makes of a tree. -/
def wrapped (t : Tree) : Tree :=
  (tree config .standard comments t).1

/-- What the pass notes about a tree. -/
def noted (t : Tree) : List Site :=
  (tree config .standard comments t).2

theorem tree_node (f : Form) (s : Span) (cs : List Tree) :
    tree config .standard comments (.node f s cs) =
      node config .standard comments f s cs (cs.map (tree config .standard comments)) :=
  Tree.fold_node _ f s cs

theorem map_fst_tree (cs : List Tree) :
    (cs.map (tree config .standard comments)).map Prod.fst = cs.map (wrapped config comments) := by
  rw [List.map_map]
  rfl

theorem flatMap_snd_tree (cs : List Tree) :
    (cs.map (tree config .standard comments)).flatMap Prod.snd =
      cs.flatMap (noted config comments) := by
  rw [List.flatMap_map]
  rfl

theorem tree_statement {f : Form} (hcategory : f.category = .statement) (hfor : f ≠ .forStatement)
    (s : Span) (cs : List Tree) :
    tree config .standard comments (.node f s cs) =
      let shape := (Tree.node f s cs).shape
      let made := statement config shape (signatureAt comments shape s.lo)
        (.node f s (cs.map (wrapped config comments)))
      (made.1, cs.flatMap (noted config comments) ++ made.2) := by
  rw [tree_node]
  unfold node
  simp only [map_fst_tree, flatMap_snd_tree, hcategory, Shape.classify_standard]
  split
  next => exact absurd rfl hfor
  next => rfl

theorem tree_part {f : Form} (hcategory : f.category ≠ .statement) (s : Span) (cs : List Tree) :
    tree config .standard comments (.node f s cs) =
      (.node f s (cs.map (wrapped config comments)), cs.flatMap (noted config comments)) := by
  have hfor : f ≠ .forStatement := by
    rintro rfl
    exact hcategory rfl
  rw [tree_node]
  unfold node
  simp only [map_fst_tree, flatMap_snd_tree]
  split
  next => exact absurd rfl hfor
  next => rfl

theorem tree_loop (s : Span) (head : Tree) (rest : List Tree) :
    tree config .standard comments (.node .forStatement s (head :: rest)) =
      let made := loopHead config head.shape (signatureAt comments head.shape head.span.lo)
        (wrapped config comments head)
      (.node .forStatement s (made.1 :: rest.map (wrapped config comments)),
        (head :: rest).flatMap (noted config comments) ++ made.2) := by
  rw [tree_node]
  unfold node
  simp only [map_fst_tree, flatMap_snd_tree, Shape.classify_standard]
  rfl

theorem tree_loop_nil (s : Span) :
    tree config .standard comments (.node .forStatement s []) = (.node .forStatement s [], []) := by
  rw [tree_node]
  unfold node
  simp only [List.map_nil, Form.category, Shape.classify_standard]
  rfl

theorem tree_copy {f : Form} (hf : f.isSiteForm = false) (s : Span) (cs : List Tree) :
    tree config .standard comments (.node f s cs) =
      (.node f s (cs.map (wrapped config comments)), cs.flatMap (noted config comments)) := by
  by_cases hcategory : f.category = .statement
  · have hfor : f ≠ .forStatement := by
      rintro rfl
      exact absurd hf (by simp [Form.isSiteForm])
    rw [tree_statement config comments hcategory hfor, Tree.shape_eq_other hf hcategory]
    simp only [statement, List.append_nil]
  · exact tree_part config comments hcategory s cs

theorem wrapped_copy {f : Form} (hf : f.isSiteForm = false) (s : Span) (cs : List Tree) :
    wrapped config comments (.node f s cs) = .node f s (cs.map (wrapped config comments)) := by
  rw [wrapped, tree_copy config comments hf]

theorem variableDeclaration_form (name : String) (signature : Option String) (t : Tree) :
    (variableDeclaration config name signature t).1.form = t.form := by
  obtain ⟨f, s, cs⟩ := t
  cases signature with
  | none => rfl
  | some text => rfl

/-- A statement keeps its production, up to the modifiers of a function. -/
theorem statement_isSiteForm (shape : Shape) (signature : Option String) {f : Form}
    (hf : f.isSiteForm = true) (s : Span) (cs : List Tree) :
    (statement config shape signature (.node f s cs)).1.form.isSiteForm = true := by
  unfold statement
  split
  next =>
      cases signature with
      | none => exact hf
      | some text => rfl
  next =>
      rw [variableDeclaration_form]
      exact hf
  next =>
      cases signature with
      | none => exact hf
      | some text => rfl
  next => exact hf

/-- No node that is copied comes out of a node that can be a site. -/
theorem wrapped_isSiteForm {f : Form} (hf : f.isSiteForm = true) (s : Span) (cs : List Tree) :
    (wrapped config comments (.node f s cs)).form.isSiteForm = true := by
  have hcategory : f.category = .statement := by
    cases f with
    | functionDeclaration m => rfl
    | variableStatement k => rfl
    | forStatement => rfl
    | returnStatement => rfl
    | _ => exact absurd hf (by simp [Form.isSiteForm])
  by_cases hfor : f = .forStatement
  · subst hfor
    cases cs with
    | nil =>
        rw [wrapped, tree_loop_nil]
        rfl
    | cons head rest =>
        rw [wrapped, tree_loop]
        rfl
  · rw [wrapped, tree_statement config comments hcategory hfor]
    exact statement_isSiteForm config _ _ hf s _

theorem copies_wrapped :
    Tree.Copies (fun f => f.isSiteForm = false) (fun t u => u = wrapped config comments t) where
  copy := by
    rintro f s cs u hf rfl
    refine ⟨cs.map (wrapped config comments), wrapped_copy config comments hf s cs, ?_⟩
    rw [List.forall₂_map_right_iff, List.forall₂_same]
    exact fun _ _ => rfl
  other := by
    rintro f s cs u hf rfl
    rw [wrapped_isSiteForm config comments (by simpa using hf)]
    simp

theorem isSiteForm_of_isPassive {f : Form} (h : f.isPassive = true) : f.isSiteForm = false := by
  simp only [Form.isPassive, Bool.and_eq_true, Bool.not_eq_true'] at h
  exact h.1

theorem wrapped_isFunction (t : Tree) : (wrapped config comments t).isFunction = t.isFunction :=
  (copies_wrapped config comments).isFunction_eq (fun _ => isSiteForm_of_isPassive) rfl

theorem wrapped_functionName? (t : Tree) :
    (wrapped config comments t).functionName? = t.functionName? :=
  (copies_wrapped config comments).functionName?_eq (fun _ => isSiteForm_of_isPassive) rfl

/-- The initializer that a declarator has after the pass is a function if it was one before. -/
theorem isFunction_of_declarator_eq {r : Span} {p init p' init' : Tree}
    (hinit : init.isFunction = true)
    (h : wrapped config comments (.node .declarator r [p, init]) =
      .node .declarator r [p', init']) :
    init'.isFunction = true := by
  rw [wrapped_copy config comments rfl] at h
  obtain ⟨-, rfl⟩ : wrapped config comments p = p' ∧ wrapped config comments init = init' := by
    simpa using h
  rw [wrapped_isFunction, hinit]

/-- The same for the declarator in the head of a loop. -/
theorem isFunction_of_loop_eq {k : VariableKind} {q r : Span} {p init p' init' : Tree}
    {rest rest' : List Tree} (hinit : init.isFunction = true)
    (h : (Tree.node (.variableHead k) q [.node .declarator r [p, init]] :: rest).map
        (wrapped config comments) =
      .node (.variableHead k) q [.node .declarator r [p', init']] :: rest') :
    init'.isFunction = true := by
  have hhead := (List.cons.inj h).1
  rw [wrapped_copy config comments rfl] at hhead
  have hdeclarators := (Tree.node.inj hhead).2.2
  exact isFunction_of_declarator_eq config comments hinit (List.cons.inj hdeclarators).1

theorem returnLabel_wrapped (text : String) (value : Tree) :
    returnLabel text (wrapped config comments value) = returnLabel text value := by
  rw [returnLabel, returnLabel, wrapped_functionName?]

end Pass

end Wrap

theorem Script.wrapFunctions_standard (script : Script) (comments : List Comment)
    (config : Config) :
    script.wrapFunctions comments config .standard =
      ({ script with body := script.body.map (Wrap.wrapped config comments) },
        script.body.flatMap (Wrap.noted config comments)) := by
  simp only [wrapFunctions, Wrap.map_fst_tree, Wrap.flatMap_snd_tree]

end Contracts
