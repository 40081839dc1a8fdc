import Contracts.Proofs.Wrap.Checks

/-!
# Taking the checks out again

`unwrap` replaces every check by the function it is given, and every forwarding
declaration by a declaration of the function that it forwards to. It knows both
by the nodes that have no place in any file: the call of a check, and the body
of a forwarding declaration.

On a tree in which nothing looks like this before, unwrapping undoes wrapping
(`unwrap_wrapped`). Both passes work from the leaves to the root, so that the
function inside a check has been unwrapped when the check is taken away.
-/

namespace Contracts

namespace Wrap

/-- The function that the body of a forwarding declaration fills its cache with. -/
def forwarded? : Tree → Option Tree
  | .node (.block _) s (.node .expressionStatement _ [.node (.assignment _) _
      [_, .node (.binary _) _ [_, function]]] :: _) => if s.isNone then some function else none
  | _ => none

/-- What a node is without checks, given what its children are. -/
def unwrapNode (config : Config) (f : Form) (s : Span) (cs below : List Tree) : Tree :=
  match f, below with
  | .call, [_, _, value] => if isCheck config (.node f s cs) then value else .node f s below
  | .functionDeclaration _, [called, _, block] =>
    match forwarded? block with
    | some (.node (.functionExpression m) _ [_, params, body]) =>
      .node (.functionDeclaration m) s [called, params, body]
    | _ => .node f s below
  | _, _ => .node f s below

/-- The tree without checks and forwarding declarations. -/
def unwrap (config : Config) (t : Tree) : Tree :=
  t.fold (unwrapNode config)

/-- Nothing in a tree looks as if it was made by the pass. -/
def Clean (config : Config) (t : Tree) : Prop :=
  t.Everywhere fun n => isCheck config n = false ∧ forwarded? n = none

section Unwrapping

variable (config : Config)

theorem unwrap_node (f : Form) (s : Span) (cs : List Tree) :
    unwrap config (.node f s cs) = unwrapNode config f s cs (cs.map (unwrap config)) :=
  Tree.fold_node _ f s cs

theorem unwrap_copy {f : Form} (hcall : f ≠ .call) (hdeclaration : ∀ m, f ≠ .functionDeclaration m)
    (s : Span) (cs : List Tree) :
    unwrap config (.node f s cs) = .node f s (cs.map (unwrap config)) := by
  rw [unwrap_node]
  unfold unwrapNode
  split
  next => exact absurd rfl hcall
  next => exact absurd rfl (hdeclaration _)
  next => rfl

theorem unwrap_handed (label : String) {value : Tree} (hvalue : value.isFunction = true) :
    unwrap config (handed config label value) = unwrap config value := by
  have hcheck := isCheck_handed config label hvalue
  rw [handed, Build.call, Build.make] at hcheck ⊢
  rw [unwrap_node]
  simp only [List.map_cons, List.map_nil, unwrapNode, hcheck, if_true]

theorem unwrap_forwarding (name label : String) (m : Modifiers) (s : Span)
    (called params body : Tree) :
    unwrap config (forwarding config name s called (handed config label
      (.node (.functionExpression m) s [Tree.absent, params, body]))) =
      .node (.functionDeclaration m) s
        [unwrap config called, unwrap config params, unwrap config body] := by
  have hfunction : unwrap config (handed config label
      (.node (.functionExpression m) s [Tree.absent, params, body])) =
      .node (.functionExpression m) s
        [unwrap config Tree.absent, unwrap config params, unwrap config body] := by
    rw [unwrap_handed config label rfl, unwrap_copy config (by simp) (by simp)]
    rfl
  have hspan : Span.none.isNone = true := rfl
  rw [forwarding, unwrap_node]
  simp [Build.block, Build.expressionStatement, Build.assignment, Build.binary, Build.make,
    unwrap_copy, unwrapNode, forwarded?, hfunction, hspan]

/-- A node that is no check and has no forwarding body stays. -/
theorem unwrapNode_eq {f : Form} {s : Span} {cs below : List Tree}
    (hcheck : isCheck config (.node f s cs) = false) (hbelow : ∀ c ∈ below, forwarded? c = none) :
    unwrapNode config f s cs below = .node f s below := by
  unfold unwrapNode
  split
  next => rw [if_neg (by simp [hcheck])]
  next called _ block =>
      rw [hbelow block (by simp)]
  next => rfl

theorem unwrap_variable {f : Form} (hcall : f ≠ .call)
    (hdeclaration : ∀ m, f ≠ .functionDeclaration m) (label : String) {init : Tree}
    (hinit : init.isFunction = true) (s r : Span) (p : Tree) :
    unwrap config (.node f s [.node .declarator r [p, handed config label init]]) =
      unwrap config (.node f s [.node .declarator r [p, init]]) := by
  have hdeclarator : unwrap config (.node .declarator r [p, handed config label init]) =
      unwrap config (.node .declarator r [p, init]) := by
    rw [unwrap_copy config (by simp) (by simp), unwrap_copy config (by simp) (by simp)]
    simp only [List.map_cons, List.map_nil, unwrap_handed config label hinit]
  rw [unwrap_copy config hcall hdeclaration, unwrap_copy config hcall hdeclaration]
  simp only [List.map_cons, List.map_nil, hdeclarator]

variable (comments : List Comment)

/-- A node is a check after its children were rewritten only if it was one before. -/
theorem isCheck_map_wrapped (f : Form) (s : Span) (cs : List Tree) :
    isCheck config (.node f s (cs.map (wrapped config comments))) =
      isCheck config (.node f s cs) := by
  by_cases hf : f = .call
  · subst hf
    rw [← wrapped_copy config comments rfl, isCheck_wrapped]
  · have hnode : ∀ cs, (Tree.node f s cs).form ≠ .call := fun _ => hf
    rw [isCheck_eq_false config (hnode _), isCheck_eq_false config (hnode _)]

variable {config comments}

/-- A step is undone if what became of the children is. -/
theorem Step.unwrap_eq {f : Form} {s : Span} {cs : List Tree} {u : Tree} {sites : List Site}
    (h : Step config comments (.node f s cs) (cs.map (wrapped config comments)) u sites)
    (hclean : Clean config (.node f s cs))
    (hcs : ∀ c ∈ cs, unwrap config (wrapped config comments c) = c) :
    unwrap config u = .node f s cs := by
  have hcheck := isCheck_map_wrapped config comments f s cs
  generalize hnew : cs.map (wrapped config comments) = cs' at h hcheck
  obtain ⟨hnode, hbelow⟩ := Tree.everywhere_node.mp hclean
  have hsame : unwrap config (.node f s cs') = .node f s cs := by
    have hback : cs'.map (unwrap config) = cs := by
      rw [← hnew, List.map_map]
      exact (List.map_congr_left hcs).trans (List.map_id cs)
    rw [unwrap_node, hback]
    refine unwrapNode_eq config (hcheck.trans hnode.1) fun c hc => ?_
    obtain ⟨g, r, ds⟩ := c
    exact (Tree.everywhere_node.mp (hbelow _ hc)).1.2
  -- At a variable the check is all that differs from `hsame`.
  cases h with
  | declaration h =>
      rename_i m r name text ds params body called' params' body'
      obtain ⟨rfl, rfl, rfl⟩ : wrapped config comments (.node (.name name) r ds) = called' ∧
          wrapped config comments params = params' ∧ wrapped config comments body = body' := by
        simpa using hnew
      rw [unwrap_forwarding, hcs _ (by simp), hcs _ (by simp), hcs _ (by simp)]
  | initializer h hp hinit =>
      have hinit' := isFunction_of_declarator_eq config comments hinit (List.cons.inj hnew).1
      rw [← hsame, unwrap_variable config (by simp) (by simp) _ hinit']
  | loopInitializer h hp hinit =>
      have hinit' := isFunction_of_loop_eq config comments hinit hnew
      rw [← hsame, unwrap_copy config (by simp) (by simp), unwrap_copy config (by simp) (by simp),
        List.map_cons, List.map_cons, unwrap_variable config (by simp) (by simp) _ hinit']
  | returned h hvalue =>
      rename_i value value' text
      obtain rfl : wrapped config comments value = value' := by simpa using hnew
      have hvalue' := (wrapped_isFunction config comments value).trans hvalue
      rw [unwrap_copy config (by simp) (by simp)]
      simp only [List.map_cons, List.map_nil, unwrap_handed config _ hvalue', hcs value (by simp)]
  | unsigned hsite h => exact hsame
  | elsewhere hsite => exact hsame

theorem unwrap_wrapped {t : Tree} (h : Clean config t) :
    unwrap config (wrapped config comments t) = t := by
  induction t using Tree.induction with
  | h f s cs ih =>
      obtain ⟨sites, hstep, -⟩ := step_node config comments (.node f s cs)
      exact hstep.unwrap_eq h fun c hc => ih c hc ((Tree.everywhere_node.mp h).2 c hc)

end Unwrapping

end Wrap

end Contracts
