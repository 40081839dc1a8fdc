import Contracts.Proofs.Wrap.Pass

/-!
# What becomes of one node

`Step config comments t cs u sites` says what becomes of one node `t`, given
what its children have become: it turns into `u`, and `sites` is what is noted
about it. There are four rules for the sites with a signature, one for the sites
without, and one for all other nodes; the last two only put the new children in
place of the old ones. A site is judged as it stands in the script, never as it
is after its children were rewritten. The calls and the labels are written out
here, apart from the pass.

The pass makes a step of this kind at every node (`step_node`), and a node has
one step only (`Step.unique`).
-/

namespace Contracts

/-- The kind of a site and whether its function was wrapped. -/
def Site.outcome (site : Site) : SiteKind × Bool :=
  (site.kind, site.wrapped.isSome)

namespace Wrap

/-- The signature in the comments that lead the token at a position. -/
def signature? (comments : List Comment) (position : Nat) : Option String :=
  Signature.find? (leadingComments comments position)

/-- What is to be noted about a node: if it is a site, of which kind it is and
whether it has a signature. -/
def outcome? (comments : List Comment) (t : Tree) : Option (SiteKind × Bool) :=
  t.site?.map fun (kind, position) => (kind, (signature? comments position).isSome)

/-- What a function is handed to: the checker, or its method if one is configured. -/
def callee (config : Config) : Tree :=
  config.checkMethod.elim (Build.lookup config.checker) (Build.member (Build.lookup config.checker))

/-- The call that hands a function over under a label. -/
def handed (config : Config) (label : String) (function : Tree) : Tree :=
  Build.call (callee config) [Build.string label, function]

/-- A declaration that fills the cache of its function with `checked` and
forwards to it. -/
def forwarding (config : Config) (name : String) (s : Span) (called checked : Tree) : Tree :=
  let cache := Build.member (Build.identifier name) config.cacheProperty
  .node (.functionDeclaration .plain) s
    [called, Build.parameters [], Build.block
      [Build.expressionStatement (Build.assignment cache (Build.binary "||" cache checked)),
        Build.returnStatement (some
          (Build.call (Build.member cache "apply") [Build.this, Build.identifier "arguments"]))]]

inductive Step (config : Config) (comments : List Comment) :
    Tree → List Tree → Tree → List Site → Prop where
  /-- A declaration forwards to its function, which is checked without its name. -/
  | declaration {m : Modifiers} {s r : Span} {name text : String} {ds : List Tree}
      {params body called' params' body' : Tree} (h : signature? comments s.lo = some text) :
      Step config comments
        (.node (.functionDeclaration m) s [.node (.name name) r ds, params, body])
        [called', params', body']
        (forwarding config name s called' (handed config (name ++ " :: " ++ text)
          (.node (.functionExpression m) s [Tree.absent, params', body'])))
        [⟨.declaration, some name⟩]
  /-- The function that the variable of a statement is initialized with is checked. -/
  | initializer {k : VariableKind} {s r : Span} {p init p' init' : Tree} {name text : String}
      (h : signature? comments s.lo = some text) (hp : p.boundName? = some name)
      (hinit : init.isFunction = true) :
      Step config comments
        (.node (.variableStatement k) s [.node .declarator r [p, init]])
        [.node .declarator r [p', init']]
        (.node (.variableStatement k) s [.node .declarator r
          [p', handed config (init.functionName?.getD name ++ " :: " ++ text) init']])
        [⟨.initializer, some (init.functionName?.getD name ++ " :: " ++ text)⟩]
  /-- The same for the variable in the head of a loop with three parts. -/
  | loopInitializer {k : VariableKind} {s q r : Span} {p init p' init' : Tree}
      {rest rest' : List Tree} {name text : String}
      (h : signature? comments q.lo = some text) (hp : p.boundName? = some name)
      (hinit : init.isFunction = true) :
      Step config comments
        (.node .forStatement s (.node (.variableHead k) q [.node .declarator r [p, init]] :: rest))
        (.node (.variableHead k) q [.node .declarator r [p', init']] :: rest')
        (.node .forStatement s (.node (.variableHead k) q [.node .declarator r
          [p', handed config (init.functionName?.getD name ++ " :: " ++ text) init']] :: rest'))
        [⟨.initializer, some (init.functionName?.getD name ++ " :: " ++ text)⟩]
  /-- A function that is returned is checked. -/
  | returned {s : Span} {value value' : Tree} {text : String}
      (h : signature? comments s.lo = some text) (hvalue : value.isFunction = true) :
      Step config comments (.node .returnStatement s [value]) [value']
        (.node .returnStatement s
          [handed config (value.functionName?.elim text (· ++ " :: " ++ text)) value'])
        [⟨.returned, some (value.functionName?.elim text (· ++ " :: " ++ text))⟩]
  /-- A function without a signature is noted only. -/
  | unsigned {f : Form} {s : Span} {cs cs' : List Tree} {kind : SiteKind} {position : Nat}
      (hsite : (Tree.node f s cs).site? = some (kind, position))
      (h : signature? comments position = none) :
      Step config comments (.node f s cs) cs' (.node f s cs') [⟨kind, none⟩]
  /-- Everything else is copied. -/
  | elsewhere {f : Form} {s : Span} {cs cs' : List Tree}
      (hsite : (Tree.node f s cs).site? = none) :
      Step config comments (.node f s cs) cs' (.node f s cs') []

section Pass

variable (config : Config) (comments : List Comment)

theorem checker_eq_callee : checker config = callee config := by
  rw [checker, callee]
  cases config.checkMethod <;> rfl

theorem check_eq_handed (label : String) (function : Tree) :
    check config label function = handed config label function := by
  rw [check, handed, checker_eq_callee]

theorem returnLabel_eq (text : String) (value : Tree) :
    returnLabel text value = value.functionName?.elim text (· ++ " :: " ++ text) := by
  rw [returnLabel]
  cases value.functionName? <;> rfl

/-- What the pass does to the one declarator of a variable that is initialized with
a function. -/
theorem variableDeclaration_sole (name text : String) (f : Form) (s r : Span) (p init : Tree)
    (hinit : init.isFunction = true) :
    variableDeclaration config name (some text)
      (.node f s [.node .declarator r [p, wrapped config comments init]]) =
      (.node f s [.node .declarator r
          [p, handed config (init.functionName?.getD name ++ " :: " ++ text)
            (wrapped config comments init)]],
        [⟨.initializer, some (init.functionName?.getD name ++ " :: " ++ text)⟩]) := by
  have hpresent : (wrapped config comments init).isAbsent = false :=
    Tree.not_isAbsent_of_isFunction (by rw [wrapped_isFunction, hinit])
  simp [variableDeclaration, declarator, declaratorLabel?, hpresent, check_eq_handed,
    initializerLabel, labelFor, wrapped_functionName?]

/-- The pass makes a step of `Step` at a node, and notes it after what it notes
about the children. -/
def MakesStep (t : Tree) : Prop :=
  ∃ sites, Step config comments t (t.children.map (wrapped config comments))
      (wrapped config comments t) sites ∧
    noted config comments t = t.children.flatMap (noted config comments) ++ sites

theorem step_copy {f : Form} (hf : f.isSiteForm = false) (s : Span) (cs : List Tree) :
    MakesStep config comments (.node f s cs) := by
  refine ⟨[], ?_, ?_⟩
  · rw [wrapped_copy config comments hf]
    exact .elsewhere (Tree.site?_eq_none hf s cs)
  · rw [noted, tree_copy config comments hf, List.append_nil]
    rfl

/-- The step at a statement is what `statement` makes of it. -/
theorem makesStep_of_statement_eq {f : Form} (hcategory : f.category = .statement)
    (hfor : f ≠ .forStatement) {s : Span} {cs cs' : List Tree} {u : Tree} {sites : List Site}
    (hcs : cs.map (wrapped config comments) = cs')
    (hmade : statement config (Tree.node f s cs).shape
      (signatureAt comments (Tree.node f s cs).shape s.lo) (.node f s cs') = (u, sites))
    (hstep : Step config comments (.node f s cs) cs' u sites) :
    MakesStep config comments (.node f s cs) := by
  subst hcs
  have htree := tree_statement config comments hcategory hfor s cs
  simp only [hmade] at htree
  refine ⟨sites, ?_, ?_⟩
  · rw [wrapped, htree]
    exact hstep
  · rw [noted, htree]
    rfl

theorem step_return (s : Span) (cs : List Tree) :
    MakesStep config comments (.node .returnStatement s cs) := by
  match cs with
  | [] => exact makesStep_of_statement_eq config comments rfl (by simp) rfl rfl (.elsewhere rfl)
  | [value] =>
      by_cases hvalue : value.isFunction = true
      · have hshape : (Tree.node .returnStatement s [value]).shape = .returnFunction := by
          simp [Tree.shape, hvalue]
        have hsite : (Tree.node .returnStatement s [value]).site? = some (.returned, s.lo) := by
          simp [Tree.site?, hvalue]
        have hat : signatureAt comments .returnFunction s.lo = signature? comments s.lo := rfl
        cases hsignature : signature? comments s.lo with
        | none =>
            refine makesStep_of_statement_eq config comments rfl (by simp) rfl ?_
              (.unsigned hsite hsignature)
            rw [hshape, hat, hsignature]
            rfl
        | some text =>
            refine makesStep_of_statement_eq config comments rfl (by simp) rfl ?_
              (.returned hsignature hvalue)
            rw [hshape, hat, hsignature, ← returnLabel_eq, ← check_eq_handed,
              ← returnLabel_wrapped config comments]
            rfl
      · have hshape : (Tree.node .returnStatement s [value]).shape = .other := by
          simp [Tree.shape, hvalue]
        refine makesStep_of_statement_eq config comments rfl (by simp) rfl ?_
          (.elsewhere (by simp [Tree.site?, hvalue]))
        rw [hshape]
        rfl
  | value :: second :: rest =>
      refine makesStep_of_statement_eq config comments rfl (by simp) rfl ?_ (.elsewhere rfl)
      generalize (Tree.node .returnStatement s (value :: second :: rest)).shape = shape
      cases shape <;> rfl

theorem step_variable (k : VariableKind) (s : Span) (cs : List Tree) :
    MakesStep config comments (.node (.variableStatement k) s cs) := by
  cases hsole : Tree.soleFunctionVariable? cs with
  | none =>
      have hshape : (Tree.node (.variableStatement k) s cs).shape = .other := by
        simp [Tree.shape, hsole]
      refine makesStep_of_statement_eq config comments rfl (by simp) rfl ?_
        (.elsewhere (by simp [Tree.site?, hsole]))
      rw [hshape]
      rfl
  | some name =>
      have hshape : (Tree.node (.variableStatement k) s cs).shape = .variableFunction name := by
        simp [Tree.shape, hsole]
      have hsite : (Tree.node (.variableStatement k) s cs).site? = some (.initializer, s.lo) := by
        simp [Tree.site?, hsole]
      have hat : signatureAt comments (.variableFunction name) s.lo = signature? comments s.lo :=
        rfl
      obtain ⟨r, p, init, rfl, hp, hinit⟩ := Tree.soleFunctionVariable?_eq_some hsole
      have hchildren : [Tree.node .declarator r [p, init]].map (wrapped config comments) =
          [.node .declarator r [wrapped config comments p, wrapped config comments init]] := by
        rw [List.map_singleton, wrapped_copy config comments rfl]
        rfl
      cases hsignature : signature? comments s.lo with
      | none =>
          refine makesStep_of_statement_eq config comments rfl (by simp) rfl ?_
            (.unsigned hsite hsignature)
          rw [hshape, hat, hsignature]
          rfl
      | some text =>
          refine makesStep_of_statement_eq config comments rfl (by simp) hchildren ?_
            (.initializer hsignature hp hinit)
          rw [hshape, hat, hsignature]
          exact variableDeclaration_sole config comments name text _ s r _ init hinit

/-- The step at a loop with three parts is what `loopHead` makes of its head. -/
theorem makesStep_of_loopHead_eq {s : Span} {head head' made : Tree} {rest : List Tree}
    {sites : List Site} (hhead : wrapped config comments head = head')
    (hmade : loopHead config head.shape (signatureAt comments head.shape head.span.lo) head' =
      (made, sites))
    (hstep : Step config comments (.node .forStatement s (head :: rest))
      (head' :: rest.map (wrapped config comments))
      (.node .forStatement s (made :: rest.map (wrapped config comments))) sites) :
    MakesStep config comments (.node .forStatement s (head :: rest)) := by
  subst hhead
  have htree := tree_loop config comments s head rest
  simp only [hmade] at htree
  refine ⟨sites, ?_, ?_⟩
  · rw [wrapped, htree]
    exact hstep
  · rw [noted, htree]
    rfl

theorem loopHead_of_ne {t : Tree} (ht : ∀ k, t.form ≠ .variableHead k) (shape : Shape)
    (signature : Option String) : loopHead config shape signature t = (t, []) := by
  unfold loopHead
  split
  next k q ds => exact absurd rfl (ht k)
  next => rfl

theorem step_loop (s : Span) (cs : List Tree) :
    MakesStep config comments (.node .forStatement s cs) := by
  match cs with
  | [] =>
      refine ⟨[], ?_, ?_⟩
      · rw [wrapped, tree_loop_nil]
        exact .elsewhere rfl
      · rw [noted, tree_loop_nil]
        rfl
  | head :: rest =>
      by_cases hhead : ∃ k, head.form = .variableHead k
      · obtain ⟨f, q, ds⟩ := head
        obtain ⟨k, rfl⟩ := hhead
        cases hsole : Tree.soleFunctionVariable? ds with
        | none =>
            have hshape : (Tree.node (.variableHead k) q ds).shape = .other := by
              simp [Tree.shape, hsole]
            refine makesStep_of_loopHead_eq config comments rfl ?_
              (.elsewhere (by simp [Tree.site?, hsole]))
            rw [hshape]
            rfl
        | some name =>
            have hshape : (Tree.node (.variableHead k) q ds).shape = .variableFunction name := by
              simp [Tree.shape, hsole]
            have hsite : (Tree.node .forStatement s (.node (.variableHead k) q ds :: rest)).site? =
                some (.initializer, q.lo) := by
              simp [Tree.site?, hsole]
            have hat : signatureAt comments (.variableFunction name) q.lo =
                signature? comments q.lo := rfl
            obtain ⟨r, p, init, rfl, hp, hinit⟩ := Tree.soleFunctionVariable?_eq_some hsole
            have hnew : wrapped config comments
                (.node (.variableHead k) q [.node .declarator r [p, init]]) =
                .node (.variableHead k) q [.node .declarator r
                  [wrapped config comments p, wrapped config comments init]] := by
              rw [wrapped_copy config comments rfl, List.map_singleton,
                wrapped_copy config comments rfl]
              rfl
            cases hsignature : signature? comments q.lo with
            | none =>
                refine makesStep_of_loopHead_eq config comments hnew ?_
                  (.unsigned hsite hsignature)
                rw [hshape, Tree.span_node, hat, hsignature]
                rfl
            | some text =>
                refine makesStep_of_loopHead_eq config comments hnew ?_
                  (.loopInitializer hsignature hp hinit)
                rw [hshape, Tree.span_node, hat, hsignature]
                exact variableDeclaration_sole config comments name text _ q r _ init hinit
      · have hnew : ∀ k, (wrapped config comments head).form ≠ .variableHead k := by
          intro k hk
          exact hhead ⟨k, ((copies_wrapped config comments).form_eq rfl rfl).mp hk⟩
        refine makesStep_of_loopHead_eq config comments rfl (loopHead_of_ne config hnew _ _)
          (.elsewhere ?_)
        unfold Tree.site?
        split
        all_goals simp_all

/-- A function declaration has a name after its children were rewritten only if it
had one before. -/
theorem eq_of_map_wrapped_eq {cs : List Tree} {name : String} {r : Span} {ds : List Tree}
    {params body : Tree}
    (h : cs.map (wrapped config comments) = [.node (.name name) r ds, params, body]) :
    ∃ r' ds' params' body', cs = [.node (.name name) r' ds', params', body'] := by
  have hlength : cs.length = 3 := by simpa using congrArg List.length h
  obtain ⟨⟨f, r', ds'⟩, params', body', rfl⟩ := List.length_eq_three.mp hlength
  have hcalled : wrapped config comments (.node f r' ds') = .node (.name name) r ds := by
    simpa using congrArg List.head? h
  have hname : (Tree.node f r' ds').form = .name name :=
    ((copies_wrapped config comments).form_eq rfl rfl).mp (by rw [hcalled, Tree.form_node])
  rw [Tree.form_node] at hname
  exact ⟨r', ds', params', body', by rw [hname]⟩

theorem step_declaration (m : Modifiers) (s : Span) (cs : List Tree) :
    MakesStep config comments (.node (.functionDeclaration m) s cs) := by
  by_cases hcs : ∃ name r ds params body, cs = [.node (.name name) r ds, params, body]
  · obtain ⟨name, r, ds, params, body, rfl⟩ := hcs
    have hchildren : [Tree.node (.name name) r ds, params, body].map (wrapped config comments) =
        [.node (.name name) r (ds.map (wrapped config comments)), wrapped config comments params,
          wrapped config comments body] := by
      rw [List.map_cons, wrapped_copy config comments rfl]
      rfl
    have hshape : (Tree.node (.functionDeclaration m) s
        [.node (.name name) r ds, params, body]).shape = .declaration := rfl
    have hat : signatureAt comments .declaration s.lo = signature? comments s.lo := rfl
    cases hsignature : signature? comments s.lo with
    | none =>
        refine makesStep_of_statement_eq config comments rfl (by simp) hchildren ?_
          (.unsigned rfl hsignature)
        rw [hshape, hat, hsignature]
        rfl
    | some text =>
        refine makesStep_of_statement_eq config comments rfl (by simp) hchildren ?_
          (.declaration hsignature)
        rw [hshape, hat, hsignature, ← check_eq_handed]
        rfl
  · refine makesStep_of_statement_eq config comments rfl (by simp) rfl ?_ (.elsewhere ?_)
    · unfold statement
      split
      next _ name r ds params body _ heq =>
          have hmap : cs.map (wrapped config comments) = [.node (.name name) r ds, params, body] :=
            (Tree.node.inj heq).2.2
          obtain ⟨r', ds', params', body', heq'⟩ := eq_of_map_wrapped_eq config comments hmap
          exact absurd ⟨name, r', ds', params', body', heq'⟩ hcs
      next heq => exact absurd heq (by simp)
      next heq => exact absurd heq (by simp)
      next => rfl
    · unfold Tree.site?
      split
      all_goals simp_all

theorem step_node (t : Tree) : MakesStep config comments t := by
  obtain ⟨f, s, cs⟩ := t
  cases f with
  | functionDeclaration m => exact step_declaration config comments m s cs
  | variableStatement k => exact step_variable config comments k s cs
  | forStatement => exact step_loop config comments s cs
  | returnStatement => exact step_return config comments s cs
  | _ => exact step_copy config comments rfl s cs

end Pass

namespace Step

variable {config : Config} {comments : List Comment}

/-- A step notes what is to be noted about its node. -/
theorem noted_eq {t u : Tree} {cs : List Tree} {sites : List Site}
    (h : Step config comments t cs u sites) :
    sites.map Site.outcome = (outcome? comments t).toList := by
  cases h with
  | declaration h => simp [outcome?, Site.outcome, Tree.site?_declaration, h]
  | initializer h hp hinit =>
      simp [outcome?, Site.outcome, Tree.site?_initializer hp hinit, h]
  | loopInitializer h hp hinit =>
      simp [outcome?, Site.outcome, Tree.site?_loopInitializer hp hinit, h]
  | returned h hvalue => simp [outcome?, Site.outcome, Tree.site?_returned hvalue, h]
  | unsigned hsite h => simp [outcome?, Site.outcome, hsite, h]
  | elsewhere hsite => simp [outcome?, hsite]

/-- A node that is noted without a signature, or not at all, is copied. -/
theorem eq_of_noted_false {t u : Tree} {cs : List Tree} {sites : List Site}
    (h : Step config comments t cs u sites)
    (hnoted : ∀ kind, (kind, true) ∉ sites.map Site.outcome) :
    u = .node t.form t.span cs := by
  cases h with
  | declaration h => exact absurd List.mem_cons_self (hnoted _)
  | initializer h => exact absurd List.mem_cons_self (hnoted _)
  | loopInitializer h => exact absurd List.mem_cons_self (hnoted _)
  | returned h => exact absurd List.mem_cons_self (hnoted _)
  | unsigned => rfl
  | elsewhere => rfl

theorem unique {t u v : Tree} {cs : List Tree} {sites sites' : List Site}
    (hu : Step config comments t cs u sites) (hv : Step config comments t cs v sites') :
    u = v := by
  -- Both steps note the same, so that either both copy the node or both wrap a function.
  have hnoted : sites.map Site.outcome = sites'.map Site.outcome := by
    rw [hu.noted_eq, hv.noted_eq]
  cases hu with
  | declaration h =>
      cases hv with
      | declaration h' =>
          obtain rfl := Option.some.inj (h.symm.trans h')
          rfl
      | unsigned => simp [Site.outcome] at hnoted
      | elsewhere => simp [Site.outcome] at hnoted
  | initializer h hp hinit =>
      cases hv with
      | initializer h' hp' hinit' =>
          obtain rfl := Option.some.inj (h.symm.trans h')
          obtain rfl := Option.some.inj (hp.symm.trans hp')
          rfl
      | unsigned => simp [Site.outcome] at hnoted
      | elsewhere => simp [Site.outcome] at hnoted
  | loopInitializer h hp hinit =>
      cases hv with
      | loopInitializer h' hp' hinit' =>
          obtain rfl := Option.some.inj (h.symm.trans h')
          obtain rfl := Option.some.inj (hp.symm.trans hp')
          rfl
      | unsigned => simp [Site.outcome] at hnoted
      | elsewhere => simp [Site.outcome] at hnoted
  | returned h hvalue =>
      cases hv with
      | returned h' hvalue' =>
          obtain rfl := Option.some.inj (h.symm.trans h')
          rfl
      | unsigned => simp [Site.outcome] at hnoted
      | elsewhere => simp [Site.outcome] at hnoted
  | unsigned hsite h =>
      refine (hv.eq_of_noted_false ?_).symm
      rw [← hnoted]
      simp [Site.outcome]
  | elsewhere hsite =>
      refine (hv.eq_of_noted_false ?_).symm
      rw [← hnoted]
      simp

end Step

end Wrap

end Contracts
