import Contracts.Proofs.Wrap.Counting

/-!
# The labels of checked functions

`Tree.handover?` says of every site which function can be handed to the checker there, under which
name, and where its signature is looked for. If there is a signature, the output holds a call of the
checker with the label made of both and the function as the pass leaves it
(`Wrap.handed_mem_nodes_wrapped`). An inner call stays where it is when the functions around it are
wrapped, since all that a step puts in the place of old nodes are no calls.
-/

namespace Contracts

/-- A function that can be handed to the checker. -/
structure Handover where
  /-- The position of the token whose leading comments may carry the signature. -/
  position : Nat
  /-- The name in front of the signature in the label, if the label has one. -/
  name : Option String
  function : Tree

namespace Handover

/-- The label of the function, given its signature. -/
def label (h : Handover) (signature : String) : String :=
  h.name.elim signature (· ++ " :: " ++ signature)

end Handover

namespace Tree

/-- The function that one variable is initialized with. It is called by its own name, or else by
that of the variable. -/
def initializer? (position : Nat) : List Tree → Option Handover
  | [node .declarator _ [p, init]] =>
    if init.isFunction then
      p.boundName?.map fun name => ⟨position, some (init.functionName?.getD name), init⟩
    else none
  | _ => none

/-- The function that is declared, bound or returned at a node. A declared function loses its name
when it is handed over. -/
def handover? : Tree → Option Handover
  | node (.functionDeclaration m) s [node (.name name) _ _, params, body] =>
    some ⟨s.lo, some name, node (.functionExpression m) s [absent, params, body]⟩
  | node (.variableStatement _) s ds => initializer? s.lo ds
  | node .forStatement _ (node (.variableHead _) s ds :: _) => initializer? s.lo ds
  | node .returnStatement s [value] =>
    if value.isFunction then some ⟨s.lo, value.functionName?, value⟩ else none
  | _ => none

theorem initializer?_eq (position : Nat) (ds : List Tree) :
    (initializer? position ds).map Handover.position =
      (soleFunctionVariable? ds).map fun _ => position := by
  unfold initializer?
  split
  next s p init =>
      rw [soleFunctionVariable?, functionVariable?]
      split
      next =>
          rw [Option.map_map]
          rfl
      next => rfl
  next hds =>
      cases hsole : soleFunctionVariable? ds with
      | none => rfl
      | some name =>
          obtain ⟨s, p, init, rfl, -⟩ := soleFunctionVariable?_eq_some hsole
          exact absurd rfl (hds s p init)

theorem initializer?_sole {p init : Tree} {name : String} (hp : p.boundName? = some name)
    (hinit : init.isFunction = true) (position : Nat) (r : Span) :
    initializer? position [node .declarator r [p, init]] =
      some ⟨position, some (init.functionName?.getD name), init⟩ := by
  rw [initializer?, if_pos hinit, hp]
  rfl

/-- Functions are handed over at the sites. -/
theorem position_handover? (t : Tree) :
    t.handover?.map Handover.position = t.site?.map Prod.snd := by
  unfold handover?
  split
  next => rfl
  next k s ds =>
      rw [initializer?_eq, site?, Option.map_map]
      rfl
  next r k s ds rest =>
      rw [initializer?_eq, site?, Option.map_map]
      rfl
  next s value =>
      rw [site?]
      split
      next => rfl
      next => rfl
  next hdeclaration hvariable hloop hreturn =>
      unfold site?
      split
      next m s name r ds params body => exact absurd rfl (hdeclaration m s name r ds params body)
      next k s ds => exact absurd rfl (hvariable k s ds)
      next s k q ds rest => exact absurd rfl (hloop s k q ds rest)
      next s value => exact absurd rfl (hreturn s value)
      next => rfl

theorem exists_handover? {t : Tree} {kind : SiteKind} {position : Nat}
    (h : t.site? = some (kind, position)) :
    ∃ found, t.handover? = some found ∧ found.position = position := by
  have hposition := t.position_handover?
  rw [h] at hposition
  exact Option.map_eq_some_iff.mp hposition

theorem self_mem_nodes (t : Tree) : t ∈ t.nodes := by
  obtain ⟨f, s, cs⟩ := t
  rw [nodes_node]
  exact List.mem_cons_self

theorem mem_nodes_of_mem {f : Form} {s : Span} {cs : List Tree} {c n : Tree} (hc : c ∈ cs)
    (hn : n ∈ c.nodes) : n ∈ (node f s cs).nodes := by
  rw [nodes_node]
  exact List.mem_cons_of_mem _ (List.mem_flatMap.mpr ⟨c, hc, hn⟩)

/-- A node of another production than the root is below it. -/
theorem exists_of_mem_nodes {f : Form} {s : Span} {cs : List Tree} {n : Tree} (hn : n.form ≠ f)
    (h : n ∈ (node f s cs).nodes) : ∃ c ∈ cs, n ∈ c.nodes := by
  rw [nodes_node, List.mem_cons] at h
  rcases h with rfl | h
  · exact absurd rfl hn
  · exact List.mem_flatMap.mp h

end Tree

namespace Wrap

variable {config : Config} {comments : List Comment}

theorem mem_nodes_handed {label : String} {function n : Tree} (h : n ∈ function.nodes) :
    n ∈ (handed config label function).nodes :=
  Tree.mem_nodes_of_mem (by simp) h

/-- What the forwarding declaration holds: the name of the function, and what fills its cache. -/
theorem mem_nodes_forwarding {name : String} {s : Span} {called checked n : Tree}
    (h : n ∈ called.nodes ∨ n ∈ checked.nodes) :
    n ∈ (forwarding config name s called checked).nodes := by
  rcases h with h | h
  · exact Tree.mem_nodes_of_mem (by simp) h
  · rw [forwarding]
    refine Tree.mem_nodes_of_mem (.tail _ (.tail _ (.head _))) ?_
    refine Tree.mem_nodes_of_mem (.head _) (Tree.mem_nodes_of_mem (.head _) ?_)
    exact Tree.mem_nodes_of_mem (.tail _ (.head _)) (Tree.mem_nodes_of_mem (.tail _ (.head _)) h)

theorem mem_nodes_declarator {r : Span} {p init n : Tree} {label : String} (hn : n.form = .call)
    (h : n ∈ (Tree.node .declarator r [p, init]).nodes) :
    n ∈ (Tree.node .declarator r [p, handed config label init]).nodes := by
  obtain ⟨c, hc, hmem⟩ := Tree.exists_of_mem_nodes (by simp [hn]) h
  rw [List.mem_cons, List.mem_singleton] at hc
  rcases hc with rfl | rfl
  · exact Tree.mem_nodes_of_mem (.head _) hmem
  · exact Tree.mem_nodes_of_mem (.tail _ (.head _)) (mem_nodes_handed hmem)

/-- A call that one of the children holds is still there after the step. -/
theorem Step.mem_nodes {t u c n : Tree} {cs : List Tree} {sites : List Site}
    (h : Step config comments t cs u sites) (hn : n.form = .call) (hc : c ∈ cs)
    (hmem : n ∈ c.nodes) : n ∈ u.nodes := by
  cases h with
  | declaration h =>
      rw [List.mem_cons, List.mem_cons, List.mem_singleton] at hc
      rcases hc with rfl | rfl | rfl
      · exact mem_nodes_forwarding (.inl hmem)
      · exact mem_nodes_forwarding (.inr (mem_nodes_handed
          (Tree.mem_nodes_of_mem (.tail _ (.head _)) hmem)))
      · exact mem_nodes_forwarding (.inr (mem_nodes_handed
          (Tree.mem_nodes_of_mem (.tail _ (.tail _ (.head _))) hmem)))
  | initializer h hp hinit =>
      obtain rfl := List.mem_singleton.mp hc
      exact Tree.mem_nodes_of_mem (.head _) (mem_nodes_declarator hn hmem)
  | loopInitializer h hp hinit =>
      rw [List.mem_cons] at hc
      rcases hc with rfl | hc
      · obtain ⟨d, hd, hmem⟩ := Tree.exists_of_mem_nodes (by simp [hn]) hmem
        obtain rfl := List.mem_singleton.mp hd
        exact Tree.mem_nodes_of_mem (.head _)
          (Tree.mem_nodes_of_mem (.head _) (mem_nodes_declarator hn hmem))
      · exact Tree.mem_nodes_of_mem (.tail _ hc) hmem
  | returned h hvalue =>
      obtain rfl := List.mem_singleton.mp hc
      exact Tree.mem_nodes_of_mem (.head _) (mem_nodes_handed hmem)
  | unsigned hsite h => exact Tree.mem_nodes_of_mem hc hmem
  | elsewhere hsite => exact Tree.mem_nodes_of_mem hc hmem

/-- The step at a site with a signature makes a check with its label. -/
theorem Step.handed_mem {f : Form} {s : Span} {cs : List Tree} {u : Tree} {sites : List Site}
    (hstep : Step config comments (.node f s cs) (cs.map (wrapped config comments)) u sites)
    {h : Handover} (hh : (Tree.node f s cs).handover? = some h) {signature : String}
    (hsignature : signature? comments h.position = some signature) :
    handed config (h.label signature) (wrapped config comments h.function) ∈ u.nodes := by
  have hposition := Tree.position_handover? (.node f s cs)
  rw [hh] at hposition
  generalize hcs : cs.map (wrapped config comments) = cs' at hstep
  cases hstep with
  | declaration htext =>
      rename_i m r name text ds params body called' params' body'
      obtain rfl := Option.some.inj hh
      obtain rfl := Option.some.inj (htext.symm.trans hsignature)
      obtain ⟨-, rfl, rfl⟩ : wrapped config comments (.node (.name name) r ds) = called' ∧
          wrapped config comments params = params' ∧ wrapped config comments body = body' := by
        simpa using hcs
      have habsent : wrapped config comments Tree.absent = Tree.absent :=
        wrapped_copy config comments rfl Span.none []
      refine mem_nodes_forwarding (.inr ?_)
      rw [wrapped_copy config comments rfl, List.map_cons, List.map_cons, List.map_cons, habsent]
      exact Tree.self_mem_nodes _
  | initializer htext hp hinit =>
      rw [Tree.handover?, Tree.initializer?_sole hp hinit] at hh
      obtain rfl := Option.some.inj hh
      obtain rfl := Option.some.inj (htext.symm.trans hsignature)
      rw [List.map_singleton, wrapped_copy config comments rfl] at hcs
      obtain ⟨rfl, rfl⟩ : _ ∧ _ := by simpa using hcs
      exact Tree.mem_nodes_of_mem (.head _)
        (Tree.mem_nodes_of_mem (.tail _ (.head _)) (Tree.self_mem_nodes _))
  | loopInitializer htext hp hinit =>
      rw [Tree.handover?, Tree.initializer?_sole hp hinit] at hh
      obtain rfl := Option.some.inj hh
      obtain rfl := Option.some.inj (htext.symm.trans hsignature)
      rw [List.map_cons, wrapped_copy config comments rfl, List.map_singleton,
        wrapped_copy config comments rfl] at hcs
      obtain ⟨⟨rfl, rfl⟩, rfl⟩ : (_ ∧ _) ∧ _ := by simpa using hcs
      exact Tree.mem_nodes_of_mem (.head _) (Tree.mem_nodes_of_mem (.head _)
        (Tree.mem_nodes_of_mem (.tail _ (.head _)) (Tree.self_mem_nodes _)))
  | returned htext hvalue =>
      rw [Tree.handover?, if_pos hvalue] at hh
      obtain rfl := Option.some.inj hh
      obtain rfl := Option.some.inj (htext.symm.trans hsignature)
      obtain rfl : wrapped config comments _ = _ := by simpa using hcs
      exact Tree.mem_nodes_of_mem (.head _) (Tree.self_mem_nodes _)
  | unsigned hsite hnone =>
      rw [hsite] at hposition
      obtain rfl : h.position = _ := Option.some.inj hposition
      rw [hnone] at hsignature
      exact absurd hsignature (by simp)
  | elsewhere hsite =>
      rw [hsite] at hposition
      exact absurd hposition (by simp)

/-- Every function with a signature is handed over under its label, however deep it stands. -/
theorem handed_mem_nodes_wrapped {t n : Tree} (hn : n ∈ t.nodes) {h : Handover}
    (hh : n.handover? = some h) {signature : String}
    (hsignature : signature? comments h.position = some signature) :
    handed config (h.label signature) (wrapped config comments h.function) ∈
      (wrapped config comments t).nodes := by
  induction t using Tree.induction with
  | h f s cs ih =>
      obtain ⟨sites, hstep, -⟩ := step_node config comments (.node f s cs)
      rw [Tree.nodes_node, List.mem_cons] at hn
      rcases hn with rfl | hn
      · exact hstep.handed_mem hh hsignature
      · obtain ⟨c, hc, hnc⟩ := List.mem_flatMap.mp hn
        exact hstep.mem_nodes rfl (List.mem_map_of_mem hc) (ih c hc hnc)

end Wrap

theorem Script.handed_mem_nodes_wrapFunctions {script : Script} {comments : List Comment}
    {config : Config} {n : Tree} (hn : n ∈ script.nodes) {h : Handover}
    (hh : n.handover? = some h) {signature : String}
    (hsignature : Wrap.signature? comments h.position = some signature) :
    Wrap.handed config (h.label signature) (Wrap.wrapped config comments h.function) ∈
      (script.wrapFunctions comments config .standard).1.nodes := by
  obtain ⟨t, ht, hnt⟩ := List.mem_flatMap.mp hn
  rw [wrapFunctions_standard, nodes]
  exact List.mem_flatMap.mpr
    ⟨_, List.mem_map_of_mem ht, Wrap.handed_mem_nodes_wrapped hnt hh hsignature⟩

end Contracts
