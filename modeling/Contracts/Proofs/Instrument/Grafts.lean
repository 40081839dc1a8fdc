import Contracts.Proofs.Instrument.Independence
import Contracts.Proofs.Layout.Printed
import Contracts.Proofs.Wrap.Labels

/-!
# What instrumenting puts into a tree

A word that is a name in one function can be a keyword in the next, so the place of a
node is found by going down to it (`Tree.nodesIn`), and the scopes of a script have a
place each, in the order of their numbers (`Script.scopePlaces`).

`Graft pl t u` says that the tree `u` is the tree `t` of the place `pl` with other
trees put in, and only where they belong: statements in blocks and in place of
declarations, values in place of functions. The two passes of this library graft
(`Script.graftedBody_wrapFunctions`), as long as each directive is a statement of its
scope, and each function with a signature an argument where it is handed over.
-/

namespace Contracts

namespace Place

/-- The place of statements, of which the first one may ask for strict mode. -/
def ofBody (pl : Place) (body : List Tree) : Place :=
  body.head?.elim pl pl.after

/-- The place in a function, of whose children the last one is the body. -/
def ofFunction (pl : Place) (cs : List Tree) : Place :=
  pl.ofBody (cs.getLast?.elim [] Tree.children)

/-- The place of the first child of a node. The name or the key of a function is outside of it. -/
def ofFirst (pl : Place) : Form → Place
  | .classDeclaration | .classExpression => pl.strict
  | .staticBlock => pl.enterStaticBlock
  | _ => pl

/-- The place of the children of a node behind the first one. -/
def ofRest (pl : Place) (f : Form) (cs : List Tree) : Place :=
  match f with
  | .functionDeclaration m | .functionExpression m | .method _ m | .classMethod _ _ m =>
    (pl.enter m).ofFunction cs
  | .constructor => (pl.enter .plain).ofFunction cs
  | .arrow isAsync => (pl.enterArrow isAsync).ofFunction cs
  | .classField _ => pl.field
  | f => pl.ofFirst f

/-- The children of a node with their places. -/
def children (pl : Place) (f : Form) : List Tree → List (Place × Tree)
  | [] => []
  | c :: cs => (pl.ofFirst f, c) :: cs.map fun d => (pl.ofRest f (c :: cs), d)

theorem map_snd_children (pl : Place) (f : Form) (cs : List Tree) :
    (pl.children f cs).map Prod.snd = cs := by
  cases cs with
  | nil => rfl
  | cons c cs => simp [children, Function.comp_def]

theorem children_of_isScope {f : Form} (hf : f.isScope = true) (pl : Place) (cs : List Tree) :
    pl.children f cs = cs.map fun c => (pl, c) := by
  cases f with
  | block isStatement =>
      cases cs with
      | nil => rfl
      | cons c cs => rfl
  | _ => exact absurd hf (by simp [Form.isScope])

/-- A function of the name can be declared at the place. -/
structure Declares (pl : Place) (name : String) : Prop where
  word : Token.IsWord name
  unreserved : name ∉ reservedWords
  binds : pl.binds name = true

/-- Where the function of a node is handed over: a declared one stands in the body of the function
that forwards to it. -/
def ofHandover (pl : Place) (n : Tree) : Place :=
  match n.form with
  | .functionDeclaration _ => pl.enter .plain
  | _ => pl

end Place

namespace Tree

/-- All nodes of a tree with their places, parents before their children. -/
def nodesIn (t : Tree) : Place → List (Place × Tree) :=
  t.fold fun f s cs below pl =>
    (pl, node f s cs) :: (((pl.children f cs).map Prod.fst).zip below).flatMap fun p => p.2 p.1

theorem nodesIn_node (f : Form) (s : Span) (cs : List Tree) (pl : Place) :
    (node f s cs).nodesIn pl =
      (pl, node f s cs) :: (pl.children f cs).flatMap fun p => p.2.nodesIn p.1 := by
  have hbelow : cs.map nodesIn = (pl.children f cs).map fun p => p.2.nodesIn := by
    rw [← pl.map_snd_children f cs, List.map_map, pl.map_snd_children f cs]
    rfl
  rw [nodesIn, fold_node]
  change _ :: List.flatMap _ (((pl.children f cs).map Prod.fst).zip (cs.map nodesIn)) = _
  rw [hbelow, List.zip_map', List.flatMap_map]

/-- The nodes of trees with their places. -/
def allNodesIn (ts : List (Place × Tree)) : List (Place × Tree) :=
  ts.flatMap fun p => p.2.nodesIn p.1

theorem mem_nodes_of_mem_nodesIn {t : Tree} {pl : Place} {p : Place × Tree}
    (h : p ∈ t.nodesIn pl) : p.2 ∈ t.nodes := by
  induction t using Tree.induction generalizing pl with
  | h f s cs ih =>
      rw [nodesIn_node, List.mem_cons, List.mem_flatMap] at h
      rcases h with rfl | ⟨q, hq, hp⟩
      · exact self_mem_nodes _
      · have hmem : q.2 ∈ cs := by
          rw [← pl.map_snd_children f cs]
          exact List.mem_map_of_mem hq
        exact mem_nodes_of_mem hmem (ih q.2 hmem hp)

/-- The places of the blocks in trees, by the numbers of the blocks. -/
def blockPlaces (ts : List (Place × Tree)) : List Place :=
  ((allNodesIn ts).filter fun p => p.2.form.isScope).map Prod.fst

theorem blockPlaces_cons (p : Place × Tree) (ts : List (Place × Tree)) :
    blockPlaces (p :: ts) = blockPlaces [p] ++ blockPlaces ts := by
  simp [blockPlaces, allNodesIn]

theorem blockPlaces_node (f : Form) (s : Span) (cs : List Tree) (pl : Place) :
    blockPlaces [(pl, node f s cs)] =
      if f.isScope then pl :: blockPlaces (pl.children f cs) else blockPlaces (pl.children f cs) := by
  have hnodes : allNodesIn [(pl, node f s cs)] =
      (pl, node f s cs) :: allNodesIn (pl.children f cs) := by
    rw [allNodesIn, List.flatMap_singleton, nodesIn_node]
    rfl
  rw [blockPlaces, hnodes, List.filter_cons, form_node]
  split
  next => rfl
  next => rfl

theorem length_blockPlaces (t : Tree) (pl : Place) :
    (blockPlaces [(pl, t)]).length = t.blocks.length := by
  induction t using Tree.induction generalizing pl with
  | h f s cs ih =>
      have hchildren : ∀ ts : List (Place × Tree), (∀ p ∈ ts, p.2 ∈ cs) →
          (blockPlaces ts).length = ((ts.map Prod.snd).flatMap blocks).length := by
        intro ts hts
        induction ts with
        | nil => rfl
        | cons p ts ihts =>
            rw [List.forall_mem_cons] at hts
            rw [blockPlaces_cons, List.length_append, ih _ hts.1, ihts hts.2, List.map_cons,
              List.flatMap_cons, List.length_append]
      have hbelow := hchildren (pl.children f cs) fun p hp => by
        rw [← pl.map_snd_children f cs]
        exact List.mem_map_of_mem hp
      rw [pl.map_snd_children] at hbelow
      rw [blockPlaces_node, blocks_node]
      split
      next => rw [List.length_cons, List.length_cons, hbelow]
      next => exact hbelow

end Tree

mutual

/-- The tree `u` is the tree `t` of the place `pl` with other trees put in. Blocks are given
statements. In place of a declaration stands a tree that is a statement if a function of this name
can be declared there. A value stands in place of a function that one variable is initialized with,
or that is returned. -/
inductive Graft : Place → Tree → Tree → Prop where
  | copy {pl : Place} {f : Form} {s : Span} {cs us : List Tree} (hf : f.isScope = false)
      (h : Grafts (pl.children f cs) us) : Graft pl (.node f s cs) (.node f s us)
  | scope {pl : Place} {f : Form} {s : Span} {cs us : List Tree} (hf : f.isScope = true)
      (h : GraftedBody pl cs us) : Graft pl (.node f s cs) (.node f s us)
  | declaration {pl : Place} {m : Modifiers} {s r : Span} {name : String} {ds : List Tree}
      {params body v : Tree} (h : pl.Declares name → v.IsStatement pl) :
      Graft pl (.node (.functionDeclaration m) s [.node (.name name) r ds, params, body]) v
  | initializer {pl : Place} {k : VariableKind} {s r : Span} {p init p' v : Tree}
      (hinit : init.isFunction = true) (hp : Graft pl p p') (hv : v.IsValue pl) :
      Graft pl (.node (.variableStatement k) s [.node .declarator r [p, init]])
        (.node (.variableStatement k) s [.node .declarator r [p', v]])
  | loopInitializer {pl : Place} {k : VariableKind} {s q r : Span} {p init p' v : Tree}
      {rest us : List Tree} (hinit : init.isFunction = true) (hp : Graft pl p p')
      (hv : v.IsValue pl) (hrest : Grafts (rest.map fun c => (pl, c)) us) :
      Graft pl
        (.node .forStatement s (.node (.variableHead k) q [.node .declarator r [p, init]] :: rest))
        (.node .forStatement s (.node (.variableHead k) q [.node .declarator r [p', v]] :: us))
  | returned {pl : Place} {s : Span} {value v : Tree} (hvalue : value.isFunction = true)
      (hv : v.IsValue pl) : Graft pl (.node .returnStatement s [value]) (.node .returnStatement s [v])

/-- Trees are grafted one by one. -/
inductive Grafts : List (Place × Tree) → List Tree → Prop where
  | nil : Grafts [] []
  | cons {pl : Place} {t u : Tree} {ts : List (Place × Tree)} {us : List Tree} (h : Graft pl t u)
      (hs : Grafts ts us) : Grafts ((pl, t) :: ts) (u :: us)

/-- Statements of the place are put between those of a body. -/
inductive GraftedBody : Place → List Tree → List Tree → Prop where
  | nil {pl : Place} : GraftedBody pl [] []
  | keep {pl : Place} {t u : Tree} {ts us : List Tree} (h : Graft pl t u)
      (hs : GraftedBody pl ts us) : GraftedBody pl (t :: ts) (u :: us)
  | insert {pl : Place} {v : Tree} {ts us : List Tree} (h : v.IsStatement pl)
      (hs : GraftedBody pl ts us) : GraftedBody pl ts (v :: us)

end

namespace GraftedBody

variable {pl : Place} {ts us : List Tree}

theorem of_grafts (h : Grafts (ts.map fun t => (pl, t)) us) : GraftedBody pl ts us := by
  induction ts generalizing us with
  | nil =>
      cases h
      exact .nil
  | cons t ts ih =>
      cases h with
      | cons h hs => exact .keep h (ih hs)

theorem place {v : Tree} (hv : v.IsStatement pl) (h : GraftedBody pl ts us) :
    GraftedBody pl ts (Insertion.place v us) := by
  induction us generalizing ts with
  | nil => exact .insert hv h
  | cons u us ih =>
      rw [Insertion.place]
      split
      next => exact .insert hv h
      next =>
          cases h with
          | keep h hs => exact .keep h (ih hs)
          | insert h hs => exact .insert h (ih hs)

theorem splice {vs : List Tree} (hvs : ∀ v ∈ vs, v.IsStatement pl) (h : GraftedBody pl ts us) :
    GraftedBody pl ts (Insertion.splice us vs) := by
  induction vs generalizing us with
  | nil => exact h
  | cons v vs ih =>
      rw [List.forall_mem_cons] at hvs
      exact ih hvs.2 (h.place hvs.1)

end GraftedBody

section Numbers

open Contracts.Tree (blockPlaces)

variable {statements : Nat → List Tree} {n : Nat} {pl : Place} {t : Tree}
  {ts : List (Place × Tree)} {f : Form} {s : Span} {cs : List Tree}

/-- What is planned for a block is made of statements of its place, where the blocks of the trees
are numbered from `n` on. -/
def Receives (statements : Nat → List Tree) (n : Nat) (ts : List (Place × Tree)) : Prop :=
  ∀ (k : Nat) (pl : Place), (blockPlaces ts)[k]? = some pl →
    ∀ v ∈ statements (n + k), v.IsStatement pl

namespace Receives

theorem head {p : Place × Tree} (h : Receives statements n (p :: ts)) :
    Receives statements n [p] := by
  intro k q hk
  refine h k q ?_
  rw [Tree.blockPlaces_cons]
  exact (List.getElem?_append_left (List.getElem?_eq_some_iff.mp hk).1).trans hk

theorem tail (h : Receives statements n ((pl, t) :: ts)) :
    Receives statements (n + t.blocks.length) ts := by
  intro k q hk
  rw [Nat.add_assoc]
  refine h (t.blocks.length + k) q ?_
  rw [Tree.blockPlaces_cons, ← t.length_blockPlaces pl,
    List.getElem?_append_right (Nat.le_add_right _ _), Nat.add_sub_cancel_left]
  exact hk

theorem copy (hf : f.isScope = false) (h : Receives statements n [(pl, .node f s cs)]) :
    Receives statements n (pl.children f cs) := by
  intro k q hk
  refine h k q ?_
  rw [Tree.blockPlaces_node, hf]
  exact hk

theorem scope (hf : f.isScope = true) (h : Receives statements n [(pl, .node f s cs)]) :
    (∀ v ∈ statements n, v.IsStatement pl) ∧ Receives statements (n + 1) (pl.children f cs) := by
  have hplaces : blockPlaces [(pl, .node f s cs)] = pl :: blockPlaces (pl.children f cs) := by
    rw [Tree.blockPlaces_node, if_pos hf]
  refine ⟨h 0 pl (by rw [hplaces]; rfl), fun k q hk => ?_⟩
  rw [Nat.add_assoc, Nat.add_comm 1 k]
  refine h (k + 1) q ?_
  rw [hplaces]
  exact hk

end Receives

end Numbers

section Passes

open Contracts.Tree (allNodesIn)

variable {comments : List Comment} {pl : Place} {ts ts' : List (Place × Tree)}

/-- The functions with a signature can be handed over: their labels can be read, and whatever is
put into a function, it is an argument. -/
structure HandsOver (comments : List Comment) (ts : List (Place × Tree)) : Prop where
  readable : ∀ p ∈ allNodesIn ts, ∀ h ∈ p.2.handover?, ∀ text ∈ Wrap.signature? comments h.position,
    Text.Quoted.isReadable (h.label text) = true
  function : ∀ p ∈ allNodesIn ts, ∀ h ∈ p.2.handover?, ∀ u, Graft (p.1.ofHandover p.2) h.function u →
    u.IsArgument (p.1.ofHandover p.2)

theorem HandsOver.mono (h : HandsOver comments ts) (hsub : ∀ p ∈ allNodesIn ts', p ∈ allNodesIn ts) :
    HandsOver comments ts' :=
  ⟨fun p hp => h.readable p (hsub p hp), fun p hp => h.function p (hsub p hp)⟩

namespace Insertion.Grown

/-- What a node that is no block has grown from. -/
theorem exists_copy {t : Tree} {f : Form} {s : Span} {ds : List Tree} (hf : f.isScope = false)
    (h : Grown t (.node f s ds)) : ∃ cs, t = .node f s cs ∧ List.Forall₂ Grown cs ds := by
  cases h with
  | copy _ hcs => exact ⟨_, rfl, hcs⟩
  | scope hscope => exact absurd hf (by simp [hscope])

end Insertion.Grown

/-- A graft of a node that makes no place for another tree. -/
theorem Graft.exists_copy {f : Form} {s : Span} {cs : List Tree} {u : Tree}
    (hf : f.isScope = false) (hsite : f.isSiteForm = false) (h : Graft pl (.node f s cs) u) :
    ∃ us, u = .node f s us ∧ Grafts (pl.children f cs) us := by
  cases h with
  | copy _ h => exact ⟨_, rfl, h⟩
  | scope hscope => exact absurd hf (by simp [hscope])
  | declaration => exact absurd hsite (by simp [Form.isSiteForm])
  | initializer => exact absurd hsite (by simp [Form.isSiteForm])
  | loopInitializer => exact absurd hsite (by simp [Form.isSiteForm])
  | returned => exact absurd hsite (by simp [Form.isSiteForm])

namespace Wrap

open Insertion (Grown)

/-- The declarator of a variable that is initialized with a function, before and after. -/
theorem exists_declarator {r : Span} {c p init p' init' : Tree}
    (hgrown : Grown c (.node .declarator r [p, init]))
    (hgraft : Graft pl c (.node .declarator r [p', init'])) :
    ∃ p₀ init₀, c = .node .declarator r [p₀, init₀] ∧ Grown p₀ p ∧ Grown init₀ init ∧
      Graft pl p₀ p' ∧ Graft pl init₀ init' := by
  obtain ⟨cs, rfl, hcs⟩ := hgrown.exists_copy rfl
  cases hcs with
  | cons hp hcs =>
      cases hcs with
      | cons hinit hcs =>
          cases hcs
          obtain ⟨us, heq, hus⟩ := hgraft.exists_copy rfl rfl
          obtain rfl := (Tree.node.inj heq).2.2
          cases hus with
          | cons hp' hus =>
              cases hus with
              | cons hinit' => exact ⟨_, _, rfl, hp, hinit, hp', hinit'⟩

/-- A step of the wrapping pass at a node with grafted children grafts. -/
theorem Step.graft {f : Form} {s : Span} {cs ds us : List Tree} {u : Tree} {sites : List Site}
    (hf : f.isScope = false) (hhands : HandsOver comments [(pl, .node f s cs)])
    (hgrown : List.Forall₂ Grown cs ds) (hgrafts : Grafts (pl.children f cs) us)
    (hstep : Step .default comments (.node f s ds) us u sites) : Graft pl (.node f s cs) u := by
  have hself : ∀ t : Tree, (pl, t) ∈ allNodesIn [(pl, t)] := by
    rintro ⟨g, r, bs⟩
    simp [allNodesIn, Tree.nodesIn_node]
  have hreadable := fun h hh => hhands.readable _ (hself _) h hh
  have hfunction := fun h hh => hhands.function _ (hself _) h hh
  cases hstep with
  | unsigned => exact .copy hf hgrafts
  | elsewhere => exact .copy hf hgrafts
  | declaration htext =>
      rename_i m r name text ds params body called' params' body'
      cases hgrown with
      | cons hcalled hgrown =>
      cases hgrown with
      | cons hparams hgrown =>
      cases hgrown with
      | cons hbody hgrown =>
      cases hgrown
      obtain ⟨cs, rfl, -⟩ := hcalled.exists_copy rfl
      cases hgrafts with
      | cons hcalled hgrafts =>
      obtain ⟨bs, rfl, -⟩ := hcalled.exists_copy rfl rfl
      refine .declaration fun hdeclares => ?_
      refine isStatement_forwarding hdeclares.word hdeclares.unreserved hdeclares.binds
        (hreadable _ rfl text htext) (hfunction _ rfl _ ?_) s r bs
      exact .copy rfl (.cons (.copy rfl .nil) hgrafts)
  | initializer htext hp hinit =>
      rename_i k r p init p' init' name text
      cases hgrown with
      | cons hdeclarator hgrown =>
      cases hgrown
      cases hgrafts with
      | cons hgraft hgrafts =>
      obtain ⟨p₀, init₀, rfl, hp₀, hinit₀, hgraft, hinit'⟩ := exists_declarator hdeclarator hgraft
      rw [hp₀.boundName?_eq] at hp
      rw [hinit₀.isFunction_eq] at hinit
      rw [hinit₀.functionName?_eq]
      have hhandover := Tree.initializer?_sole hp hinit s.lo r
      exact .initializer hinit hgraft
        (isValue_handed (hreadable _ hhandover text htext) (hfunction _ hhandover _ hinit'))
  | loopInitializer htext hp hinit =>
      rename_i k q r p init p' init' rest rest' name text
      cases hgrown with
      | cons hhead hgrown =>
      obtain ⟨bs, rfl, hbs⟩ := hhead.exists_copy rfl
      cases hbs with
      | cons hdeclarator hbs =>
      cases hbs
      cases hgrafts with
      | cons hhead hgrafts =>
      obtain ⟨us, heq, hus⟩ := hhead.exists_copy rfl rfl
      obtain rfl := (Tree.node.inj heq).2.2
      cases hus with
      | cons hgraft hus =>
      obtain ⟨p₀, init₀, rfl, hp₀, hinit₀, hgraft, hinit'⟩ := exists_declarator hdeclarator hgraft
      rw [hp₀.boundName?_eq] at hp
      rw [hinit₀.isFunction_eq] at hinit
      rw [hinit₀.functionName?_eq]
      have hhandover := Tree.initializer?_sole hp hinit q.lo r
      exact .loopInitializer hinit hgraft
        (isValue_handed (hreadable _ hhandover text htext) (hfunction _ hhandover _ hinit')) hgrafts
  | returned htext hvalue =>
      rename_i value value' text
      cases hgrown with
      | @cons value₀ _ _ _ hvalue₀ hgrown =>
      cases hgrown
      cases hgrafts with
      | cons hgraft hgrafts =>
      rw [hvalue₀.isFunction_eq] at hvalue
      rw [hvalue₀.functionName?_eq]
      have hhandover : (Tree.node .returnStatement s [value₀]).handover? =
          some ⟨s.lo, value₀.functionName?, value₀⟩ := if_pos hvalue
      exact .returned hvalue
        (isValue_handed (hreadable _ hhandover text htext) (hfunction _ hhandover _ hgraft))

theorem map_wrapped_eq_self {config : Config} {vs : List Tree}
    (h : ∀ v ∈ vs, Insertion.IsDirective v) : vs.map (wrapped config comments) = vs := by
  have hkept : ∀ v ∈ vs, wrapped config comments v = id v := by
    intro v hv
    obtain ⟨d, checker, rfl⟩ := h v hv
    exact wrapped_statement d
  rw [List.map_congr_left hkept, List.map_id]

/-- Both passes graft trees one by one, if they do each of them. -/
theorem grafts_inOrder {statements : Nat → List Tree} {ts : List (Place × Tree)} {n : Nat}
    (h : ∀ p ∈ ts, ∀ n, Receives statements n [p] → HandsOver comments [p] →
      Graft p.1 p.2 (wrapped .default comments (Insertion.intoTree statements p.2 n).1))
    (hreceives : Receives statements n ts) (hhands : HandsOver comments ts) :
    Grafts ts ((Insertion.inOrder ((ts.map Prod.snd).map (Insertion.intoTree statements)) n).1.map
      (wrapped .default comments)) := by
  induction ts generalizing n with
  | nil => exact .nil
  | cons p ts ih =>
      obtain ⟨pl, t⟩ := p
      rw [List.forall_mem_cons] at h
      have hfirst : HandsOver comments [(pl, t)] := hhands.mono fun p hp => by
        simp only [allNodesIn, List.flatMap_cons, List.mem_append] at hp ⊢
        exact hp.imp_right fun h => absurd h (by simp)
      have hothers : HandsOver comments ts := hhands.mono fun p hp => by
        simp only [allNodesIn, List.flatMap_cons, List.mem_append] at hp ⊢
        exact .inr hp
      have hnext : (Insertion.intoTree statements t n).2 = n + t.blocks.length :=
        Insertion.snd_intoTree t n
      have hrest := ih h.2 hreceives.tail hothers
      rw [← hnext] at hrest
      exact .cons (h.1 n hreceives.head hfirst) hrest

/-- Inserting directives and wrapping functions grafts. -/
theorem graft_wrapped_intoTree {statements : Nat → List Tree}
    (hstatements : ∀ n, ∀ v ∈ statements n, Insertion.IsDirective v) (t : Tree) {pl : Place} {n : Nat}
    (hreceives : Receives statements n [(pl, t)]) (hhands : HandsOver comments [(pl, t)]) :
    Graft pl t (wrapped .default comments (Insertion.intoTree statements t n).1) := by
  induction t using Tree.induction generalizing pl n with
  | h f s cs ih =>
      have hnodes : HandsOver comments (pl.children f cs) := hhands.mono fun p hp => by
        rw [allNodesIn, List.flatMap_singleton, Tree.nodesIn_node]
        exact List.mem_cons_of_mem _ hp
      have hchildren : ∀ p ∈ pl.children f cs, ∀ n, Receives statements n [p] →
          HandsOver comments [p] →
            Graft p.1 p.2 (wrapped .default comments (Insertion.intoTree statements p.2 n).1) := by
        intro p hp n hreceives hhands
        refine ih p.2 ?_ hreceives hhands
        rw [← pl.map_snd_children f cs]
        exact List.mem_map_of_mem hp
      have hbelow : ∀ n, Receives statements n (pl.children f cs) → Grafts (pl.children f cs)
          ((Insertion.inOrder (cs.map (Insertion.intoTree statements)) n).1.map
            (wrapped .default comments)) := by
        intro n hreceives
        have hgrafts := grafts_inOrder hchildren hreceives hnodes
        rwa [pl.map_snd_children] at hgrafts
      rw [Insertion.intoTree_node]
      by_cases hf : f.isScope = true
      · have hsite : f.isSiteForm = false := by
          cases f with
          | block isStatement => rfl
          | _ => exact absurd hf (by simp [Form.isScope])
        obtain ⟨hown, hinner⟩ := hreceives.scope hf
        have hgrafts := hbelow (n + 1) hinner
        rw [Place.children_of_isScope hf] at hgrafts
        rw [if_pos hf, wrapped_copy _ _ hsite,
          Insertion.map_splice (span_wrapped .default comments),
          map_wrapped_eq_self (hstatements n)]
        exact .scope hf ((GraftedBody.of_grafts hgrafts).splice hown)
      · have hscope : f.isScope = false := by simpa using hf
        rw [if_neg hf]
        have hgrown : List.Forall₂ Insertion.Grown cs
            (Insertion.inOrder (cs.map (Insertion.intoTree statements)) n).1 :=
          Insertion.forall₂_grown_inOrder (fun c _ n => Insertion.grown_intoTree hstatements c n) n
        obtain ⟨sites, hstep, -⟩ := step_node .default comments
          (.node f s (Insertion.inOrder (cs.map (Insertion.intoTree statements)) n).1)
        exact hstep.graft hscope hhands hgrown (hbelow n (hreceives.copy hscope))

end Wrap

end Passes

namespace Insertion

variable {statements : Nat → List Tree}

theorem fst_inOrder_eq_self {cs : List Tree}
    (h : ∀ c ∈ cs, ∀ n, (intoTree statements c n).1 = c) (n : Nat) :
    (inOrder (cs.map (intoTree statements)) n).1 = cs := by
  induction cs generalizing n with
  | nil => rfl
  | cons c cs ih =>
      rw [List.forall_mem_cons] at h
      rw [List.map_cons, inOrder]
      simp only [h.1, ih h.2]

theorem fst_intoTree_eq_self (h : ∀ n, statements n = []) (t : Tree) (n : Nat) :
    (intoTree statements t n).1 = t := by
  induction t using Tree.induction generalizing n with
  | h f s cs ih =>
      rw [intoTree_node]
      split
      next => simp only [fst_inOrder_eq_self ih, h, splice, List.foldl_nil]
      next => simp only [fst_inOrder_eq_self ih]

end Insertion

namespace Script

/-- The place of the statements of a script. -/
def place (script : Script) : Place :=
  Place.outermost.ofBody script.body

/-- The statements of a script with their place. -/
def placedBody (script : Script) : List (Place × Tree) :=
  script.body.map fun t => (script.place, t)

/-- The places of the scopes, by their numbers. -/
def scopePlaces (script : Script) : List Place :=
  script.place :: Tree.blockPlaces script.placedBody

/-- The place of the scope that a comment belongs to. -/
def placeOf (script : Script) (span : Span) : Place :=
  script.scopePlaces.getD (Scope.target (Scope.ofScript script) span) script.place

variable {script : Script} {ds : List Directive} {comments : List Comment} {checker : String}

theorem isStatement_of_mem_pending
    (hds : ∀ d ∈ ds, (d.statement checker).IsStatement (script.placeOf d.span)) {k : Nat} {pl : Place}
    (hk : script.scopePlaces[k]? = some pl) :
    ∀ v ∈ Insertion.pending checker (Insertion.plan (Scope.ofScript script) ds) k,
      v.IsStatement pl := by
  intro v hv
  rw [Insertion.pending_plan, List.mem_map] at hv
  obtain ⟨d, hd, rfl⟩ := hv
  rw [List.mem_filter, decide_eq_true_eq] at hd
  obtain ⟨hd, htarget⟩ := hd
  have hplace : script.placeOf d.span = pl := by
    rw [placeOf, htarget, List.getD_eq_getElem?_getD, hk]
    rfl
  rw [← hplace]
  exact hds d ((Directive.byStart_perm ds).mem_iff.mp hd)

/-- Where there are no directives, nothing is planned. -/
theorem insertDirectives_eq_spliced (script : Script) (ds : List Directive) (checker : String) :
    let statements := Insertion.pending checker (Insertion.plan (Scope.ofScript script) ds)
    script.insertDirectives ds checker = { script with
      body := Insertion.splice
        (Insertion.inOrder (script.body.map (Insertion.intoTree statements)) 1).1
        (statements 0) } := by
  intro statements
  rw [insertDirectives]
  split
  next hempty =>
      obtain rfl : ds = [] := by simpa using hempty
      have hnone : ∀ n, statements n = [] := by
        intro n
        rw [show statements n = Insertion.pending checker _ n from rfl, plan_nil]
        rfl
      rw [hnone, Insertion.fst_inOrder_eq_self fun t _ => Insertion.fst_intoTree_eq_self hnone t]
      rfl
  next => rfl

/-- The body of an instrumented script is grafted. -/
theorem graftedBody_wrapFunctions
    (hds : ∀ d ∈ ds, (d.statement "global.__typify").IsStatement (script.placeOf d.span))
    (hhands : HandsOver comments script.placedBody) :
    ∃ body, ((script.insertDirectives ds "global.__typify").wrapFunctions comments .default
        .standard).1 = { script with body := body } ∧ GraftedBody script.place script.body body := by
  have hdirectives : ∀ n, ∀ v ∈ Insertion.pending "global.__typify"
      (Insertion.plan (Scope.ofScript script) ds) n, Insertion.IsDirective v :=
    fun _ _ => Insertion.isDirective_of_mem_pending
  have hreceives : Receives (Insertion.pending "global.__typify"
      (Insertion.plan (Scope.ofScript script) ds)) 1 script.placedBody := by
    intro k pl hk
    refine isStatement_of_mem_pending hds ?_
    rw [scopePlaces, Nat.add_comm, List.getElem?_cons_succ]
    exact hk
  have hgrafts := Wrap.grafts_inOrder
    (fun p _ n => Wrap.graft_wrapped_intoTree hdirectives p.2) hreceives hhands
  have hbody : script.placedBody.map Prod.snd = script.body := by
    simp [placedBody, Function.comp_def]
  rw [hbody] at hgrafts
  have hown : script.scopePlaces[0]? = some script.place := rfl
  refine ⟨_, ?_, (GraftedBody.of_grafts hgrafts).splice (isStatement_of_mem_pending hds hown)⟩
  rw [insertDirectives_eq_spliced, wrapFunctions_standard,
    Insertion.map_splice (Wrap.span_wrapped .default comments),
    Wrap.map_wrapped_eq_self (hdirectives 0)]

end Script

end Contracts
