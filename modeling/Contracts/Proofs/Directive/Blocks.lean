import Contracts.Proofs.Directive.Merge

/-!
# Inserting directives block by block

The pass that inserts directives counts blocks on its way. `Tree.blocks` lists
the blocks of a tree in the order of their numbers. A directive holds no block,
so the numbers are the same after the pass, and the block with a number has
become what the pass makes of it when it starts there (`blocks_intoTree`). For
a script, each scope keeps its number, its statements grow one by one, and what
is planned for the number is spliced in
(`Script.exists_scopeBody_insertDirectives`).
-/

namespace Contracts

namespace Tree

/-- The blocks in a tree, by their numbers. -/
def blocks (t : Tree) : List Tree :=
  t.nodes.filter fun n => n.form.isScope

theorem blocks_node (f : Form) (s : Span) (cs : List Tree) :
    (node f s cs).blocks =
      if f.isScope then node f s cs :: cs.flatMap blocks else cs.flatMap blocks := by
  have hbelow : (cs.flatMap nodes).filter (fun n => n.form.isScope) = cs.flatMap blocks :=
    List.filter_flatMap
  rw [blocks, nodes_node, List.filter_cons, hbelow]
  rfl

theorem isScope_of_mem_blocks {t b : Tree} (h : b ∈ t.blocks) : b.form.isScope = true :=
  (List.mem_filter.mp h).2

theorem blocks_eq_nil {t : Tree} (h : t.Everywhere fun n => n.form.isScope = false) :
    t.blocks = [] := by
  refine List.filter_eq_nil_iff.mpr ?_
  intro n hn
  rw [h n hn]
  simp

theorem blocks_node_eq_nil {f : Form} {s : Span} {cs : List Tree}
    (h : (node f s cs).blocks = []) : f.isScope = false ∧ ∀ c ∈ cs, c.blocks = [] := by
  rw [blocks_node] at h
  by_cases hf : f.isScope = true
  · rw [if_pos hf] at h
    exact absurd h (by simp)
  · rw [if_neg hf, List.flatMap_eq_nil_iff] at h
    exact ⟨by simpa using hf, h⟩

theorem map_span_ofTree (t : Tree) (depth : Nat) :
    (Scope.ofTree t depth).map Scope.span = t.blocks.map span := by
  induction t using Tree.induction generalizing depth with
  | h f s cs ih =>
      have hbelow : ∀ depth, (cs.flatMap fun c => Scope.ofTree c depth).map Scope.span =
          (cs.flatMap blocks).map span := by
        intro depth
        rw [List.map_flatMap, List.map_flatMap]
        exact List.flatMap_congr fun c hc => ih c hc depth
      rw [Scope.ofTree_node, blocks_node]
      split
      next => rw [List.map_cons, List.map_cons, hbelow, span_node]
      next => exact hbelow depth

end Tree

namespace Insertion

theorem blocks_of_isDirective {t : Tree} (h : IsDirective t) : t.blocks = [] := by
  obtain ⟨d, checker, rfl⟩ := h
  apply Tree.blocks_eq_nil
  intro n hn
  exact Grown.isScope_of_isPassive
    (Form.isPassive_of_isPlain (d.everywhere_statement checker n hn))

section Numbers

variable {statements : Nat → List Tree}

theorem snd_inOrder {cs : List Tree}
    (h : ∀ c ∈ cs, ∀ n, (intoTree statements c n).2 = n + c.blocks.length) (n : Nat) :
    (inOrder (cs.map (intoTree statements)) n).2 = n + (cs.flatMap Tree.blocks).length := by
  induction cs generalizing n with
  | nil => rfl
  | cons c cs ih =>
      rw [List.forall_mem_cons] at h
      rw [List.map_cons, inOrder, List.flatMap_cons, List.length_append, ← Nat.add_assoc]
      simp only [h.1, ih h.2]

/-- The pass gives back the number after the last block of a tree. -/
theorem snd_intoTree (t : Tree) (n : Nat) :
    (intoTree statements t n).2 = n + t.blocks.length := by
  induction t using Tree.induction generalizing n with
  | h f s cs ih =>
      rw [intoTree_node, Tree.blocks_node]
      split
      next =>
          simp only [snd_inOrder ih, List.length_cons]
          omega
      next => exact snd_inOrder ih n

theorem blocks_inOrder {cs : List Tree}
    (h : ∀ c ∈ cs, ∀ n, (intoTree statements c n).1.blocks =
      c.blocks.mapIdx fun k b => (intoTree statements b (n + k)).1) (n : Nat) :
    (inOrder (cs.map (intoTree statements)) n).1.flatMap Tree.blocks =
      (cs.flatMap Tree.blocks).mapIdx fun k b => (intoTree statements b (n + k)).1 := by
  induction cs generalizing n with
  | nil => rfl
  | cons c cs ih =>
      rw [List.forall_mem_cons] at h
      have hshift : (fun (k : Nat) (b : Tree) =>
          (intoTree statements b (n + c.blocks.length + k)).1) =
            fun k b => (intoTree statements b (n + (k + c.blocks.length))).1 := by
        funext k b
        rw [Nat.add_assoc, Nat.add_comm c.blocks.length]
      rw [List.map_cons, inOrder]
      simp only [List.flatMap_cons, List.mapIdx_append, h.1, snd_intoTree, ih h.2, hshift]

/-- A block has the same number after the pass, and is what the pass makes of it there. -/
theorem blocks_intoTree (hs : ∀ n, ∀ t ∈ statements n, IsDirective t) (t : Tree) (n : Nat) :
    (intoTree statements t n).1.blocks =
      t.blocks.mapIdx fun k b => (intoTree statements b (n + k)).1 := by
  induction t using Tree.induction generalizing n with
  | h f s cs ih =>
      have hbelow := blocks_inOrder ih
      by_cases hf : f.isScope = true
      · have hwoven : Woven (inOrder (cs.map (intoTree statements)) (n + 1)).1
            (splice (inOrder (cs.map (intoTree statements)) (n + 1)).1 (statements n)) :=
          .splice (hs n) (.refl _)
        have hself : (intoTree statements (.node f s cs) n).1 = .node f s (splice
            (inOrder (cs.map (intoTree statements)) (n + 1)).1 (statements n)) := by
          rw [intoTree_node, if_pos hf]
        have hshift : (fun (k : Nat) (b : Tree) => (intoTree statements b (n + (k + 1))).1) =
            fun k b => (intoTree statements b (n + 1 + k)).1 := by
          funext k b
          rw [Nat.add_assoc, Nat.add_comm 1 k]
        rw [Tree.blocks_node, if_pos hf, List.mapIdx_cons, Nat.add_zero, hself, Tree.blocks_node,
          if_pos hf, hwoven.flatMap_eq (fun t => blocks_of_isDirective), hbelow, hshift]
      · rw [intoTree_node, if_neg hf, Tree.blocks_node, if_neg hf, Tree.blocks_node, if_neg hf]
        exact hbelow n

end Numbers

end Insertion

namespace Script

/-- The blocks of a script, by their numbers less one. -/
def blocks (script : Script) : List Tree :=
  script.body.flatMap Tree.blocks

/-- The statement lists of the scopes of a script, by their numbers. -/
def scopeBodies (script : Script) : List (List Tree) :=
  script.body :: script.blocks.map Tree.children

theorem map_span_ofScript (script : Script) :
    (Scope.ofScript script).map Scope.span = script.span :: script.blocks.map Tree.span := by
  rw [Scope.ofScript, List.map_cons, blocks, List.map_flatMap, List.map_flatMap]
  exact congrArg _ (List.flatMap_congr fun t _ => t.map_span_ofTree 0)

theorem length_ofScript (script : Script) :
    (Scope.ofScript script).length = script.scopeBodies.length := by
  have hspans := congrArg List.length script.map_span_ofScript
  simpa [scopeBodies] using hspans

theorem plan_nil (scopes : List Scope) : Insertion.plan scopes [] = [] := by
  simp [Insertion.plan]

/-- A scope of a script after directives were inserted, by its number: its statements
have grown, and what is planned for it is spliced in. -/
theorem exists_scopeBody_insertDirectives (script : Script) (ds : List Directive)
    (checker : String) {k : Nat} {body : List Tree} (hk : script.scopeBodies[k]? = some body) :
    ∃ grown, List.Forall₂ Insertion.Grown body grown ∧
      (script.insertDirectives ds checker).scopeBodies[k]? = some (Insertion.splice grown
        (Insertion.pending checker (Insertion.plan (Scope.ofScript script) ds) k)) := by
  rw [insertDirectives]
  split
  next hempty =>
      obtain rfl : ds = [] := by simpa using hempty
      refine ⟨body, List.forall₂_same.mpr fun t _ => .refl t, ?_⟩
      rw [hk, plan_nil]
      rfl
  next =>
      have hs : ∀ n, ∀ t ∈ Insertion.pending checker
          (Insertion.plan (Scope.ofScript script) ds) n, Insertion.IsDirective t :=
        fun _ _ => Insertion.isDirective_of_mem_pending
      have hgrown := fun t => Insertion.grown_intoTree hs t
      have hwoven := Insertion.Woven.splice (hs 0) (.refl (Insertion.inOrder (script.body.map
        (Insertion.intoTree (Insertion.pending checker
          (Insertion.plan (Scope.ofScript script) ds)))) 1).1)
      cases k with
      | zero =>
          obtain rfl : script.body = body := by simpa [scopeBodies] using hk
          exact ⟨_, Insertion.forall₂_grown_inOrder (fun t _ => hgrown t) 1, rfl⟩
      | succ j =>
          obtain ⟨b, hb, rfl⟩ : ∃ b, script.blocks[j]? = some b ∧ b.children = body := by
            simpa [scopeBodies] using hk
          obtain ⟨f, s, cs⟩ := b
          have hf : f.isScope = true := by
            obtain ⟨t, -, ht⟩ := List.mem_flatMap.mp (List.mem_of_getElem? hb)
            exact Tree.isScope_of_mem_blocks ht
          refine ⟨_, Insertion.forall₂_grown_inOrder (fun t _ => hgrown t) (1 + j + 1), ?_⟩
          rw [scopeBodies, List.getElem?_cons_succ, List.getElem?_map, blocks,
            hwoven.flatMap_eq (fun t => Insertion.blocks_of_isDirective),
            Insertion.blocks_inOrder (fun t _ => Insertion.blocks_intoTree hs t),
            List.getElem?_mapIdx]
          rw [blocks] at hb
          rw [hb, Option.map_some, Option.map_some, Insertion.intoTree_node, if_pos hf,
            Tree.children_node, Nat.add_comm 1 j]
          rfl

end Script

end Contracts
