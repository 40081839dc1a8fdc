import Contracts.Proofs.Directive.Innermost

/-!
# The innermost scope in the tree

The scope of a comment is chosen by numbers alone: the sizes, the depths and the
order of all scopes. Here the choice is compared with the tree. A block is given
by its path, and one block stands in another if its path goes on from there. In
a properly nested script the paths of all blocks that contain a comment are
prefixes of the path of the chosen one
(`Script.Nested.exists_innermost_block`), also if some of the blocks have the
same span. A comment that is in no block belongs to the script, wherever the
script's own span begins and ends.
-/

namespace Contracts

namespace Tree

/-- The tree at a path, whose numbers are those of children. -/
def at? : List Nat → Tree → Option Tree
  | [], t => some t
  | i :: path, t => t.children[i]?.bind (at? path)

theorem at?_node_cons (i : Nat) (path : List Nat) (f : Form) (s : Span) (cs : List Tree) :
    at? (i :: path) (node f s cs) = cs[i]?.bind (at? path) := rfl

theorem mem_locatedBelow {cs : List Tree} {q : Nat → List Nat} {depth : Nat}
    {p : List Nat × Scope} :
    p ∈ locatedBelow cs q depth ↔ ∃ i, ∃ c : Tree, cs[i]? = some c ∧
      p ∈ c.locatedScopes (q i) depth := by
  rw [locatedBelow, List.mem_flatten]
  constructor
  · rintro ⟨l, hl, hp⟩
    obtain ⟨i, hi, rfl⟩ := List.mem_mapIdx.mp hl
    exact ⟨i, cs[i], List.getElem?_eq_getElem hi, hp⟩
  · rintro ⟨i, c, hc, hp⟩
    obtain ⟨hi, rfl⟩ := List.getElem?_eq_some_iff.mp hc
    exact ⟨_, List.mem_mapIdx.mpr ⟨i, hi, rfl⟩, hp⟩

/-- What is listed as a scope is a block, and its path leads there. -/
theorem exists_at?_of_mem_locatedScopes {t : Tree} {path : List Nat} {depth : Nat}
    {p : List Nat × Scope} (hp : p ∈ t.locatedScopes path depth) :
    ∃ rest b, p.1 = path ++ rest ∧ at? rest t = some b ∧ b.form.isScope = true ∧
      b.span = p.2.span := by
  induction t using Tree.induction generalizing path depth with
  | h f s cs ih =>
      have hbelow : ∀ depth, p ∈ locatedBelow cs (fun i => path ++ [i]) depth →
          ∃ rest b, p.1 = path ++ rest ∧ at? rest (node f s cs) = some b ∧
            b.form.isScope = true ∧ b.span = p.2.span := by
        intro depth hp
        obtain ⟨i, c, hc, hp⟩ := mem_locatedBelow.mp hp
        obtain ⟨rest, b, hpath, hb, hscope⟩ := ih c (List.mem_of_getElem? hc) hp
        refine ⟨i :: rest, b, by rw [hpath, List.append_assoc]; rfl, ?_, hscope⟩
        rw [at?_node_cons, hc, Option.bind_some, hb]
      rw [locatedScopes_node] at hp
      by_cases hf : f.isScope = true
      · rw [if_pos hf, List.mem_cons] at hp
        rcases hp with rfl | hp
        · exact ⟨[], node f s cs, (List.append_nil path).symm, rfl, hf, rfl⟩
        · exact hbelow (depth + 1) hp
      · rw [if_neg hf] at hp
        exact hbelow depth hp

/-- Every block is listed as a scope. -/
theorem exists_mem_locatedScopes_of_at? {rest : List Nat} {t b : Tree} (hb : at? rest t = some b)
    (hscope : b.form.isScope = true) (path : List Nat) (depth : Nat) :
    ∃ a, (path ++ rest, a) ∈ t.locatedScopes path depth ∧ a.span = b.span := by
  induction rest generalizing t path depth with
  | nil =>
      obtain rfl : t = b := Option.some.inj hb
      obtain ⟨f, s, cs⟩ := t
      have hf : f.isScope = true := hscope
      rw [locatedScopes_node, if_pos hf, List.append_nil]
      exact ⟨⟨s, depth + 1⟩, List.mem_cons_self, rfl⟩
  | cons i rest ih =>
      obtain ⟨f, s, cs⟩ := t
      rw [at?_node_cons, Option.bind_eq_some_iff] at hb
      obtain ⟨c, hc, hb⟩ := hb
      have hbelow : ∀ depth, ∃ a, (path ++ i :: rest, a) ∈
          locatedBelow cs (fun i => path ++ [i]) depth ∧ a.span = b.span := by
        intro depth
        obtain ⟨a, ha, hspan⟩ := ih hb (path ++ [i]) depth
        rw [List.append_assoc] at ha
        exact ⟨a, mem_locatedBelow.mpr ⟨i, c, hc, ha⟩, hspan⟩
      rw [locatedScopes_node]
      split
      next =>
          obtain ⟨a, ha, hspan⟩ := hbelow (depth + 1)
          exact ⟨a, List.mem_cons_of_mem _ ha, hspan⟩
      next => exact hbelow depth

/-- Of the listed scopes that contain a span, each stands in those before it. -/
def Chained (span : Span) (scopes : List (List Nat × Scope)) : Prop :=
  scopes.Pairwise fun p q =>
    p.2.span.contains span = true → q.2.span.contains span = true → p.1 <+: q.1

section Chained

variable {span : Span} (hspan : span.lo < span.hi)

include hspan

theorem chained_locatedBelow {cs : List Tree} (hcs : cs.Pairwise BlocksApart)
    (h : ∀ c ∈ cs, ∀ path depth, Chained span (c.locatedScopes path depth))
    (q : Nat → List Nat) (depth : Nat) : Chained span (locatedBelow cs q depth) := by
  induction cs generalizing q with
  | nil => exact List.Pairwise.nil
  | cons c cs ih =>
      rw [List.forall_mem_cons] at h
      obtain ⟨hc, hcs⟩ := List.pairwise_cons.mp hcs
      rw [locatedBelow_cons]
      refine List.pairwise_append.mpr ⟨h.1 _ depth, ih hcs h.2 _, ?_⟩
      -- No span lies in blocks of two children.
      intro p hp p' hp' hcontains hcontains'
      obtain ⟨i, d, hd, hp'⟩ := mem_locatedBelow.mp hp'
      have hmem : ∀ {t : Tree} {path : List Nat} {p : List Nat × Scope},
          p ∈ t.locatedScopes path depth → p.2 ∈ Scope.ofTree t depth := by
        intro t path p hp
        rw [← t.map_snd_locatedScopes path depth]
        exact List.mem_map_of_mem hp
      have hapart := hc d (List.mem_of_getElem? hd)
        _ (mem_blockSpans_of_contains (hmem hp) hspan hcontains)
        _ (mem_blockSpans_of_contains (hmem hp') hspan hcontains')
      rw [Span.contains_eq_false_of_apart hapart hspan hcontains] at hcontains'
      exact absurd hcontains' (by simp)

theorem Nested.chained {t : Tree} (h : t.Nested) (path : List Nat) (depth : Nat) :
    Chained span (t.locatedScopes path depth) := by
  induction t using Tree.induction generalizing path depth with
  | h f s cs ih =>
      obtain ⟨⟨-, hapart⟩, hcs⟩ := nested_node.mp h
      have hbelow := chained_locatedBelow hspan hapart
        (fun c hc path depth => ih c hc (hcs c hc) path depth) (fun i => path ++ [i])
      rw [locatedScopes_node]
      split
      next =>
          refine List.pairwise_cons.mpr ⟨?_, hbelow (depth + 1)⟩
          intro p hp _ _
          obtain ⟨i, c, -, hp⟩ := mem_locatedBelow.mp hp
          exact (List.prefix_append path [i]).trans (c.prefix_of_mem_locatedScopes _ _ p hp)
      next => exact hbelow depth

end Chained

end Tree

namespace Script

/-- The tree at a path. The empty path is that of the script itself. -/
def at? (script : Script) : List Nat → Option Tree
  | [] => none
  | i :: path => script.body[i]?.bind (Tree.at? path)

/-- There is a block at a path. -/
structure HasBlock (script : Script) (path : List Nat) (b : Tree) : Prop where
  at?_eq : script.at? path = some b
  isScope : b.form.isScope = true

/-- The scopes of a script other than the script itself, with their paths. -/
def locatedBlocks (script : Script) : List (List Nat × Scope) :=
  Tree.locatedBelow script.body (fun i => [i]) 0

variable {script : Script}

theorem exists_hasBlock_of_mem {p : List Nat × Scope} (hp : p ∈ script.locatedBlocks) :
    ∃ b, script.HasBlock p.1 b ∧ b.span = p.2.span := by
  obtain ⟨i, t, ht, hp⟩ := Tree.mem_locatedBelow.mp hp
  obtain ⟨rest, b, hpath, hb, hscope, hspan⟩ := Tree.exists_at?_of_mem_locatedScopes hp
  refine ⟨b, ⟨?_, hscope⟩, hspan⟩
  rw [hpath, List.singleton_append, at?, ht, Option.bind_some, hb]

theorem HasBlock.exists_mem {path : List Nat} {b : Tree} (h : script.HasBlock path b) :
    ∃ a, (path, a) ∈ script.locatedBlocks ∧ a.span = b.span := by
  obtain ⟨hb, hscope⟩ := h
  match path with
  | [] => exact absurd hb (by simp [at?])
  | i :: rest =>
      rw [at?, Option.bind_eq_some_iff] at hb
      obtain ⟨t, ht, hb⟩ := hb
      obtain ⟨a, ha, hspan⟩ := Tree.exists_mem_locatedScopes_of_at? hb hscope [i] 0
      exact ⟨a, Tree.mem_locatedBelow.mpr ⟨i, t, ht, ha⟩, hspan⟩

theorem map_snd_locatedBlocks (script : Script) :
    script.locatedBlocks.map Prod.snd = script.body.flatMap fun t => Scope.ofTree t 0 :=
  Tree.map_snd_locatedBelow (fun c _ => c.map_snd_locatedScopes) _ 0

theorem Nested.chained (hscript : script.Nested) {span : Span} (hspan : span.lo < span.hi) :
    Tree.Chained span script.locatedBlocks :=
  Tree.chained_locatedBelow hspan hscript.apart (fun t ht => (hscript.trees t ht).chained hspan) _ 0

/-- The last block that contains a comment is chosen. -/
theorem Nested.locatedScopes_target (hscript : script.Nested) {span : Span}
    (hspan : span.lo < span.hi) {before after : List (List Nat × Scope)} {p : List Nat × Scope}
    (hsplit : script.locatedBlocks = before ++ p :: after) (hp : p.2.span.contains span = true)
    (hafter : ∀ q ∈ after, q.2.span.contains span = false) :
    script.locatedScopes[Scope.target (Scope.ofScript script) span]? = some p := by
  have hscopes : (script.body.flatMap fun t => Scope.ofTree t 0) =
      before.map Prod.snd ++ p.2 :: after.map Prod.snd := by
    rw [← map_snd_locatedBlocks, hsplit, List.map_append, List.map_cons]
  have hroot := hscript.within hspan
  have hstacked := hscript.stacked hspan
  rw [hscopes] at hroot hstacked
  have hlast : ∀ a ∈ after.map Prod.snd, a.span.contains span = false := by
    intro a ha
    obtain ⟨q, hq, rfl⟩ := List.mem_map.mp ha
    exact hafter q hq
  have htarget : Scope.target (Scope.ofScript script) span = before.length + 1 := by
    rw [Scope.ofScript, hscopes, Scope.target_eq_of_last hroot hstacked hp hlast, List.length_map]
  have hlocated : script.locatedScopes = ([], ⟨script.span, 0⟩) :: (before ++ p :: after) := by
    rw [← hsplit]
    rfl
  rw [htarget, hlocated, List.getElem?_cons_succ, List.getElem?_append_right (Nat.le_refl _),
    Nat.sub_self]
  rfl

/-- The number, the path and the scope itself belong together. -/
theorem home?_of_locatedScopes {span : Span} {p : List Nat × Scope}
    (h : script.locatedScopes[Scope.target (Scope.ofScript script) span]? = some p) :
    script.home? span = some p.1 ∧
      (Scope.ofScript script)[Scope.target (Scope.ofScript script) span]? = some p.2 := by
  constructor
  · rw [home?, scopePaths, List.getElem?_map, h]
    rfl
  · nth_rewrite 1 [← script.map_snd_locatedScopes]
    rw [List.getElem?_map, h]
    rfl

/-- The block that is chosen stands in all others that contain the comment. -/
theorem Nested.exists_block_of_contains (hscript : script.Nested) {span : Span}
    (hspan : span.lo < span.hi) {path : List Nat} {b : Tree} (hb : script.HasBlock path b)
    (hcontains : b.span.contains span = true) :
    ∃ p ∈ script.locatedBlocks,
      script.locatedScopes[Scope.target (Scope.ofScript script) span]? = some p ∧
      p.2.span.contains span = true ∧
      ∀ q ∈ script.locatedBlocks, q.2.span.contains span = true → q.1 <+: p.1 := by
  obtain ⟨a, ha, haspan⟩ := hb.exists_mem
  rw [← haspan] at hcontains
  obtain ⟨before, p, after, hsplit, hp, hafter⟩ := Scope.exists_last
    (p := fun p : List Nat × Scope => p.2.span.contains span = true) ⟨_, ha, hcontains⟩
  have hlocated := hscript.locatedScopes_target hspan hsplit hp fun q hq => by
    simpa using hafter q hq
  have hchained := hscript.chained hspan
  rw [hsplit] at hchained ⊢
  refine ⟨p, List.mem_append_right before List.mem_cons_self, hlocated, hp, ?_⟩
  intro q hq hcontains
  rw [List.mem_append, List.mem_cons] at hq
  rcases hq with hq | rfl | hq
  · exact (List.pairwise_append.mp hchained).2.2 q hq p List.mem_cons_self hcontains hp
  · exact List.prefix_rfl
  · exact absurd hcontains (hafter q hq)

theorem target_eq_zero_of_forall_hasBlock {span : Span}
    (h : ∀ path b, script.HasBlock path b → b.span.contains span = false) :
    Scope.target (Scope.ofScript script) span = 0 := by
  refine Scope.target_eq_zero _ ?_
  intro a ha
  rw [← map_snd_locatedBlocks] at ha
  obtain ⟨p, hp, rfl⟩ := List.mem_map.mp ha
  obtain ⟨b, hb, hbspan⟩ := exists_hasBlock_of_mem hp
  rw [← hbspan, h p.1 b hb]

/-- In a nested script a comment that lies in some block belongs to one that contains it and stands
in every other scope that does. A comment that lies in no block belongs to the script, whether or
not the script's span contains it. -/
theorem Nested.exists_innermost_block (hscript : script.Nested) {span : Span}
    (hspan : span.lo < span.hi) :
    ((∃ path b, script.HasBlock path b ∧ b.span.contains span = true) →
      ∃ path b depth, script.home? span = some path ∧ script.HasBlock path b ∧
        (Scope.ofScript script)[Scope.target (Scope.ofScript script) span]? =
          some ⟨b.span, depth⟩ ∧
        b.span.contains span = true ∧
        ∀ outer a, script.HasBlock outer a → a.span.contains span = true → outer <+: path) ∧
    ((∀ path b, script.HasBlock path b → b.span.contains span = false) →
      Scope.target (Scope.ofScript script) span = 0 ∧ script.home? span = some []) := by
  constructor
  · rintro ⟨_, _, hb, hcontains⟩
    obtain ⟨p, hp, hlocated, hpspan, hinner⟩ :=
      hscript.exists_block_of_contains hspan hb hcontains
    obtain ⟨hhome, hscope⟩ := home?_of_locatedScopes hlocated
    obtain ⟨b, hblock, hbspan⟩ := exists_hasBlock_of_mem hp
    rw [← hbspan] at hpspan
    refine ⟨p.1, b, p.2.depth, hhome, hblock, by rw [hscope, hbspan], hpspan, ?_⟩
    intro outer a houter ha
    obtain ⟨e, he, hespan⟩ := houter.exists_mem
    rw [← hespan] at ha
    exact hinner _ he ha
  · intro hnone
    have htarget := target_eq_zero_of_forall_hasBlock hnone
    refine ⟨htarget, ?_⟩
    rw [home?, htarget]
    rfl

/-- A block that is all there is in another one, with the same span. -/
def twinBlocks : Script :=
  ⟨⟨2, 8⟩, none, [.node (.block true) ⟨2, 8⟩ [.node (.block true) ⟨2, 8⟩ []]]⟩

/-- Of two blocks with the same span a comment belongs to the inner one, and one that comes after
the end of the script belongs to the script. -/
theorem Nested.exists_innermost_block_twinBlocks :
    (∃ path b, twinBlocks.home? ⟨4, 6⟩ = some path ∧ twinBlocks.HasBlock path b ∧
      [0, 0] <+: path) ∧ twinBlocks.home? ⟨9, 12⟩ = some [] := by
  have hscript : twinBlocks.Nested := by decide
  have hinner : twinBlocks.HasBlock [0, 0] (.node (.block true) ⟨2, 8⟩ []) := ⟨rfl, rfl⟩
  have hoff : ∀ p ∈ twinBlocks.locatedBlocks, p.2.span.contains ⟨9, 12⟩ = false := by decide
  have hspan : (⟨4, 6⟩ : Span).lo < (⟨4, 6⟩ : Span).hi := by decide
  constructor
  · obtain ⟨path, b, _, hhome, hb, -, -, hinnermost⟩ :=
      (hscript.exists_innermost_block hspan).1 ⟨_, _, hinner, rfl⟩
    exact ⟨path, b, hhome, hb, hinnermost _ _ hinner rfl⟩
  · refine ((hscript.exists_innermost_block (by decide)).2 ?_).2
    intro path b hb
    obtain ⟨a, ha, haspan⟩ := hb.exists_mem
    rw [← haspan, hoff _ ha]

end Script

end Contracts
