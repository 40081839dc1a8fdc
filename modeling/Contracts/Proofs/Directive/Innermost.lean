import Contracts.Proofs.Directive.Blocks

/-!
# The innermost scope

A comment belongs to the scope that wins by size, depth and number among all
that contain it. If the blocks of a script are properly nested, no comparison is
needed: the blocks that contain a comment lie in each other, and the winner is
the last one by number (`Scope.target_eq_iff`). Whether a block is the innermost
one can then be seen from the block alone, as it contains the comment and none
of the blocks in it does. `Tree.inserted` puts directives into the innermost
blocks without numbers and without a list of all scopes, and it agrees with the
pass (`Script.insertDirectives_eq_inserted`).

Only comments that are not empty are placed this way: an empty one at the place
where two blocks meet lies in both.
-/

namespace Contracts

namespace Span

/-- Two spans have no character in common. -/
def Apart (a b : Span) : Prop :=
  a.hi ≤ b.lo ∨ b.hi ≤ a.lo

instance (a b : Span) : Decidable (a.Apart b) :=
  inferInstanceAs (Decidable (a.hi ≤ b.lo ∨ b.hi ≤ a.lo))

theorem apart_none (s : Span) : none.Apart s :=
  .inl (Nat.zero_le s.lo)

theorem Apart.symm {a b : Span} (h : a.Apart b) : b.Apart a :=
  Or.symm h

theorem contains_eq_false_of_apart {a b s : Span} (h : a.Apart b) (hs : s.lo < s.hi)
    (ha : a.contains s = true) : b.contains s = false := by
  rw [Bool.eq_false_iff]
  intro hb
  simp only [contains, Bool.and_eq_true, decide_eq_true_eq] at ha hb
  rcases h with h | h
  · omega
  · omega

theorem none_contains_eq_false {s : Span} (hs : s.lo < s.hi) : none.contains s = false := by
  rw [Bool.eq_false_iff]
  intro h
  simp only [contains, Bool.and_eq_true, decide_eq_true_eq] at h
  have hnone : none.hi = 0 := rfl
  omega

end Span

namespace Tree

/-- The spans of the blocks of a tree that have a place. -/
def blockSpans (t : Tree) : List Span :=
  (t.blocks.map span).filter fun s => !s.isNone

theorem blockSpans_node (f : Form) (s : Span) (cs : List Tree) :
    (node f s cs).blockSpans =
      if f.isScope && !s.isNone then s :: cs.flatMap blockSpans else cs.flatMap blockSpans := by
  have hbelow : ((cs.flatMap blocks).map span).filter (fun s => !s.isNone) =
      cs.flatMap blockSpans := by
    rw [List.map_flatMap, List.filter_flatMap]
    rfl
  rw [blockSpans, blocks_node]
  by_cases hf : f.isScope = true
  · rw [if_pos hf, List.map_cons, List.filter_cons, hbelow, hf, Bool.true_and, span_node]
  · rw [if_neg hf, hbelow, if_neg (by simp [hf])]

theorem mem_blockSpans_of_mem {f : Form} {s r : Span} {cs : List Tree} {c : Tree} (hc : c ∈ cs)
    (hr : r ∈ c.blockSpans) : r ∈ (node f s cs).blockSpans := by
  have hmem : r ∈ cs.flatMap blockSpans := List.mem_flatMap.mpr ⟨c, hc, hr⟩
  rw [blockSpans_node]
  split
  next => exact List.mem_cons_of_mem s hmem
  next => exact hmem

theorem mem_blockSpans_self {f : Form} (hf : f.isScope = true) {s span : Span} {cs : List Tree}
    (hspan : span.lo < span.hi) (hs : s.contains span = true) :
    s ∈ (node f s cs).blockSpans := by
  have hplace : s.isNone = false := by
    rw [Span.isNone, beq_eq_false_iff_ne]
    rintro rfl
    rw [Span.none_contains_eq_false hspan] at hs
    exact absurd hs (by simp)
  rw [blockSpans_node, hf, hplace]
  exact List.mem_cons_self

end Tree

namespace Scope

/-- The scope `b` lies in the scope `a`, both in the text and in the tree. -/
structure Within (b a : Scope) : Prop where
  span : a.span.contains b.span = true
  depth : a.depth < b.depth

theorem Within.isBetter {a b : Scope} (h : b.Within a) (i j : Nat) : isBetter b j a i = true := by
  have hspan := h.span
  have hdepth := h.depth
  simp only [Span.contains, Bool.and_eq_true, decide_eq_true_eq] at hspan
  simp only [Scope.isBetter, Bool.or_eq_true, Bool.and_eq_true, decide_eq_true_eq, beq_iff_eq]
  simp only [Span.length]
  omega

/-- Of the scopes that contain a span, each lies in those before it. -/
def Stacked (span : Span) (scopes : List Scope) : Prop :=
  scopes.Pairwise fun a b =>
    a.span.contains span = true → b.span.contains span = true → b.Within a

section Target

variable {span : Span}

theorem foldl_consider_eq_self {scopes : List Scope}
    (h : ∀ a ∈ scopes, a.span.contains span = false) {m : Nat} (hm : m ≠ 0)
    (best : Option (Scope × Nat)) :
    (scopes.zipIdx m).foldl (fun best (a, i) => consider span best a i) best = best := by
  induction scopes generalizing m with
  | nil => rfl
  | cons a scopes ih =>
      rw [List.forall_mem_cons] at h
      have hstep : consider span best a m = best := by
        simp [consider, hm, h.1]
      rw [List.zipIdx_cons, List.foldl_cons]
      simp only [hstep]
      exact ih h.2 (Nat.succ_ne_zero m)

/-- The last scope that contains a span is preferred to all before it. -/
theorem foldl_consider_eq_last {before : List Scope} {a b : Scope}
    (hb : b.span.contains span = true) (hstacked : Stacked span (before ++ [b]))
    (ha : ∀ c ∈ before ++ [b], c.span.contains span = true → c.Within a) (i : Nat) {m : Nat}
    (hm : m ≠ 0) :
    ((before ++ [b]).zipIdx m).foldl (fun best (a, i) => consider span best a i) (some (a, i)) =
      some (b, m + before.length) := by
  induction before generalizing a i m with
  | nil =>
      have hbetter := (ha b List.mem_cons_self hb).isBetter i m
      simp [consider, hb, hbetter]
  | cons c before ih =>
      rw [List.cons_append, List.forall_mem_cons] at ha
      obtain ⟨hc, hrest⟩ := List.pairwise_cons.mp hstacked
      rw [List.cons_append, List.zipIdx_cons, List.foldl_cons, List.length_cons,
        Nat.add_comm before.length, ← Nat.add_assoc]
      by_cases hcontains : c.span.contains span = true
      · have hstep : consider span (some (a, i)) c m = some (c, m) := by
          simp [consider, hcontains, (ha.1 hcontains).isBetter i m]
        simp only [hstep]
        exact ih hrest (fun e he => hc e he hcontains) m (Nat.succ_ne_zero m)
      · have hstep : consider span (some (a, i)) c m = some (a, i) := by
          simp [consider, hm, hcontains]
        simp only [hstep]
        exact ih hrest ha.2 i (Nat.succ_ne_zero m)

variable {root : Scope} {scopes : List Scope}

theorem consider_root (span : Span) (root : Scope) :
    consider span none root 0 = some (root, 0) := rfl

theorem target_eq_zero (root : Scope) (h : ∀ a ∈ scopes, a.span.contains span = false) :
    target (root :: scopes) span = 0 := by
  rw [target, List.zipIdx_cons, List.foldl_cons]
  simp only [consider_root, foldl_consider_eq_self h (Nat.succ_ne_zero 0)]

theorem target_eq_of_last {before after : List Scope} {b : Scope}
    (hroot : ∀ a ∈ before ++ b :: after, a.span.contains span = true → a.Within root)
    (hstacked : Stacked span (before ++ b :: after)) (hb : b.span.contains span = true)
    (hafter : ∀ c ∈ after, c.span.contains span = false) :
    target (root :: (before ++ b :: after)) span = before.length + 1 := by
  rw [List.append_cons] at hroot hstacked ⊢
  have hlast := foldl_consider_eq_last hb (List.pairwise_append.mp hstacked).1
    (fun c hc => hroot c (List.mem_append_left after hc)) 0 (Nat.succ_ne_zero 0)
  have hrest := foldl_consider_eq_self hafter (Nat.succ_ne_zero (before ++ [b]).length)
  rw [target, List.zipIdx_cons, List.foldl_cons, List.zipIdx_append, List.foldl_append,
    Nat.zero_add, Nat.add_comm 1 (before ++ [b]).length]
  simp only [consider_root, hlast, hrest]
  exact Nat.add_comm 1 before.length

theorem exists_last {α : Type} {p : α → Prop} {l : List α} (h : ∃ a ∈ l, p a) :
    ∃ before a after, l = before ++ a :: after ∧ p a ∧ ∀ b ∈ after, ¬ p b := by
  induction l with
  | nil => simp at h
  | cons a l ih =>
      by_cases htail : ∃ b ∈ l, p b
      · obtain ⟨before, b, after, rfl, hb, hafter⟩ := ih htail
        exact ⟨a :: before, b, after, rfl, hb, hafter⟩
      · have ha : p a := by
          obtain ⟨b, hb, hpb⟩ := h
          rcases List.mem_cons.mp hb with rfl | hb
          · exact hpb
          · exact absurd ⟨b, hb, hpb⟩ htail
        exact ⟨[], a, l, rfl, ha, fun b hb hpb => htail ⟨b, hb, hpb⟩⟩

/-- A comment belongs to the last scope that contains it. -/
theorem target_eq_iff {before after : List Scope} {b : Scope}
    (hroot : ∀ a ∈ before ++ b :: after, a.span.contains span = true → a.Within root)
    (hstacked : Stacked span (before ++ b :: after)) :
    target (root :: (before ++ b :: after)) span = before.length + 1 ↔
      b.span.contains span = true ∧ ∀ c ∈ after, c.span.contains span = false := by
  constructor
  · intro h
    by_cases hany : ∃ a ∈ before ++ b :: after, a.span.contains span = true
    · obtain ⟨before', b', after', heq, hb', hafter'⟩ := exists_last hany
      have hlast : target (root :: (before ++ b :: after)) span = before'.length + 1 := by
        rw [heq] at hroot hstacked ⊢
        exact target_eq_of_last hroot hstacked hb' fun c hc => by simpa using hafter' c hc
      have hlength : before.length = before'.length := by omega
      obtain ⟨-, htail⟩ := List.append_inj heq hlength
      obtain ⟨rfl, rfl⟩ := List.cons.inj htail
      exact ⟨hb', fun c hc => by simpa using hafter' c hc⟩
    · have hnone : ∀ a ∈ before ++ b :: after, a.span.contains span = false := by
        intro a ha
        rw [Bool.eq_false_iff]
        intro hcontains
        exact hany ⟨a, ha, hcontains⟩
      rw [target_eq_zero root hnone] at h
      exact absurd h (by simp)
  · rintro ⟨hb, hafter⟩
    exact target_eq_of_last hroot hstacked hb hafter

theorem target_eq_zero_iff (hroot : ∀ a ∈ scopes, a.span.contains span = true → a.Within root)
    (hstacked : Stacked span scopes) :
    target (root :: scopes) span = 0 ↔ ∀ a ∈ scopes, a.span.contains span = false := by
  constructor
  · intro h a ha
    rw [Bool.eq_false_iff]
    intro hcontains
    obtain ⟨before, b, after, rfl, hb, hafter⟩ :=
      exists_last (p := fun c => c.span.contains span = true) ⟨a, ha, hcontains⟩
    have hlast := target_eq_of_last hroot hstacked hb fun c hc => by simpa using hafter c hc
    rw [hlast] at h
    exact absurd h (by simp)
  · exact target_eq_zero root

end Target

theorem lt_depth_of_mem_ofTree {t : Tree} {depth : Nat} :
    ∀ a ∈ ofTree t depth, depth < a.depth := by
  induction t using Tree.induction generalizing depth with
  | h f s cs ih =>
      have hbelow : ∀ depth, ∀ a ∈ cs.flatMap (fun c => ofTree c depth), depth < a.depth := by
        intro depth a ha
        obtain ⟨c, hc, ha⟩ := List.mem_flatMap.mp ha
        exact ih c hc a ha
      rw [ofTree_node]
      split
      next =>
          rw [List.forall_mem_cons]
          refine ⟨Nat.lt_succ_self depth, ?_⟩
          intro a ha
          exact Nat.lt_of_succ_lt (hbelow (depth + 1) a ha)
      next => exact hbelow depth

/-- A scope of a tree is nowhere, or it has the span of a block with a place. -/
theorem eq_none_or_mem_blockSpans {t : Tree} {depth : Nat} {a : Scope} (h : a ∈ ofTree t depth) :
    a.span = Span.none ∨ a.span ∈ t.blockSpans := by
  have hspan : a.span ∈ t.blocks.map Tree.span := by
    rw [← t.map_span_ofTree depth]
    exact List.mem_map_of_mem h
  by_cases hnone : a.span = Span.none
  · exact .inl hnone
  · refine .inr (List.mem_filter.mpr ⟨hspan, ?_⟩)
    simp [Span.isNone, hnone]

end Scope

namespace Tree

/-- The blocks of two trees have no character in common. -/
def BlocksApart (c d : Tree) : Prop :=
  ∀ a ∈ c.blockSpans, ∀ b ∈ d.blockSpans, a.Apart b

instance (c d : Tree) : Decidable (c.BlocksApart d) :=
  inferInstanceAs (Decidable (∀ a ∈ c.blockSpans, ∀ b ∈ d.blockSpans, a.Apart b))

/-- Any two blocks of a tree that have a place are apart in the text, or one of them
stands below the other and is enclosed by it. -/
def Nested (t : Tree) : Prop :=
  t.Everywhere fun n =>
    (n.form.isScope = true → ∀ c ∈ n.children, ∀ b ∈ c.blockSpans,
      n.span.Apart b ∨ n.span.contains b = true) ∧
    n.children.Pairwise BlocksApart

instance (t : Tree) : Decidable t.Nested :=
  inferInstanceAs (Decidable (∀ n ∈ t.nodes, _ ∧ _))

theorem nested_node {f : Form} {s : Span} {cs : List Tree} :
    (node f s cs).Nested ↔
      ((f.isScope = true → ∀ c ∈ cs, ∀ b ∈ c.blockSpans, s.Apart b ∨ s.contains b = true) ∧
        cs.Pairwise BlocksApart) ∧
      ∀ c ∈ cs, c.Nested :=
  everywhere_node

/-- A scope that contains a comment has a place. -/
theorem mem_blockSpans_of_contains {t : Tree} {depth : Nat} {a : Scope}
    (h : a ∈ Scope.ofTree t depth) {span : Span} (hspan : span.lo < span.hi)
    (ha : a.span.contains span = true) : a.span ∈ t.blockSpans := by
  rcases Scope.eq_none_or_mem_blockSpans h with hnone | hmem
  · rw [hnone, Span.none_contains_eq_false hspan] at ha
    exact absurd ha (by simp)
  · exact hmem

theorem stacked_flatMap {cs : List Tree} (hcs : cs.Pairwise BlocksApart) {span : Span}
    (hspan : span.lo < span.hi) {depth : Nat}
    (h : ∀ c ∈ cs, Scope.Stacked span (Scope.ofTree c depth)) :
    Scope.Stacked span (cs.flatMap fun c => Scope.ofTree c depth) := by
  refine List.pairwise_flatMap.mpr ⟨h, hcs.imp ?_⟩
  intro c d hcd a ha b hb hcontains hcontains'
  have hapart := hcd _ (mem_blockSpans_of_contains ha hspan hcontains) _
    (mem_blockSpans_of_contains hb hspan hcontains')
  rw [Span.contains_eq_false_of_apart hapart hspan hcontains] at hcontains'
  exact absurd hcontains' (by simp)

/-- The scopes of a nested tree that contain a comment lie in each other. -/
theorem Nested.stacked {t : Tree} (h : t.Nested) {span : Span} (hspan : span.lo < span.hi)
    (depth : Nat) : Scope.Stacked span (Scope.ofTree t depth) := by
  induction t using Tree.induction generalizing depth with
  | h f s cs ih =>
      obtain ⟨⟨hown, hapart⟩, hcs⟩ := nested_node.mp h
      have hbelow := fun depth => stacked_flatMap hapart hspan fun c hc => ih c hc (hcs c hc) depth
      rw [Scope.ofTree_node]
      by_cases hf : f.isScope = true
      · rw [if_pos hf]
        refine List.pairwise_cons.mpr ⟨?_, hbelow (depth + 1)⟩
        intro a ha hs hcontains
        obtain ⟨c, hc, ha⟩ := List.mem_flatMap.mp ha
        refine ⟨?_, Scope.lt_depth_of_mem_ofTree a ha⟩
        rcases hown hf c hc _ (mem_blockSpans_of_contains ha hspan hcontains) with hb | hb
        · rw [Span.contains_eq_false_of_apart hb hspan hs] at hcontains
          exact absurd hcontains (by simp)
        · exact hb
      · rw [if_neg hf]
        exact hbelow depth

/-- Whether a comment lies in one of some spans. -/
def covers (spans : List Span) (span : Span) : Bool :=
  spans.any fun s => s.contains span

theorem covers_eq_false_iff {cs : List Tree} {span : Span} (hspan : span.lo < span.hi)
    (depth : Nat) :
    covers (cs.flatMap blockSpans) span = false ↔
      ∀ a ∈ cs.flatMap (fun c => Scope.ofTree c depth), a.span.contains span = false := by
  rw [covers, List.any_eq_false]
  constructor
  · intro h a ha
    rw [Bool.eq_false_iff]
    intro hcontains
    obtain ⟨c, hc, ha⟩ := List.mem_flatMap.mp ha
    have hmem := mem_blockSpans_of_contains ha hspan hcontains
    exact h _ (List.mem_flatMap.mpr ⟨c, hc, hmem⟩) hcontains
  · intro h s hs
    obtain ⟨c, hc, hs⟩ := List.mem_flatMap.mp hs
    have hscope : s ∈ (Scope.ofTree c depth).map Scope.span := by
      rw [c.map_span_ofTree depth]
      exact (List.mem_filter.mp hs).1
    obtain ⟨a, ha, rfl⟩ := List.mem_map.mp hscope
    rw [h a (List.mem_flatMap.mpr ⟨c, hc, ha⟩)]
    simp

/-- The directives whose comments lie in a block and in none of the blocks in it. -/
def ownDirectives (b : Tree) (ds : List Directive) : List Directive :=
  ds.filter fun d => b.span.contains d.span && !covers (b.children.flatMap blockSpans) d.span

/-- The tree with the statements of directives in the innermost blocks. -/
def inserted (ds : List Directive) (checker : String) (t : Tree) : Tree :=
  t.fold fun f s cs below =>
    .node f s (if f.isScope then
        Insertion.splice below (((node f s cs).ownDirectives ds).map fun d => d.statement checker)
      else below)

theorem inserted_node (ds : List Directive) (checker : String) (f : Form) (s : Span)
    (cs : List Tree) :
    (node f s cs).inserted ds checker =
      node f s (if f.isScope then
          Insertion.splice (cs.map (inserted ds checker))
            (((node f s cs).ownDirectives ds).map fun d => d.statement checker)
        else cs.map (inserted ds checker)) :=
  fold_node _ f s cs

/-- Nothing changes in a tree whose blocks have no directives of their own. -/
theorem inserted_eq_self {ds : List Directive} {t : Tree}
    (h : ∀ b ∈ t.blocks, b.ownDirectives ds = []) (checker : String) :
    t.inserted ds checker = t := by
  induction t using Tree.induction with
  | h f s cs ih =>
      have hchildren : (∀ c ∈ cs, ∀ b ∈ c.blocks, b.ownDirectives ds = []) →
          cs.map (inserted ds checker) = cs := by
        intro hcs
        exact (List.map_congr_left fun c hc => ih c hc (hcs c hc)).trans (List.map_id cs)
      rw [blocks_node] at h
      rw [inserted_node]
      by_cases hf : f.isScope = true
      · rw [if_pos hf, List.forall_mem_cons] at h
        rw [if_pos hf, h.1, hchildren fun c hc b hb => h.2 b (List.mem_flatMap.mpr ⟨c, hc, hb⟩)]
        rfl
      · rw [if_neg hf] at h
        rw [if_neg hf, hchildren fun c hc b hb => h b (List.mem_flatMap.mpr ⟨c, hc, hb⟩)]

end Tree

namespace Insertion

theorem pending_plan (scopes : List Scope) (ds : List Directive) (checker : String) (k : Nat) :
    pending checker (plan scopes ds) k =
      ((Directive.byStart ds).filter fun d => Scope.target scopes d.span = k).map
        fun d => d.statement checker := by
  rw [pending, plan, List.filter_map, List.map_map]
  rfl

section Lockstep

variable {root : Scope} {scopes : List Scope} {ds : List Directive} {checker : String}

/-- The pass over a list of trees, provided that it is right about each of them. -/
theorem inOrder_eq_inserted {cs : List Tree}
    (hcs : ∀ c ∈ cs, ∀ depth before after, scopes = before ++ Scope.ofTree c depth ++ after →
      (∀ s ∈ c.blockSpans, ∀ a ∈ after, s.Apart a.span) →
        (intoTree (pending checker (plan (root :: scopes) ds)) c (before.length + 1)).1 =
          c.inserted (Directive.byStart ds) checker)
    (hapart : cs.Pairwise Tree.BlocksApart) {depth : Nat} {before after : List Scope}
    (hscopes : scopes = before ++ (cs.flatMap fun c => Scope.ofTree c depth) ++ after)
    (hafter : ∀ c ∈ cs, ∀ s ∈ c.blockSpans, ∀ a ∈ after, s.Apart a.span) :
    (inOrder (cs.map (intoTree (pending checker (plan (root :: scopes) ds))))
        (before.length + 1)).1 =
      cs.map (Tree.inserted (Directive.byStart ds) checker) := by
  induction cs generalizing before with
  | nil => rfl
  | cons c cs ih =>
      rw [List.forall_mem_cons] at hcs hafter
      obtain ⟨hc, htail⟩ := List.pairwise_cons.mp hapart
      rw [List.flatMap_cons, ← List.append_assoc] at hscopes
      have hlater : ∀ s ∈ c.blockSpans,
          ∀ a ∈ (cs.flatMap fun c => Scope.ofTree c depth) ++ after, s.Apart a.span := by
        intro s hs a ha
        rcases List.mem_append.mp ha with ha | ha
        · obtain ⟨d, hd, ha⟩ := List.mem_flatMap.mp ha
          rcases Scope.eq_none_or_mem_blockSpans ha with hnone | hmem
          · rw [hnone]
            exact (Span.apart_none s).symm
          · exact hc d hd s hs _ hmem
        · exact hafter.1 s hs a ha
      have hhead := hcs.1 depth before _ (hscopes.trans (List.append_assoc _ _ _)) hlater
      have hlength : (Scope.ofTree c depth).length = c.blocks.length := by
        simpa using congrArg List.length (c.map_span_ofTree depth)
      have hrest := ih hcs.2 htail hscopes hafter.2
      rw [List.length_append, hlength] at hrest
      rw [List.map_cons, inOrder, List.map_cons]
      simp only [hhead, snd_intoTree, Nat.add_right_comm before.length 1, hrest]

/-- The pass puts each directive into the innermost block of a tree, if the scopes that
come after the tree are apart from its blocks. -/
theorem intoTree_eq_inserted
    (htarget : ∀ before b after, scopes = before ++ b :: after → ∀ d ∈ ds,
      (Scope.target (root :: scopes) d.span = before.length + 1 ↔
        b.span.contains d.span = true ∧ ∀ a ∈ after, a.span.contains d.span = false))
    (hds : ∀ d ∈ ds, d.span.lo < d.span.hi) {t : Tree} (ht : t.Nested) {depth : Nat}
    {before after : List Scope} (hscopes : scopes = before ++ Scope.ofTree t depth ++ after)
    (hafter : ∀ s ∈ t.blockSpans, ∀ a ∈ after, s.Apart a.span) :
    (intoTree (pending checker (plan (root :: scopes) ds)) t (before.length + 1)).1 =
      t.inserted (Directive.byStart ds) checker := by
  induction t using Tree.induction generalizing depth before after with
  | h f s cs ih =>
      obtain ⟨⟨-, hapart⟩, hnested⟩ := Tree.nested_node.mp ht
      have hcs : ∀ c ∈ cs, ∀ depth before after,
          scopes = before ++ Scope.ofTree c depth ++ after →
          (∀ s ∈ c.blockSpans, ∀ a ∈ after, s.Apart a.span) →
            (intoTree (pending checker (plan (root :: scopes) ds)) c (before.length + 1)).1 =
              c.inserted (Directive.byStart ds) checker :=
        fun c hc _ _ _ => ih c hc (hnested c hc)
      have hbelow : ∀ c ∈ cs, ∀ s ∈ c.blockSpans, ∀ a ∈ after, s.Apart a.span :=
        fun c hc s hs => hafter s (Tree.mem_blockSpans_of_mem hc hs)
      rw [Scope.ofTree_node] at hscopes
      rw [intoTree_node, Tree.inserted_node]
      by_cases hf : f.isScope = true
      · rw [if_pos hf] at hscopes
        have hsplit : scopes = before ++ [⟨s, depth + 1⟩] ++
            (cs.flatMap fun c => Scope.ofTree c (depth + 1)) ++ after := by
          rw [hscopes, List.append_cons]
        have hchildren := inOrder_eq_inserted hcs hapart hsplit hbelow
        rw [List.length_append, List.length_singleton] at hchildren
        -- A scope after the block is apart from it, so only those in it can take a comment away.
        have hown : pending checker (plan (root :: scopes) ds) (before.length + 1) =
            ((Tree.node f s cs).ownDirectives (Directive.byStart ds)).map
              fun d => d.statement checker := by
          rw [pending_plan, Tree.ownDirectives]
          congr 1
          refine List.filter_congr fun d hd => ?_
          have hmem : d ∈ ds := (Directive.byStart_perm ds).mem_iff.mp hd
          rw [Bool.eq_iff_iff, decide_eq_true_eq, htarget before ⟨s, depth + 1⟩
            ((cs.flatMap fun c => Scope.ofTree c (depth + 1)) ++ after)
            (by rw [hscopes, List.append_assoc, List.cons_append]) d hmem, List.forall_mem_append,
            ← Tree.covers_eq_false_iff (hds d hmem), Bool.and_eq_true, Bool.not_eq_true']
          refine and_congr_right fun hcontains => and_iff_left_of_imp ?_
          intro _ a ha
          have hs : s ∈ (Tree.node f s cs).blockSpans :=
            Tree.mem_blockSpans_self hf (hds d hmem) hcontains
          exact Span.contains_eq_false_of_apart (hafter s hs a ha) (hds d hmem) hcontains
        simp only [hf, if_true, hchildren, hown]
      · rw [if_neg hf] at hscopes
        have hchildren := inOrder_eq_inserted hcs hapart hscopes hbelow
        simp only [hf, if_neg, Bool.false_eq_true, not_false_eq_true, hchildren]

end Lockstep

end Insertion

namespace Script

/-- The spans of the blocks of a script that have a place. -/
def blockSpans (script : Script) : List Span :=
  script.body.flatMap Tree.blockSpans

/-- Every block with a place lies in the script's span, and any two of them are apart in
the text or one stands below the other and is enclosed by it. -/
structure Nested (script : Script) : Prop where
  enclosed : ∀ s ∈ script.blockSpans, script.span.contains s = true
  apart : script.body.Pairwise Tree.BlocksApart
  trees : ∀ t ∈ script.body, t.Nested

instance (script : Script) : Decidable script.Nested :=
  decidable_of_iff ((∀ s ∈ script.blockSpans, script.span.contains s = true) ∧
      script.body.Pairwise Tree.BlocksApart ∧ ∀ t ∈ script.body, t.Nested)
    ⟨fun ⟨h₁, h₂, h₃⟩ => ⟨h₁, h₂, h₃⟩, fun ⟨h₁, h₂, h₃⟩ => ⟨h₁, h₂, h₃⟩⟩

/-- The script with the statements of directives in the innermost scopes. -/
def inserted (script : Script) (ds : List Directive) (checker : String) : Script :=
  { script with
    body := Insertion.splice (script.body.map (Tree.inserted ds checker))
      ((ds.filter fun d => !Tree.covers script.blockSpans d.span).map
        fun d => d.statement checker) }

theorem Nested.stacked {script : Script} (h : script.Nested) {span : Span}
    (hspan : span.lo < span.hi) :
    Scope.Stacked span (script.body.flatMap fun t => Scope.ofTree t 0) :=
  Tree.stacked_flatMap h.apart hspan fun t ht => (h.trees t ht).stacked hspan 0

theorem Nested.within {script : Script} (h : script.Nested) {span : Span}
    (hspan : span.lo < span.hi) :
    ∀ a ∈ script.body.flatMap (fun t => Scope.ofTree t 0), a.span.contains span = true →
      a.Within ⟨script.span, 0⟩ := by
  intro a ha hcontains
  obtain ⟨t, ht, ha⟩ := List.mem_flatMap.mp ha
  have hmem := Tree.mem_blockSpans_of_contains ha hspan hcontains
  exact ⟨h.enclosed _ (List.mem_flatMap.mpr ⟨t, ht, hmem⟩), Scope.lt_depth_of_mem_ofTree a ha⟩

theorem inserted_nil (script : Script) (checker : String) :
    script.inserted [] checker = script := by
  have hbody : script.body.map (Tree.inserted [] checker) = script.body :=
    (List.map_congr_left fun t _ => Tree.inserted_eq_self (fun _ _ => rfl) checker).trans
      (List.map_id _)
  rw [inserted, hbody]
  rfl

/-- In a nested script each directive goes to the innermost scope that its comment lies in. -/
theorem insertDirectives_eq_inserted {script : Script} (hscript : script.Nested)
    {ds : List Directive} (hds : ∀ d ∈ ds, d.span.lo < d.span.hi) (checker : String) :
    script.insertDirectives ds checker = script.inserted (Directive.byStart ds) checker := by
  have htarget : ∀ before b after,
      (script.body.flatMap fun t => Scope.ofTree t 0) = before ++ b :: after → ∀ d ∈ ds,
        (Scope.target (Scope.ofScript script) d.span = before.length + 1 ↔
          b.span.contains d.span = true ∧ ∀ a ∈ after, a.span.contains d.span = false) := by
    intro before b after heq d hd
    have hroot := hscript.within (hds d hd)
    have hstacked := hscript.stacked (hds d hd)
    rw [heq] at hroot hstacked
    rw [Scope.ofScript, heq]
    exact Scope.target_eq_iff hroot hstacked
  have hscopes : (script.body.flatMap fun t => Scope.ofTree t 0) =
      [] ++ (script.body.flatMap fun t => Scope.ofTree t 0) ++ [] := by
    rw [List.nil_append, List.append_nil]
  have hbody : (Insertion.inOrder (script.body.map (Insertion.intoTree
      (Insertion.pending checker (Insertion.plan (Scope.ofScript script) ds)))) 1).1 =
      script.body.map (Tree.inserted (Directive.byStart ds) checker) :=
    Insertion.inOrder_eq_inserted
      (fun t ht _ _ _ => Insertion.intoTree_eq_inserted htarget hds (hscript.trees t ht))
      hscript.apart hscopes (by simp)
  have hown : Insertion.pending checker (Insertion.plan (Scope.ofScript script) ds) 0 =
      ((Directive.byStart ds).filter fun d => !Tree.covers script.blockSpans d.span).map
        fun d => d.statement checker := by
    rw [Insertion.pending_plan]
    congr 1
    refine List.filter_congr fun d hd => ?_
    have hmem : d ∈ ds := (Directive.byStart_perm ds).mem_iff.mp hd
    rw [Bool.eq_iff_iff, decide_eq_true_eq, Scope.ofScript, Scope.target_eq_zero_iff
      (hscript.within (hds d hmem)) (hscript.stacked (hds d hmem)), Bool.not_eq_true', blockSpans,
      Tree.covers_eq_false_iff (hds d hmem)]
  rw [insertDirectives]
  split
  next hempty =>
      obtain rfl : ds = [] := by simpa using hempty
      have hsorted : Directive.byStart [] = [] := List.mergeSort_nil
      rw [hsorted, inserted_nil]
  next => simp only [hbody, hown, inserted]

end Script

end Contracts
