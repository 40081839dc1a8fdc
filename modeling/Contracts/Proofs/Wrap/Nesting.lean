import Contracts.Proofs.Directive.Innermost
import Contracts.Proofs.Wrap.Checks

/-!
# Wrapping keeps the blocks where they are

A forwarding declaration brings a block of its own, and it moves the function
that it forwards to one block deeper. Its block has no place in the file though,
and neither has anything else that a step puts around a function. `Surrounds`
says this of a way to put nodes around a tree, and it holds of the calls of the
checker and of the bodies of forwarding declarations.

So the spans of the blocks with a place are the same before and after the pass,
in the same order (`blockSpans_wrapped`), and what was properly nested stays so
(`nested_wrapped`).
-/

namespace Contracts

namespace Tree

theorem blockSpans_eq_nil {t : Tree} (h : t.blocks = []) : t.blockSpans = [] := by
  rw [blockSpans, h]
  rfl

theorem flatMap_blockSpans_eq_nil {ts : List Tree} (h : ∀ t ∈ ts, t.blocks = []) :
    ts.flatMap blockSpans = [] :=
  List.flatMap_eq_nil_iff.mpr fun t ht => blockSpans_eq_nil (h t ht)

/-- A tree without blocks is apart from all others. -/
theorem blocksApart_of_blocks_eq_nil {c d : Tree} (h : c.blocks = [] ∨ d.blocks = []) :
    c.BlocksApart d := by
  intro a ha b hb
  rcases h with h | h
  · rw [blockSpans_eq_nil h] at ha
    exact absurd ha (by simp)
  · rw [blockSpans_eq_nil h] at hb
    exact absurd hb (by simp)

theorem nested_of_blocks_eq_nil {t : Tree} (h : t.blocks = []) : t.Nested := by
  induction t using Tree.induction with
  | h f s cs ih =>
      obtain ⟨hf, hcs⟩ := blocks_node_eq_nil h
      refine nested_node.mpr ⟨⟨by simp [hf], ?_⟩, fun c hc => ih c hc (hcs c hc)⟩
      refine List.pairwise_of_forall_mem_list fun c hc d _ => ?_
      exact blocksApart_of_blocks_eq_nil (.inl (hcs c hc))

theorem map_inserted_eq_self {ts : List Tree} (h : ∀ t ∈ ts, t.blocks = [])
    (ds : List Directive) (checker : String) : ts.map (inserted ds checker) = ts := by
  refine (List.map_congr_left fun t ht => inserted_eq_self ?_ checker).trans (List.map_id ts)
  rw [h t ht]
  exact fun b hb => absurd hb (by simp)

theorem blocks_reference {t : Tree} (h : t.Everywhere fun n => n.form.isReference = true) :
    t.blocks = [] := by
  refine blocks_eq_nil (h.imp fun n hn => ?_)
  exact Insertion.Grown.isScope_of_isPassive
    (Form.isPassive_of_isPlain (Form.isPlain_of_isReference hn))

/-- A block without a place has no directives of its own. -/
theorem ownDirectives_eq_nil {f : Form} {cs : List Tree} {ds : List Directive}
    (hds : ∀ d ∈ ds, d.span.lo < d.span.hi) :
    (node f Span.none cs).ownDirectives ds = [] := by
  refine List.filter_eq_nil_iff.mpr fun d hd => ?_
  rw [span_node, Span.none_contains_eq_false (hds d hd)]
  simp

/-- The tree `u` has the blocks with a place that `t` has, in the same order, and they
are nested if those of `t` are. -/
structure Keeps (t u : Tree) : Prop where
  blockSpans_eq : u.blockSpans = t.blockSpans
  nested : t.Nested → u.Nested

namespace Keeps

theorem refl (t : Tree) : Keeps t t :=
  ⟨rfl, id⟩

theorem trans {t u v : Tree} (htu : Keeps t u) (huv : Keeps u v) : Keeps t v :=
  ⟨huv.blockSpans_eq.trans htu.blockSpans_eq, fun h => huv.nested (htu.nested h)⟩

theorem flatMap_blockSpans_eq {cs ds : List Tree} (h : List.Forall₂ Keeps cs ds) :
    ds.flatMap blockSpans = cs.flatMap blockSpans := by
  induction h with
  | nil => rfl
  | cons hcd _ ih => rw [List.flatMap_cons, List.flatMap_cons, hcd.blockSpans_eq, ih]

theorem pairwise_blocksApart {cs ds : List Tree} (h : List.Forall₂ Keeps cs ds)
    (hcs : cs.Pairwise BlocksApart) : ds.Pairwise BlocksApart := by
  induction h with
  | nil => exact hcs
  | @cons c d cs ds hcd htail ih =>
      obtain ⟨hc, hcs⟩ := List.pairwise_cons.mp hcs
      refine List.pairwise_cons.mpr ⟨fun e he a ha b hb => ?_, ih hcs⟩
      have hmem : b ∈ cs.flatMap blockSpans := by
        rw [← flatMap_blockSpans_eq htail]
        exact List.mem_flatMap.mpr ⟨e, he, hb⟩
      obtain ⟨e', he', hb'⟩ := List.mem_flatMap.mp hmem
      rw [hcd.blockSpans_eq] at ha
      exact hc e' he' a ha b hb'

theorem forall_nested {cs ds : List Tree} (h : List.Forall₂ Keeps cs ds)
    (hcs : ∀ c ∈ cs, c.Nested) : ∀ d ∈ ds, d.Nested := by
  induction h with
  | nil => exact hcs
  | cons hcd _ ih =>
      rw [List.forall_mem_cons] at hcs ⊢
      exact ⟨hcd.nested hcs.1, ih hcs.2⟩

/-- Nothing changes for a node if nothing does for its children. -/
theorem node {cs ds : List Tree} (h : List.Forall₂ Keeps cs ds) (f : Form) (s : Span) :
    Keeps (.node f s cs) (.node f s ds) where
  blockSpans_eq := by
    rw [blockSpans_node, blockSpans_node, flatMap_blockSpans_eq h]
  nested := by
    intro hnested
    obtain ⟨⟨hown, hapart⟩, hcs⟩ := nested_node.mp hnested
    refine nested_node.mpr ⟨⟨?_, pairwise_blocksApart h hapart⟩, ?_⟩
    · intro hf d hd b hb
      have hmem : b ∈ cs.flatMap blockSpans := by
        rw [← flatMap_blockSpans_eq h]
        exact List.mem_flatMap.mpr ⟨d, hd, hb⟩
      obtain ⟨c, hc, hb'⟩ := List.mem_flatMap.mp hmem
      exact hown hf c hc b hb'
    · exact forall_nested h hcs

end Keeps

/-- What `g` puts around a tree brings no block with a place, and so none in which a
directive could end up. -/
structure Surrounds (g : Tree → Tree) : Prop where
  keeps : ∀ t, Keeps t (g t)
  inserted_eq : ∀ {ds : List Directive}, (∀ d ∈ ds, d.span.lo < d.span.hi) →
    ∀ checker t, (g t).inserted ds checker = g (t.inserted ds checker)

namespace Surrounds

theorem comp {g h : Tree → Tree} (hg : Surrounds g) (hh : Surrounds h) :
    Surrounds fun t => g (h t) where
  keeps t := (hh.keeps t).trans (hg.keeps (h t))
  inserted_eq hds checker t := by
    rw [hg.inserted_eq hds, hh.inserted_eq hds]

/-- A node that has no place if it is a block, with blocks below one child only. -/
theorem node {f : Form} {s : Span} (hf : f.isScope = true → s = Span.none)
    (before after : List Tree) (hbefore : ∀ t ∈ before, t.blocks = [])
    (hafter : ∀ t ∈ after, t.blocks = []) :
    Surrounds fun t => .node f s (before ++ t :: after) where
  keeps t := by
    constructor
    · have hplace : ¬ (f.isScope && !s.isNone) = true := by
        intro h
        obtain ⟨hscope, hs⟩ := Bool.and_eq_true_iff.mp h
        rw [hf hscope] at hs
        exact absurd hs (by decide)
      rw [blockSpans_node, if_neg hplace, List.flatMap_append, List.flatMap_cons,
        flatMap_blockSpans_eq_nil hbefore, flatMap_blockSpans_eq_nil hafter, List.append_nil]
      rfl
    · intro ht
      refine nested_node.mpr ⟨⟨?_, ?_⟩, ?_⟩
      · intro hscope c _ b _
        rw [hf hscope]
        exact .inl (Span.apart_none b)
      · refine List.pairwise_append.mpr ⟨?_, List.pairwise_cons.mpr ⟨?_, ?_⟩, ?_⟩
        · exact List.pairwise_of_forall_mem_list fun c hc d _ =>
            blocksApart_of_blocks_eq_nil (.inl (hbefore c hc))
        · exact fun d hd => blocksApart_of_blocks_eq_nil (.inr (hafter d hd))
        · exact List.pairwise_of_forall_mem_list fun c hc d _ =>
            blocksApart_of_blocks_eq_nil (.inl (hafter c hc))
        · exact fun c hc d _ => blocksApart_of_blocks_eq_nil (.inl (hbefore c hc))
      · rw [List.forall_mem_append, List.forall_mem_cons]
        exact ⟨fun c hc => nested_of_blocks_eq_nil (hbefore c hc), ht,
          fun c hc => nested_of_blocks_eq_nil (hafter c hc)⟩
  inserted_eq := by
    intro ds hds checker t
    rw [inserted_node, List.map_append, List.map_cons, map_inserted_eq_self hbefore,
      map_inserted_eq_self hafter]
    by_cases hscope : f.isScope = true
    · rw [if_pos hscope, hf hscope, ownDirectives_eq_nil hds]
      rfl
    · rw [if_neg hscope]

end Surrounds

end Tree

namespace Wrap

section Surrounding

variable (config : Config)

theorem surrounds_handed (label : String) : Tree.Surrounds (handed config label) := by
  refine .node (by simp [Form.isScope]) [callee config, Build.string label] [] ?_ (by simp)
  rw [List.forall_mem_cons, List.forall_mem_singleton]
  exact ⟨Tree.blocks_reference (everywhere_callee config), rfl⟩

/-- The body of a forwarding declaration, of which the checked function is a part. -/
def forwardingBody (name : String) (checked : Tree) : Tree :=
  let cache := Build.member (Build.identifier name) config.cacheProperty
  Build.block
    [Build.expressionStatement (Build.assignment cache (Build.binary "||" cache checked)),
      Build.returnStatement (some
        (Build.call (Build.member cache "apply") [Build.this, Build.identifier "arguments"]))]

theorem forwarding_eq (name : String) (s : Span) (called checked : Tree) :
    forwarding config name s called checked =
      .node (.functionDeclaration .plain) s
        [called, Build.parameters [], forwardingBody config name checked] :=
  rfl

theorem surrounds_forwardingBody (name : String) :
    Tree.Surrounds (forwardingBody config name) := by
  have hcache := Tree.blocks_reference
    (Build.everywhere_member (Build.everywhere_identifier name) config.cacheProperty)
  have hoperand := Tree.Surrounds.node (f := .binary "||") (s := Span.none)
    (by simp [Form.isScope]) [Build.member (Build.identifier name) config.cacheProperty] []
    (List.forall_mem_singleton.mpr hcache) (by simp)
  have hassigned := Tree.Surrounds.node (f := .assignment "=") (s := Span.none)
    (by simp [Form.isScope])
    [Build.target (Build.member (Build.identifier name) config.cacheProperty)] []
    (List.forall_mem_singleton.mpr hcache) (by simp)
  have hfill := Tree.Surrounds.node (f := .expressionStatement) (s := Span.none)
    (by simp [Form.isScope]) [] [] (by simp) (by simp)
  have hblock := Tree.Surrounds.node (f := .block false) (s := Span.none) (fun _ => rfl) []
    [Build.returnStatement (some (Build.call (Build.member (Build.member (Build.identifier name)
      config.cacheProperty) "apply") [Build.this, Build.identifier "arguments"]))] (by simp)
    (List.forall_mem_singleton.mpr rfl)
  exact hblock.comp (hfill.comp (hassigned.comp hoperand))

end Surrounding

namespace Step

variable {config : Config} {comments : List Comment} {t u : Tree} {cs : List Tree}
  {sites : List Site}

theorem span_eq (h : Step config comments t cs u sites) : u.span = t.span := by
  cases h <;> rfl

/-- The parameters and the body of a function, moved one level down. -/
theorem keeps_regrouped (m : Modifiers) (s : Span) (called params body : Tree) :
    Tree.Keeps (.node (.functionDeclaration m) s [called, params, body])
      (.node (.functionDeclaration .plain) s [called, Build.parameters [],
        .node (.functionExpression m) s [Tree.absent, params, body]]) := by
  have habsent : Tree.absent.blocks = [] := rfl
  have hparameters : (Build.parameters []).blocks = [] := rfl
  have hfunction : (Tree.node (.functionExpression m) s [Tree.absent, params, body]).blockSpans =
      params.blockSpans ++ body.blockSpans := by
    simp [Tree.blockSpans_node, Tree.blockSpans_eq_nil habsent, Form.isScope]
  constructor
  · simp [Tree.blockSpans_node, hfunction, Tree.blockSpans_eq_nil hparameters, Form.isScope]
  · intro h
    obtain ⟨⟨-, hapart⟩, hparts⟩ := Tree.nested_node.mp h
    have hapart' : (called.BlocksApart params ∧ called.BlocksApart body) ∧
        params.BlocksApart body := by
      simpa using hapart
    obtain ⟨⟨hparams, hbody⟩, hboth⟩ := hapart'
    have hcalled : called.BlocksApart
        (.node (.functionExpression m) s [Tree.absent, params, body]) := by
      intro a ha b hb
      rw [hfunction] at hb
      rcases List.mem_append.mp hb with hb | hb
      · exact hparams a ha b hb
      · exact hbody a ha b hb
    have hnone : ∀ {c d : Tree}, c.blocks = [] ∨ d.blocks = [] → c.BlocksApart d :=
      Tree.blocksApart_of_blocks_eq_nil
    have hnested : (Tree.node (.functionExpression m) s [Tree.absent, params, body]).Nested := by
      refine Tree.nested_node.mpr ⟨⟨by simp [Form.isScope], ?_⟩, ?_⟩
      · simp [hnone (.inl habsent), hboth]
      · simp_all [Tree.nested_of_blocks_eq_nil habsent]
    refine Tree.nested_node.mpr ⟨⟨by simp [Form.isScope], ?_⟩, ?_⟩
    · simp [hnone (.inl hparameters), hnone (.inr hparameters), hcalled]
    · simp_all [Tree.nested_of_blocks_eq_nil hparameters]

/-- Whatever a step puts around a function, the blocks with a place stay as they are. -/
theorem keeps (h : Step config comments t cs u sites) :
    Tree.Keeps (.node t.form t.span cs) u := by
  have hcheck := fun label value => (surrounds_handed config label).keeps value
  cases h with
  | declaration h =>
      rename_i name text ds params body called' params' body'
      refine (keeps_regrouped _ _ _ _ _).trans ?_
      refine .node (.cons (.refl _) (.cons (.refl _) (.cons ?_ .nil))) _ _
      exact ((surrounds_forwardingBody config name).comp (surrounds_handed config _)).keeps _
  | initializer h hp hinit =>
      exact .node (.cons (.node (.cons (.refl _) (.cons (hcheck _ _) .nil)) _ _) .nil) _ _
  | loopInitializer h hp hinit =>
      refine .node (.cons ?_ (List.forall₂_same.mpr fun c _ => .refl c)) _ _
      exact .node (.cons (.node (.cons (.refl _) (.cons (hcheck _ _) .nil)) _ _) .nil) _ _
  | returned h hvalue => exact .node (.cons (hcheck _ _) .nil) _ _
  | unsigned hsite h => exact .refl _
  | elsewhere hsite => exact .refl _

end Step

section Pass

variable (config : Config) (comments : List Comment)

theorem span_wrapped (t : Tree) : (wrapped config comments t).span = t.span := by
  obtain ⟨sites, hstep, -⟩ := step_node config comments t
  exact hstep.span_eq

theorem keeps_wrapped (t : Tree) : Tree.Keeps t (wrapped config comments t) := by
  induction t using Tree.induction with
  | h f s cs ih =>
      obtain ⟨sites, hstep, -⟩ := step_node config comments (.node f s cs)
      refine .trans (.node ?_ f s) hstep.keeps
      exact List.forall₂_map_right_iff.mpr (List.forall₂_same.mpr ih)

theorem forall₂_keeps_wrapped (cs : List Tree) :
    List.Forall₂ Tree.Keeps cs (cs.map (wrapped config comments)) :=
  List.forall₂_map_right_iff.mpr
    (List.forall₂_same.mpr fun c _ => keeps_wrapped config comments c)

end Pass

end Wrap

namespace Script

variable (comments : List Comment) (config : Config)

theorem blockSpans_wrapFunctions (script : Script) :
    (script.wrapFunctions comments config .standard).1.blockSpans = script.blockSpans := by
  rw [wrapFunctions_standard, blockSpans, blockSpans]
  exact Tree.Keeps.flatMap_blockSpans_eq (Wrap.forall₂_keeps_wrapped config comments _)

/-- A nested script is nested after its functions were wrapped. -/
theorem Nested.wrapFunctions {script : Script} (h : script.Nested) :
    (script.wrapFunctions comments config .standard).1.Nested := by
  have hkeeps := Wrap.forall₂_keeps_wrapped config comments script.body
  refine ⟨?_, ?_, ?_⟩
  · rw [blockSpans_wrapFunctions, wrapFunctions_standard]
    exact h.enclosed
  · rw [wrapFunctions_standard]
    exact Tree.Keeps.pairwise_blocksApart hkeeps h.apart
  · rw [wrapFunctions_standard]
    exact Tree.Keeps.forall_nested hkeeps h.trees

end Script

end Contracts
