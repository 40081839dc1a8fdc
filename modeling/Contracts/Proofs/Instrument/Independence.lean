import Contracts.Instrument.Basic
import Contracts.Proofs.Wrap.Counting
import Contracts.Proofs.Wrap.Nesting

/-!
# The two passes are independent

Directives can be inserted before the functions are wrapped or after it. Neither
pass gets in the way of the other. An inserted directive holds no site, and no
site is judged by what stands in a block; so the wrapping pass makes the same
steps with directives and without (`Step.inserted`). A step in turn keeps the
starts of statements and the blocks with a place, and by these alone it is
decided where a directive goes.

The numbers of the scopes do change, because every forwarding declaration brings
a block. The result therefore rests on nested scripts, where the innermost scope
of a comment can be found without numbers.
-/

namespace Contracts

namespace Insertion

/-- Whatever keeps the starts of statements can be done before statements are put in. -/
theorem map_place {g : Tree → Tree} (hg : ∀ t, (g t).span = t.span) (statement : Tree)
    (body : List Tree) : (place statement body).map g = place (g statement) (body.map g) := by
  induction body with
  | nil => rfl
  | cons t ts ih =>
      rw [place, List.map_cons, place, hg, hg]
      split
      next => rfl
      next => rw [List.map_cons, ih]

theorem map_splice {g : Tree → Tree} (hg : ∀ t, (g t).span = t.span)
    (body statements : List Tree) :
    (splice body statements).map g = splice (body.map g) (statements.map g) := by
  induction statements generalizing body with
  | nil => rfl
  | cons t ts ih =>
      rw [splice, List.foldl_cons]
      exact (ih (place t body)).trans (by rw [map_place hg]; rfl)

theorem grown_inserted (ds : List Directive) (checker : String) (t : Tree) :
    Grown t (t.inserted ds checker) := by
  induction t using Tree.induction with
  | h f s cs ih =>
      have hcs : List.Forall₂ Grown cs (cs.map (Tree.inserted ds checker)) :=
        List.forall₂_map_right_iff.mpr (List.forall₂_same.mpr ih)
      rw [Tree.inserted_node]
      by_cases hf : f.isScope = true
      · rw [if_pos hf]
        refine .scope hf hcs (.splice ?_ (.refl _))
        intro u hu
        obtain ⟨d, -, rfl⟩ := List.mem_map.mp hu
        exact ⟨d, checker, rfl⟩
      · rw [if_neg hf]
        exact .copy (by simpa using hf) hcs

end Insertion

namespace Wrap

variable {config : Config} {comments : List Comment} {ds : List Directive} {checker : String}

theorem wrapped_statement (d : Directive) :
    wrapped config comments (d.statement checker) = d.statement checker := by
  refine (wrapped_eq_iff config comments ?_).mpr rfl
  exact (d.everywhere_statement checker).imp fun n hn =>
    isSiteForm_of_isPassive (Form.isPassive_of_isPlain hn)

theorem inserted_of_not_isScope {f : Form} (hf : f.isScope = false) (s : Span) (cs : List Tree) :
    (Tree.node f s cs).inserted ds checker = .node f s (cs.map (Tree.inserted ds checker)) := by
  rw [Tree.inserted_node, if_neg (by simp [hf])]

theorem inserted_forwarding (hds : ∀ d ∈ ds, d.span.lo < d.span.hi) (m : Modifiers) (s : Span)
    (name label : String) (called params body : Tree) :
    (forwarding config name s called (handed config label
        (.node (.functionExpression m) s [Tree.absent, params, body]))).inserted ds checker =
      forwarding config name s (called.inserted ds checker) (handed config label
        (.node (.functionExpression m) s
          [Tree.absent, params.inserted ds checker, body.inserted ds checker])) := by
  have hbody := ((surrounds_forwardingBody config name).comp
    (surrounds_handed config label)).inserted_eq hds checker
  have hparameters : (Build.parameters []).inserted ds checker = Build.parameters [] := rfl
  have habsent : Tree.absent.inserted ds checker = Tree.absent := rfl
  rw [forwarding_eq, inserted_of_not_isScope rfl, List.map_cons, List.map_cons, List.map_singleton,
    hbody, inserted_of_not_isScope rfl, List.map_cons, List.map_cons, List.map_singleton,
    hparameters, habsent, forwarding_eq]

theorem functionName?_inserted (t : Tree) :
    (t.inserted ds checker).functionName? = t.functionName? :=
  (Insertion.grown_inserted ds checker t).functionName?_eq

theorem boundName?_inserted (t : Tree) : (t.inserted ds checker).boundName? = t.boundName? :=
  (Insertion.grown_inserted ds checker t).boundName?_eq

theorem isFunction_inserted (t : Tree) : (t.inserted ds checker).isFunction = t.isFunction :=
  (Insertion.grown_inserted ds checker t).isFunction_eq

/-- The wrapping pass makes the same step at a node with directives below it. -/
theorem Step.inserted (hds : ∀ d ∈ ds, d.span.lo < d.span.hi) {f : Form}
    (hf : f.isScope = false) {s : Span} {cs cs' : List Tree} {u : Tree} {sites : List Site}
    (h : Step config comments (.node f s cs) cs' u sites) :
    Step config comments (.node f s (cs.map (Tree.inserted ds checker)))
      (cs'.map (Tree.inserted ds checker)) (u.inserted ds checker) sites := by
  have hcheck := fun label value => (surrounds_handed config label).inserted_eq hds checker value
  have hdeclarator : ∀ r bs, (Tree.node .declarator r bs).inserted ds checker =
      .node .declarator r (bs.map (Tree.inserted ds checker)) :=
    fun r bs => inserted_of_not_isScope rfl r bs
  have hsite : (Tree.node f s (cs.map (Tree.inserted ds checker))).site? =
      (Tree.node f s cs).site? := by
    rw [← inserted_of_not_isScope hf]
    exact (Insertion.grown_inserted ds checker _).site?_eq
  cases h with
  | declaration h =>
      rw [inserted_forwarding hds]
      exact .declaration h
  | initializer h hp hinit =>
      rename_i k r p init p' init' name text
      rw [← functionName?_inserted init, inserted_of_not_isScope hf]
      simp only [List.map_cons, List.map_nil, hdeclarator, hcheck]
      exact .initializer h ((boundName?_inserted p).trans hp)
        ((isFunction_inserted init).trans hinit)
  | loopInitializer h hp hinit =>
      rename_i k q r p init p' init' rest rest' name text
      have hhead : ∀ bs, (Tree.node (.variableHead k) q bs).inserted ds checker =
          .node (.variableHead k) q (bs.map (Tree.inserted ds checker)) :=
        fun bs => inserted_of_not_isScope rfl q bs
      rw [← functionName?_inserted init, inserted_of_not_isScope hf]
      simp only [List.map_cons, List.map_nil, hhead, hdeclarator, hcheck]
      exact .loopInitializer h ((boundName?_inserted p).trans hp)
        ((isFunction_inserted init).trans hinit)
  | returned h hvalue =>
      rename_i value value' text
      rw [← functionName?_inserted value, inserted_of_not_isScope hf]
      simp only [List.map_cons, List.map_nil, hcheck]
      exact .returned h ((isFunction_inserted value).trans hvalue)
  | unsigned hsite' h =>
      rw [inserted_of_not_isScope hf]
      exact .unsigned (hsite.trans hsite') h
  | elsewhere hsite' =>
      rw [inserted_of_not_isScope hf]
      exact .elsewhere (hsite.trans hsite')

theorem ownDirectives_map_wrapped (f : Form) (s : Span) (cs : List Tree) :
    (Tree.node f s (cs.map (wrapped config comments))).ownDirectives ds =
      (Tree.node f s cs).ownDirectives ds := by
  have hspans := Tree.Keeps.flatMap_blockSpans_eq (forall₂_keeps_wrapped config comments cs)
  rw [Tree.ownDirectives, Tree.ownDirectives, Tree.children_node, Tree.children_node, hspans]
  rfl

theorem map_wrapped_statement (ds : List Directive) :
    (ds.map fun d => d.statement checker).map (wrapped config comments) =
      ds.map fun d => d.statement checker := by
  rw [List.map_map]
  exact List.map_congr_left fun d _ => wrapped_statement d

/-- Wrapping and inserting give the same tree in either order. -/
theorem wrapped_inserted (hds : ∀ d ∈ ds, d.span.lo < d.span.hi) (t : Tree) :
    wrapped config comments (t.inserted ds checker) =
      (wrapped config comments t).inserted ds checker := by
  induction t using Tree.induction with
  | h f s cs ih =>
      have hchildren : (cs.map (Tree.inserted ds checker)).map (wrapped config comments) =
          (cs.map (wrapped config comments)).map (Tree.inserted ds checker) := by
        rw [List.map_map, List.map_map]
        exact List.map_congr_left ih
      by_cases hf : f.isScope = true
      · have hsite : f.isSiteForm = false := by
          cases f with
          | block isStatement => rfl
          | _ => exact absurd hf (by simp [Form.isScope])
        rw [wrapped_copy config comments hsite, Tree.inserted_node, Tree.inserted_node, if_pos hf,
          if_pos hf, wrapped_copy config comments hsite,
          Insertion.map_splice (span_wrapped config comments), hchildren, map_wrapped_statement,
          ownDirectives_map_wrapped]
      · have hscope : f.isScope = false := by simpa using hf
        obtain ⟨sites, hstep, -⟩ := step_node config comments (.node f s cs)
        obtain ⟨sites', hstep', -⟩ := step_node config comments
          (.node f s (cs.map (Tree.inserted ds checker)))
        rw [Tree.children_node, hchildren] at hstep'
        rw [inserted_of_not_isScope hscope]
        exact hstep'.unique (hstep.inserted hds hscope)

end Wrap

namespace Script

section Order

variable {script : Script} {ds : List Directive} {checker : String} {comments : List Comment}
  {config : Config}

theorem wrapFunctions_inserted (hds : ∀ d ∈ ds, d.span.lo < d.span.hi) :
    ((script.inserted ds checker).wrapFunctions comments config .standard).1 =
      (script.wrapFunctions comments config .standard).1.inserted ds checker := by
  have hbody : (script.body.map (Tree.inserted ds checker)).map (Wrap.wrapped config comments) =
      (script.body.map (Wrap.wrapped config comments)).map (Tree.inserted ds checker) := by
    rw [List.map_map, List.map_map]
    exact List.map_congr_left fun t _ => Wrap.wrapped_inserted hds t
  have hspans := script.blockSpans_wrapFunctions comments config
  rw [inserted, inserted, hspans, wrapFunctions_standard, wrapFunctions_standard,
    Insertion.map_splice (Wrap.span_wrapped config comments), hbody, Wrap.map_wrapped_statement]

theorem addSites_insertDirectives (stats : Stats) :
    stats.addSites
        ((script.insertDirectives ds checker).wrapFunctions comments config .standard).2 =
      stats.addSites (script.wrapFunctions comments config .standard).2 := by
  have hperm := (script.insertDirectives ds checker).wrapFunctions_noted_perm comments config
  rw [filterMap_nodes_insertDirectives] at hperm
  exact stats.addSites_eq_of_perm
    (hperm.trans (script.wrapFunctions_noted_perm comments config).symm)

end Order

/-- The two passes are independent: in a nested script, inserting directives whose comments
are not empty and then wrapping the functions gives the same tree and the same statistics
as wrapping the functions first. -/
theorem wrapFunctions_insertDirectives (script : Script) (hscript : script.Nested)
    (ds : List Directive) (hds : ∀ d ∈ ds, d.span.lo < d.span.hi) (checker : String)
    (comments : List Comment) (config : Config) (stats : Stats) :
    let insertedFirst := (script.insertDirectives ds checker).wrapFunctions comments config .standard
    let wrappedFirst := script.wrapFunctions comments config .standard
    insertedFirst.1 = wrappedFirst.1.insertDirectives ds checker ∧
      stats.addSites insertedFirst.2 = stats.addSites wrappedFirst.2 := by
  intro insertedFirst wrappedFirst
  have hsorted : ∀ d ∈ Directive.byStart ds, d.span.lo < d.span.hi :=
    fun d hd => hds d ((Directive.byStart_perm ds).mem_iff.mp hd)
  refine ⟨?_, addSites_insertDirectives stats⟩
  calc insertedFirst.1
      = ((script.inserted (Directive.byStart ds) checker).wrapFunctions comments config
          .standard).1 := by rw [← insertDirectives_eq_inserted hscript hds checker]
    _ = wrappedFirst.1.inserted (Directive.byStart ds) checker := wrapFunctions_inserted hsorted
    _ = wrappedFirst.1.insertDirectives ds checker :=
        (insertDirectives_eq_inserted (hscript.wrapFunctions comments config) hds checker).symm

/-- A directive in the body of a declaration with a signature. -/
theorem wrapFunctions_insertDirectives_declaration :
    let s := Source.ofText "a.js" "//f::x\nfunction f(){/*typify: instance A*/}".toList
    let ds : List Directive := [⟨.instances "A", ⟨21, 43⟩⟩]
    let wrapped (p : Parsed) := (p.script.wrapFunctions p.comments .default .standard).1
    ∃ p, s.parse = .ok p ∧ (Directive.collect p.comments).directives = ds ∧ p.script.Nested ∧
      wrapped p ≠ p.script ∧ p.script.insertDirectives ds "c" ≠ p.script ∧
      ((p.script.insertDirectives ds "c").wrapFunctions p.comments .default .standard).1 =
        (wrapped p).insertDirectives ds "c" := by
  intro s ds wrapped
  have hread : (s.parse.toOption.any fun p =>
      (Directive.collect p.comments).directives == ds && decide p.script.Nested &&
        wrapped p != p.script && p.script.insertDirectives ds "c" != p.script) = true := by
    decide +kernel
  obtain ⟨p, hparse, htest⟩ := Source.exists_parse_eq_ok hread
  simp only [Bool.and_eq_true, decide_eq_true_eq, bne_iff_ne, beq_iff_eq] at htest
  obtain ⟨⟨⟨hdirectives, hnested⟩, hwrapped⟩, hinserted⟩ := htest
  refine ⟨p, hparse, hdirectives, hnested, hwrapped, hinserted, ?_⟩
  exact (wrapFunctions_insertDirectives p.script hnested ds (by decide) _ _ _ .zero).1

end Script

end Contracts
