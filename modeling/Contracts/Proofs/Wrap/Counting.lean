import Contracts.Proofs.Directive.Growth
import Contracts.Proofs.Wrap.Checks
import Mathlib.Data.List.Perm.Basic

/-!
# The statistics are honest

What the pass notes about a tree is, up to the order, what is to be noted about
each node of the tree as it came in (`noted_perm`). So the totals count the sites
of the script, whatever the pass puts into it, and the matched ones count those
that have a signature, for each of which there is a new check.

Directives do not change any of this: none of them holds a site, and the nodes
that were there before are sites as before (`Grown.outcomes_eq`).
-/

namespace Contracts

namespace Stats

theorem get_record (stats : Stats) (found kind : SiteKind) (isMatched : Bool) :
    (stats.record found isMatched).get kind =
      if found = kind then (stats.get kind).record isMatched else stats.get kind := by
  cases found <;> cases kind <;> rfl

theorem eq_of_get_eq {a b : Stats} (h : ∀ kind, a.get kind = b.get kind) : a = b := by
  have hdeclarations : a.declarations = b.declarations := h .declaration
  have hinitializers : a.initializers = b.initializers := h .initializer
  have hreturns : a.returns = b.returns := h .returned
  cases a
  cases b
  simp_all

/-- The statistics count the outcomes of sites. -/
theorem get_addSites (stats : Stats) (sites : List Site) (kind : SiteKind) :
    (stats.addSites sites).get kind =
      ⟨(stats.get kind).matched + (sites.map Site.outcome).count (kind, true),
        (stats.get kind).total + (sites.map Site.outcome).countP fun o => o.1 = kind⟩ := by
  induction sites generalizing stats with
  | nil => rfl
  | cons site sites ih =>
      have hcons : stats.addSites (site :: sites) =
          (stats.record site.kind site.wrapped.isSome).addSites sites := rfl
      rw [hcons, ih, get_record, List.map_cons, List.count_cons, List.countP_cons]
      by_cases hkind : site.kind = kind
      · cases hwrapped : site.wrapped.isSome with
        | false => simp [Tally.record, Site.outcome, hkind, hwrapped]; omega
        | true => simp [Tally.record, Site.outcome, hkind, hwrapped]; omega
      · simp [Site.outcome, hkind]

theorem addSites_eq_of_perm (stats : Stats) {sites sites' : List Site}
    (h : (sites.map Site.outcome).Perm (sites'.map Site.outcome)) :
    stats.addSites sites = stats.addSites sites' := by
  refine eq_of_get_eq fun kind => ?_
  rw [get_addSites, get_addSites, h.count_eq, h.countP_eq]

end Stats

namespace Wrap

/-- What is to be noted about the nodes of a tree. -/
def outcomes (comments : List Comment) (t : Tree) : List (SiteKind × Bool) :=
  t.nodes.filterMap (outcome? comments)

theorem outcomes_node (comments : List Comment) (f : Form) (s : Span) (cs : List Tree) :
    outcomes comments (.node f s cs) =
      (outcome? comments (.node f s cs)).toList ++ cs.flatMap (outcomes comments) := by
  rw [outcomes, Tree.nodes_node, List.filterMap_cons, List.filterMap_flatMap]
  cases outcome? comments (.node f s cs) <;> rfl

/-- The pass notes about a tree what is to be noted about its nodes. -/
theorem noted_perm (config : Config) (comments : List Comment) (t : Tree) :
    ((noted config comments t).map Site.outcome).Perm (outcomes comments t) := by
  induction t using Tree.induction with
  | h f s cs ih =>
      obtain ⟨sites, hstep, hnoted⟩ := step_node config comments (.node f s cs)
      have hchildren : ((cs.flatMap (noted config comments)).map Site.outcome).Perm
          (cs.flatMap (outcomes comments)) := by
        rw [List.map_flatMap]
        exact List.Perm.flatMap_left cs ih
      rw [hnoted, List.map_append, hstep.noted_eq, outcomes_node]
      exact List.perm_append_comm.trans (hchildren.append_left _)

end Wrap

namespace Insertion

variable {comments : List Comment}

theorem outcomes_of_isDirective {t : Tree} (h : IsDirective t) : Wrap.outcomes comments t = [] := by
  obtain ⟨d, checker, rfl⟩ := h
  refine List.filterMap_eq_nil_iff.mpr ?_
  rintro ⟨f, s, cs⟩ hn
  have hf : f.isPassive = true := Form.isPassive_of_isPlain (d.everywhere_statement checker _ hn)
  rw [Wrap.outcome?, Tree.site?_eq_none (Wrap.isSiteForm_of_isPassive hf)]
  rfl

theorem flatMap_outcomes_eq {cs ds : List Tree}
    (h : ∀ c ∈ cs, ∀ d, Grown c d → Wrap.outcomes comments d = Wrap.outcomes comments c)
    (hgrown : List.Forall₂ Grown cs ds) :
    ds.flatMap (Wrap.outcomes comments) = cs.flatMap (Wrap.outcomes comments) := by
  rw [List.flatMap_def, List.flatMap_def, Grown.map_eq_of_forall₂ h hgrown]

/-- There is the same to note about a tree after directives were inserted. -/
theorem Grown.outcomes_eq {t u : Tree} (h : Grown t u) :
    Wrap.outcomes comments u = Wrap.outcomes comments t := by
  induction t using Tree.induction generalizing u with
  | h f s cs ih =>
      have hsite := h.site?_eq
      cases h with
      | copy hf hcs =>
          have hbelow := flatMap_outcomes_eq (fun c hc d => ih c hc) hcs
          rw [Wrap.outcomes_node, Wrap.outcomes_node, hbelow, Wrap.outcome?, Wrap.outcome?, hsite]
      | scope hf hcs hes =>
          have hbelow := flatMap_outcomes_eq (fun c hc d => ih c hc) hcs
          rw [← hes.flatMap_eq fun t => outcomes_of_isDirective] at hbelow
          rw [Wrap.outcomes_node, Wrap.outcomes_node, hbelow, Wrap.outcome?, Wrap.outcome?, hsite]

end Insertion

namespace Script

/-- All nodes of a script. -/
def nodes (script : Script) : List Tree :=
  script.body.flatMap Tree.nodes

/-- How many checks of a kind there are in a script. -/
def checks (script : Script) (config : Config) (kind : SiteKind) : Nat :=
  script.nodes.countP fun n => Wrap.checkKind? config n == some kind

theorem checks_eq_sum (script : Script) (config : Config) (kind : SiteKind) :
    script.checks config kind = (script.body.map (Wrap.checks config kind)).sum := by
  rw [checks, nodes, List.countP_flatMap]
  rfl

theorem filterMap_nodes (script : Script) (comments : List Comment) :
    script.nodes.filterMap (Wrap.outcome? comments) =
      script.body.flatMap (Wrap.outcomes comments) := by
  rw [nodes, List.filterMap_flatMap]
  rfl

section Statistics

variable (script : Script) (comments : List Comment) (config : Config)

theorem wrapFunctions_noted_perm :
    ((script.wrapFunctions comments config .standard).2.map Site.outcome).Perm
      (script.nodes.filterMap (Wrap.outcome? comments)) := by
  rw [wrapFunctions_standard, filterMap_nodes, List.map_flatMap]
  exact List.Perm.flatMap_left _ fun t _ => Wrap.noted_perm config comments t

theorem checks_wrapFunctions (kind : SiteKind) :
    (script.wrapFunctions comments config .standard).1.checks config kind =
      script.checks config kind +
        ((script.wrapFunctions comments config .standard).2.map Site.outcome).count
          (kind, true) := by
  have hwrapped : ∀ t ∈ script.body, Wrap.checks config kind (Wrap.wrapped config comments t) =
      Wrap.checks config kind t +
        ((Wrap.noted config comments t).map Site.outcome).count (kind, true) :=
    fun t _ => Wrap.checks_wrapped t
  rw [wrapFunctions_standard, checks_eq_sum, checks_eq_sum, List.map_flatMap, List.count_flatMap,
    List.map_map]
  simp only [Function.comp_def]
  rw [List.map_congr_left hwrapped, List.sum_map_add]

theorem filterMap_nodes_insertDirectives (ds : List Directive) (checker : String) :
    (script.insertDirectives ds checker).nodes.filterMap (Wrap.outcome? comments) =
      script.nodes.filterMap (Wrap.outcome? comments) := by
  obtain ⟨body, body', hgrown, hwoven, heq⟩ := script.exists_grown_insertDirectives ds checker
  rw [heq, filterMap_nodes, filterMap_nodes,
    hwoven.flatMap_eq fun t => Insertion.outcomes_of_isDirective,
    Insertion.flatMap_outcomes_eq (fun _ _ _ h => h.outcomes_eq) hgrown]

end Statistics

/-- Wrapping the functions of a script raises the total of each kind by the number of
sites of this kind in the script, and the matched ones by the number of those whose
leading comments carry a signature, which is the number of checks that it adds. The
statistics are the same after any directives were inserted. -/
theorem wrapFunctions_stats (script : Script) (comments : List Comment) (config : Config)
    (stats : Stats) (kind : SiteKind) :
    let result := script.wrapFunctions comments config .standard
    let after := stats.addSites result.2
    let signed := script.nodes.countP fun n => Wrap.outcome? comments n = some (kind, true)
    (after.get kind).total =
        (stats.get kind).total + script.nodes.countP (fun n => n.site?.map Prod.fst = some kind) ∧
      (after.get kind).matched = (stats.get kind).matched + signed ∧
      result.1.checks config kind = script.checks config kind + signed ∧
      ∀ (ds : List Directive) (checker : String),
        stats.addSites
          ((script.insertDirectives ds checker).wrapFunctions comments config .standard).2 =
            after := by
  intro result after signed
  have hperm := script.wrapFunctions_noted_perm comments config
  have hsigned : (result.2.map Site.outcome).count (kind, true) = signed := by
    rw [hperm.count_eq, List.count_filterMap]
    simp only [signed, beq_eq_decide]
  have htotal : (result.2.map Site.outcome).countP (fun o => o.1 = kind) =
      script.nodes.countP (fun n => n.site?.map Prod.fst = some kind) := by
    rw [hperm.countP_eq, List.countP_filterMap]
    refine List.countP_congr fun n _ => ?_
    rw [Wrap.outcome?]
    cases n.site? <;> simp
  refine ⟨?_, ?_, ?_, ?_⟩
  · rw [Stats.get_addSites, htotal]
  · rw [Stats.get_addSites, hsigned]
  · rw [checks_wrapFunctions, hsigned]
  · intro ds checker
    refine stats.addSites_eq_of_perm ?_
    have hperm' := (script.insertDirectives ds checker).wrapFunctions_noted_perm comments config
    rw [filterMap_nodes_insertDirectives] at hperm'
    exact hperm'.trans hperm.symm

end Script

end Contracts
