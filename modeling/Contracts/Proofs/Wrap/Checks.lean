import Contracts.Proofs.Syntax.Everywhere
import Contracts.Proofs.Wrap.Step
import Mathlib.Algebra.BigOperators.Group.List.Basic
import Mathlib.Algebra.GroupWithZero.Nat

/-!
# The calls of the checker in a tree

A check is a call of the checker that has no place in any file, with a label and
a function. For what kind of function it was made shows in where it stands: as
the operand that fills the cache of a declaration, as the initializer of a
variable, or as the value of a return. `checks config kind t` counts the checks
of a kind in `t`.

Wrapping a tree adds one check for each site that has a signature, and no check
that was there before gets lost or changes its kind (`checks_wrapped`).
-/

namespace Contracts

/-- Whether a production is that of string literals. -/
def Form.isText : Form → Bool
  | .literal .string _ => true
  | _ => false

namespace Wrap

/-- Whether a tree is a call of the checker that was made for a function. -/
def isCheck (config : Config) : Tree → Bool
  | .node .call s [function, label, value] =>
    s.isNone && function == callee config && label.form.isText && value.isFunction
  | _ => false

/-- The kind of function for which the check that stands below a node was made. -/
def checkKind? (config : Config) : Tree → Option SiteKind
  | .node (.binary _) _ [_, value] => if isCheck config value then some .declaration else none
  | .node .declarator _ [_, value] => if isCheck config value then some .initializer else none
  | .node .returnStatement _ [value] => if isCheck config value then some .returned else none
  | _ => none

/-- How many checks of a kind there are in a tree. -/
def checks (config : Config) (kind : SiteKind) (t : Tree) : Nat :=
  t.nodes.countP fun n => checkKind? config n == some kind

section Copying

variable (config : Config) (comments : List Comment)

/-- A tree without possible sites comes out of the pass only if it goes in. -/
theorem wrapped_eq_iff {t u : Tree} (hu : u.Everywhere fun n => n.form.isSiteForm = false) :
    wrapped config comments t = u ↔ t = u := by
  induction u using Tree.induction generalizing t with
  | h g r ds ih =>
      obtain ⟨hg, hds⟩ := Tree.everywhere_node.mp hu
      obtain ⟨f, s, cs⟩ := t
      have hchildren : cs.map (wrapped config comments) = ds ↔ cs = ds := by
        have hlists := Tree.forall₂_iff_eq_map (R := fun d c => d = wrapped config comments c)
          (g := id) (fun d hd c => (eq_comm.trans (ih d hd (hds d hd))).trans Iff.rfl) cs
        rw [List.map_id, ← List.forall₂_map_right_iff, List.forall₂_eq_eq_eq] at hlists
        exact eq_comm.trans hlists
      -- A possible site remains one, whatever the pass makes of it.
      by_cases hf : f.isSiteForm = true
      · have hform := wrapped_isSiteForm config comments hf s cs
        constructor
        · intro h
          rw [h, hg] at hform
          exact absurd hform (by simp)
        · rintro ⟨⟩
          exact absurd hf (by simpa using hg)
      · rw [wrapped_copy config comments (by simpa using hf), Tree.node.injEq, Tree.node.injEq,
          hchildren]

theorem everywhere_callee :
    (callee config).Everywhere fun n => n.form.isReference = true := by
  rw [callee]
  cases config.checkMethod with
  | none => exact Build.everywhere_lookup config.checker
  | some method => exact Build.everywhere_member (Build.everywhere_lookup config.checker) method

theorem isCheck_eq_false {t : Tree} (h : t.form ≠ .call) : isCheck config t = false := by
  unfold isCheck
  split
  next => exact absurd rfl h
  next => rfl

theorem isCheck_handed (label : String) {value : Tree} (hvalue : value.isFunction = true) :
    isCheck config (handed config label value) = true := by
  have hspan : Span.none.isNone = true := rfl
  simp [isCheck, handed, Build.call, Build.make, Build.string, Form.isText, hspan, hvalue]

theorem isCheck_of_isFunction {t : Tree} (h : t.isFunction = true) : isCheck config t = false := by
  obtain ⟨f, s, cs⟩ := t
  refine isCheck_eq_false config ?_
  rintro ⟨⟩
  obtain ⟨m, hm⟩ := Tree.isFunction_iff.mp h
  rw [Tree.unparen_eq_self (by simp)] at hm
  simp at hm

/-- The pass neither makes a check of something else nor something else of a check. -/
theorem isCheck_wrapped (t : Tree) :
    isCheck config (wrapped config comments t) = isCheck config t := by
  obtain ⟨f, s, cs⟩ := t
  by_cases hf : f = .call
  · subst hf
    rw [wrapped_copy config comments rfl]
    match cs with
    | [] => rfl
    | [_] => rfl
    | [_, _] => rfl
    | [function, label, value] =>
        have hfunction : (wrapped config comments function == callee config) =
            (function == callee config) := by
          rw [Bool.eq_iff_iff, beq_iff_eq, beq_iff_eq]
          refine wrapped_eq_iff config comments ((everywhere_callee config).imp fun n hn => ?_)
          exact isSiteForm_of_isPassive
            (Form.isPassive_of_isPlain (Form.isPlain_of_isReference hn))
        have hlabel : (wrapped config comments label).form.isText = label.form.isText := by
          have hcopied : ∀ text, (wrapped config comments label).form = .literal .string text ↔
              label.form = .literal .string text :=
            fun text => (copies_wrapped config comments).form_eq rfl rfl
          unfold Form.isText
          split
          next text h => rw [(hcopied text).mp h]
          next h =>
              split
              next text h' => exact absurd ((hcopied text).mpr h') (h text)
              next => rfl
        simp only [List.map_cons, List.map_nil, isCheck, hfunction, hlabel, wrapped_isFunction]
    | _ :: _ :: _ :: _ :: _ => rfl
  · have hwrapped : (wrapped config comments (.node f s cs)).form ≠ .call := by
      intro h
      exact hf (((copies_wrapped config comments).form_eq rfl rfl).mp h)
    have hnode : (Tree.node f s cs).form ≠ .call := hf
    rw [isCheck_eq_false config hwrapped, isCheck_eq_false config hnode]

theorem checkKind?_map_wrapped (f : Form) (s : Span) (cs : List Tree) :
    checkKind? config (.node f s (cs.map (wrapped config comments))) =
      checkKind? config (.node f s cs) := by
  cases f with
  | binary operator =>
      match cs with
      | [] => rfl
      | [_] => rfl
      | [_, value] => simp only [List.map_cons, List.map_nil, checkKind?, isCheck_wrapped]
      | _ :: _ :: _ :: _ => rfl
  | declarator =>
      match cs with
      | [] => rfl
      | [_] => rfl
      | [_, value] => simp only [List.map_cons, List.map_nil, checkKind?, isCheck_wrapped]
      | _ :: _ :: _ :: _ => rfl
  | returnStatement =>
      match cs with
      | [] => rfl
      | [value] => simp only [List.map_cons, List.map_nil, checkKind?, isCheck_wrapped]
      | _ :: _ :: _ => rfl
  | _ => rfl

end Copying

section Counting

variable (config : Config) (kind : SiteKind)

theorem checks_node (f : Form) (s : Span) (cs : List Tree) :
    checks config kind (.node f s cs) =
      (cs.map (checks config kind)).sum +
        if checkKind? config (.node f s cs) = some kind then 1 else 0 := by
  rw [checks, Tree.nodes_node, List.countP_cons, List.countP_flatMap]
  simp only [beq_iff_eq]
  rfl

theorem checks_reference {t : Tree} (h : t.Everywhere fun n => n.form.isReference = true) :
    checks config kind t = 0 := by
  refine List.countP_eq_zero.mpr ?_
  rintro ⟨f, s, cs⟩ hn
  have hf : f.isReference = true := h _ hn
  cases f with
  | member => simp [checkKind?]
  | name text => simp [checkKind?]
  | identifier text => simp [checkKind?]
  | _ => exact absurd hf (by simp [Form.isReference])

theorem checks_handed (label : String) (value : Tree) :
    checks config kind (handed config label value) = checks config kind value := by
  have hchecker := checks_reference config kind (everywhere_callee config)
  have hlabel : checks config kind (Build.string label) = 0 := by
    rw [Build.string, Build.make, checks_node]
    rfl
  rw [handed, Build.call, Build.make, checks_node, List.map_cons, List.map_cons, List.map_cons,
    hchecker, hlabel]
  simp [checkKind?]

theorem checks_forwarding (name : String) (s : Span) (called : Tree) {checked : Tree}
    (hchecked : isCheck config checked = true) :
    checks config kind (forwarding config name s called checked) =
      checks config kind called + checks config kind checked +
        if .declaration = kind then 1 else 0 := by
  have hcache := Build.everywhere_member (Build.everywhere_identifier name) config.cacheProperty
  have happly := checks_reference config kind (Build.everywhere_member hcache "apply")
  have harguments := checks_reference config kind (Build.everywhere_identifier "arguments")
  replace hcache := checks_reference config kind hcache
  have hfill : checks config kind (Build.binary "||"
      (Build.member (Build.identifier name) config.cacheProperty) checked) =
      checks config kind checked + if .declaration = kind then 1 else 0 := by
    rw [Build.binary, Build.make, checks_node]
    simp [hcache, checkKind?, hchecked]
  have hforward : checks config kind (Build.returnStatement (some (Build.call (Build.member
      (Build.member (Build.identifier name) config.cacheProperty) "apply")
      [Build.this, Build.identifier "arguments"]))) = 0 := by
    simp [Build.returnStatement, Build.call, Build.this, Build.make, checks_node, checkKind?,
      happly, harguments, isCheck, Form.isText]
  have htarget : checks config kind (Build.target
      (Build.member (Build.identifier name) config.cacheProperty)) = 0 := hcache
  simp [forwarding, Build.block, Build.parameters, Build.expressionStatement, Build.assignment,
    Build.make, checks_node, checkKind?, hfill, hforward, htarget, Nat.add_assoc]

theorem count_outcome_some (found : SiteKind) (label : String) :
    [Site.outcome ⟨found, some label⟩].count (kind, true) = if found = kind then 1 else 0 := by
  simp [Site.outcome, List.count_singleton]

theorem count_outcome_none (found : SiteKind) :
    [Site.outcome ⟨found, none⟩].count (kind, true) = 0 := by
  simp [Site.outcome]

/-- A declaration of a variable whose initializer is checked has one check more. -/
theorem checks_variable {f : Form} {s : Span} (hf : ∀ cs, checkKind? config (.node f s cs) = none)
    (label : String) {init : Tree} (hinit : init.isFunction = true) (r : Span) (p : Tree) :
    checks config kind (.node f s [.node .declarator r [p, handed config label init]]) =
      checks config kind (.node f s [.node .declarator r [p, init]]) +
        if .initializer = kind then 1 else 0 := by
  have hdeclarator : checks config kind (.node .declarator r [p, handed config label init]) =
      checks config kind (.node .declarator r [p, init]) +
        if .initializer = kind then 1 else 0 := by
    simp [checks_node, checkKind?, checks_handed, isCheck_handed config label hinit,
      isCheck_of_isFunction config hinit]
  rw [checks_node config kind f, checks_node config kind f]
  simp [hf, hdeclarator]

variable {config} {kind} {comments : List Comment}

/-- A step adds a check if it is noted with a signature. -/
theorem Step.checks_eq {f : Form} {s : Span} {cs : List Tree} {u : Tree} {sites : List Site}
    (h : Step config comments (.node f s cs) (cs.map (wrapped config comments)) u sites) :
    checks config kind u =
      ((cs.map (wrapped config comments)).map (checks config kind)).sum +
        (if checkKind? config (.node f s cs) = some kind then 1 else 0) +
        (sites.map Site.outcome).count (kind, true) := by
  have hplace := checkKind?_map_wrapped config comments f s cs
  generalize hcs : cs.map (wrapped config comments) = cs' at h hplace
  cases h with
  | declaration h =>
      rename_i m r name text ds params body called' params' body'
      have hfunction : (Tree.node (.functionExpression m) s
          [Tree.absent, params', body']).isFunction = true := rfl
      rw [checks_forwarding config kind name s called' (isCheck_handed config _ hfunction),
        checks_handed]
      simp [checks_node, checkKind?, Tree.absent, count_outcome_some, Nat.add_assoc]
  | initializer h hp hinit =>
      have hinit' := isFunction_of_declarator_eq config comments hinit (List.cons.inj hcs).1
      rw [checks_variable config kind (fun _ => rfl) _ hinit', checks_node]
      simp [checkKind?, count_outcome_some]
  | loopInitializer h hp hinit =>
      have hinit' := isFunction_of_loop_eq config comments hinit hcs
      rw [checks_node, List.map_cons, List.sum_cons,
        checks_variable config kind (fun _ => rfl) _ hinit']
      simp [checkKind?, count_outcome_some]
      omega
  | returned h hvalue =>
      rename_i value value' text
      obtain rfl : wrapped config comments value = value' := by simpa using hcs
      have hvalue' := (wrapped_isFunction config comments value).trans hvalue
      simp [checks_node, checkKind?, checks_handed, isCheck_handed config _ hvalue',
        isCheck_of_isFunction config hvalue, count_outcome_some]
  | unsigned hsite h =>
      rw [checks_node, hplace]
      simp [count_outcome_none]
  | elsewhere hsite =>
      rw [checks_node, hplace]
      simp

/-- Wrapping adds a check for each site that is noted with a signature, and no other. -/
theorem checks_wrapped (t : Tree) :
    checks config kind (wrapped config comments t) =
      checks config kind t + ((noted config comments t).map Site.outcome).count (kind, true) := by
  induction t using Tree.induction with
  | h f s cs ih =>
      obtain ⟨sites, hstep, hnoted⟩ := step_node config comments (.node f s cs)
      rw [hstep.checks_eq, hnoted, checks_node, List.map_append, List.count_append,
        List.map_flatMap, List.count_flatMap, List.map_map]
      simp only [Tree.children_node, Function.comp_def]
      rw [List.map_congr_left ih, List.sum_map_add]
      omega

end Counting

end Wrap

end Contracts
