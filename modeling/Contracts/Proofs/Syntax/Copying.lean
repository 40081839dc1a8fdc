import Contracts.Directive.Scope
import Contracts.Wrap.Shape
import Mathlib.Data.List.Forall2

/-!
# Passes that copy most nodes

A pass over trees changes the nodes of a few productions and copies all others:
the production and the span stay, and the children are passed on one by one.
`Copies copied R` says this of the relation `R` between a tree and what a pass
makes of it, where `copied` singles out the productions that are copied.

The passes that insert directives and wrap functions copy at least the passive
productions, those that are neither blocks nor possible sites of functions. This
is enough for them to keep function values: a function value is a function
expression in any number of parentheses, and what such a pass makes of it is one
with the same name (`Copies.isFunction_eq`, `Copies.functionName?_eq`).
-/

namespace Contracts

namespace Form

/-- The productions whose nodes can be sites of functions that are wrapped. -/
def isSiteForm : Form → Bool
  | .functionDeclaration _ | .variableStatement _ | .forStatement | .returnStatement => true
  | _ => false

/-- The productions at which no pass has anything to do. -/
def isPassive (f : Form) : Bool :=
  !f.isSiteForm && !f.isScope

end Form

namespace Tree

theorem nodes_node (f : Form) (s : Span) (cs : List Tree) :
    (node f s cs).nodes = node f s cs :: cs.flatMap nodes := by
  rw [nodes, fold_node, List.flatMap_def]
  rfl

theorem unparen_paren (s : Span) (t : Tree) : (node .paren s [t]).unparen = t.unparen := by
  rw [unparen, fold_node]
  rfl

/-- Nothing is taken off a node that is no parenthesis around one tree. -/
theorem unparen_eq_self {f : Form} {cs : List Tree} (h : f = .paren → cs.length ≠ 1) (s : Span) :
    (node f s cs).unparen = node f s cs := by
  rw [unparen, fold_node]
  split
  next inner hbelow =>
      have hlength : cs.length = 1 := by simpa using congrArg List.length hbelow
      exact absurd hlength (h rfl)
  next => rfl

/-- Whether an expression is a function expression, parentheses aside. -/
def isFunction (t : Tree) : Bool :=
  match t.unparen.form with
  | .functionExpression _ => true
  | _ => false

theorem isFunction_iff {t : Tree} :
    t.isFunction = true ↔ ∃ m, t.unparen.form = .functionExpression m := by
  rw [isFunction]
  split
  next m hm => exact ⟨fun _ => ⟨m, hm⟩, fun _ => rfl⟩
  next hm => exact ⟨fun h => absurd h (by simp), fun ⟨m, h⟩ => absurd h (hm m)⟩

theorem not_isAbsent_of_isFunction {t : Tree} (h : t.isFunction = true) : t.isAbsent = false := by
  obtain ⟨m, hm⟩ := isFunction_iff.mp h
  obtain ⟨f, s, cs⟩ := t
  rw [isAbsent, form_node, beq_eq_false_iff_ne]
  rintro rfl
  rw [unparen_eq_self (by simp)] at hm
  simp at hm

/-- A function value has a name of its own if the first part of the function is one. -/
theorem functionName?_eq_some_iff {t : Tree} {text : String} :
    t.functionName? = some text ↔
      ∃ m s c rest, t.unparen = node (.functionExpression m) s (c :: rest) ∧
        c.form = .name text := by
  rw [functionName?]
  split
  next m s name r ds rest ht =>
      constructor
      · rintro ⟨⟩
        exact ⟨m, s, _, rest, ht, rfl⟩
      · rintro ⟨m', s', c, rest', hu, hc⟩
        rw [ht] at hu
        obtain ⟨-, -, rfl, -⟩ : _ ∧ _ ∧ node (.name name) r ds = c ∧ _ := by simpa using hu
        simpa using hc
  next hnone =>
      constructor
      · intro h
        exact absurd h (by simp)
      · rintro ⟨m, s, ⟨g, r, ds⟩, rest, hu, hc⟩
        rw [form_node] at hc
        exact absurd (hc ▸ hu) (hnone m s text r ds rest)

theorem forall₂_iff_eq_map {R : Tree → Tree → Prop} {g : Tree → Tree} {cs : List Tree}
    (h : ∀ c ∈ cs, ∀ d, R c d ↔ d = g c) (ds : List Tree) :
    List.Forall₂ R cs ds ↔ ds = cs.map g := by
  induction cs generalizing ds with
  | nil => rw [List.forall₂_nil_left_iff, List.map_nil]
  | cons c cs ih =>
      have htail := ih fun d hd => h d (List.mem_cons_of_mem c hd)
      rw [List.forall₂_cons_left_iff, List.map_cons]
      constructor
      · rintro ⟨d, ds, hd, hds, rfl⟩
        rw [(h c List.mem_cons_self d).mp hd, (htail ds).mp hds]
      · rintro rfl
        exact ⟨_, _, (h c List.mem_cons_self _).mpr rfl, (htail _).mpr rfl, rfl⟩

/-- The relation `R` between trees before and after a pass copies the nodes whose
production is `copied`, and makes none of those out of any other node. -/
structure Copies (copied : Form → Prop) (R : Tree → Tree → Prop) : Prop where
  copy : ∀ {f : Form} {s : Span} {cs : List Tree} {u : Tree}, copied f → R (node f s cs) u →
    ∃ ds, u = node f s ds ∧ List.Forall₂ R cs ds
  other : ∀ {f : Form} {s : Span} {cs : List Tree} {u : Tree}, ¬ copied f → R (node f s cs) u →
    ¬ copied u.form

namespace Copies

variable {copied : Form → Prop} {R : Tree → Tree → Prop}

/-- Taking off parentheses commutes with a pass. -/
theorem unparen (h : Copies copied R) (hpassive : ∀ f : Form, f.isPassive = true → copied f)
    {t u : Tree} (hR : R t u) : R t.unparen u.unparen := by
  have hparen : copied .paren := hpassive _ rfl
  induction t using Tree.induction generalizing u with
  | h f s cs ih =>
      by_cases hf : copied f
      · obtain ⟨ds, rfl, hds⟩ := h.copy hf hR
        by_cases hone : f = .paren ∧ cs.length = 1
        · obtain ⟨rfl, hlength⟩ := hone
          obtain ⟨c, rfl⟩ := List.length_eq_one_iff.mp hlength
          obtain ⟨d, rest, hcd, hrest, rfl⟩ := List.forall₂_cons_left_iff.mp hds
          obtain rfl := List.forall₂_nil_left_iff.mp hrest
          rw [unparen_paren, unparen_paren]
          exact ih c List.mem_cons_self hcd
        · have hcs : f = .paren → cs.length ≠ 1 := fun hp hl => hone ⟨hp, hl⟩
          have hdl : f = .paren → ds.length ≠ 1 := by rwa [← hds.length_eq]
          rw [unparen_eq_self hcs, unparen_eq_self hdl]
          exact hR
      · obtain ⟨g, r, ds⟩ := u
        have hg : ¬ copied g := h.other hf hR
        have hfp : f ≠ .paren := fun hp => hf (hp ▸ hparen)
        have hgp : g ≠ .paren := fun hp => hg (hp ▸ hparen)
        rw [unparen_eq_self fun hp => absurd hp hfp, unparen_eq_self fun hp => absurd hp hgp]
        exact hR

/-- The form of a node that is copied, or that a copied node is made of. -/
theorem form_eq (h : Copies copied R) {t u : Tree} (hR : R t u) {f : Form} (hf : copied f) :
    u.form = f ↔ t.form = f := by
  obtain ⟨g, s, cs⟩ := t
  by_cases hg : copied g
  · obtain ⟨ds, rfl, -⟩ := h.copy hg hR
    simp
  · constructor
    · intro hu
      exact absurd (hu ▸ hf) (h.other hg hR)
    · rintro rfl
      exact absurd hf hg

theorem isFunction_eq (h : Copies copied R)
    (hpassive : ∀ f : Form, f.isPassive = true → copied f) {t u : Tree} (hR : R t u) :
    u.isFunction = t.isFunction := by
  rw [Bool.eq_iff_iff, isFunction_iff, isFunction_iff]
  exact exists_congr fun m => h.form_eq (h.unparen hpassive hR) (hpassive _ rfl)

theorem functionName?_eq (h : Copies copied R)
    (hpassive : ∀ f : Form, f.isPassive = true → copied f) {t u : Tree} (hR : R t u) :
    u.functionName? = t.functionName? := by
  have hinner := h.unparen hpassive hR
  have hfunction : ∀ m, copied (.functionExpression m) := fun m => hpassive _ rfl
  have hname : ∀ text, copied (.name text) := fun text => hpassive _ rfl
  ext text
  rw [functionName?_eq_some_iff, functionName?_eq_some_iff]
  constructor
  · rintro ⟨m, s, c, rest, hu, hc⟩
    have hform : t.unparen.form = .functionExpression m :=
      (h.form_eq hinner (hfunction m)).mp (by rw [hu, form_node])
    rcases ht : t.unparen with ⟨g, r, ds⟩
    rw [ht, form_node] at hform
    subst hform
    rw [ht, hu] at hinner
    obtain ⟨es, heq, hes⟩ := h.copy (hfunction m) hinner
    obtain ⟨rfl, rfl⟩ : s = r ∧ es = c :: rest := by simpa [eq_comm] using heq
    obtain ⟨d, ds', hdc, -, rfl⟩ := List.forall₂_cons_right_iff.mp hes
    exact ⟨m, s, d, ds', rfl, (h.form_eq hdc (hname text)).mp hc⟩
  · rintro ⟨m, s, c, rest, ht, hc⟩
    rw [ht] at hinner
    obtain ⟨ds, hu, hds⟩ := h.copy (hfunction m) hinner
    obtain ⟨d, ds', hcd, -, rfl⟩ := List.forall₂_cons_left_iff.mp hds
    exact ⟨m, s, d, ds', hu, (h.form_eq hcd (hname text)).mpr hc⟩

end Copies

end Tree

end Contracts
