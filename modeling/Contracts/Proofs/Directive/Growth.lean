import Contracts.Directive.Insertion
import Contracts.Proofs.Wrap.Site

/-!
# What inserting directives does to a tree

Whatever the directives are and wherever they go, inserting them does one thing
only: it puts statements of directives into the statement lists of blocks and of
the script. `Woven` says this of one list, and `Grown` of a tree, in which the
children of every node have grown one by one. The pass itself counts blocks
along the way; here the numbers are gone, and what remains is enough for all
results that do not ask where a directive ends up.

A tree that has grown has the same sites as before (`Grown.site?_eq`), because
no block is looked at when a site is recognized.
-/

namespace Contracts

namespace Insertion

/-- A statement that stands for a directive. -/
def IsDirective (t : Tree) : Prop :=
  ∃ (d : Directive) (checker : String), t = d.statement checker

/-- The list `es` is the list `ds` with statements of directives put in. -/
inductive Woven : List Tree → List Tree → Prop where
  | nil : Woven [] []
  | keep {t : Tree} {ds es : List Tree} (h : Woven ds es) : Woven (t :: ds) (t :: es)
  | put {t : Tree} {ds es : List Tree} (ht : IsDirective t) (h : Woven ds es) : Woven ds (t :: es)

namespace Woven

theorem refl (ds : List Tree) : Woven ds ds := by
  induction ds with
  | nil => exact .nil
  | cons d ds ih => exact .keep ih

theorem place {statement : Tree} (hs : IsDirective statement) {ds es : List Tree}
    (h : Woven ds es) : Woven ds (place statement es) := by
  induction h with
  | nil => exact .put hs .nil
  | keep h ih =>
      rw [Insertion.place]
      split
      next => exact .put hs (.keep h)
      next => exact .keep ih
  | put ht h ih =>
      rw [Insertion.place]
      split
      next => exact .put hs (.put ht h)
      next => exact .put ht ih

theorem splice {statements : List Tree} (hs : ∀ t ∈ statements, IsDirective t) {ds es : List Tree}
    (h : Woven ds es) : Woven ds (splice es statements) := by
  induction statements generalizing es with
  | nil => exact h
  | cons t ts ih =>
      rw [Insertion.splice, List.foldl_cons]
      exact ih (fun u hu => hs u (List.mem_cons_of_mem t hu))
        (h.place (hs t List.mem_cons_self))

theorem mem_or_isDirective {ds es : List Tree} (h : Woven ds es) {t : Tree} (ht : t ∈ es) :
    t ∈ ds ∨ IsDirective t := by
  induction h with
  | nil => exact .inl ht
  | keep h ih =>
      rcases List.mem_cons.mp ht with rfl | ht
      · exact .inl List.mem_cons_self
      · exact (ih ht).imp_left (List.mem_cons_of_mem _)
  | put hput h ih =>
      rcases List.mem_cons.mp ht with rfl | ht
      · exact .inr hput
      · exact ih ht

/-- What is collected from a list and never from a directive is collected alike. -/
theorem flatMap_eq {α : Type} {g : Tree → List α} (hg : ∀ t, IsDirective t → g t = [])
    {ds es : List Tree} (h : Woven ds es) : es.flatMap g = ds.flatMap g := by
  induction h with
  | nil => rfl
  | keep h ih => rw [List.flatMap_cons, List.flatMap_cons, ih]
  | put ht h ih => rw [List.flatMap_cons, hg _ ht, List.nil_append, ih]

/-- Statements that are told apart from directives are all still there. -/
theorem filter_eq {p : Tree → Bool} (hp : ∀ t, IsDirective t → p t = false) {ds es : List Tree}
    (h : Woven ds es) : es.filter p = ds.filter p := by
  induction h with
  | nil => rfl
  | keep h ih => rw [List.filter_cons, List.filter_cons, ih]
  | put ht h ih => rw [List.filter_cons_of_neg (by rw [hp _ ht]; simp), ih]

end Woven

/-- The tree `u` is the tree `t` with statements of directives put into its blocks. -/
inductive Grown : Tree → Tree → Prop where
  | copy {f : Form} {s : Span} {cs ds : List Tree} (hf : f.isScope = false)
      (hcs : List.Forall₂ Grown cs ds) : Grown (.node f s cs) (.node f s ds)
  | scope {f : Form} {s : Span} {cs ds es : List Tree} (hf : f.isScope = true)
      (hcs : List.Forall₂ Grown cs ds) (hes : Woven ds es) : Grown (.node f s cs) (.node f s es)

namespace Grown

theorem refl (t : Tree) : Grown t t := by
  induction t using Tree.induction with
  | h f s cs ih =>
      have hcs : List.Forall₂ Grown cs cs := List.forall₂_same.mpr ih
      by_cases hf : f.isScope = true
      · exact .scope hf hcs (.refl cs)
      · exact .copy (by simpa using hf) hcs

theorem forall_of_forall₂ {P : Tree → Prop} {cs ds : List Tree}
    (h : ∀ c ∈ cs, ∀ d, Grown c d → P d) (hgrown : List.Forall₂ Grown cs ds) : ∀ d ∈ ds, P d := by
  induction hgrown with
  | nil => simp
  | cons hcd _ ih =>
      rw [List.forall_mem_cons] at h ⊢
      exact ⟨h.1 _ hcd, ih h.2⟩

theorem map_eq_of_forall₂ {α : Type} {F G : Tree → α} {cs ds : List Tree}
    (h : ∀ c ∈ cs, ∀ d, Grown c d → F d = G c) (hgrown : List.Forall₂ Grown cs ds) :
    ds.map F = cs.map G := by
  induction hgrown with
  | nil => rfl
  | cons hcd _ ih =>
      rw [List.forall_mem_cons] at h
      rw [List.map_cons, List.map_cons, h.1 _ hcd, ih h.2]

theorem form_span_eq {t u : Tree} (h : Grown t u) : u.form = t.form ∧ u.span = t.span := by
  cases h with
  | copy => exact ⟨rfl, rfl⟩
  | scope => exact ⟨rfl, rfl⟩

theorem copies : Tree.Copies (fun f => f.isScope = false) Grown where
  copy := by
    intro f s cs u hf h
    cases h with
    | copy _ hcs => exact ⟨_, rfl, hcs⟩
    | scope hscope => exact absurd hf (by simp [hscope])
  other := by
    intro f s cs u hf h
    rw [h.form_span_eq.1]
    exact hf

theorem isScope_of_isPassive {f : Form} (h : f.isPassive = true) : f.isScope = false := by
  simp only [Form.isPassive, Bool.and_eq_true, Bool.not_eq_true'] at h
  exact h.2

theorem isFunction_eq {t u : Tree} (h : Grown t u) : u.isFunction = t.isFunction :=
  copies.isFunction_eq (fun _ => isScope_of_isPassive) h

theorem functionName?_eq {t u : Tree} (h : Grown t u) : u.functionName? = t.functionName? :=
  copies.functionName?_eq (fun _ => isScope_of_isPassive) h

theorem boundName?_eq {t u : Tree} (h : Grown t u) : u.boundName? = t.boundName? :=
  copies.boundName?_eq (fun _ => isScope_of_isPassive) h

theorem soleFunctionVariable?_eq {ds es : List Tree} (h : List.Forall₂ Grown ds es) :
    Tree.soleFunctionVariable? es = Tree.soleFunctionVariable? ds :=
  copies.soleFunctionVariable?_eq (fun _ => isScope_of_isPassive) h

theorem site?_loop_eq {s : Span} {cs ds : List Tree} (h : List.Forall₂ Grown cs ds) :
    (Tree.node .forStatement s ds).site? = (Tree.node .forStatement s cs).site? := by
  cases h with
  | nil => rfl
  | @cons c d cs ds hcd _ =>
      cases hcd with
      | copy hf hcs =>
          rename_i f q bs es
          cases f with
          | variableHead k => simp only [Tree.site?, soleFunctionVariable?_eq hcs]
          | _ => rfl
      | scope hf hcs hes =>
          rename_i f q bs _ es
          cases f with
          | block isStatement => rfl
          | _ => exact absurd hf (by simp [Form.isScope])

theorem site?_declaration_eq {m : Modifiers} {s : Span} {cs ds : List Tree}
    (h : List.Forall₂ Grown cs ds) :
    (Tree.node (.functionDeclaration m) s ds).site? =
      (Tree.node (.functionDeclaration m) s cs).site? := by
  match cs, ds, h with
  | [], [], .nil => rfl
  | [_], [_], .cons _ .nil => simp [Tree.site?]
  | [_, _], [_, _], .cons _ (.cons _ .nil) => simp [Tree.site?]
  | [.node f r bs, _, _], [.node g r' bs', _, _], .cons hcalled (.cons _ (.cons _ .nil)) =>
      obtain rfl : g = f := hcalled.form_span_eq.1
      cases g <;> rfl
  | _ :: _ :: _ :: _ :: _, _ :: _ :: _ :: _ :: _, .cons _ (.cons _ (.cons _ (.cons _ _))) =>
      simp [Tree.site?]

theorem site?_return_eq {s : Span} {cs ds : List Tree} (h : List.Forall₂ Grown cs ds) :
    (Tree.node .returnStatement s ds).site? = (Tree.node .returnStatement s cs).site? := by
  match cs, ds, h with
  | [], [], .nil => rfl
  | [_], [_], .cons hvalue .nil => simp only [Tree.site?, hvalue.isFunction_eq]
  | _ :: _ :: _, _ :: _ :: _, .cons _ (.cons _ _) => rfl

/-- A tree that has grown is a site of the same kind as before, or as before none. -/
theorem site?_eq {t u : Tree} (h : Grown t u) : u.site? = t.site? := by
  cases h with
  | scope hf hcs hes =>
      rename_i f s cs ds es
      have hform : f.isSiteForm = false := by
        cases f with
        | block isStatement => rfl
        | _ => exact absurd hf (by simp [Form.isScope])
      rw [Tree.site?_eq_none hform, Tree.site?_eq_none hform]
  | copy hf hcs =>
      rename_i f s cs ds
      cases f with
      | functionDeclaration m => exact site?_declaration_eq hcs
      | variableStatement k => simp only [Tree.site?, soleFunctionVariable?_eq hcs]
      | forStatement => exact site?_loop_eq hcs
      | returnStatement => exact site?_return_eq hcs
      | _ => rfl

end Grown

theorem forall₂_grown_inOrder {statements : Nat → List Tree} {cs : List Tree}
    (h : ∀ c ∈ cs, ∀ n, Grown c (intoTree statements c n).1) (n : Nat) :
    List.Forall₂ Grown cs (inOrder (cs.map (intoTree statements)) n).1 := by
  induction cs generalizing n with
  | nil => exact .nil
  | cons c cs ih =>
      rw [List.map_cons, inOrder]
      exact .cons (h c List.mem_cons_self n)
        (ih (fun d hd => h d (List.mem_cons_of_mem c hd)) _)

theorem grown_intoTree {statements : Nat → List Tree}
    (hs : ∀ n, ∀ t ∈ statements n, IsDirective t) (t : Tree) (n : Nat) :
    Grown t (intoTree statements t n).1 := by
  induction t using Tree.induction generalizing n with
  | h f s cs ih =>
      rw [intoTree, Tree.fold_node]
      by_cases hf : f.isScope = true
      · rw [if_pos hf]
        exact .scope hf (forall₂_grown_inOrder ih (n + 1)) (.splice (hs n) (.refl _))
      · rw [if_neg hf]
        exact .copy (by simpa using hf) (forall₂_grown_inOrder ih n)

theorem isDirective_of_mem_pending {checker : String} {planned : List (Directive × Nat)}
    {scope : Nat} {t : Tree} (h : t ∈ pending checker planned scope) : IsDirective t := by
  obtain ⟨p, -, rfl⟩ := List.mem_map.mp h
  exact ⟨p.1, checker, rfl⟩

end Insertion

/-- Inserting directives lets every statement of a script grow and puts statements of
directives between them. -/
theorem Script.exists_grown_insertDirectives (script : Script) (ds : List Directive)
    (checker : String) :
    ∃ body body', List.Forall₂ Insertion.Grown script.body body ∧ Insertion.Woven body body' ∧
      script.insertDirectives ds checker = { script with body := body' } := by
  rw [insertDirectives]
  split
  next =>
      exact ⟨script.body, script.body, List.forall₂_same.mpr fun t _ => .refl t, .refl _, rfl⟩
  next =>
      refine ⟨_, _, Insertion.forall₂_grown_inOrder (fun t _ n => ?_) 1, .splice ?_ (.refl _), rfl⟩
      · exact Insertion.grown_intoTree (fun _ _ => Insertion.isDirective_of_mem_pending) t n
      · exact fun _ => Insertion.isDirective_of_mem_pending

end Contracts
