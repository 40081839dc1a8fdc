import Contracts.Proofs.Directive.Growth
import Contracts.Proofs.Syntax.Everywhere
import Contracts.Proofs.Syntax.Placed

/-!
# Taking the directives out again

The statement of a directive is a call that has no place in any file, and so it
is told apart from the statements of a file, whose nodes all have one.
`dropDirectives` leaves out these statements from every scope, and undoes what
inserting directives did to a placed tree (`Grown.dropDirectives_eq`).
-/

namespace Contracts

namespace Insertion

/-- Whether a statement is a call that is in no file. -/
def isInserted : Tree → Bool
  | .node .expressionStatement _ [.node .call s _] => s.isNone
  | _ => false

end Insertion

namespace Tree

/-- The tree without the statements of directives in its scopes. -/
def dropDirectives (t : Tree) : Tree :=
  t.fold fun f s _ below =>
    .node f s (if f.isScope then below.filter fun c => !Insertion.isInserted c else below)

theorem dropDirectives_node (f : Form) (s : Span) (cs : List Tree) :
    (node f s cs).dropDirectives =
      node f s (if f.isScope then
          (cs.map dropDirectives).filter fun c => !Insertion.isInserted c
        else cs.map dropDirectives) :=
  fold_node _ f s cs

theorem isInserted_of_placed {source : List Char} {t : Tree} (h : t.Placed source) :
    Insertion.isInserted t = false := by
  unfold Insertion.isInserted
  split
  next r s cs =>
      have hcall : (node .call s cs).Placed source := children_of_placed h _ (by simp)
      have hs : 1 ≤ s.lo := (start_of_placed hcall (by simp)).one_le
      rw [Span.isNone, beq_eq_false_iff_ne]
      rintro rfl
      exact absurd hs (by simp [Span.none])
  next => rfl

end Tree

namespace Insertion

theorem isInserted_dropDirectives {t : Tree} (h : IsDirective t) :
    isInserted t.dropDirectives = true := by
  obtain ⟨d, checker, rfl⟩ := h
  rw [Directive.statement, Build.call, Build.make, Tree.dropDirectives_node]
  simp [Tree.dropDirectives_node, Form.isScope, isInserted]
  rfl

/-- Of a list that statements of directives were put into, the placed trees remain. -/
theorem filter_dropDirectives {source : List Char} {cs ds es : List Tree}
    (hcs : ∀ c ∈ cs, c.Placed source) (hds : ds.map Tree.dropDirectives = cs)
    (hes : Woven ds es) :
    (es.map Tree.dropDirectives).filter (fun c => !isInserted c) = cs := by
  have hwoven := hes.filter_eq (p := fun c => !isInserted c.dropDirectives)
    fun t ht => by rw [isInserted_dropDirectives ht]; rfl
  rw [List.filter_map, Function.comp_def, hwoven]
  have hmap : (ds.filter fun c => !isInserted c.dropDirectives).map Tree.dropDirectives =
      cs.filter fun c => !isInserted c := by
    rw [← hds, List.filter_map]
    rfl
  rw [hmap, List.filter_eq_self]
  intro c hc
  rw [Tree.isInserted_of_placed (hcs c hc)]
  rfl

theorem map_dropDirectives {cs ds : List Tree}
    (h : ∀ c ∈ cs, ∀ d, Grown c d → d.dropDirectives = c) (hgrown : List.Forall₂ Grown cs ds) :
    ds.map Tree.dropDirectives = cs :=
  (Grown.map_eq_of_forall₂ (G := id) h hgrown).trans (List.map_id cs)

/-- Dropping directives from a placed tree that has grown gives the tree back. -/
theorem Grown.dropDirectives_eq {source : List Char} {t u : Tree} (ht : t.Placed source)
    (h : Grown t u) : u.dropDirectives = t := by
  induction t using Tree.induction generalizing u with
  | h f s cs ih =>
      have hcs := Tree.children_of_placed ht
      have hback : ∀ c ∈ cs, ∀ d, Grown c d → d.dropDirectives = c :=
        fun c hc d hd => ih c hc (hcs c hc) hd
      cases h with
      | copy hf hgrown =>
          rw [Tree.dropDirectives_node, hf, map_dropDirectives hback hgrown]
          rfl
      | scope hf hgrown hwoven =>
          rw [Tree.dropDirectives_node, hf,
            filter_dropDirectives hcs (map_dropDirectives hback hgrown) hwoven]
          rfl

end Insertion

end Contracts
