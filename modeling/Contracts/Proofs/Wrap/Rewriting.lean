import Contracts.Proofs.Wrap.Step

/-!
# Which functions are wrapped, and how

`Rewritten config comments t u` closes the rules of `Step` over whole trees: the
children of `t` are rewritten one by one, each just once, and then the step is
made. The pass follows these rules and nothing else (`rewritten_iff`), so that
a script is rewritten at all sites with a signature, however they are nested,
and nowhere else.
-/

namespace Contracts

namespace Wrap

/-- The tree `u` is the tree `t` with every function that has a signature wrapped. -/
inductive Rewritten (config : Config) (comments : List Comment) : Tree → Tree → Prop where
  | node {f : Form} {s : Span} {cs cs' : List Tree} {u : Tree} {sites : List Site}
      (children : List.Forall₂ (Rewritten config comments) cs cs')
      (step : Step config comments (.node f s cs) cs' u sites) :
      Rewritten config comments (.node f s cs) u

/-- The pass turns a tree into `u` exactly when the rules do. -/
theorem rewritten_iff (config : Config) (comments : List Comment) (t u : Tree) :
    Rewritten config comments t u ↔ u = wrapped config comments t := by
  induction t using Tree.induction generalizing u with
  | h f s cs ih =>
      have hchildren : ∀ cs', List.Forall₂ (Rewritten config comments) cs cs' ↔
          cs' = cs.map (wrapped config comments) := Tree.forall₂_iff_eq_map ih
      obtain ⟨sites, hstep, -⟩ := step_node config comments (.node f s cs)
      constructor
      · rintro ⟨hcs, h⟩
        obtain rfl := (hchildren _).mp hcs
        exact h.unique hstep
      · rintro rfl
        exact .node ((hchildren _).mpr rfl) hstep

end Wrap

/-- Wrapping rewrites exactly the sites with a signature: the body of the script is
rewritten statement by statement by the rules of `Wrap.Step`, at every depth, and in
no other way; all else about the script stays. -/
theorem Script.wrapFunctions_eq_iff_rewritten (script result : Script) (comments : List Comment)
    (config : Config) :
    (script.wrapFunctions comments config .standard).1 = result ↔
      result.span = script.span ∧ result.interpreter = script.interpreter ∧
        List.Forall₂ (Wrap.Rewritten config comments) script.body result.body := by
  have hrules : List.Forall₂ (Wrap.Rewritten config comments) script.body result.body ↔
      result.body = script.body.map (Wrap.wrapped config comments) :=
    Tree.forall₂_iff_eq_map (fun t _ => Wrap.rewritten_iff config comments t) result.body
  rw [wrapFunctions_standard, hrules]
  obtain ⟨span, interpreter, body⟩ := result
  simp only [mk.injEq, eq_comm]

end Contracts
