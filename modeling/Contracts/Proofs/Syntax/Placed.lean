import Contracts.Proofs.Syntax.Everywhere
import Contracts.Proofs.Syntax.Standing
import Contracts.Syntax.Grammar.Expressions

/-!
# Trees with a place in a file

A tree is placed in a text if every node of it that is there starts where a
character of the text does, which is never at position zero, and it is rooted if
it is itself there. Children that are not there have no place.

What the grammar does to trees after it has read them keeps this: expressions
that turn out to be patterns keep their spans, and an operation takes its start
from its first operand.
-/

namespace Contracts

namespace Tree

open Text (IsEdge)

variable {source : List Char}

/-- All nodes of a tree that are there have a place in a text. -/
def Placed (source : List Char) (t : Tree) : Prop :=
  t.Everywhere fun n => n.form = .absent ∨ IsEdge source n.span.lo

/-- A placed tree that is there. -/
structure Rooted (source : List Char) (t : Tree) : Prop where
  placed : t.Placed source
  start : IsEdge source t.span.lo

attribute [grind →] Rooted.placed Rooted.start

theorem placed_node {f : Form} {s : Span} {cs : List Tree} :
    (node f s cs).Placed source ↔ (f = .absent ∨ IsEdge source s.lo) ∧ ∀ c ∈ cs, c.Placed source :=
  everywhere_node

@[grind .]
theorem placed_absent : absent.Placed source :=
  placed_node.mpr ⟨.inl rfl, by simp⟩

@[grind .]
theorem rooted_node {f : Form} {s : Span} {cs : List Tree} (hs : IsEdge source s.lo)
    (hcs : ∀ c ∈ cs, c.Placed source) : (node f s cs).Rooted source :=
  ⟨placed_node.mpr ⟨.inr hs, hcs⟩, hs⟩

@[grind .]
theorem placed_of_start {f : Form} {s : Span} {cs : List Tree} (hs : IsEdge source s.lo)
    (hcs : ∀ c ∈ cs, c.Placed source) : (node f s cs).Placed source :=
  (rooted_node hs hcs).placed

theorem start_of_placed {f : Form} {s : Span} {cs : List Tree} (h : (node f s cs).Placed source)
    (hf : f ≠ .absent) : IsEdge source s.lo :=
  (placed_node.mp h).1.resolve_left hf

theorem children_of_placed {f : Form} {s : Span} {cs : List Tree}
    (h : (node f s cs).Placed source) : ∀ c ∈ cs, c.Placed source :=
  (placed_node.mp h).2

theorem placed_ofTarget {t : Tree} (h : t.Placed source) : t.ofTarget.Placed source := by
  obtain ⟨f, s, cs⟩ := t
  unfold ofTarget
  split
  all_goals first
    | exact h
    | next hf =>
        have hs : IsEdge source s.lo := start_of_placed h (by rintro rfl; exact absurd hf (by simp))
        exact (rooted_node hs (List.forall_mem_singleton.mpr h)).placed

theorem exists_of_mapM_toPattern {cs ps : List Tree} (h : (cs.map toPattern).mapM id = some ps) :
    ∀ p ∈ ps, ∃ c ∈ cs, c.toPattern = some p := by
  induction cs generalizing ps with
  | nil =>
      obtain rfl : [] = ps := by simpa using h
      simp
  | cons c cs ih =>
      rw [List.map_cons, List.mapM_cons] at h
      obtain ⟨q, hq, h⟩ := Option.bind_eq_some_iff.mp h
      obtain ⟨qs, hqs, h⟩ := Option.bind_eq_some_iff.mp h
      obtain rfl : q :: qs = ps := by simpa using h
      rw [List.forall_mem_cons]
      refine ⟨⟨c, List.mem_cons_self, hq⟩, fun p hp => ?_⟩
      obtain ⟨d, hd, hdp⟩ := ih hqs p hp
      exact ⟨d, List.mem_cons_of_mem c hd, hdp⟩

/-- The pattern of a placed expression is placed where the expression is. -/
theorem placed_toPattern {t p : Tree} (ht : t.Placed source) (h : t.toPattern = some p) :
    p.Placed source ∧ p.span = t.span := by
  induction t using Tree.induction generalizing p with
  | h f s cs ih =>
      have hcs := children_of_placed ht
      have hbelow : ∀ c ∈ cs, ∀ q, c.toPattern = some q → q.Placed source :=
        fun c hc q hq => (ih c hc (hcs c hc) hq).1
      have hlist : ∀ ps, (cs.map toPattern).mapM id = some ps → ∀ q ∈ ps, q.Placed source := by
        intro ps hps q hq
        obtain ⟨c, hc, hcq⟩ := exists_of_mapM_toPattern hps q hq
        exact hbelow c hc q hcq
      have hsole : ∀ q, cs.map toPattern = [some q] → q.Placed source := by
        intro q hq
        obtain ⟨c, hc, hcq⟩ := List.mem_map.mp (hq ▸ List.mem_singleton_self (some q))
        exact hbelow c hc q hcq
      have hs : f ≠ .absent → IsEdge source s.lo := start_of_placed ht
      rw [toPattern, fold_node] at h
      change toPatternNode f s cs (cs.map toPattern) = some p at h
      unfold toPatternNode at h
      -- Each pattern has the span of its expression, and children that were placed before.
      split at h
      all_goals try simp only [Option.some.injEq, Option.map_eq_some_iff, reduceCtorEq] at h
      all_goals grind [placed_node, placed_ofTarget, span_node]

/-- What stands for no pattern is there: a tree that is not stands for itself. -/
theorem start_of_toPattern_eq_none {t : Tree} (ht : t.Placed source) (h : t.toPattern = none) :
    IsEdge source t.span.lo := by
  obtain ⟨f, s, cs⟩ := t
  refine start_of_placed ht ?_
  rintro rfl
  rw [toPattern, fold_node] at h
  exact absurd h (by simp [toPatternNode])

theorem rooted_toPattern {t p : Tree} (ht : t.Rooted source) (h : t.toPattern = some p) :
    p.Rooted source := by
  obtain ⟨hplaced, hspan⟩ := placed_toPattern ht.placed h
  exact ⟨hplaced, hspan ▸ ht.start⟩

theorem rooted_toTarget {t p : Tree} {allowPattern : Bool} (ht : t.Rooted source)
    (h : t.toTarget allowPattern = some p) : p.Rooted source := by
  unfold toTarget at h
  split at h
  next => grind [span_node]
  next => grind [rooted_toPattern]
  next => grind [rooted_toPattern]
  next => grind

end Tree

namespace Rule

variable {source : List Char}

theorem rooted_binaryNode {left right : Tree} (hleft : left.Rooted source)
    (hright : right.Rooted source) (operator : String) :
    (binaryNode operator left right).Rooted source :=
  Tree.rooted_node hleft.start (by grind)

theorem rooted_unwind (level : Nat) {stack : List (Tree × String)} {t : Tree}
    (hstack : ∀ p ∈ stack, p.1.Rooted source) (ht : t.Rooted source) :
    (∀ p ∈ (unwind level stack t).1, p.1.Rooted source) ∧
      (unwind level stack t).2.Rooted source := by
  induction stack generalizing t with
  | nil => exact ⟨hstack, ht⟩
  | cons p stack ih =>
      obtain ⟨left, operator⟩ := p
      have hall := hstack
      rw [List.forall_mem_cons] at hstack
      rw [unwind]
      split
      next => exact ih hstack.2 (rooted_binaryNode hstack.1 ht operator)
      next => exact ⟨hall, ht⟩

/-- Operands that are put together by operators start where the first one does. -/
theorem rooted_climb {stack : List (Tree × String)} {t : Tree} {rest : List (String × Tree)}
    (hstack : ∀ p ∈ stack, p.1.Rooted source) (ht : t.Rooted source)
    (hrest : ∀ p ∈ rest, p.2.Rooted source) : (climb stack t rest).Rooted source := by
  induction rest generalizing stack t with
  | nil => exact (rooted_unwind 0 hstack ht).2
  | cons p rest ih =>
      obtain ⟨operator, operand⟩ := p
      rw [List.forall_mem_cons] at hrest
      obtain ⟨hwaiting, hleft⟩ := rooted_unwind (unwindLevel operator) hstack ht
      rw [climb]
      exact ih (List.forall_mem_cons.mpr ⟨hleft, hwaiting⟩) hrest.1 hrest.2

theorem isEdge_mixedOperand? {t : Tree} (h : t.Placed source) :
    ∀ s ∈ mixedOperand? t, Text.IsEdge source s.lo := by
  intro s hs
  unfold mixedOperand? at hs
  split at hs
  next =>
      obtain rfl := Option.some.inj hs
      exact Tree.start_of_placed h (by simp)
  next =>
      obtain rfl := Option.some.inj hs
      exact Tree.start_of_placed h (by simp)
  next => exact absurd hs (by simp)

/-- The operands that should stand in parentheses have a place, as all nodes have. -/
theorem isEdge_mixedOperands {t : Tree} (h : t.Placed source) :
    ∀ s ∈ mixedOperands t, Text.IsEdge source s.lo := by
  fun_induction mixedOperands t with
  | case1 operator span left right ihleft ihright =>
      have hchildren := Tree.children_of_placed h
      have hleft := hchildren left (by simp)
      have hright := hchildren right (by simp)
      intro s hs
      grind [isEdge_mixedOperand? hleft s, isEdge_mixedOperand? hright s]
  | case2 => simp

theorem isEdge_mixedOperands_climb {t : Tree} {rest : List (String × Tree)} {s : Span}
    (ht : t.Rooted source) (hrest : ∀ p ∈ rest, p.2.Rooted source)
    (hs : s ∈ mixedOperands (climb [] t rest)) : Text.IsEdge source s.lo :=
  isEdge_mixedOperands (rooted_climb (by simp) ht hrest).placed s hs

end Rule

end Contracts
