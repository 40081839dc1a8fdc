import Contracts.Syntax.Form
import Contracts.Syntax.Span

/-!
# Syntax trees

A syntax tree is a rose tree: a production, a span, and the children. All passes over trees are
instances of one fold, `Tree.fold`, in which the algebra sees the node with its children as they are
and beside them what the fold made of each child. `Tree.fold_node` is its only equation, and
`Tree.induction` the induction that goes with it.
-/

namespace Contracts

inductive Tree where
  | node (form : Form) (span : Span) (children : List Tree)
  deriving Repr

namespace Tree

mutual

def decEq : (t u : Tree) → Decidable (t = u)
  | node f s ts, node g r us =>
    if h : f = g ∧ s = r then
      match decEqList ts us with
      | .isTrue hc => .isTrue (by rw [h.1, h.2, hc])
      | .isFalse hc => .isFalse (by intro e; injection e; contradiction)
    else .isFalse (by intro e; injection e with h₁ h₂ _; exact h ⟨h₁, h₂⟩)

def decEqList : (ts us : List Tree) → Decidable (ts = us)
  | [], [] => .isTrue rfl
  | [], _ :: _ => .isFalse (by simp)
  | _ :: _, [] => .isFalse (by simp)
  | t :: ts, u :: us =>
    match decEq t u with
    | .isFalse h => .isFalse (by intro e; injection e; contradiction)
    | .isTrue h =>
      match decEqList ts us with
      | .isTrue hs => .isTrue (by rw [h, hs])
      | .isFalse hs => .isFalse (by intro e; injection e; contradiction)

end

instance : DecidableEq Tree := decEq

/-- The child that is not there. -/
def absent : Tree := node .absent Span.none []

instance : Inhabited Tree := ⟨absent⟩

def form : Tree → Form
  | node f _ _ => f

def span : Tree → Span
  | node _ s _ => s

def children : Tree → List Tree
  | node _ _ cs => cs

@[simp] theorem form_node (f : Form) (s : Span) (cs : List Tree) : (node f s cs).form = f := rfl

@[simp] theorem span_node (f : Form) (s : Span) (cs : List Tree) : (node f s cs).span = s := rfl

@[simp] theorem children_node (f : Form) (s : Span) (cs : List Tree) :
    (node f s cs).children = cs := rfl

def isAbsent (t : Tree) : Bool :=
  t.form == .absent

mutual

/-- The value of a tree under an algebra, which gets the node's production and span, its children,
and their values in the same order. -/
def fold {α : Type} (alg : Form → Span → List Tree → List α → α) : Tree → α
  | node f s cs => alg f s cs (foldList alg cs)

def foldList {α : Type} (alg : Form → Span → List Tree → List α → α) : List Tree → List α
  | [] => []
  | c :: cs => fold alg c :: foldList alg cs

end

theorem foldList_eq_map {α : Type} (alg : Form → Span → List Tree → List α → α)
    (cs : List Tree) : foldList alg cs = cs.map (fold alg) := by
  induction cs with
  | nil => rfl
  | cons c cs ih => rw [foldList, ih, List.map_cons]

theorem fold_node {α : Type} (alg : Form → Span → List Tree → List α → α) (f : Form) (s : Span)
    (cs : List Tree) : fold alg (node f s cs) = alg f s cs (cs.map (fold alg)) := by
  rw [fold, foldList_eq_map]

mutual

/-- Whatever passes from the children to the node holds of every tree. -/
theorem induction {P : Tree → Prop}
    (h : ∀ (f : Form) (s : Span) (cs : List Tree), (∀ c ∈ cs, P c) → P (node f s cs)) :
    ∀ t, P t
  | node f s cs => h f s cs (inductionList h cs)

theorem inductionList {P : Tree → Prop}
    (h : ∀ (f : Form) (s : Span) (cs : List Tree), (∀ c ∈ cs, P c) → P (node f s cs)) :
    ∀ cs : List Tree, ∀ c ∈ cs, P c
  | [], _, hc => absurd hc (by simp)
  | d :: ds, c, hc =>
    (List.mem_cons.mp hc).elim (fun e => e ▸ induction h d) (inductionList h ds c)

end

/-- The tree itself and everything below it, parents before their children. -/
def nodes (t : Tree) : List Tree :=
  t.fold fun f s cs below => node f s cs :: below.flatten

/-- The tree without the parentheses around it. -/
def unparen (t : Tree) : Tree :=
  t.fold fun f s cs below =>
    match f, below with
    | .paren, [inner] => inner
    | _, _ => node f s cs

end Tree

/-- A whole script: its span, the text of an interpreter line if it has one, its statements. -/
structure Script where
  span : Span
  interpreter : Option String
  body : List Tree
  deriving DecidableEq, Repr, Inhabited

end Contracts
