import Contracts.Pattern.Node

/-!
# Bindings

What a pattern captures: names with the nodes they are bound to, in the order of capture. No name is
bound twice. Two sets of bindings can be merged if they agree, that is if no name is bound to
different nodes in them.
-/

namespace Contracts

structure Bindings where
  entries : List (String × Node)
  nodup : (entries.map Prod.fst).Nodup
  deriving DecidableEq, Repr

namespace Bindings

/-- Nothing is bound. -/
def empty : Bindings :=
  ⟨[], List.nodup_nil⟩

def single (name : String) (n : Node) : Bindings :=
  ⟨[(name, n)], by simp⟩

/-- The bound names in the order of capture. -/
def names (b : Bindings) : List String :=
  b.entries.map Prod.fst

def get? (b : Bindings) (name : String) : Option Node :=
  List.lookup name b.entries

def size (b : Bindings) : Nat :=
  b.entries.length

def isEmpty (b : Bindings) : Bool :=
  b.entries.isEmpty

/-- Bind a name that is not bound yet. A name that is bound keeps its node. -/
def add (b : Bindings) (name : String) (n : Node) : Bindings :=
  if h : name ∈ b.names then b
  else ⟨b.entries ++ [(name, n)], by
    rw [List.map_append, List.nodup_append]
    refine ⟨b.nodup, by simp, ?_⟩
    rintro x hx y hy rfl
    obtain rfl : x = name := by simpa using hy
    exact h hx⟩

/-- Whether a name can be bound to a node: it is not bound yet, or to the same node. -/
def allows (b : Bindings) (name : String) (n : Node) : Bool :=
  match b.get? name with
  | some m => m.same n
  | none => true

/-- Bind one more name; a name that is bound already must be bound to the same node. -/
def insert? (b : Bindings) (name : String) (n : Node) : Option Bindings :=
  if b.allows name n then some (b.add name n) else none

/-- The bindings of `a` followed by the new ones of `b`, which are inserted one after the other. -/
def merge? (a b : Bindings) : Option Bindings :=
  b.entries.foldlM (fun c (name, n) => c.insert? name n) a

@[simp] theorem entries_empty : empty.entries = [] := rfl

@[simp] theorem entries_single (name : String) (n : Node) :
    (single name n).entries = [(name, n)] := rfl

theorem add_of_mem {b : Bindings} {name : String} (h : name ∈ b.names) (n : Node) :
    b.add name n = b := by
  rw [add, dif_pos h]

theorem entries_add_of_not_mem {b : Bindings} {name : String} (h : name ∉ b.names) (n : Node) :
    (b.add name n).entries = b.entries ++ [(name, n)] := by
  rw [add, dif_neg h]

@[simp] theorem merge?_empty (a : Bindings) : a.merge? empty = some a := rfl

@[simp] theorem merge?_single (a : Bindings) (name : String) (n : Node) :
    a.merge? (single name n) = a.insert? name n := by
  simp [merge?]

end Bindings

end Contracts
