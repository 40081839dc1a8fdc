import Contracts.Proofs.Pattern.Reading

/-!
# Writing s-expressions

Every s-expression whose symbols can be written at all (`SExpr.Proper`) has a text, with a blank
behind every item of a list. The text is spelled by the grammar, so that reading it gives the
s-expression back, at the offsets that it has in this text (`SExpr.read_text`). What was read from
any text is proper, so that a pattern that was changed as an s-expression can be written down again.
-/

namespace Contracts

namespace SExpr

/-- All symbols can be written: they are not empty, and all their characters are plain. -/
inductive Proper : SExpr → Prop where
  | symbol {name : String} {offset : Nat} (hname : name.toList ≠ [])
      (hplain : ∀ c ∈ name.toList, isPlain c = true) : Proper (.symbol name offset)
  | list {items : List SExpr} {offset : Nat} (hitems : ∀ e ∈ items, Proper e) :
      Proper (.list items offset)

mutual

/-- The characters of an s-expression. -/
def write : SExpr → List Char
  | .symbol name _ => name.toList
  | .list items _ => '(' :: (writeItems items ++ [')'])

def writeItems : List SExpr → List Char
  | [] => []
  | e :: es => write e ++ ' ' :: writeItems es

end

def text (e : SExpr) : String :=
  String.ofList (write e)

mutual

/-- The s-expression with the offsets that it has where its text starts at `offset`. -/
def placed (offset : Nat) : SExpr → SExpr
  | .symbol name _ => .symbol name offset
  | .list items _ => .list (placedItems (offset + 1) items) offset

def placedItems (offset : Nat) : List SExpr → List SExpr
  | [] => []
  | e :: es => placed offset e :: placedItems (offset + Text.byteLength (write e) + 1) es

end

mutual

/-- A written s-expression is spelled by the grammar, wherever its text starts. -/
theorem Proper.spelled {e : SExpr} (h : e.Proper) (offset : Nat) :
    Spelled offset (write e) (placed offset e) := by
  match e, h with
  | .symbol name start, .symbol hname hplain =>
      have hspelled : Spelled offset name.toList (.symbol (String.ofList name.toList) offset) :=
        .symbol hname hplain
      rwa [String.ofList_toList] at hspelled
  | .list items start, .list hitems => exact .list (spelledItems_writeItems hitems (offset + 1))

theorem spelledItems_writeItems {es : List SExpr} (h : ∀ e ∈ es, e.Proper) (offset : Nat) :
    SpelledItems offset (writeItems es) (placedItems offset es) := by
  match es with
  | [] => exact .nil (List.forall_mem_nil _)
  | e :: es =>
      rw [List.forall_mem_cons] at h
      have hspace : ∀ c ∈ (' ' :: writeItems es).head?, isPlain c = false := by
        rintro _ ⟨⟩
        rfl
      have hothers := spelledItems_writeItems h.2 (offset + Text.byteLength (write e) + 1)
      exact .spelled_cons (h.1.spelled offset) (.of_head? hspace _) (hothers.blank_cons rfl)

end

/-- Reading a written s-expression gives it back. -/
theorem read_text {e : SExpr} (h : e.Proper) : read e.text.toList = .ok (e.placed 0) := by
  have hreads : Reads ([] ++ (write e ++ [])) (.ok (e.placed 0)) :=
    .complete (by simp) (h.spelled 0) (by simp)
  rw [List.nil_append, List.append_nil] at hreads
  rw [text, String.toList_ofList]
  exact hreads.read_eq

mutual

theorem Spelled.proper {offset : Nat} {text : List Char} {e : SExpr}
    (h : Spelled offset text e) : Proper e := by
  match h with
  | .symbol hrun hplain => exact .symbol (by simpa using hrun) (by simpa using hplain)
  | .list hitems => exact .list (SpelledItems.proper hitems)

theorem SpelledItems.proper {offset : Nat} {text : List Char} {es : List SExpr}
    (h : SpelledItems offset text es) : ∀ e ∈ es, Proper e := by
  match h with
  | .nil _ => simp
  | .cons _ hfirst _ hrest =>
      exact List.forall_mem_cons.mpr ⟨Spelled.proper hfirst, SpelledItems.proper hrest⟩

end

/-- What was read can be written again. -/
theorem proper_of_read {cs : List Char} {e : SExpr} (h : read cs = .ok e) : Proper e := by
  have hreads := reads_read cs
  rw [h] at hreads
  cases hreads with
  | complete _ he _ => exact he.proper

end SExpr

end Contracts
