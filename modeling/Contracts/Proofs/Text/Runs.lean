import Contracts.Text.Basic
import Mathlib.Data.List.TakeWhile

/-!
# Runs of characters of one kind

Readers cut a text where a run of characters of one kind ends: blanks before a word, the characters
of a name or of a symbol. Such a run ends before the first character of another kind, and in one
place only (`Text.eq_of_append_eq_append`).
-/

namespace Contracts.Text

variable {p : Char → Bool} {run run' rest rest' : List Char}

/-- A run of characters of one kind ends where one of another kind comes. -/
theorem dropWhile_append_of_head? (hrun : ∀ c ∈ run, p c = true)
    (hrest : ∀ c ∈ rest.head?, p c = false) : (run ++ rest).dropWhile p = rest := by
  rw [List.dropWhile_append_of_pos hrun]
  cases rest with
  | nil => rfl
  | cons c rest => exact List.dropWhile_cons_of_neg (by simp [hrest c rfl])

theorem takeWhile_append_of_head? (hrun : ∀ c ∈ run, p c = true)
    (hrest : ∀ c ∈ rest.head?, p c = false) : (run ++ rest).takeWhile p = run := by
  rw [List.takeWhile_append_of_pos hrun]
  cases rest with
  | nil => exact List.append_nil run
  | cons c rest => rw [List.takeWhile_cons_of_neg (by simp [hrest c rfl]), List.append_nil]

/-- A run of characters of one kind ends in one place only. -/
theorem eq_of_append_eq_append (hrun : ∀ c ∈ run, p c = true)
    (hrest : ∀ c ∈ rest.head?, p c = false) (hrun' : ∀ c ∈ run', p c = true)
    (hrest' : ∀ c ∈ rest'.head?, p c = false) (h : run ++ rest = run' ++ rest') :
    run = run' ∧ rest = rest' := by
  have hsame : rest = rest' := by
    rw [← dropWhile_append_of_head? hrun hrest, h, dropWhile_append_of_head? hrun' hrest']
  rw [hsame] at h
  exact ⟨List.append_cancel_right h, hsame⟩

theorem eq_false_of_mem_head?_dropWhile {cs : List Char} {c : Char}
    (h : c ∈ (cs.dropWhile p).head?) : p c = false := by
  have hnot := List.head?_dropWhile_not p cs
  rw [Option.mem_def.mp h] at hnot
  exact hnot

theorem trimLeft_append {blanks cs : List Char} (hblanks : ∀ c ∈ blanks, isBlank c = true)
    (hcs : ∀ c ∈ cs.head?, isBlank c = false) : trimLeft (blanks ++ cs) = cs :=
  dropWhile_append_of_head? hblanks hcs

theorem exists_blanks_append_trimLeft (cs : List Char) :
    ∃ blanks, (∀ c ∈ blanks, isBlank c = true) ∧ cs = blanks ++ trimLeft cs :=
  ⟨cs.takeWhile isBlank, fun _ hc => List.mem_takeWhile_imp hc,
    List.takeWhile_append_dropWhile.symm⟩

theorem trimRight_append {blanks cs : List Char} (hblanks : ∀ c ∈ blanks, isBlank c = true)
    (hcs : ∀ c ∈ cs.getLast?, isBlank c = false) : trimRight (cs ++ blanks) = cs := by
  have hreverse : (cs ++ blanks).reverse.dropWhile isBlank = cs.reverse := by
    rw [List.reverse_append]
    refine dropWhile_append_of_head? (by simpa using hblanks) ?_
    rw [List.head?_reverse]
    exact hcs
  rw [trimRight, hreverse, List.reverse_reverse]

theorem exists_trimRight_append_blanks (cs : List Char) :
    ∃ blanks, (∀ c ∈ blanks, isBlank c = true) ∧ cs = trimRight cs ++ blanks := by
  obtain ⟨blanks, hblanks, hreverse⟩ := exists_blanks_append_trimLeft cs.reverse
  refine ⟨blanks.reverse, by simpa using hblanks, ?_⟩
  have hforth := congrArg List.reverse hreverse
  rwa [List.reverse_reverse, List.reverse_append] at hforth

theorem isBlank_eq_false_of_mem_getLast?_trimRight {cs : List Char} {c : Char}
    (h : c ∈ (trimRight cs).getLast?) : isBlank c = false := by
  rw [trimRight, List.getLast?_reverse] at h
  exact eq_false_of_mem_head?_dropWhile h

end Contracts.Text
