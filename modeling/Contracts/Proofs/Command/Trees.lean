import Contracts.Command.Files
import Mathlib.Data.List.Basic

/-!
# Paths and the files they lead to

A path leads to a place, whatever exists there: the location that its segments
resolve to (`FileTree.place`). Reading goes to the place of a path, and so does
writing, provided that the path ends in a name (`FileTree.write_eq_ok`). What a
tree has at a place after a file was put there is that file, and at all other
places it has what it had before (`FileTree.find?_put`). A file that can be read
can be read after any writing (`FileTree.exists_read_of_write`).
-/

namespace Contracts

namespace Path

/-- The name of an entry of a directory. -/
structure IsName (name : String) : Prop where
  ne_empty : name ≠ ""
  ne_current : name ≠ "."
  ne_parent : name ≠ ".."
  no_slash : '/' ∉ name.toList

instance : DecidablePred IsName := fun name =>
  decidable_of_iff (name ≠ "" ∧ name ≠ "." ∧ name ≠ ".." ∧ '/' ∉ name.toList)
    ⟨fun ⟨h₁, h₂, h₃, h₄⟩ => ⟨h₁, h₂, h₃, h₄⟩, fun ⟨h₁, h₂, h₃, h₄⟩ => ⟨h₁, h₂, h₃, h₄⟩⟩

theorem segmentsFrom_ne_nil (segment cs : List Char) : segmentsFrom segment cs ≠ [] := by
  induction cs generalizing segment with
  | nil => exact List.cons_ne_nil _ _
  | cons c cs ih =>
      rw [segmentsFrom]
      split
      next => exact List.cons_ne_nil _ _
      next => exact ih _

theorem segmentsFrom_slash (segment cs ds : List Char) :
    segmentsFrom segment (cs ++ '/' :: ds) = segmentsFrom segment cs ++ segmentsFrom [] ds := by
  induction cs generalizing segment with
  | nil => simp [segmentsFrom]
  | cons c cs ih =>
      rw [List.cons_append, segmentsFrom, segmentsFrom]
      split
      next => rw [ih, List.cons_append]
      next => exact ih _

theorem segmentsFrom_eq_singleton {segment cs : List Char} (hcs : '/' ∉ cs) :
    segmentsFrom segment cs = [String.ofList (segment.reverse ++ cs)] := by
  induction cs generalizing segment with
  | nil => simp [segmentsFrom]
  | cons c cs ih =>
      rw [List.mem_cons, not_or] at hcs
      rw [segmentsFrom, if_neg (Ne.symm hcs.1), ih hcs.2]
      simp

/-- What is added at the end of a path is added to its last segment. -/
theorem segmentsFrom_append {segment cs ds : List Char} (hds : '/' ∉ ds) {init : List String}
    {name : String} (h : segmentsFrom segment cs = init ++ [name]) :
    segmentsFrom segment (cs ++ ds) = init ++ [name ++ String.ofList ds] := by
  induction cs generalizing segment init with
  | nil =>
      obtain ⟨rfl, hname⟩ := @List.append_inj' _ [] [_] init [name] h rfl
      obtain rfl := List.singleton_inj.mp hname
      rw [List.nil_append, segmentsFrom_eq_singleton hds, String.ofList_append]
      rfl
  | cons c cs ih =>
      rw [segmentsFrom] at h
      rw [List.cons_append, segmentsFrom]
      split at h
      next hc =>
          rw [if_pos hc]
          cases init with
          | nil => exact absurd (List.cons.inj h).2 (segmentsFrom_ne_nil [] cs)
          | cons first init =>
              obtain ⟨rfl, hrest⟩ := List.cons.inj h
              rw [ih hrest]
              rfl
      next hc =>
          rw [if_neg hc]
          exact ih h

theorem slash_not_mem_of_mem_segmentsFrom {segment cs : List Char} (hsegment : '/' ∉ segment)
    {name : String} (h : name ∈ segmentsFrom segment cs) : '/' ∉ name.toList := by
  induction cs generalizing segment with
  | nil =>
      obtain rfl := List.mem_singleton.mp h
      simpa using hsegment
  | cons c cs ih =>
      rw [segmentsFrom] at h
      split at h
      next =>
          obtain rfl | h := List.mem_cons.mp h
          · simpa using hsegment
          · exact ih List.not_mem_nil h
      next hc => exact ih (by simp [Ne.symm hc, hsegment]) h

/-- The path ends in a name. -/
def EndsInName (path : String) : Prop :=
  ∃ init name, segments path = init ++ [name] ∧ IsName name

theorem IsName.endsInName {name : String} (h : IsName name) : EndsInName name :=
  ⟨[], name, by rw [segments, segmentsFrom_eq_singleton h.no_slash]; simp, h⟩

theorem IsName.append {name text : String} (h : IsName name) (htext : '/' ∉ text.toList)
    (hlength : 2 < text.toList.length) : IsName (name ++ text) := by
  have hne : ∀ short : String, short.toList.length ≤ 2 → name ++ text ≠ short := by
    rintro short hshort rfl
    rw [String.toList_append, List.length_append] at hshort
    omega
  refine ⟨hne "" (by decide), hne "." (by decide), hne ".." (by decide), ?_⟩
  rw [String.toList_append, List.mem_append, not_or]
  exact ⟨h.no_slash, htext⟩

theorem segments_append {path text : String} (htext : '/' ∉ text.toList) {init : List String}
    {name : String} (h : segments path = init ++ [name]) :
    segments (path ++ text) = init ++ [name ++ text] := by
  rw [segments, String.toList_append, segmentsFrom_append htext h, String.ofList_toList]

theorem segments_slash (directory below : String) :
    segments (directory ++ "/" ++ below) = segments directory ++ segments below := by
  simp [segments, segmentsFrom_slash]

theorem EndsInName.append {path text : String} (h : EndsInName path) (htext : '/' ∉ text.toList)
    (hlength : 2 < text.toList.length) : EndsInName (path ++ text) := by
  obtain ⟨init, name, hsegments, hname⟩ := h
  exact ⟨init, name ++ text, segments_append htext hsegments, hname.append htext hlength⟩

/-- A path below a directory ends as it does below any other one. -/
theorem EndsInName.join {below : String} (h : EndsInName below) (directory : String) :
    EndsInName (join directory below) := by
  obtain ⟨init, name, hbelow, hname⟩ := h
  unfold Path.join
  split
  next => exact ⟨init, name, hbelow, hname⟩
  next =>
      split
      next hslash =>
          obtain ⟨ds, hds⟩ := List.getLast?_eq_some_iff.mp hslash
          refine ⟨segmentsFrom [] ds ++ init, name, ?_, hname⟩
          rw [segments] at hbelow
          rw [segments, String.toList_append, hds, List.append_assoc, List.singleton_append,
            segmentsFrom_slash, hbelow, List.append_assoc]
      next =>
          refine ⟨segments directory ++ init, name, ?_, hname⟩
          rw [segments_slash, hbelow, List.append_assoc]

end Path

namespace FileTree

section Walking

variable (t : FileTree)

/-- The location that a path leads to, whatever exists. -/
def place (path : String) : Location :=
  resolve (t.startOf path) (Path.segments path)

theorem resolve_append (l : Location) (xs ys : List String) :
    resolve l (xs ++ ys) = resolve (resolve l xs) ys := by
  induction xs generalizing l with
  | nil => rfl
  | cons x xs ih =>
      rw [List.cons_append, resolve, resolve]
      split
      next => exact ih l
      next =>
          split
          next => exact ih _
          next => exact ih _

theorem resolve_name {name : String} (h : Path.IsName name) (l : Location) :
    resolve l [name] = l ++ [name] := by
  rw [resolve, if_neg (by simp [h.ne_empty, h.ne_current]), if_neg h.ne_parent, resolve]

variable {t}

/-- A walk that gets through comes to where its segments lead. -/
theorem walk_eq_ok {l m : Location} {segments : List String} (h : t.walk l segments = .ok m) :
    m = resolve l segments := by
  induction segments generalizing l with
  | nil => exact (Except.ok.inj h).symm
  | cons segment rest ih =>
      rw [walk] at h
      rw [resolve]
      split at h
      next =>
          split at h
          next hstay =>
              rw [if_pos hstay]
              exact ih h
          next hstay =>
              rw [if_neg hstay]
              split at h
              next hup =>
                  rw [if_pos hup]
                  exact ih h
              next hup =>
                  rw [if_neg hup]
                  exact ih h
      next => split at h <;> exact absurd h (by simp)

theorem walk_append (l : Location) (xs ys : List String) :
    t.walk l (xs ++ ys) = (t.walk l xs).bind fun m => t.walk m ys := by
  induction xs generalizing l with
  | nil => rfl
  | cons x xs ih =>
      rw [List.cons_append, walk, walk]
      split
      next =>
          split
          next => exact ih l
          next => split <;> exact ih _
      next => split <;> rfl

/-- The text that is read from a path is in the file at its place. -/
theorem read_eq_ok_iff {path text : String} :
    t.read path = .ok text ↔
      t.locate path = .ok (t.place path) ∧
        ∃ f, t.find? (t.place path) = some f ∧ String.fromUTF8? f.bytes = some text := by
  rw [read]
  constructor
  · intro h
    split at h
    next => exact absurd h (by simp)
    next l hl =>
        obtain rfl := walk_eq_ok hl
        split at h
        next f hf =>
            split at h
            next text' htext =>
                obtain rfl := Except.ok.inj h
                exact ⟨hl, f, hf, htext⟩
            next => exact absurd h (by simp)
        next => split at h <;> exact absurd h (by simp)
  · rintro ⟨hl, f, hf, htext⟩
    rw [hl]
    simp only [hf, htext]

end Walking

section Writing

variable (t : FileTree)

@[simp]
theorem base_put (l : Location) (bytes : ByteArray) : (t.put l bytes).base = t.base := by
  unfold put
  split <;> rfl

theorem place_eq_of_base_eq {t u : FileTree} (h : u.base = t.base) (path : String) :
    u.place path = t.place path := by
  rw [place, place, startOf, startOf, h]

theorem location_of_find? {t : FileTree} {l : Location} {f : File} (h : t.find? l = some f) :
    f.location = l := by
  rw [find?] at h
  simpa using List.find?_some h

theorem find?_put (l m : Location) (bytes : ByteArray) :
    (t.put l bytes).find? m = if m = l then some ⟨l, bytes⟩ else t.find? m := by
  unfold put
  split
  next hfile =>
      have hsame : ((fun f => f.location == m) ∘
          fun f => if f.location == l then ⟨l, bytes⟩ else f) =
            fun f : File => f.location == m := by
        funext f
        by_cases hl : f.location = l <;> simp [hl]
      rw [find?, List.find?_map, hsame]
      change (t.find? m).map _ = _
      split
      next hm =>
          obtain ⟨f, hf⟩ := Option.isSome_iff_exists.mp hfile
          rw [hm, hf, Option.map_some, if_pos (by simp [location_of_find? hf])]
      next hm =>
          cases hf : t.find? m with
          | none => rfl
          | some f =>
              rw [Option.map_some, if_neg (by simpa [location_of_find? hf] using hm)]
  next hfile =>
      have hnone : t.find? l = none := by simpa [isFile] using hfile
      rw [find?, List.find?_append]
      change (t.find? m).or _ = _
      split
      next hm => simp [hm, hnone]
      next hm => simp [Ne.symm hm]

theorem resolve_filter (l : Location) (segments : List String) :
    resolve l (segments.filter fun s => !(s == "" || s == ".")) = resolve l segments := by
  induction segments generalizing l with
  | nil => rfl
  | cons segment rest ih =>
      rw [List.filter_cons, resolve]
      by_cases hstay : segment = "" ∨ segment = "."
      · obtain rfl | rfl := hstay
        · exact ih l
        · exact ih l
      · rw [if_pos (by simpa using hstay), if_neg (by simpa using hstay), resolve,
          if_neg (by simpa using hstay), ih, ih]

theorem makeDirectory_eq_ok {t : FileTree} {l m : Location} {steps : List String}
    (hsteps : ∀ s ∈ steps, ¬ (s = "" ∨ s = ".")) (h : t.makeDirectory l steps = .ok m) :
    m = resolve l steps := by
  induction steps generalizing l with
  | nil => exact (Except.ok.inj h).symm
  | cons segment rest ih =>
      rw [List.forall_mem_cons] at hsteps
      rw [makeDirectory] at h
      rw [resolve, if_neg (by simpa using hsteps.1)]
      split at h
      next hup =>
          rw [if_pos hup]
          exact ih hsteps.2 h
      next hup =>
          rw [if_neg hup]
          split at h
          next => split at h <;> exact absurd h (by simp)
          next => exact ih hsteps.2 h

theorem startOf_append {t : FileTree} {path : String} (h : path ≠ "") (text : String) :
    t.startOf (path ++ text) = t.startOf path := by
  have hne : path.toList ≠ [] := by simpa using h
  rw [startOf, startOf, String.toList_append, List.head?_append_of_ne_nil _ hne]

theorem place_of_segments {path : String} {init : List String} {name : String}
    (h : Path.segments path = init ++ [name]) (hname : Path.IsName name) :
    t.place path = resolve (t.startOf path) init ++ [name] := by
  rw [place, h, resolve_append, resolve_name hname]

/-- A path with an extension added to it leads elsewhere. -/
theorem place_append_ne {path : String} (h : Path.EndsInName path) :
    t.place (path ++ ".map") ≠ t.place path := by
  obtain ⟨init, name, hsegments, hname⟩ := h
  have hne : path ≠ "" := by
    rintro rfl
    obtain ⟨-, hempty⟩ := @List.append_inj' _ [] [""] init [name] hsegments rfl
    exact hname.ne_empty (List.singleton_inj.mp hempty).symm
  have hslash : '/' ∉ ".map".toList := by decide
  rw [t.place_of_segments (Path.segments_append hslash hsegments)
    (hname.append hslash (by decide)), t.place_of_segments hsegments hname, startOf_append hne]
  simp

/-- Writing to a path that ends in a name puts the text at its place. -/
theorem write_eq_ok {t u : FileTree} {path text : String} (hpath : Path.EndsInName path)
    (h : t.write path text = .ok u) : u = t.put (t.place path) text.toUTF8 := by
  obtain ⟨init, name, hsegments, hname⟩ := hpath
  have hplace := t.place_of_segments hsegments hname
  simp only [write, hsegments, List.dropLast_concat, List.getLastD_concat] at h
  split at h
  next => exact absurd h (by simp)
  next directory hdirectory =>
      have hmade := makeDirectory_eq_ok (by simp) hdirectory
      rw [resolve_filter] at hmade
      split at h
      next => exact absurd h (by simp)
      next =>
          rw [hplace, ← hmade]
          exact (Except.ok.inj h).symm

end Writing

section Keeping

variable {t : FileTree}

/-- What is a directory stays one, whatever file is put somewhere. -/
theorem isDirectory_put {m : Location} (h : t.isDirectory m = true) (l : Location)
    (bytes : ByteArray) : (t.put l bytes).isDirectory m = true := by
  have hfiles : (t.files.any fun f => isBelow m f.location) = true →
      ((t.put l bytes).files.any fun f => isBelow m f.location) = true := by
    intro hbelow
    obtain ⟨f, hf, hm⟩ := List.any_eq_true.mp hbelow
    refine List.any_eq_true.mpr ?_
    unfold put
    split
    next =>
        refine ⟨_, List.mem_map_of_mem hf, ?_⟩
        split
        next hl => rwa [← beq_iff_eq.mp hl]
        next => exact hm
    next => exact ⟨f, List.mem_append_left _ hf, hm⟩
  have hdirectories : (t.put l bytes).directories = t.directories := by
    unfold put
    split <;> rfl
  simp only [isDirectory, Bool.or_eq_true, base_put, hdirectories] at h ⊢
  exact h.imp_right hfiles

/-- A walk that gets through also does so with more directories. -/
theorem walk_eq_ok_of_isDirectory {u : FileTree}
    (h : ∀ l, t.isDirectory l = true → u.isDirectory l = true) {l m : Location}
    {segments : List String} (hwalk : t.walk l segments = .ok m) : u.walk l segments = .ok m := by
  induction segments generalizing l with
  | nil => exact hwalk
  | cons segment rest ih =>
      rw [walk] at hwalk ⊢
      split at hwalk
      next hl =>
          rw [if_pos (h l hl)]
          split at hwalk
          next hstay =>
              rw [if_pos hstay]
              exact ih hwalk
          next hstay =>
              rw [if_neg hstay]
              split at hwalk
              next hup =>
                  rw [if_pos hup]
                  exact ih hwalk
              next hup =>
                  rw [if_neg hup]
                  exact ih hwalk
      next => split at hwalk <;> exact absurd hwalk (by simp)

theorem fromUTF8?_toUTF8 (text : String) : String.fromUTF8? text.toUTF8 = some text := by
  unfold String.fromUTF8?
  rw [String.toUTF8_eq_toByteArray, dif_pos text.isValidUTF8]
  rfl

theorem exists_put_of_write {u : FileTree} {path text : String} (h : t.write path text = .ok u) :
    ∃ l, u = t.put l text.toUTF8 := by
  unfold write at h
  dsimp only at h
  split at h
  next => exact absurd h (by simp)
  next =>
      split at h
      next => exact absurd h (by simp)
      next => exact ⟨_, (Except.ok.inj h).symm⟩

/-- Writing a text to any path leaves a file readable that was so before. -/
theorem exists_read_of_write {u : FileTree} {path text other : String}
    (h : t.write path text = .ok u) (hread : ∃ contents, t.read other = .ok contents) :
    ∃ contents, u.read other = .ok contents := by
  obtain ⟨l, rfl⟩ := exists_put_of_write h
  obtain ⟨contents, hcontents⟩ := hread
  obtain ⟨hlocate, f, hf, htext⟩ := read_eq_ok_iff.mp hcontents
  have hplace := place_eq_of_base_eq (t.base_put l text.toUTF8) other
  have hreached : (t.put l text.toUTF8).locate other = .ok (t.place other) := by
    rw [locate, startOf, base_put]
    exact walk_eq_ok_of_isDirectory (fun m hm => isDirectory_put hm l _) hlocate
  simp only [read_eq_ok_iff, hplace, hreached, find?_put, true_and]
  split
  next => exact ⟨text, _, rfl, fromUTF8?_toUTF8 text⟩
  next => exact ⟨contents, f, hf, htext⟩

end Keeping

end FileTree

end Contracts
