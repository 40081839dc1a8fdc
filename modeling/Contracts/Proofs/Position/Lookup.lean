import Contracts.Proofs.Position.Advancing
import Mathlib.Data.List.TakeWhile

/-!
# Looking up an offset of the generated text

An offset cuts mappings that ascend in two: those at the offset or before it, and
those behind it (`IsCut`). The search by halves asks for no more than that. The
place of the cut stays between its two bounds, and so it is what the search comes
to (`IsCut.partitionPoint_eq`).

The answer is read off the last mapping in front of the cut. Seen from the whole
list, this is the last mapping at the offset or before it (`IsLastUpTo`), also where
mappings are repeated.
-/

namespace Contracts

namespace PositionMap

/-- The mappings never go back; offsets may be repeated. -/
def Ascends (map : PositionMap) : Prop :=
  map.mappings.toList.Pairwise fun m n => m.generated ≤ n.generated

instance (map : PositionMap) : Decidable map.Ascends :=
  inferInstanceAs (Decidable (List.Pairwise _ _))

/-- The last mapping of a list that is at an offset or before it. -/
def IsLastUpTo (offset : Nat) (ms : List Mapping) (m : Mapping) : Prop :=
  ∃ before after, ms = before ++ m :: after ∧ m.generated ≤ offset ∧
    ∀ k ∈ after, offset < k.generated

/-- Mappings that are cut by an offset: it is reached by those of `upTo` and not by
those of `behind`. -/
structure IsCut (offset : Nat) (map : PositionMap) (upTo behind : List Mapping) : Prop where
  toList_eq : map.mappings.toList = upTo ++ behind
  le : ∀ m ∈ upTo, m.generated ≤ offset
  lt : ∀ m ∈ behind, offset < m.generated

variable {offset : Nat} {map : PositionMap} {upTo behind : List Mapping}

theorem Ascends.exists_isCut (h : map.Ascends) (offset : Nat) :
    ∃ upTo behind, IsCut offset map upTo behind := by
  let p : Mapping → Bool := fun m => m.generated ≤ offset
  refine ⟨map.mappings.toList.takeWhile p, map.mappings.toList.dropWhile p,
    List.takeWhile_append_dropWhile.symm, fun m hm => ?_, fun m hm => ?_⟩
  · simpa [p] using List.mem_takeWhile_imp hm
  · have hbehind := h.sublist (List.dropWhile_sublist p)
    have hhead := List.head?_dropWhile_not p map.mappings.toList
    cases hcut : map.mappings.toList.dropWhile p with
    | nil =>
        rw [hcut] at hm
        exact absurd hm List.not_mem_nil
    | cons first rest =>
        rw [hcut] at hm hbehind hhead
        have hfirst : offset < first.generated := by simpa [p] using hhead
        rcases List.mem_cons.mp hm with rfl | hm
        · exact hfirst
        · exact Nat.lt_of_lt_of_le hfirst (List.rel_of_pairwise_cons hbehind hm)

namespace IsCut

/-- What the search asks about a mapping tells on which side of the cut it is. -/
theorem any_getElem?_iff (h : IsCut offset map upTo behind) (i : Nat) :
    (map.mappings[i]?.any fun m => m.generated ≤ offset) = true ↔ i < upTo.length := by
  rw [← Array.getElem?_toList, h.toList_eq]
  by_cases hi : i < upTo.length
  · rw [List.getElem?_append_left hi, List.getElem?_eq_getElem hi]
    have hle := h.le _ (List.getElem_mem hi)
    exact iff_of_true (by simpa using hle) hi
  · rw [List.getElem?_append_right (Nat.le_of_not_lt hi)]
    refine iff_of_false (fun hany => ?_) hi
    obtain ⟨m, hm, hle⟩ := (Option.any_eq_true _ _).mp hany
    exact Nat.not_le_of_lt (h.lt m (List.mem_of_getElem? hm)) (by simpa using hle)

/-- The search ends at the cut, from any bounds with the cut between them. -/
theorem partitionPoint_eq (h : IsCut offset map upTo behind) {low high : Nat}
    (hlow : low ≤ upTo.length) (hhigh : upTo.length ≤ high) :
    partitionPoint map.mappings offset low high = upTo.length := by
  fun_induction partitionPoint map.mappings offset low high with
  | case1 low high _ middle hmiddle ih =>
      exact ih ((h.any_getElem?_iff middle).mp hmiddle) hhigh
  | case2 low high _ middle hmiddle ih =>
      exact ih hlow (Nat.le_of_not_lt (mt (h.any_getElem?_iff middle).mpr hmiddle))
  | case3 low high hdone => omega

/-- The answer is the one of the last mapping in front of the cut. -/
theorem sourceOffset_eq (h : IsCut offset map upTo behind) :
    map.sourceOffset offset = upTo.getLast?.map Mapping.source := by
  have hsize : upTo.length ≤ map.mappings.size := by
    rw [← Array.length_toList, h.toList_eq, List.length_append]
    exact Nat.le_add_right _ _
  rw [sourceOffset, h.partitionPoint_eq (Nat.zero_le _) hsize]
  rcases List.eq_nil_or_concat upTo with rfl | ⟨before, m, rfl⟩
  · rfl
  · have hlast : map.mappings[before.length]? = some m := by
      rw [← Array.getElem?_toList, h.toList_eq]
      simp
    simp [hlast]

theorem sourceOffset_eq_none_iff (h : IsCut offset map upTo behind) :
    map.sourceOffset offset = none ↔ ∀ m ∈ map.mappings.toList, offset < m.generated := by
  rw [h.sourceOffset_eq, Option.map_eq_none_iff, List.getLast?_eq_none_iff, h.toList_eq]
  constructor
  · rintro rfl
    exact h.lt
  · intro hall
    refine List.eq_nil_iff_forall_not_mem.mpr fun m hm => ?_
    exact Nat.not_le_of_lt (hall m (List.mem_append_left behind hm)) (h.le m hm)

end IsCut

/-- Mappings that ascend are cut behind the last one that is at the offset or before it. -/
theorem Ascends.isCut_of_eq (h : map.Ascends) {before after : List Mapping} {m : Mapping}
    (heq : map.mappings.toList = before ++ m :: after) (hm : m.generated ≤ offset)
    (hafter : ∀ k ∈ after, offset < k.generated) : IsCut offset map (before ++ [m]) after where
  toList_eq := by rw [heq, List.append_assoc, List.singleton_append]
  le := by
    rw [Ascends, heq, List.pairwise_append] at h
    rw [List.forall_mem_append, List.forall_mem_singleton]
    exact ⟨fun k hk => Nat.le_trans (h.2.2 k hk m List.mem_cons_self) hm, hm⟩
  lt := hafter

theorem Ascends.sourceOffset_eq_some_iff (h : map.Ascends) (offset found : Nat) :
    map.sourceOffset offset = some found ↔
      ∃ m, IsLastUpTo offset map.mappings.toList m ∧ m.source = found := by
  constructor
  · intro hfound
    obtain ⟨upTo, behind, hcut⟩ := h.exists_isCut offset
    rw [hcut.sourceOffset_eq] at hfound
    obtain ⟨m, hlast, rfl⟩ := Option.map_eq_some_iff.mp hfound
    obtain ⟨before, rfl⟩ := List.getLast?_eq_some_iff.mp hlast
    refine ⟨m, ⟨before, behind, ?_, hcut.le m (by simp), hcut.lt⟩, rfl⟩
    rw [hcut.toList_eq, List.append_assoc, List.singleton_append]
  · rintro ⟨m, ⟨before, after, heq, hm, hafter⟩, rfl⟩
    rw [(h.isCut_of_eq heq hm hafter).sourceOffset_eq, List.getLast?_concat]
    rfl

/-- The mappings that were made from records even go ahead. -/
theorem pairwise_lt_ofRecords (code : List Char) (records : List Record) (source : Source) :
    (ofRecords code records source).mappings.toList.Pairwise
      fun m n => m.generated < n.generated := by
  have hempty : Keeps [] (#[] : Array Mapping).toList := keeps_nil
  obtain ⟨marked, -, hkeeps⟩ := hempty.foldl_push (records.filterMap (mapped? code source))
  exact hkeeps.ascending

/-- A mapping that is told by its offset is the last one up to it. -/
theorem isLastUpTo_of_mem {ms : List Mapping}
    (h : ms.Pairwise fun m n => m.generated < n.generated) {m : Mapping} (hm : m ∈ ms) :
    IsLastUpTo m.generated ms m := by
  obtain ⟨before, after, rfl⟩ := List.append_of_mem hm
  refine ⟨before, after, rfl, Nat.le_refl _, fun k hk => ?_⟩
  exact List.rel_of_pairwise_cons (List.pairwise_append.mp h).2.1 hk

/-- Where the mappings of a map never go back, an offset is answered by the last mapping of the
list that is at the offset or before it, and is not answered just if there is no such mapping. The
map of records is of this kind, and it answers the offset of each of its mappings by the source
offset of this very mapping. -/
theorem sourceOffset_isLast :
    (∀ map : PositionMap, map.Ascends → ∀ offset,
      (∀ found, map.sourceOffset offset = some found ↔
        ∃ m, IsLastUpTo offset map.mappings.toList m ∧ m.source = found) ∧
      (map.sourceOffset offset = none ↔ ¬ ∃ m ∈ map.mappings.toList, m.generated ≤ offset)) ∧
      ∀ (code : List Char) (records : List Record) (source : Source),
        let map := ofRecords code records source
        map.Ascends ∧ ∀ m ∈ map.mappings, map.sourceOffset m.generated = some m.source := by
  refine ⟨fun map h offset => ⟨h.sourceOffset_eq_some_iff offset, ?_⟩, ?_⟩
  · obtain ⟨upTo, behind, hcut⟩ := h.exists_isCut offset
    simpa using hcut.sourceOffset_eq_none_iff
  · intro code records source map
    have hlt : map.mappings.toList.Pairwise fun m n => m.generated < n.generated :=
      pairwise_lt_ofRecords code records source
    have hascends : map.Ascends := hlt.imp Nat.le_of_lt
    refine ⟨hascends, fun m hm => (hascends.sourceOffset_eq_some_iff _ _).mpr ⟨m, ?_, rfl⟩⟩
    exact isLastUpTo_of_mem hlt (Array.mem_toList_iff.mpr hm)

/-- Of two mappings at one offset the second is found, up to the next offset; in front of them
there is nothing to be found. -/
theorem sourceOffset_isLast_repeated :
    let map : PositionMap := ⟨#[⟨4, 0, 4, 10⟩, ⟨4, 0, 4, 12⟩, ⟨9, 1, 2, 11⟩]⟩
    map.Ascends ∧ map.sourceOffset 3 = none ∧ map.sourceOffset 4 = some 12 ∧
      map.sourceOffset 8 = some 12 := by
  intro map
  have hmap : map.Ascends := by decide
  have hlast : ∀ offset, 4 ≤ offset → offset < 9 →
      IsLastUpTo offset map.mappings.toList ⟨4, 0, 4, 12⟩ :=
    fun offset hle hlt => ⟨[⟨4, 0, 4, 10⟩], [⟨9, 1, 2, 11⟩], rfl, hle, by simpa using hlt⟩
  refine ⟨hmap, ?_, ?_, ?_⟩
  · exact (sourceOffset_isLast.1 map hmap 3).2.mpr (by decide)
  · exact ((sourceOffset_isLast.1 map hmap 4).1 12).mpr ⟨_, hlast 4 (by decide) (by decide), rfl⟩
  · exact ((sourceOffset_isLast.1 map hmap 8).1 12).mpr ⟨_, hlast 8 (by decide) (by decide), rfl⟩

end PositionMap

end Contracts
