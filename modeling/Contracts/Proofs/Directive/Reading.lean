import Contracts.Directive.Basic
import Mathlib.Data.List.TakeWhile

/-!
# What directives are made of

Nothing is made up when a directive is read: its names are runs of letters, digits
and bars, and everything else of it is cut out of the text of the comment. So a
character that the text does not have does not turn up in the directive
(`Directive.isOf_of_read`).
-/

namespace Contracts

namespace Text

theorem suffix_of_after? {start cs rest : List Char} (h : after? start cs = some rest) :
    rest <:+ cs := by
  rw [eq_append_of_after? h]
  exact List.suffix_append start rest

theorem trimLeft_suffix (cs : List Char) : trimLeft cs <:+ cs :=
  List.dropWhile_suffix isBlank

theorem trim_subset (cs : List Char) : trim cs ⊆ cs := by
  intro c hc
  rw [trim, trimRight, List.mem_reverse] at hc
  have hmem := (List.dropWhile_suffix isBlank).subset hc
  exact (trimLeft_suffix cs).subset (List.mem_reverse.mp hmem)

theorem suffix_of_splitAt? {mark cs before rest : List Char}
    (h : splitAt? mark cs = some (before, rest)) : rest <:+ cs := by
  induction cs generalizing before rest with
  | nil =>
      rw [splitAt?, Option.map_eq_some_iff] at h
      obtain ⟨rest', hafter, heq⟩ := h
      rw [← (Prod.mk.inj heq).2]
      exact suffix_of_after? hafter
  | cons c cs ih =>
      rw [splitAt?] at h
      split at h
      next rest' hafter =>
          rw [Option.some.injEq, Prod.mk.injEq] at h
          rw [← h.2]
          exact suffix_of_after? hafter
      next =>
          rw [Option.map_eq_some_iff] at h
          obtain ⟨⟨before', rest'⟩, hsplit, heq⟩ := h
          rw [← (Prod.mk.inj heq).2]
          exact (ih hsplit).trans (List.suffix_cons c cs)

theorem subset_of_mem_linesFrom {line cs read : List Char} (h : line ∈ linesFrom read cs) :
    line ⊆ read ++ cs := by
  fun_induction linesFrom read cs with
  | case1 => exact absurd h (by simp)
  | case2 read =>
      rw [List.mem_singleton] at h
      rw [h, List.append_nil]
      exact (List.reverse_perm read).subset
  | case3 read cs ih =>
      rw [List.mem_cons] at h
      intro c hc
      rcases h with rfl | h
      · rw [List.mem_reverse] at hc
        refine List.mem_append_left _ ?_
        split at hc
        · exact List.mem_of_mem_tail hc
        · exact hc
      · exact List.mem_append_right _ (List.mem_cons_of_mem _ (ih h hc))
  | case4 read c cs hc ih =>
      intro d hd
      have hmem := ih h hd
      simp only [List.cons_append, List.mem_append, List.mem_cons] at hmem ⊢
      exact or_left_comm.mp hmem

theorem subset_of_mem_lines {line cs : List Char} (h : line ∈ lines cs) : line ⊆ cs :=
  subset_of_mem_linesFrom h

end Text

namespace Directive

/-- A name in a directive. -/
def IsName (name : String) : Prop :=
  ∃ c cs, name = String.ofList (c :: cs) ∧ isNameStart c = true ∧ ∀ d ∈ cs, isNamePart d = true

theorem splitName?_eq_some {cs name rest : List Char} (h : splitName? cs = some (name, rest)) :
    IsName (String.ofList name) ∧ rest <:+ cs := by
  cases cs with
  | nil => exact absurd h (by simp [splitName?])
  | cons c cs =>
      rw [splitName?] at h
      split at h
      next hc =>
          rw [Option.some.injEq, Prod.mk.injEq] at h
          obtain ⟨rfl, rfl⟩ := h
          refine ⟨⟨c, _, rfl, hc, fun d hd => List.mem_takeWhile_imp hd⟩, ?_⟩
          exact (List.dropWhile_suffix _).trans (List.suffix_cons c cs)
      next => exact absurd h (by simp)

theorem afterKeyword?_suffix {word cs rest : List Char} (h : afterKeyword? word cs = some rest) :
    rest <:+ cs := by
  rw [afterKeyword?] at h
  split at h
  next rest' hafter =>
      simp only at h
      split at h
      · rw [Option.some.injEq] at h
        rw [← h]
        exact (Text.trimLeft_suffix rest').trans (Text.suffix_of_after? hafter)
      · exact absurd h (by simp)
  next => exact absurd h (by simp)

end Directive

namespace DirectiveKind

/-- The directive consists of names and of characters of the text `cs`. -/
def IsOf (cs : List Char) : DirectiveKind → Prop
  | .synonym name definition => Directive.IsName name ∧ definition.toList ⊆ cs
  | .instances name => Directive.IsName name
  | .choice name fields =>
    Directive.IsName name ∧ ∀ field ∈ fields, Directive.IsName field.1 ∧ field.2.toList ⊆ cs

theorem IsOf.mono {kind : DirectiveKind} {cs ds : List Char} (h : kind.IsOf cs) (hcs : cs ⊆ ds) :
    kind.IsOf ds := by
  cases kind with
  | synonym name definition => exact ⟨h.1, fun c hc => hcs (h.2 hc)⟩
  | instances name => exact h
  | choice name fields =>
      refine ⟨h.1, fun field hfield => ?_⟩
      obtain ⟨hname, htype⟩ := h.2 field hfield
      exact ⟨hname, fun c hc => hcs (htype hc)⟩

end DirectiveKind

namespace Directive

theorem isOf_of_readSynonym? {cs : List Char} {kind : DirectiveKind}
    (h : readSynonym? cs = some kind) : kind.IsOf cs := by
  rw [readSynonym?, Option.bind_eq_bind, Option.bind_eq_some_iff] at h
  obtain ⟨⟨name, rest⟩, hsplit, h⟩ := h
  obtain ⟨hname, hrest⟩ := splitName?_eq_some hsplit
  simp only at h
  split at h
  · exact absurd h (by simp)
  · rw [Option.bind_eq_bind, Option.bind_eq_some_iff] at h
    obtain ⟨afterSign, hsign, h⟩ := h
    split at h
    · exact absurd h (by simp)
    · rw [Option.some.injEq] at h
      rw [← h]
      refine ⟨hname, ?_⟩
      rw [String.toList_ofList]
      have hafter : afterSign <:+ cs :=
        ((Text.suffix_of_after? hsign).trans (Text.trimLeft_suffix rest)).trans hrest
      exact ((List.dropWhile_suffix _).trans hafter).subset

theorem isOf_of_readInstances? {cs : List Char} {kind : DirectiveKind}
    (h : readInstances? cs = some kind) : kind.IsOf cs := by
  rw [readInstances?, Option.bind_eq_bind, Option.bind_eq_some_iff] at h
  obtain ⟨⟨name, rest⟩, hsplit, h⟩ := h
  simp only at h
  split at h
  · rw [Option.some.injEq] at h
    rw [← h]
    exact (splitName?_eq_some hsplit).1
  · exact absurd h (by simp)

theorem readField?_eq_some {line : List Char} {field : String × String}
    (h : readField? line = some field) : IsName field.1 ∧ field.2.toList ⊆ line := by
  rw [readField?, Option.bind_eq_bind, Option.bind_eq_some_iff] at h
  obtain ⟨⟨name, rest⟩, hsplit, h⟩ := h
  obtain ⟨hname, hrest⟩ := splitName?_eq_some hsplit
  simp only [Option.bind_eq_bind, Option.bind_eq_some_iff] at h
  obtain ⟨type, htype, h⟩ := h
  split at h
  · exact absurd h (by simp)
  · rw [Option.some.injEq] at h
    rw [← h]
    refine ⟨hname, ?_⟩
    rw [String.toList_ofList]
    have hsuffix : type <:+ line :=
      ((Text.suffix_of_after? htype).trans (Text.trimLeft_suffix rest)).trans hrest
    exact fun c hc => hsuffix.subset (Text.trim_subset type hc)

theorem mem_setField {fields : List (String × String)} {name type : String}
    {field : String × String} (h : field ∈ setField fields name type) :
    field ∈ fields ∨ field = (name, type) := by
  rw [setField] at h
  split at h
  · rw [List.mem_map] at h
    obtain ⟨f, hf, rfl⟩ := h
    split
    · exact .inr rfl
    · exact .inl hf
  · rw [List.mem_append, List.mem_singleton] at h
    exact h

theorem forall_mem_of_readFields {P : String × String → Prop} {lines : List (List Char)}
    (hlines : ∀ line ∈ lines, ∀ field, readField? line = some field → P field)
    {fields found : List (String × String)} (hfields : ∀ field ∈ fields, P field)
    (h : readFields fields lines = .ok found) : ∀ field ∈ found, P field := by
  induction lines generalizing fields with
  | nil =>
      rw [readFields, Except.ok.injEq] at h
      rwa [← h]
  | cons line lines ih =>
      rw [List.forall_mem_cons] at hlines
      rw [readFields] at h
      split at h
      next name type hfield =>
          refine ih hlines.2 (fun field hmem => ?_) h
          rcases mem_setField hmem with hmem | rfl
          · exact hfields field hmem
          · exact hlines.1 _ hfield
      next => exact absurd h (by simp)

theorem splitHeader_suffix (cs : List Char) : (splitHeader cs).2 <:+ cs := by
  rw [splitHeader]
  cases hsplit : Text.splitAt? ['\n'] cs with
  | none => exact List.nil_suffix
  | some parts => exact Text.suffix_of_splitAt? hsplit

theorem isOf_of_readChoice {span : Span} {cs : List Char} {kind : DirectiveKind}
    (h : readChoice span cs = .ok (some kind)) : kind.IsOf cs := by
  rw [readChoice] at h
  split at h
  · exact absurd h (by simp)
  next name rest hsplit =>
      obtain ⟨hname, hrest⟩ := splitName?_eq_some hsplit
      simp only at h
      split at h
      · split at h
        · exact absurd h (by simp)
        · exact absurd h (by simp)
        next fields hfields hread =>
            rw [Except.ok.injEq, Option.some.injEq] at h
            rw [← h]
            refine ⟨hname, forall_mem_of_readFields ?_ (by simp) hread⟩
            intro line hline field hfield
            obtain ⟨hfieldName, htype⟩ := readField?_eq_some hfield
            refine ⟨hfieldName, fun c hc => ?_⟩
            rw [List.mem_filter, List.mem_map] at hline
            obtain ⟨⟨whole, hwhole, rfl⟩, -⟩ := hline
            have hbody := Text.subset_of_mem_lines hwhole (Text.trim_subset whole (htype hc))
            exact ((splitHeader_suffix rest).trans hrest).subset hbody
      · exact absurd h (by simp)

theorem isOf_of_readKind {span : Span} {cs : List Char} {kind : DirectiveKind}
    (h : readKind span cs = .ok (some kind)) : kind.IsOf cs := by
  rw [readKind] at h
  split at h
  next rest hkeyword =>
      rw [Except.ok.injEq] at h
      exact (isOf_of_readSynonym? h).mono (afterKeyword?_suffix hkeyword).subset
  next =>
      split at h
      next rest hkeyword =>
          rw [Except.ok.injEq] at h
          exact (isOf_of_readInstances? h).mono (afterKeyword?_suffix hkeyword).subset
      next =>
          split at h
          next rest hkeyword =>
              exact (isOf_of_readChoice h).mono (afterKeyword?_suffix hkeyword).subset
          next => exact absurd h (by simp)

/-- A directive that is read consists of names and of characters of the comment. -/
theorem isOf_of_read {text : List Char} {span : Span} {d : Directive}
    (h : read text span = .ok (some d)) : d.kind.IsOf text := by
  rw [read] at h
  split at h
  · exact absurd h (by simp)
  next rest hafter =>
      have hrest : Text.trimLeft rest <:+ text :=
        ((Text.trimLeft_suffix rest).trans (Text.suffix_of_after? hafter)).trans
          (Text.trimLeft_suffix text)
      split at h
      · exact absurd h (by simp)
      next kind hkind =>
          rw [Except.ok.injEq, Option.map_eq_some_iff] at h
          obtain ⟨kind, rfl, rfl⟩ := h
          exact (isOf_of_readKind hkind).mono hrest.subset

end Directive

end Contracts
