import Contracts.Proofs.Directive.Malformed
import Contracts.Proofs.Instrument.Accumulation
import Contracts.Proofs.Syntax.Statements

/-!
# Strict and lenient sessions

A session that is not strict tells about the malformed directives of a file and
goes on without them; one that is strict gives up the file at the first of them.
On a file that is read the two differ in nothing else
(`Session.strict_fails_iff_warnings`): what the strict one gives is what the lenient one
gives, unless that comes with warnings.

The warnings are one for each comment that is a malformed choice, in the order of
the file. Each of them carries the bytes of its comment, which are those where
the comment stands, its marks included.
-/

namespace Contracts

/-- The bytes of a stretch of the text lie where the range says, and they are these. -/
def ByteRange.Covers (r : ByteRange) (source written : List Char) : Prop :=
  ∃ before after, source = before ++ written ++ after ∧ r.start = Text.byteLength before ∧
    r.stop = Text.byteLength (before ++ written)

theorem ByteRange.Covers.start_lt_stop {r : ByteRange} {source written : List Char}
    (h : r.Covers source written) (hwritten : 0 < Text.byteLength written) : r.start < r.stop := by
  obtain ⟨before, after, -, hstart, hstop⟩ := h
  rw [Text.byteLength_append] at hstop
  omega

theorem CommentKind.byteLength_written_pos (kind : CommentKind) (text : List Char) :
    0 < Text.byteLength (kind.written text) := by
  cases kind with
  | line => exact Nat.add_pos_left (by decide) _
  | block => exact Nat.add_pos_left (by decide) _

namespace Source

variable {s : Source} {span : Span} {written : List Char}

/-- Nothing is cut off from the range of what stands in the text. -/
theorem range_eq_of_covers (h : span.Covers s.text written) :
    s.range span = ⟨span.lo - 1, span.hi - 1⟩ := by
  obtain ⟨after, ⟨before, htext, hlo⟩, hhi⟩ := h
  have hlength : s.length =
      Text.byteLength before + (Text.byteLength written + Text.byteLength after) := by
    rw [s.length_eq, htext, Text.byteLength_append, Text.byteLength_append]
  simp only [range, offset, ByteRange.mk.injEq]
  omega

theorem covers_range (h : span.Covers s.text written) :
    (s.range span).Covers s.text written := by
  rw [range_eq_of_covers h]
  obtain ⟨after, ⟨before, htext, hlo⟩, hhi⟩ := h
  refine ⟨before, after, by rw [htext, List.append_assoc], ?_, ?_⟩
  · simp only
    omega
  · rw [Text.byteLength_append]
    simp only
    omega

end Source

/-- What a partial function makes of a list goes with the members that it is defined at. -/
theorem forall₂_filterMap {α β : Type} (f : α → Option β) (l : List α) :
    List.Forall₂ (fun a b => f a = some b) (l.filter fun a => (f a).isSome) (l.filterMap f) := by
  induction l with
  | nil => exact .nil
  | cons a l ih =>
      cases ha : f a with
      | none => simpa [List.filter_cons, List.filterMap_cons, ha] using ih
      | some b => simpa [List.filter_cons, List.filterMap_cons, ha] using ih

namespace Directive

/-- The comment is a malformed choice. -/
def IsMalformed (c : Comment) : Prop :=
  ∃ name line, MalformedChoice c.text.toList name line

/-- The error that a comment is read with. -/
def errorOf? (c : Comment) : Option DirectiveError :=
  match read c.text.toList c.span with
  | .error e => some e
  | .ok _ => none

theorem errorOf?_eq_some_iff {c : Comment} {e : DirectiveError} :
    errorOf? c = some e ↔
      ∃ name line, MalformedChoice c.text.toList name line ∧
        e = .malformedField (String.ofList name) (String.ofList line) c.span := by
  rw [← read_eq_error_iff, errorOf?]
  cases read c.text.toList c.span <;> simp

theorem isSome_errorOf?_iff {c : Comment} : (errorOf? c).isSome ↔ IsMalformed c := by
  simp only [Option.isSome_iff_exists, errorOf?_eq_some_iff, IsMalformed]
  constructor
  · rintro ⟨e, name, line, h, -⟩
    exact ⟨name, line, h⟩
  · rintro ⟨name, line, h⟩
    exact ⟨_, name, line, h, rfl⟩

instance : DecidablePred IsMalformed :=
  fun _ => decidable_of_iff _ isSome_errorOf?_iff

theorem errors_add (found : Collected) (c : Comment) :
    (found.add c).errors = found.errors ++ (errorOf? c).toList := by
  rw [Collected.add, errorOf?]
  split
  next =>
      split <;> simp_all
  next h =>
      have hplain : read c.text.toList c.span = .ok none := by
        rw [isAddressed, Option.not_isSome_iff_eq_none] at h
        rw [read, h]
      rw [hplain]
      simp

theorem errors_foldl_add (cs : List Comment) (found : Collected) :
    (cs.foldl Collected.add found).errors = found.errors ++ cs.filterMap errorOf? := by
  induction cs generalizing found with
  | nil => simp
  | cons c cs ih =>
      rw [List.foldl_cons, ih, errors_add, List.append_assoc, List.filterMap_cons]
      cases errorOf? c <;> rfl

theorem errors_collect (cs : List Comment) : (collect cs).errors = cs.filterMap errorOf? :=
  errors_foldl_add cs .empty

/-- There is one error for each malformed comment, and it tells about this comment. -/
theorem forall₂_errors_collect (cs : List Comment) :
    List.Forall₂ (fun c e => ∃ name line, MalformedChoice c.text.toList name line ∧
        e = .malformedField (String.ofList name) (String.ofList line) c.span)
      (cs.filter (IsMalformed ·)) (collect cs).errors := by
  have hfilter : cs.filter (IsMalformed ·) = cs.filter fun c => (errorOf? c).isSome :=
    List.filter_congr fun c _ => by simp only [← isSome_errorOf?_iff, Bool.decide_eq_true]
  rw [errors_collect, hfilter]
  exact (forall₂_filterMap errorOf? cs).imp fun c e he => errorOf?_eq_some_iff.mp he

end Directive

/-- The warning is about a comment of a file: it tells which line of the malformed choice is no
field, and its range is where the comment stands. -/
structure SkippedDirective.IsAbout (w : SkippedDirective) (s : Source) (c : Comment) : Prop where
  error : ∃ name line, Directive.MalformedChoice c.text.toList name line ∧
    w.error = .malformedField (String.ofList name) (String.ofList line) c.span
  range : w.range.Covers s.text (c.kind.written c.text.toList)
  start_lt_stop : w.range.start < w.range.stop
  stop_le_length : w.range.stop ≤ s.length

namespace Work

/-- The warnings about the malformed comments of a file. -/
def warnings (p : Parsed) : List SkippedDirective :=
  (Directive.collect p.comments).errors.map fun e => ⟨e, p.source.range e.span⟩

/-- The result for a file that is not given up. -/
def printed (config : Config) (p : Parsed) : Instrumented :=
  let script := (transform config p (Directive.collect p.comments).directives).1
  let g := script.generate p.source p.comments ⟨false, config.sourceMap⟩
  ⟨g.code, g.map, g.sourceMap, warnings p⟩

theorem forall₂_isAbout_warnings {s : Source} {p : Parsed} (h : s.parse = .ok p) :
    List.Forall₂ (fun c w => w.IsAbout s c) (p.comments.filter (Directive.IsMalformed ·))
      (warnings p) := by
  obtain ⟨rfl, hcovers, -⟩ := Source.comments_of_parse h
  have herrors := Directive.forall₂_errors_collect p.comments
  rw [warnings, List.forall₂_map_right_iff]
  have hplaced : ∀ c ∈ p.comments.filter (Directive.IsMalformed ·),
      c.span.Covers p.source.text (c.kind.written c.text.toList) :=
    fun c hc => hcovers c (List.mem_of_mem_filter hc)
  refine ((List.forall₂_and_left _ _).mpr ⟨hplaced, herrors⟩).imp ?_
  rintro c e ⟨hc, name, line, hform, rfl⟩
  have hrange := Source.covers_range hc
  exact ⟨⟨name, line, hform, rfl⟩, hrange, hrange.start_lt_stop (c.kind.byteLength_written_pos _),
    Source.range_stop_le_length _ _⟩

theorem pairwise_warnings {s : Source} {p : Parsed} (h : s.parse = .ok p) :
    (warnings p).Pairwise fun v w => v.range.stop ≤ w.range.start := by
  obtain ⟨rfl, hcovers, horder⟩ := Source.comments_of_parse h
  rw [warnings, List.pairwise_map, Directive.errors_collect, List.pairwise_filterMap]
  refine horder.imp_of_mem fun {a b} ha hb hab e he e' he' => ?_
  obtain ⟨-, -, -, rfl⟩ := Directive.errorOf?_eq_some_iff.mp he
  obtain ⟨-, -, -, rfl⟩ := Directive.errorOf?_eq_some_iff.mp he'
  change (p.source.range a.span).stop ≤ (p.source.range b.span).start
  rw [Source.range_eq_of_covers (hcovers a ha), Source.range_eq_of_covers (hcovers b hb)]
  exact Nat.sub_le_sub_right hab 1

end Work

namespace Session

section Modes

variable (config : Config) (stats : Stats) {contents file : String} {p : Parsed}
  (hparse : (Source.ofContents file contents).parse = .ok p)

include hparse

theorem instrument_of_parse :
    let work := Work.ofParsed config p (Directive.collect p.comments)
    (⟨config, stats⟩ : Session).instrument contents file =
      (work.result, ⟨config, stats.addSites work.sites⟩) := by
  rw [instrument, Work.onFile, hparse]

/-- What a session gives for a file that it does not give up, whether it is strict or not. -/
theorem instrument_printed (isStrict : Bool) (h : isStrict = true → Work.warnings p = []) :
    (⟨{ config with strictDirectives := isStrict }, stats⟩ : Session).instrument contents file =
      (.ok (Work.printed config p), ⟨{ config with strictDirectives := isStrict },
        stats.addSites (Work.transform config p (Directive.collect p.comments).directives).2⟩) := by
  have hfound : ({ config with strictDirectives := isStrict } : Config).strictDirectives = true →
      (Directive.collect p.comments).errors = [] :=
    fun hstrict => List.map_eq_nil_iff.mp (h hstrict)
  obtain ⟨hresult, hsites⟩ := Work.ofParsed_printed p hfound
  rw [instrument_of_parse _ _ hparse, hresult, hsites]
  rfl

theorem instrument_strict {w : SkippedDirective} {ws : List SkippedDirective}
    (h : Work.warnings p = w :: ws) :
    ((⟨{ config with strictDirectives := true }, stats⟩ : Session).instrument contents file).1 =
      .error (.directive w.error w.range) := by
  obtain ⟨e, es, herrors, rfl, rfl⟩ := List.map_eq_cons_iff.mp h
  rw [instrument_of_parse _ _ hparse]
  exact (Work.ofParsed_strict rfl p herrors).1

end Modes

/-- On a file that is read, a strict session fails exactly if a lenient one gives warnings, and then
with the first of them; otherwise the two give the same result and count the same. The warnings are
one for each comment of the file that is a malformed choice, in the order of the file. -/
theorem strict_fails_iff_warnings (config : Config) (stats : Stats) (contents file : String)
    (p : Parsed) (hparse : (Source.ofContents file contents).parse = .ok p) :
    let lenient := (⟨{ config with strictDirectives := false }, stats⟩ : Session).instrument
      contents file
    let strict := (⟨{ config with strictDirectives := true }, stats⟩ : Session).instrument
      contents file
    ∃ out, lenient.1 = .ok out ∧
      ((∃ e, strict.1 = .error e) ↔ out.warnings ≠ []) ∧
      (∀ w ws, out.warnings = w :: ws → strict.1 = .error (.directive w.error w.range)) ∧
      (out.warnings = [] → strict.1 = .ok out ∧ strict.2.stats = lenient.2.stats) ∧
      List.Forall₂ (fun c w => w.IsAbout (Source.ofContents file contents) c)
        (p.comments.filter (Directive.IsMalformed ·)) out.warnings ∧
      out.warnings.Pairwise fun v w => v.range.stop ≤ w.range.start := by
  intro lenient strict
  have hlenient := instrument_printed config stats hparse false (by simp)
  refine ⟨Work.printed config p, congrArg Prod.fst hlenient, ?_, ?_, ?_,
    Work.forall₂_isAbout_warnings hparse, Work.pairwise_warnings hparse⟩
  · constructor
    · rintro ⟨e, he⟩ hwarnings
      have hprinted := instrument_printed config stats hparse true fun _ => hwarnings
      exact absurd ((congrArg Prod.fst hprinted).symm.trans he) (by simp)
    · intro hwarnings
      obtain ⟨w, ws, hfirst⟩ := List.exists_cons_of_ne_nil hwarnings
      exact ⟨_, instrument_strict config stats hparse hfirst⟩
  · intro w ws hfirst
    exact instrument_strict config stats hparse hfirst
  · intro hwarnings
    have hprinted := instrument_printed config stats hparse true fun _ => hwarnings
    refine ⟨congrArg Prod.fst hprinted, ?_⟩
    simp only [lenient, strict, hprinted, hlenient]

/-- Two malformed choices behind a comment that is none. -/
theorem strict_fails_iff_warnings_first :
    let contents := "//c\n/*typify: adt A\nb*//*typify:adt B\nc:*/"
    let strict := (⟨{ Config.default with strictDirectives := true }, .zero⟩ : Session).instrument
      contents "a.js"
    ∃ p, (Source.ofContents "a.js" contents).parse = .ok p ∧
      strict.1 = .error (.directive (.malformedField "A" "b" ⟨5, 24⟩) ⟨4, 23⟩) := by
  intro contents strict
  have hread : ((Source.ofContents "a.js" contents).parse.toOption.any fun p =>
      Work.warnings p == [⟨.malformedField "A" "b" ⟨5, 24⟩, ⟨4, 23⟩⟩,
        ⟨.malformedField "B" "c:" ⟨24, 43⟩, ⟨23, 42⟩⟩]) = true := by
    decide +kernel
  obtain ⟨p, hparse, htest⟩ := Source.exists_parse_eq_ok hread
  obtain ⟨out, hout, -, hfirst, -⟩ :=
    strict_fails_iff_warnings .default .zero contents "a.js" p hparse
  have hlenient := instrument_printed .default .zero hparse false (by simp)
  obtain rfl := Except.ok.inj (hout.symm.trans (congrArg Prod.fst hlenient))
  exact ⟨p, hparse, hfirst _ _ (beq_iff_eq.mp htest)⟩

end Session

end Contracts
