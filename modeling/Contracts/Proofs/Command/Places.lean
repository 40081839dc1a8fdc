import Contracts.Command.Run
import Contracts.Proofs.Command.Trees
import Contracts.Proofs.Directive.Forms
import Contracts.Proofs.Instrument.Strictness
import Contracts.Proofs.Instrument.Unchanged
import Contracts.Proofs.Position.Agreement

/-!
# The places that are shown

Ranges are found in the text of a source, in bytes, and they are shown as places
in the file: as bytes in the list of directives, as characters in a diagnostic.

In a file without a byte order mark the two texts are the same. There the bytes
of an entry of the list are those of its comment, marks included, and a
diagnostic stands at the number of characters in front of the comment or of the
fault that it is about (`Command.places_of_file`). That no range starts within a
character is what the grammar is shown to keep (`ParsedScript.isEdge_of_read_error`).

A byte order mark is dropped from the text and remains in the file, so that all
ranges lie in front of their places by its width (`Command.not_lists_behind_mark`).
-/

namespace Contracts

namespace Text

theorem size_utf8Encode (cs : List Char) : cs.utf8Encode.size = byteLength cs := by
  induction cs with
  | nil => rfl
  | cons c cs ih =>
      rw [List.utf8Encode_cons, ByteArray.size_append, ih, List.utf8Encode_singleton,
        List.size_toByteArray, String.length_utf8EncodeChar, byteLength_cons]

/-- The bytes of a stretch of a text lie between the width of what is in front of it and the width
of all up to its end. -/
theorem extract_toUTF8 {contents : String} {before written after : List Char}
    (h : contents.toList = before ++ written ++ after) :
    contents.toUTF8.extract (byteLength before) (byteLength (before ++ written)) =
      (String.ofList written).toUTF8 := by
  have hbytes : contents.toUTF8 = before.utf8Encode ++ written.utf8Encode ++ after.utf8Encode := by
    rw [← String.ofList_toList (s := contents), h, String.toUTF8_eq_toByteArray,
      String.toByteArray_ofList, List.utf8Encode_append, List.utf8Encode_append]
  rw [hbytes, ← size_utf8Encode, ← size_utf8Encode, List.utf8Encode_append,
    ByteArray.extract_append_size_left, ByteArray.extract_append_eq_right rfl ByteArray.size_append,
    String.toUTF8_eq_toByteArray, String.toByteArray_ofList]

theorem takeBytes_prefix (before after : List Char) :
    takeBytes (byteLength before) (before ++ after) = before := by
  rw [takeBytes_append (Nat.le_refl _), Nat.sub_self]
  cases after with
  | nil => exact List.append_nil before
  | cons c after =>
      rw [takeBytes, if_neg (Nat.not_le.mpr c.utf8Size_pos), List.append_nil]

end Text

namespace Diagnostic

/-- The lines that tell about the character with a number of characters in front of it. -/
def renderAt (severity : Severity) (file : String) (contents : List Char) (message : String)
    (count : Nat) : List String :=
  let place := match placeFrom 0 0 count contents with
    | some (line, column) => toString (line + 1) ++ ":" ++ toString (column + 1)
    | none => "?:?"
  [severity.label ++ ": " ++ message, "╭─[" ++ file ++ ":" ++ place ++ "]"]

theorem characterOffset_prefix (before after : List Char) :
    characterOffset (before ++ after) (Text.byteLength before) = before.length := by
  have hboundary : Text.isBoundary (before ++ after) (Text.byteLength before) = true := by
    rw [Text.isBoundary, Text.takeBytes_prefix, beq_self_eq_true]
  rw [characterOffset, if_pos hboundary, Text.takeBytes_prefix]

/-- A range that starts right behind some characters is told about by their number. -/
theorem render_behind {before after : List Char} {range : ByteRange}
    (h : range.start = Text.byteLength before) (severity : Severity) (file message : String) :
    render severity file (before ++ after) message range =
      renderAt severity file (before ++ after) message before.length := by
  have hrender : render severity file (before ++ after) message range =
      renderAt severity file (before ++ after) message
        (characterOffset (before ++ after) range.start) := rfl
  rw [hrender, h, characterOffset_prefix]

end Diagnostic

namespace Source

/-- The byte order mark that a file starts with, if it does. -/
def mark (contents : String) : List Char :=
  if contents.toList.head? = some '\ufeff' then ['\ufeff'] else []

/-- The text of a source is the file without the byte order mark. -/
theorem mark_append_text (file contents : String) :
    mark contents ++ (ofContents file contents).text = contents.toList := by
  unfold ofContents
  split
  next cs hcs =>
      rw [mark, if_pos (by rw [hcs, List.head?_cons]), hcs]
      rfl
  next cs hcs =>
      have hhead : contents.toList.head? ≠ some '\ufeff' := by
        intro hhead
        obtain ⟨rest, hrest⟩ := List.head?_eq_some_iff.mp hhead
        exact hcs rest hrest
      rw [mark, if_neg hhead]
      rfl

theorem text_of_mark_eq_nil {contents : String} (h : mark contents = []) (file : String) :
    (ofContents file contents).text = contents.toList := by
  rw [← mark_append_text file contents, h, List.nil_append]

/-- What is wrong with a source is found at a fault that has a place in its text, and the error
starts there. -/
theorem exists_fault_of_parse {s : Source} {e : ParseError} (h : s.parse = .error e) :
    ∃ f before after, ParsedScript.read s.text = .error f ∧ s.text = before ++ after ∧
      f.span.lo = Text.byteLength before + 1 ∧ e.range.start = Text.byteLength before := by
  unfold parse at h
  split at h
  next => exact absurd h (by simp)
  next f hf =>
      obtain ⟨after, before, htext, hlo⟩ := ParsedScript.isEdge_of_read_error hf
      refine ⟨f, before, after, hf, htext, hlo, ?_⟩
      have hrange : e.range = s.range f.span := by
        obtain rfl := Except.error.inj h
        unfold ParseError.ofFault
        dsimp only
        split <;> rfl
      have hlength : s.length = Text.byteLength before + Text.byteLength after := by
        rw [s.length_eq, htext, Text.byteLength_append]
      rw [hrange, range, offset]
      simp only
      omega

end Source

/-- The text that is read from a path is what the bytes of the file there stand for. -/
theorem FileTree.bytes_of_read {t : FileTree} {path contents : String}
    (h : t.read path = .ok contents) :
    (t.find? (t.place path)).map File.bytes = some contents.toUTF8 := by
  obtain ⟨-, f, hf, htext⟩ := read_eq_ok_iff.mp h
  rw [hf]
  unfold String.fromUTF8? at htext
  split at htext
  next => exact congrArg some (congrArg String.toUTF8 (Option.some.inj htext))
  next => exact absurd htext (by simp)

namespace Command

/-- An entry of the list of directives is about a comment: it names the directive that the comment
is read as, and the bytes between its two offsets, moved by `shift`, are those of the comment, marks
included. -/
def Lists (bytes : ByteArray) (shift : Nat) (c : Comment) (entry : Json) : Prop :=
  ∃ d start stop members, Directive.ofComment? c = some d ∧ entry = .object members ∧
    members.lookup "directive" = some (.string d.kind.method) ∧
    members.lookup "name" = some (.string d.kind.name) ∧
    members.lookup "start" = some (.ofNat start) ∧ members.lookup "end" = some (.ofNat stop) ∧
    bytes.extract (start + shift) (stop + shift) =
      (String.ofList (c.kind.written c.text.toList)).toUTF8

/-- What is told about a malformed comment, and the number of characters in front of it. -/
structure Notice where
  message : String
  count : Nat
  deriving DecidableEq, Repr

namespace Notice

/-- The notice is about a comment that stands in the file behind as many characters as it says. -/
structure IsAbout (n : Notice) (contents : List Char) (c : Comment) : Prop where
  message : ∃ e, Directive.errorOf? c = some e ∧ n.message = e.message
  count : ∃ before after, contents = before ++ c.kind.written c.text.toList ++ after ∧
    n.count = before.length

/-- A warning for each of the notices. -/
def warnings (file : String) (contents : List Char) (notices : List Notice) : List String :=
  notices.flatMap fun n => Diagnostic.renderAt .warning file contents n.message n.count

/-- The lines about notices: warnings, or in a strict run an error for the first of them. -/
def lines (isStrict : Bool) (file : String) (contents : List Char) : List Notice → List String
  | [] => []
  | n :: ns =>
    if isStrict then Diagnostic.renderAt .error file contents n.message n.count
    else warnings file contents (n :: ns)

theorem lines_false (file : String) (contents : List Char) (notices : List Notice) :
    lines false file contents notices = warnings file contents notices := by
  cases notices <;> rfl

end Notice

section Places

variable {path contents : String} {p : Parsed}
  (hparse : (Source.ofContents path contents).parse = .ok p)

include hparse

/-- The range of a comment starts and ends where the comment does in the file, apart from the byte
order mark in front of it. -/
theorem covers_of_mem_comments {c : Comment} (hc : c ∈ p.comments) :
    ∃ before after, contents.toList =
        Source.mark contents ++ before ++ c.kind.written c.text.toList ++ after ∧
      (p.source.range c.span).start = Text.byteLength before ∧
      (p.source.range c.span).stop = Text.byteLength (before ++ c.kind.written c.text.toList) := by
  obtain ⟨hsource, hcovers, -⟩ := Source.comments_of_parse hparse
  obtain ⟨before, after, htext, hstart, hstop⟩ := Source.covers_range (hcovers c hc)
  rw [hsource]
  refine ⟨before, after, ?_, hstart, hstop⟩
  rw [← Source.mark_append_text path contents, htext]
  simp only [List.append_assoc]

theorem lists_listed {c : Comment} {d : Directive} (hc : c ∈ p.comments)
    (hd : Directive.ofComment? c = some d) :
    Lists contents.toUTF8 (Text.byteLength (Source.mark contents)) c (listed p.source d) := by
  have hspan : d.span = c.span :=
    (Directive.read_eq_some_cases (Directive.ofComment?_eq_some_iff.mp hd)).1
  obtain ⟨before, after, hcontents, hstart, hstop⟩ := covers_of_mem_comments hparse hc
  have hbytes := Text.extract_toUTF8 hcontents
  rw [Text.byteLength_append, Text.byteLength_append, Text.byteLength_append] at hbytes
  rw [Text.byteLength_append] at hstop
  refine ⟨d, (p.source.range d.span).start, (p.source.range d.span).stop, _, hd, rfl, rfl, rfl,
    ?_, ?_, ?_⟩
  · cases d.kind <;> rfl
  · cases d.kind <;> rfl
  · rw [hspan, hstart, hstop, ← hbytes]
    congr 1 <;> omega

/-- There is one entry for each comment that is a directive, and it is about this comment. -/
theorem forall₂_lists :
    List.Forall₂ (Lists contents.toUTF8 (Text.byteLength (Source.mark contents)))
      (p.comments.filter fun c => (Directive.ofComment? c).isSome)
      ((Directive.collect p.comments).directives.map (listed p.source)) := by
  rw [List.forall₂_map_right_iff, Directive.directives_collect]
  have hmem : ∀ c ∈ p.comments.filter fun c => (Directive.ofComment? c).isSome, c ∈ p.comments :=
    fun c hc => List.mem_of_mem_filter hc
  refine ((List.forall₂_and_left _ _).mpr ⟨hmem, forall₂_filterMap _ p.comments⟩).imp ?_
  rintro c d ⟨hc, hd⟩
  exact lists_listed hparse hc hd

end Places

/-- The notices about the malformed comments of a file. -/
def notices (contents : String) (p : Parsed) : List Notice :=
  (Directive.collect p.comments).errors.map fun e =>
    ⟨e.message, Diagnostic.characterOffset contents.toList (p.source.range e.span).start⟩

/-- In a file without a byte order mark there is one notice for each malformed comment, and it is
about this comment. -/
theorem forall₂_isAbout_notices {path contents : String} {p : Parsed}
    (hparse : (Source.ofContents path contents).parse = .ok p)
    (hmark : Source.mark contents = []) :
    List.Forall₂ (fun c n => n.IsAbout contents.toList c)
      (p.comments.filter (Directive.IsMalformed ·)) (notices contents p) := by
  have hmem : ∀ c ∈ p.comments.filter (Directive.IsMalformed ·), c ∈ p.comments :=
    fun c hc => List.mem_of_mem_filter hc
  rw [notices, List.forall₂_map_right_iff]
  refine ((List.forall₂_and_left _ _).mpr
    ⟨hmem, Directive.forall₂_errors_collect p.comments⟩).imp ?_
  rintro c e ⟨hc, he⟩
  obtain ⟨before, after, hcontents, hstart, -⟩ := covers_of_mem_comments hparse hc
  rw [hmark, List.nil_append] at hcontents
  have herror : Directive.errorOf? c = some e := Directive.errorOf?_eq_some_iff.mpr he
  have hspan : e.span = c.span := by
    obtain ⟨-, -, -, rfl⟩ := he
    rfl
  refine ⟨⟨e, herror, rfl⟩, before, after, hcontents, ?_⟩
  change Diagnostic.characterOffset contents.toList (p.source.range e.span).start = before.length
  rw [hspan, hstart, hcontents, List.append_assoc, Diagnostic.characterOffset_prefix]

theorem warnings_notices (path contents : String) (p : Parsed) :
    Notice.warnings path contents.toList (notices contents p) =
      (Directive.collect p.comments).errors.flatMap fun e =>
        Diagnostic.render .warning path contents.toList e.message (p.source.range e.span) :=
  List.flatMap_map ..

theorem runDirectives_of_parse {files : FileTree} {path contents : String} {p : Parsed}
    (hread : files.read path = .ok contents)
    (hparse : (Source.ofContents path contents).parse = .ok p) (r : Request) :
    runDirectives r files path =
      ⟨0, (Json.array ((Directive.collect p.comments).directives.map (listed p.source))).pretty 0 ++
          "\n",
        logLines r ((Directive.collect p.comments).unrecognized.map .unrecognized) ++
          Notice.warnings path contents.toList (notices contents p), files⟩ := by
  rw [runDirectives, withParsed, hread]
  simp only [hparse, warnings_notices]

theorem report_of_parse {input : Input} {contents : String} {p : Parsed}
    (hparse : (Source.ofContents input.path contents).parse = .ok p) (config : Config) :
    Progress.report input contents (Work.onFile config contents input.path).result =
      Notice.lines config.strictDirectives input.path contents.toList (notices contents p) := by
  have hwork : (Work.onFile config contents input.path).result =
      (Work.ofParsed config p (Directive.collect p.comments)).result := by
    rw [Work.onFile, hparse]
  rw [hwork]
  cases hstrict : config.strictDirectives with
  | false =>
      rw [(Work.ofParsed_printed p fun h => absurd (hstrict ▸ h) (by simp)).1, Notice.lines_false,
        warnings_notices]
      exact List.flatMap_map ..
  | true =>
      cases herrors : (Directive.collect p.comments).errors with
      | nil =>
          rw [(Work.ofParsed_printed p fun _ => herrors).1, notices, herrors]
          rfl
      | cons e es =>
          rw [(Work.ofParsed_strict hstrict p herrors).1, notices, herrors]
          rfl

/-- What cannot be parsed is told about in the same way by all commands. -/
theorem told_of_error {files : FileTree} {input : Input} {contents : String} {e : ParseError}
    (hread : files.read input.path = .ok contents)
    (hparse : (Source.ofContents input.path contents).parse = .error e) (config : Config) :
    let lines := Diagnostic.render .error input.path contents.toList e.message e.range
    Progress.report input contents (Work.onFile config contents input.path).result = lines ∧
      ∀ k, (withParsed files input.path k).messages = lines := by
  constructor
  · rw [Work.onFile, hparse]
    rfl
  · intro k
    rw [withParsed, hread]
    simp only [hparse, failed]

/-- In a file that is read, the bytes of an entry of the list of directives, moved by the width of a
byte order mark, are those of its comment. If there is no such mark, a diagnostic about a malformed
comment stands at the number of characters in front of the comment, and one about what cannot be
parsed at the number of characters in front of the fault. -/
theorem places_of_file (r : Request) (files : FileTree) (config : Config) (input : Input)
    (contents : String) (hread : files.read input.path = .ok contents) :
    let parsed := (Source.ofContents input.path contents).parse
    let listing := runDirectives r files input.path
    let told := Progress.report input contents (Work.onFile config contents input.path).result
    (∀ p, parsed = .ok p →
      ∃ bytes entries, (files.find? (files.place input.path)).map File.bytes = some bytes ∧
        listing.output = (Json.array entries).pretty 0 ++ "\n" ∧
        List.Forall₂ (Lists bytes (Text.byteLength (Source.mark contents)))
          (p.comments.filter fun c => (Directive.ofComment? c).isSome) entries) ∧
    (Source.mark contents = [] →
      (∀ p, parsed = .ok p →
        ∃ ns, List.Forall₂ (fun c n => n.IsAbout contents.toList c)
            (p.comments.filter (Directive.IsMalformed ·)) ns ∧
          told = Notice.lines config.strictDirectives input.path contents.toList ns ∧
          listing.messages =
            logLines r ((Directive.collect p.comments).unrecognized.map .unrecognized) ++
              Notice.warnings input.path contents.toList ns) ∧
      ∀ e, parsed = .error e →
        ∃ f before after, ParsedScript.read contents.toList = .error f ∧
          contents.toList = before ++ after ∧ f.span.lo = Text.byteLength before + 1 ∧
          told = Diagnostic.renderAt .error input.path contents.toList e.message before.length ∧
          listing.messages = told ∧
          ∀ pretty, (runParse files input.path pretty).messages = told) := by
  intro parsed listing told
  refine ⟨fun p hparse => ?_, fun hmark => ⟨fun p hparse => ?_, fun e hparse => ?_⟩⟩
  · refine ⟨_, _, FileTree.bytes_of_read hread, ?_, forall₂_lists hparse⟩
    exact congrArg Outcome.output (runDirectives_of_parse hread hparse r)
  · refine ⟨_, forall₂_isAbout_notices hparse hmark, report_of_parse hparse config, ?_⟩
    exact congrArg Outcome.messages (runDirectives_of_parse hread hparse r)
  · obtain ⟨f, before, after, hf, htext, hlo, hstart⟩ := Source.exists_fault_of_parse hparse
    obtain ⟨htold, hmessages⟩ := told_of_error hread hparse config
    rw [Source.text_of_mark_eq_nil hmark] at hf htext
    have hlines : told =
        Diagnostic.renderAt .error input.path contents.toList e.message before.length := by
      rw [htext, ← Diagnostic.render_behind hstart, ← htext]
      exact htold
    refine ⟨f, before, after, hf, htext, hlo, hlines, ?_, fun pretty => ?_⟩
    · exact (hmessages _).trans htold.symm
    · exact (hmessages _).trans htold.symm

/-- A directive and a malformed choice, both behind characters that are wider than one byte. -/
theorem places_of_file_accented :
    let contents := "/*é*/ //typify: instance A\n'é' /*typify: adt B\nc*/"
    let t : FileTree := ⟨[], [], [⟨["a.js"], contents.toUTF8⟩]⟩
    let input : Input := ⟨"a.js", "a.js"⟩
    let r : Request := ⟨0, false, .directives "a.js"⟩
    t.read "a.js" = .ok contents ∧ Source.mark contents = [] ∧
      ∃ (c d : Comment) (entry : Json) (n : Notice),
        c.text = "typify: instance A" ∧ d.text = "typify: adt B\nc" ∧
        (runDirectives r t "a.js").output = (Json.array [entry]).pretty 0 ++ "\n" ∧
        Lists contents.toUTF8 0 c entry ∧ n.IsAbout contents.toList d ∧
        Progress.report input contents (Work.onFile .default contents "a.js").result =
          Diagnostic.renderAt .warning "a.js" contents.toList n.message n.count := by
  intro contents t input r
  have hread : t.read "a.js" = .ok contents := by decide +kernel
  have hmark : Source.mark contents = [] := by decide +kernel
  have htest : ((Source.ofContents "a.js" contents).parse.toOption.any fun p =>
      (p.comments.filter fun c => (Directive.ofComment? c).isSome).map Comment.text ==
          ["typify: instance A"] &&
        (p.comments.filter (Directive.IsMalformed ·)).map Comment.text ==
          ["typify: adt B\nc"]) = true := by
    decide +kernel
  obtain ⟨p, hparse, hcomments⟩ := Source.exists_parse_eq_ok htest
  rw [Bool.and_eq_true, beq_iff_eq, beq_iff_eq] at hcomments
  obtain ⟨c, hc, hctext⟩ := List.map_eq_singleton_iff.mp hcomments.1
  obtain ⟨d, hd, hdtext⟩ := List.map_eq_singleton_iff.mp hcomments.2
  obtain ⟨hlisted, htold⟩ := places_of_file r t .default input contents hread
  obtain ⟨bytes, entries, hbytes, houtput, hentries⟩ := hlisted p hparse
  obtain ⟨ns, hns, hlines, -⟩ := (htold hmark).1 p hparse
  rw [FileTree.bytes_of_read hread, Option.some.injEq] at hbytes
  subst hbytes
  rw [hc, hmark] at hentries
  rw [hd] at hns
  obtain ⟨entry, _, hentry, hnil, rfl⟩ := List.forall₂_cons_left_iff.mp hentries
  obtain ⟨n, _, hn, hnil', rfl⟩ := List.forall₂_cons_left_iff.mp hns
  rw [List.forall₂_nil_left_iff.mp hnil] at houtput
  rw [List.forall₂_nil_left_iff.mp hnil'] at hlines
  refine ⟨hread, hmark, c, d, entry, n, hctext, hdtext, houtput, hentry, hn, ?_⟩
  exact hlines.trans (List.append_nil _)

/-- Behind a byte order mark the bytes that an entry tells are not those of its comment. -/
theorem not_lists_behind_mark :
    let contents := "\ufeff//typify: instance A"
    let t : FileTree := ⟨[], [], [⟨["a.js"], contents.toUTF8⟩]⟩
    let r : Request := ⟨0, false, .directives "a.js"⟩
    let entry : Json := .object [("directive", .string "instance"), ("name", .string "A"),
      ("start", .ofNat 0), ("end", .ofNat 20)]
    t.read "a.js" = .ok contents ∧
      (runDirectives r t "a.js").output = (Json.array [entry]).pretty 0 ++ "\n" ∧
      contents.toUTF8.extract 0 20 ≠ "//typify: instance A".toUTF8 ∧
      contents.toUTF8.extract 3 23 = "//typify: instance A".toUTF8 := by
  decide +kernel

end Command

end Contracts
