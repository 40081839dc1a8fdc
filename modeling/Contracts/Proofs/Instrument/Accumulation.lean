import Contracts.Instrument.Basic
import Contracts.Proofs.Wrap.Counting
import Mathlib.Algebra.BigOperators.Group.List.Basic
import Mathlib.Data.List.Induction

/-!
# The statistics of a session add up

A session is used by one call after the other. What a call gives depends on the
configuration and on the file only, and a call that fails has met no function
(`Work.sites_of_error`). So each call that succeeds adds what it would count in a
new session, each call that fails adds nothing, and the sum does not depend on
the order of the calls (`Session.stats_after`).

Statistics only come about by recording, one function after the other, and
`Stats.ofRecords` lists what was recorded. Whatever that is, no more functions
have a signature than were met.
-/

namespace Contracts

namespace Stats

/-- The statistics in which these functions were recorded, with or without a signature. -/
def ofRecords (records : List (SiteKind × Bool)) : Stats :=
  records.foldl (fun stats r => stats.record r.1 r.2) .zero

theorem addSites_ofRecords (records : List (SiteKind × Bool)) (sites : List Site) :
    (ofRecords records).addSites sites = ofRecords (records ++ sites.map Site.outcome) := by
  rw [ofRecords, ofRecords, List.foldl_append, List.foldl_map]
  rfl

theorem matched_le_total_record {stats : Stats}
    (h : ∀ kind, (stats.get kind).matched ≤ (stats.get kind).total) (found : SiteKind)
    (isMatched : Bool) (kind : SiteKind) :
    ((stats.record found isMatched).get kind).matched ≤
      ((stats.record found isMatched).get kind).total := by
  have hkind := h kind
  rw [get_record]
  split
  next =>
      rw [Tally.record]
      cases isMatched with
      | false => exact Nat.le_succ_of_le hkind
      | true => exact Nat.succ_le_succ hkind
  next => exact hkind

theorem matched_le_total_ofRecords (records : List (SiteKind × Bool)) (kind : SiteKind) :
    ((ofRecords records).get kind).matched ≤ ((ofRecords records).get kind).total := by
  induction records using List.reverseRecOn generalizing kind with
  | nil => cases kind <;> exact Nat.le_refl 0
  | append_singleton records r ih =>
      rw [ofRecords, List.foldl_append]
      exact matched_le_total_record ih r.1 r.2 kind

section Adding

variable (stats : Stats) (sites : List Site) (kind : SiteKind)

theorem get_zero : Stats.zero.get kind = ⟨0, 0⟩ := by
  cases kind <;> rfl

/-- What sites add to a counter does not depend on where it stands. -/
theorem matched_addSites :
    ((stats.addSites sites).get kind).matched =
      (stats.get kind).matched + ((Stats.zero.addSites sites).get kind).matched := by
  simp only [get_addSites, get_zero, Nat.zero_add]

theorem total_addSites :
    ((stats.addSites sites).get kind).total =
      (stats.get kind).total + ((Stats.zero.addSites sites).get kind).total := by
  simp only [get_addSites, get_zero, Nat.zero_add]

end Adding

end Stats

namespace Work

/-- A malformed directive fails a file in strict mode, and the first one is told about. -/
theorem ofParsed_strict {config : Config} (h : config.strictDirectives = true) (p : Parsed)
    {found : Directive.Collected} {e : DirectiveError} {es : List DirectiveError}
    (herrors : found.errors = e :: es) :
    (ofParsed config p found).result = .error (.directive e (p.source.range e.span)) ∧
      (ofParsed config p found).sites = [] := by
  simp only [ofParsed, h, herrors, List.map_cons, and_self]

/-- Otherwise the tree that comes out of the two passes is printed. -/
theorem ofParsed_printed {config : Config} (p : Parsed) {found : Directive.Collected}
    (h : config.strictDirectives = true → found.errors = []) :
    let made := transform config p found.directives
    let printed := made.1.generate p.source p.comments ⟨false, config.sourceMap⟩
    (ofParsed config p found).result = .ok ⟨printed.code, printed.map, printed.sourceMap,
        found.errors.map fun e => ⟨e, p.source.range e.span⟩⟩ ∧
      (ofParsed config p found).sites = made.2 := by
  intro made printed
  unfold ofParsed
  cases hstrict : config.strictDirectives with
  | false => exact ⟨rfl, rfl⟩
  | true =>
      rw [h hstrict]
      exact ⟨rfl, rfl⟩

/-- A file is given up before a function is met, or there is nothing in it to give it up for. -/
theorem ofParsed_cases (config : Config) (p : Parsed) (found : Directive.Collected) :
    (∃ e, (ofParsed config p found).result = .error e ∧ (ofParsed config p found).sites = []) ∨
      (config.strictDirectives = true → found.errors = []) := by
  by_cases hprinted : config.strictDirectives = true → found.errors = []
  · exact .inr hprinted
  · rw [Classical.not_imp] at hprinted
    obtain ⟨hstrict, herrors⟩ := hprinted
    obtain ⟨first, rest, hfirst⟩ := List.exists_cons_of_ne_nil herrors
    exact .inl ⟨_, ofParsed_strict hstrict p hfirst⟩

theorem sites_ofParsed_of_error {config : Config} {p : Parsed} {found : Directive.Collected}
    {e : InstrumentError} (h : (ofParsed config p found).result = .error e) :
    (ofParsed config p found).sites = [] := by
  obtain ⟨e, -, hsites⟩ | hprinted := ofParsed_cases config p found
  · exact hsites
  · rw [(ofParsed_printed p hprinted).1] at h
    exact absurd h (by simp)

/-- Work that fails has met no function. -/
theorem sites_of_error {config : Config} {contents file : String} {e : InstrumentError}
    (h : (onFile config contents file).result = .error e) :
    (onFile config contents file).sites = [] := by
  unfold onFile at h ⊢
  cases hparse : (Source.ofContents file contents).parse with
  | error fault => rfl
  | ok p =>
      rw [hparse] at h
      exact sites_ofParsed_of_error h

end Work

namespace Session

/-- One use of a session. -/
inductive Call where
  | instrument (contents file : String)
  | transform (contents file : String)
  deriving DecidableEq, Repr

/-- The work that a call makes. -/
def Call.work (config : Config) : Call → Work
  | .instrument contents file | .transform contents file => Work.onFile config contents file

/-- Make a call: whether it succeeds, and the session after it. -/
def perform (s : Session) : Call → Bool × Session
  | .instrument contents file =>
    let (result, after) := s.instrument contents file
    (result.isOk, after)
  | .transform contents file =>
    let (result, after) := s.transform contents file
    (result.isOk, after)

/-- The session after calls. -/
def after (s : Session) (calls : List Call) : Session :=
  calls.foldl (fun s call => (s.perform call).2) s

/-- The calls of a sequence that succeed, each of them made where it stands. -/
def successes (s : Session) : List Call → List Call
  | [] => []
  | call :: calls =>
    let (succeeded, next) := s.perform call
    if succeeded then call :: next.successes calls else next.successes calls

/-- What a call counts in a new session. -/
def countedAlone (config : Config) (call : Call) : Stats :=
  ((start config).perform call).2.stats

section OneCall

variable (s : Session) (call : Call)

theorem perform_fst : (s.perform call).1 = (call.work s.config).result.isOk := by
  cases call with
  | instrument contents file => rfl
  | transform contents file =>
      change (((Work.onFile s.config contents file).result.map Instrumented.code).isOk) = _
      rw [Call.work]
      cases (Work.onFile s.config contents file).result <;> rfl

theorem perform_snd :
    (s.perform call).2 = { s with stats := s.stats.addSites (call.work s.config).sites } := by
  cases call <;> rfl

/-- A call that fails leaves the session as it is. -/
theorem perform_of_failed {s : Session} {call : Call} (h : (s.perform call).1 = false) :
    (s.perform call).2 = s := by
  rw [perform_fst] at h
  have hsites : (call.work s.config).sites = [] := by
    cases hresult : (call.work s.config).result with
    | ok out => exact absurd h (by simp [hresult, Except.isOk, Except.toBool])
    | error e => cases call <;> exact Work.sites_of_error hresult
  rw [perform_snd, hsites]
  rfl

theorem countedAlone_eq (config : Config) :
    countedAlone config call = Stats.zero.addSites (call.work config).sites := by
  rw [countedAlone, perform_snd]
  rfl

end OneCall

/-- Only the configuration decides which calls succeed. -/
theorem successes_eq_filter (s : Session) (calls : List Call) :
    s.successes calls = calls.filter fun call => (call.work s.config).result.isOk := by
  induction calls generalizing s with
  | nil => rfl
  | cons call calls ih =>
      have hconfig : (s.perform call).2.config = s.config := by rw [perform_snd]
      simp only [successes, List.filter_cons, ih, hconfig, perform_fst]

theorem get_stats_after (s : Session) (calls : List Call) (kind : SiteKind) :
    ((s.after calls).stats.get kind).matched = (s.stats.get kind).matched +
        ((s.successes calls).map fun call => ((countedAlone s.config call).get kind).matched).sum ∧
      ((s.after calls).stats.get kind).total = (s.stats.get kind).total +
        ((s.successes calls).map fun call =>
          ((countedAlone s.config call).get kind).total).sum := by
  induction calls generalizing s with
  | nil => exact ⟨rfl, rfl⟩
  | cons call calls ih =>
      have hconfig : (s.perform call).2.config = s.config := by rw [perform_snd]
      have hrest := ih (s.perform call).2
      rw [hconfig] at hrest
      rw [after, List.foldl_cons, successes]
      cases hcall : (s.perform call).1 with
      | false =>
          rw [perform_of_failed hcall] at hrest
          simpa [hcall, perform_of_failed hcall, after] using hrest
      | true =>
          have hstats : (s.perform call).2.stats =
              s.stats.addSites (call.work s.config).sites := by rw [perform_snd]
          rw [hstats, Stats.matched_addSites, Stats.total_addSites, ← countedAlone_eq] at hrest
          simp only [hcall, if_true, List.map_cons, List.sum_cons, ← Nat.add_assoc]
          exact hrest

theorem stats_after_perm (s : Session) {calls calls' : List Call} (h : calls.Perm calls') :
    (s.after calls).stats = (s.after calls').stats := by
  have hsuccesses : (s.successes calls).Perm (s.successes calls') := by
    rw [successes_eq_filter, successes_eq_filter]
    exact h.filter _
  refine Stats.eq_of_get_eq fun kind => ?_
  obtain ⟨hmatched, htotal⟩ := s.get_stats_after calls kind
  obtain ⟨hmatched', htotal'⟩ := s.get_stats_after calls' kind
  rw [(hsuccesses.map _).sum_eq, ← hmatched'] at hmatched
  rw [(hsuccesses.map _).sum_eq, ← htotal'] at htotal
  exact congrArg₂ Tally.mk hmatched htotal

theorem exists_stats_after_eq_ofRecords {s : Session} {records : List (SiteKind × Bool)}
    (h : s.stats = .ofRecords records) (calls : List Call) :
    ∃ records', (s.after calls).stats = .ofRecords records' := by
  induction calls generalizing s records with
  | nil => exact ⟨records, h⟩
  | cons call calls ih =>
      refine @ih (s.perform call).2 (records ++ (call.work s.config).sites.map Site.outcome) ?_
      rw [perform_snd, h]
      exact Stats.addSites_ofRecords records _

/-- After any calls, each counter of a session is higher by the sum of what the calls that
have succeeded count in a new session. A call that fails leaves the session as it is, and the
order of the calls does not matter. At any point, also within a call, no counter of matched
functions is higher than the one of all functions. -/
theorem stats_after (config : Config) (records : List (SiteKind × Bool)) (calls : List Call) :
    let s : Session := ⟨config, .ofRecords records⟩
    (∀ kind,
      ((s.after calls).stats.get kind).matched = (s.stats.get kind).matched +
          ((s.successes calls).map fun call => ((countedAlone config call).get kind).matched).sum ∧
        ((s.after calls).stats.get kind).total = (s.stats.get kind).total +
          ((s.successes calls).map fun call => ((countedAlone config call).get kind).total).sum) ∧
      (∀ call, ((s.after calls).perform call).1 = false →
        ((s.after calls).perform call).2 = s.after calls) ∧
      (∀ calls', calls.Perm calls' → (s.after calls').stats = (s.after calls).stats) ∧
      ∀ (call : Call) (met : List Site), met <+: (call.work config).sites → ∀ kind,
        let stats := (s.after calls).stats.addSites met
        (stats.get kind).matched ≤ (stats.get kind).total := by
  intro s
  refine ⟨s.get_stats_after calls, fun _ => perform_of_failed, ?_, ?_⟩
  · intro calls' h
    exact (s.stats_after_perm h).symm
  · intro call met _ kind stats
    obtain ⟨records', hrecords'⟩ := exists_stats_after_eq_ofRecords (s := s) rfl calls
    simp only [stats, hrecords', Stats.addSites_ofRecords]
    exact Stats.matched_le_total_ofRecords _ kind

end Session

end Contracts
