import Contracts.Config.Read
import Contracts.Proofs.Json.Skipping
import Mathlib.Data.List.ReduceOption

/-!
# What the text of a configuration says

`Config.IsObject c keys cs` says that `cs` is the text of an object with one member for
each of `keys`, in this order. A key is a field, and then the member has the value of the
field in `c`; or it is no field, and then the member has another name and any value.

Reading goes over one member at a time (`Config.goesOn_readMembers`): a member of a field
carries the field over from `c`, and any other member changes nothing. `Config.Awaits` is
the invariant: the fields still to come have not been seen, none of them comes twice, and
all other fields have the values of `c` already. Where a field has been seen and its key
comes again, reading fails there, whatever follows the key.
-/

namespace Contracts

namespace Config

open Json JsonReader

section Fields

/-- The value of a field. -/
inductive FieldValue where
  | text (s : String)
  | optional (s : Option String)
  | flag (b : Bool)
  deriving DecidableEq, Repr

/-- The texts that write the value of a field. -/
def FieldValue.IsWrittenAs : FieldValue → List Char → Prop
  | .text s, cs => Denotes cs s
  | .optional none, cs => cs = ['n', 'u', 'l', 'l']
  | .optional (some s), cs => Denotes cs s
  | .flag true, cs => cs = ['t', 'r', 'u', 'e']
  | .flag false, cs => cs = ['f', 'a', 'l', 's', 'e']

theorem FieldValue.exists_isWrittenAs (v : FieldValue) : ∃ cs, v.IsWrittenAs cs := by
  cases v with
  | text s => exact exists_denotes s
  | optional s =>
      cases s with
      | none => exact ⟨_, rfl⟩
      | some s => exact exists_denotes s
  | flag b => cases b <;> exact ⟨_, rfl⟩

variable {blanks value rest : List Char}

theorem reads_optional {s : Option String} (h : (FieldValue.optional s).IsWrittenAs value)
    (hblanks : IsBlanks blanks) : Reads optionalString (blanks ++ (value ++ rest)) s rest := by
  cases s with
  | none =>
      obtain rfl := h
      exact reads_optionalString_null hblanks
  | some s => exact reads_optionalString_some h hblanks

theorem reads_flag {b : Bool} (h : (FieldValue.flag b).IsWrittenAs value)
    (hblanks : IsBlanks blanks) : Reads boolean (blanks ++ (value ++ rest)) b rest := by
  cases b with
  | false =>
      obtain rfl := h
      exact reads_boolean_false hblanks
  | true =>
      obtain rfl := h
      exact reads_boolean_true hblanks

namespace Field

def get (c : Config) : Field → FieldValue
  | .checker => .text c.checker
  | .checkMethod => .optional c.checkMethod
  | .cacheProperty => .text c.cacheProperty
  | .strictDirectives => .flag c.strictDirectives
  | .sourceMap => .flag c.sourceMap

/-- The configuration `d` with one field as in `c`. -/
def carry (c d : Config) : Field → Config
  | .checker => { d with checker := c.checker }
  | .checkMethod => { d with checkMethod := c.checkMethod }
  | .cacheProperty => { d with cacheProperty := c.cacheProperty }
  | .strictDirectives => { d with strictDirectives := c.strictDirectives }
  | .sourceMap => { d with sourceMap := c.sourceMap }

variable {c d : Config} {f g : Field}

theorem get_carry_self : f.get (f.carry c d) = f.get c := by
  cases f <;> rfl

theorem get_carry_of_ne (h : g ≠ f) : g.get (f.carry c d) = g.get d := by
  cases f <;> cases g <;> first | rfl | exact absurd rfl h

theorem ofName?_name (f : Field) : ofName? f.name = some f := by
  cases f <;> decide

theorem ofName?_eq_none {name : String} (h : ∀ f : Field, f.name ≠ name) :
    ofName? name = none := by
  rw [ofName?, List.find?_eq_none]
  intro f _
  simpa using h f

theorem reads_read (h : (f.get c).IsWrittenAs value) (hblanks : IsBlanks blanks) :
    Reads (f.read d) (blanks ++ (value ++ rest)) (f.carry c d) rest := by
  cases f with
  | checker => exact (reads_string h hblanks).bind (reads_pure _)
  | checkMethod => exact (reads_optional h hblanks).bind (reads_pure _)
  | cacheProperty => exact (reads_string h hblanks).bind (reads_pure _)
  | strictDirectives => exact (reads_flag h hblanks).bind (reads_pure _)
  | sourceMap => exact (reads_flag h hblanks).bind (reads_pure _)

end Field

theorem eq_of_get_eq {c d : Config} (h : ∀ f : Field, f.get c = f.get d) : c = d := by
  cases c
  cases d
  have hchecker := h .checker
  have hmethod := h .checkMethod
  have hcache := h .cacheProperty
  have hstrict := h .strictDirectives
  have hmap := h .sourceMap
  simp_all [Field.get]

end Fields

section Members

/-- A key and a value with a colon between them, and blanks wherever they may stand. -/
def IsPair (key value cs : List Char) : Prop :=
  ∃ before inner after behind, IsBlanks before ∧ IsBlanks inner ∧ IsBlanks after ∧ IsBlanks behind ∧
    cs = before ++ (key ++ (inner ++ ':' :: (after ++ (value ++ behind))))

/-- The texts of members: those of a field with its value in `c`, and those of another name with
any value. -/
inductive IsMember (c : Config) : Option Field → List Char → Prop
  | field {f : Field} {key value cs : List Char} (hkey : Denotes key f.name)
      (hvalue : (f.get c).IsWrittenAs value) (h : IsPair key value cs) : IsMember c (some f) cs
  | other {name : String} {key value cs : List Char} (hname : ∀ f : Field, f.name ≠ name)
      (hkey : Denotes key name) (hvalue : Derives .value value) (h : IsPair key value cs) :
      IsMember c none cs

/-- The texts of objects, with what their members are about in the order of the members. -/
inductive IsObject (c : Config) : List (Option Field) → List Char → Prop
  | empty {blanks : List Char} (hblanks : IsBlanks blanks) :
      IsObject c [] ('\x7b' :: (blanks ++ ['\x7d']))
  | members {keys : List (Option Field)} {key : Option Field} {texts : List (List Char)}
      {text : List Char} (h : List.Forall₂ (IsMember c) keys texts) (hlast : IsMember c key text) :
      IsObject c (keys ++ [key]) ('\x7b' :: (texts.flatMap (· ++ [',']) ++ (text ++ ['\x7d'])))

end Members

section Reading

variable {c d : Config} {seen : List Field} {keys : List (Option Field)} {key : Option Field}
  {isFirst : Bool} {front text rest : List Char} {n : Nat}

/-- The configuration after a member. -/
def afterMember (c d : Config) : Option Field → Config
  | some f => f.carry c d
  | none => d

/-- What may follow a member, blanks apart. -/
def EndsMember (rest : List Char) : Prop :=
  ∃ mark rest', (mark = ',' ∨ mark = '\x7d') ∧ rest = mark :: rest'

theorem EndsMember.endsNumber (h : EndsMember rest) {blanks : List Char}
    (hblanks : IsBlanks blanks) : EndsNumber (blanks ++ rest) := by
  obtain ⟨mark, rest, hmark, rfl⟩ := h
  exact endsNumber_blanks hblanks (hmark.imp_right .inr)

/-- A member that may come is read up to the blanks behind it. -/
theorem goesOn_readMembers (h : IsMember c key text) (hfront : Opens isFirst front)
    (hfresh : ∀ f ∈ key, f ∉ seen) (hrest : EndsMember rest) :
    ∃ behind, IsBlanks behind ∧
      GoesOn (readMembers d seen isFirst (n + 1)) (front ++ (text ++ rest))
        (readMembers (afterMember c d key) (key.toList ++ seen) false n) (behind ++ rest) := by
  cases h with
  | @field f key value _ hkey hvalue h =>
      obtain ⟨before, inner, after, behind, hbefore, hinner, hafter, hbehind, rfl⟩ := h
      refine ⟨behind, hbehind, ?_⟩
      simp only [List.append_assoc, List.cons_append]
      refine (reads_nextKey? hfront hbefore hkey).goesOn.trans ?_
      dsimp only
      rw [Field.ofName?_name]
      dsimp only
      rw [if_neg (by simpa using hfresh f rfl)]
      exact (reads_colon hinner).goesOn.trans (Field.reads_read hvalue hafter).goesOn
  | @other name key value _ hname hkey hvalue h =>
      obtain ⟨before, inner, after, behind, hbefore, hinner, hafter, hbehind, rfl⟩ := h
      refine ⟨behind, hbehind, ?_⟩
      simp only [List.append_assoc, List.cons_append]
      refine (reads_nextKey? hfront hbefore hkey).goesOn.trans ?_
      dsimp only
      rw [Field.ofName?_eq_none hname]
      have hskip := reads_skipValue hvalue hafter (hrest.endsNumber hbehind)
      exact (reads_colon hinner).goesOn.trans hskip.goesOn

/-- The members that are to come complete the configuration `d` to `c`. -/
structure Awaits (c d : Config) (seen : List Field) (keys : List (Option Field)) : Prop where
  fresh : ∀ f ∈ seen, some f ∉ keys
  nodup : keys.reduceOption.Nodup
  get_eq : ∀ f : Field, some f ∉ keys → f.get d = f.get c

theorem Awaits.not_mem_seen (h : Awaits c d seen (key :: keys)) : ∀ f ∈ key, f ∉ seen := by
  intro f hf hseen
  obtain rfl := Option.mem_def.mp hf
  exact h.fresh f hseen List.mem_cons_self

theorem Awaits.step (h : Awaits c d seen (key :: keys)) :
    Awaits c (afterMember c d key) (key.toList ++ seen) keys := by
  cases key with
  | none =>
      refine ⟨fun f hf hkeys => h.fresh f hf (List.mem_cons_of_mem _ hkeys), h.nodup, ?_⟩
      intro f hf
      exact h.get_eq f (by simpa using hf)
  | some g =>
      have hnodup : (g :: keys.reduceOption).Nodup := h.nodup
      rw [List.nodup_cons, List.reduceOption_mem_iff] at hnodup
      refine ⟨?_, hnodup.2, ?_⟩
      · intro f hf hkeys
        rcases List.mem_cons.mp hf with rfl | hseen
        · exact hnodup.1 hkeys
        · exact h.fresh f hseen (List.mem_cons_of_mem _ hkeys)
      · intro f hf
        by_cases hfg : f = g
        · rw [hfg]
          exact Field.get_carry_self
        · rw [afterMember, Field.get_carry_of_ne hfg]
          exact h.get_eq f (by simp [hfg, hf])

theorem Awaits.eq (h : Awaits c d seen []) : d = c :=
  eq_of_get_eq fun f => h.get_eq f List.not_mem_nil

theorem reads_readMembers_end {blanks : List Char} (hblanks : IsBlanks blanks) :
    Reads (readMembers d seen isFirst (n + 1)) (blanks ++ '\x7d' :: rest) d rest :=
  (reads_nextKey?_end isFirst hblanks).bind (reads_endObject.bind (reads_pure d))

/-- The members of an object that has some complete the configuration. -/
theorem reads_readMembers {texts : List (List Char)} (h : List.Forall₂ (IsMember c) keys texts)
    (hlast : IsMember c key text) (hfront : Opens isFirst front)
    (hawaits : Awaits c d seen (keys ++ [key])) (hn : keys.length + 2 ≤ n) :
    Reads (readMembers d seen isFirst n)
      (front ++ (texts.flatMap (· ++ [',']) ++ (text ++ '\x7d' :: rest))) c rest := by
  -- Over the members in front of the last one, which is the base of the induction.
  induction h generalizing d seen isFirst front n with
  | nil =>
      obtain ⟨n, rfl⟩ := Nat.exists_eq_add_of_le' hn
      obtain ⟨behind, hbehind, hmember⟩ :=
        goesOn_readMembers hlast hfront hawaits.not_mem_seen ⟨_, _, .inr rfl, rfl⟩
      rw [← hawaits.step.eq]
      exact hmember.reads (reads_readMembers_end hbehind)
  | @cons key' text' keys texts hmember _ ih =>
      obtain ⟨n, rfl⟩ : ∃ m, n = m + 1 := Nat.exists_eq_add_one_of_ne_zero (by omega)
      obtain ⟨behind, hbehind, hgoesOn⟩ :=
        goesOn_readMembers hmember hfront hawaits.not_mem_seen ⟨_, _, .inl rfl, rfl⟩
      have hlater := ih (.later hbehind) hawaits.step (by simpa using hn)
      rw [List.append_assoc, List.singleton_append] at hlater
      rw [List.flatMap_cons, List.append_assoc, List.append_assoc, List.singleton_append]
      exact hgoesOn.reads hlater

theorem fails_repeatedField {α : Type} (f : Field) {cs : List Char} :
    Fails (repeatedField f : JsonReader α) cs (.duplicateField f.name) := by
  refine (reads_takeWhile_dropWhile.bind reads_peek).goesOn.fails ?_
  cases cs.dropWhile isBlank with
  | nil => exact fails_fail _
  | cons mark cs =>
      split
      next => exact reads_take.goesOn.fails (fails_fail _)
      next => exact fails_fail _

/-- A field whose key comes again. -/
theorem fails_readMembers_repeated {f : Field} {key blanks : List Char} (hseen : f ∈ seen)
    (hfront : Opens isFirst front) (hblanks : IsBlanks blanks) (hkey : Denotes key f.name) :
    Fails (readMembers d seen isFirst (n + 1)) (front ++ (blanks ++ (key ++ rest)))
      (.duplicateField f.name) := by
  refine (reads_nextKey? hfront hblanks hkey).goesOn.fails ?_
  dsimp only
  rw [Field.ofName?_name]
  dsimp only
  rw [if_pos (by simpa using hseen)]
  exact fails_repeatedField f

theorem fails_readMembers_member {f : Field} (h : IsMember c (some f) text) (hseen : f ∈ seen)
    (hfront : Opens isFirst front) :
    Fails (readMembers d seen isFirst (n + 1)) (front ++ (text ++ rest))
      (.duplicateField f.name) := by
  cases h with
  | field hkey _ h =>
      obtain ⟨before, inner, after, behind, hbefore, -, -, -, rfl⟩ := h
      rw [List.append_assoc, List.append_assoc]
      exact fails_readMembers_repeated hseen hfront hbefore hkey

/-- Where a field has come and its key comes again behind other members, reading fails, there or at
another field that has come twice before. -/
theorem fails_readMembers {f : Field} {texts : List (List Char)} {key blanks : List Char}
    (h : List.Forall₂ (fun key text => ∃ c, IsMember c key text) keys texts)
    (hf : f ∈ seen ∨ some f ∈ keys) (hfront : Opens isFirst front) (hblanks : IsBlanks blanks)
    (hkey : Denotes key f.name) (hn : keys.length < n) :
    ∃ g : Field, Fails (readMembers d seen isFirst n)
      (front ++ (texts.flatMap (· ++ [',']) ++ (blanks ++ (key ++ rest))))
      (.duplicateField g.name) := by
  induction h generalizing d seen isFirst front n with
  | nil =>
      obtain ⟨n, rfl⟩ := Nat.exists_eq_add_one_of_ne_zero (Nat.ne_of_gt hn)
      have hseen : f ∈ seen := hf.resolve_right List.not_mem_nil
      rw [List.flatMap_nil, List.nil_append]
      exact ⟨f, fails_readMembers_repeated hseen hfront hblanks hkey⟩
  | @cons key' text keys texts hmember _ ih =>
      obtain ⟨c, hmember⟩ := hmember
      obtain ⟨n, rfl⟩ : ∃ m, n = m + 1 := Nat.exists_eq_add_one_of_ne_zero (by omega)
      rw [List.flatMap_cons, List.append_assoc, List.append_assoc, List.singleton_append]
      by_cases hfresh : ∀ g ∈ key', g ∉ seen
      · obtain ⟨behind, hbehind, hgoesOn⟩ :=
          goesOn_readMembers hmember hfront hfresh ⟨_, _, .inl rfl, rfl⟩
        have hf : f ∈ key'.toList ++ seen ∨ some f ∈ keys := by
          rcases hf with hseen | hkeys
          · exact .inl (List.mem_append_right _ hseen)
          · rcases List.mem_cons.mp hkeys with rfl | hkeys
            · exact .inl List.mem_cons_self
            · exact .inr hkeys
        obtain ⟨g, hfails⟩ := ih hf (.later hbehind) (by simpa using hn)
        rw [List.append_assoc, List.singleton_append] at hfails
        exact ⟨g, hgoesOn.fails hfails⟩
      · -- A field comes again already among the members in front.
        push Not at hfresh
        obtain ⟨g, rfl, hseen⟩ := hfresh
        exact ⟨g, fails_readMembers_member hmember hseen hfront⟩

theorem length_le_length_flatMap (texts : List (List Char)) :
    texts.length ≤ (texts.flatMap (· ++ [','])).length := by
  have hne : ∀ p ∈ texts.map (· ++ [',']), p ≠ [] := by simp
  have hlength := length_le_length_flatten hne
  rwa [List.length_map, ← List.flatMap_def] at hlength

theorem reads_reader {object before : List Char} (h : IsObject c keys object)
    (hawaits : Awaits c .default [] keys) (hbefore : IsBlanks before) :
    Reads reader (before ++ (object ++ rest)) c rest := by
  cases h with
  | empty hblanks =>
      rw [List.cons_append, List.append_assoc]
      refine (reads_peekAfterBlanks_cons hbefore rfl).bind (reads_take.bind ?_)
      refine reads_get fun d _ => ?_
      rw [← hawaits.eq]
      exact reads_readMembers_end hblanks
  | @members keys key texts text h hlast =>
      rw [List.cons_append, List.append_assoc, List.append_assoc, List.singleton_append]
      refine (reads_peekAfterBlanks_cons hbefore rfl).bind (reads_take.bind ?_)
      refine reads_get fun d hd => ?_
      have hn : keys.length + 2 ≤ d.rest.length + 1 := by
        have hlength := length_le_length_flatMap texts
        rw [hd, h.length_eq, List.length_append, List.length_append, List.length_cons]
        omega
      exact reads_readMembers h hlast .first hawaits hn

theorem fails_reader {f : Field} {texts : List (List Char)} {before blanks key : List Char}
    (h : List.Forall₂ (fun key text => ∃ c, IsMember c key text) keys texts) (hf : some f ∈ keys)
    (hbefore : IsBlanks before) (hblanks : IsBlanks blanks) (hkey : Denotes key f.name)
    (rest : List Char) :
    ∃ g : Field, Fails reader
      (before ++ '\x7b' :: (texts.flatMap (· ++ [',']) ++ (blanks ++ (key ++ rest))))
      (.duplicateField g.name) := by
  generalize hcs : texts.flatMap (· ++ [',']) ++ (blanks ++ (key ++ rest)) = cs
  have hn : keys.length < cs.length + 1 := by
    have hlength := length_le_length_flatMap texts
    rw [← hcs, h.length_eq, List.length_append]
    omega
  obtain ⟨g, hfails⟩ : ∃ g : Field, Fails (readMembers .default [] true (cs.length + 1)) cs
      (.duplicateField g.name) := by
    rw [← hcs] at hn ⊢
    exact fails_readMembers h (.inr hf) .first hblanks hkey hn
  refine ⟨g, (reads_peekAfterBlanks_cons hbefore rfl).goesOn.fails (reads_take.goesOn.fails ?_)⟩
  refine fails_get fun d hd => ?_
  rw [hd]
  exact hfails

end Reading

section Writing

theorem exists_isMember (c : Config) (key : Option Field) : ∃ text, IsMember c key text := by
  have hpair (key value : List Char) : IsPair key value (key ++ ':' :: (value ++ [])) :=
    ⟨[], [], [], [], isBlanks_nil, isBlanks_nil, isBlanks_nil, isBlanks_nil, rfl⟩
  cases key with
  | none =>
      obtain ⟨key, hkey⟩ := exists_denotes ""
      exact ⟨_, .other (by intro f; cases f <;> decide) hkey .null (hpair _ _)⟩
  | some f =>
      obtain ⟨key, hkey⟩ := exists_denotes f.name
      obtain ⟨value, hvalue⟩ := (f.get c).exists_isWrittenAs
      exact ⟨_, .field hkey hvalue (hpair _ _)⟩

/-- Every configuration can be written, with any members. -/
theorem exists_isObject (c : Config) (keys : List (Option Field)) :
    ∃ object, IsObject c keys object := by
  choose text htext using exists_isMember c
  rcases keys.eq_nil_or_concat with rfl | ⟨keys, key, rfl⟩
  · exact ⟨_, .empty isBlanks_nil⟩
  · have htexts : List.Forall₂ (IsMember c) keys (keys.map text) := by
      rw [List.forall₂_map_right_iff, List.forall₂_same]
      exact fun key _ => htext key
    rw [List.concat_eq_append]
    exact ⟨_, .members htexts (htext key)⟩

end Writing

/-- Every configuration can be written as an object, in any order of fields and with other members
among them, if it has the default values where no field is given; and it is read from each such
text. If the key of a field comes a second time, reading fails for this reason, whatever follows. -/
theorem read_object :
    (∀ (c : Config) (keys : List (Option Field)), keys.reduceOption.Nodup →
      (∀ f : Field, some f ∉ keys → f.get c = f.get .default) →
      (∃ object, IsObject c keys object) ∧
      ∀ object before after, IsObject c keys object → IsBlanks before → IsBlanks after →
        Config.read (String.ofList (before ++ (object ++ after))) = .ok c) ∧
    ∀ (f : Field) (keys : List (Option Field)) (texts : List (List Char))
      (before blanks key rest : List Char),
      List.Forall₂ (fun key text => ∃ c, IsMember c key text) keys texts → some f ∈ keys →
      IsBlanks before → IsBlanks blanks → Denotes key f.name →
      ∃ e, Config.read (String.ofList
          (before ++ '\x7b' :: (texts.flatMap (· ++ [',']) ++ (blanks ++ (key ++ rest))))) =
            .error e ∧ e.fault.kind = .mistyped := by
  refine ⟨fun c keys hnodup hdefault => ⟨exists_isObject c keys, ?_⟩, ?_⟩
  · intro object before after hobject hbefore hafter
    have hawaits : Awaits c .default [] keys :=
      ⟨by simp, hnodup, fun f hf => (hdefault f hf).symm⟩
    refine ofText_eq_ok ?_ hafter
    rw [String.toList_ofList]
    exact reads_reader hobject hawaits hbefore
  · intro f keys texts before blanks key rest htexts hf hbefore hblanks hkey
    obtain ⟨g, hfails⟩ := fails_reader htexts hf hbefore hblanks hkey rest
    rw [← String.toList_ofList (l := before ++ _)] at hfails
    obtain ⟨e, he, hfault⟩ := ofText_eq_error hfails
    exact ⟨e, he, by rw [hfault]; rfl⟩

/-- The value of `a` is stepped over, with half of a surrogate pair in it, and the checker is
written with escapes. Its key again makes reading fail. -/
theorem read_object_escaped :
    Config.read "\x7b\"a\":[-1.5e3,\"\\ud800\"], \"\\u0063hecker\":\"\\ud83d\\ude00\" \x7d" =
        .ok { Config.default with checker := "😀" } ∧
      ∃ e, Config.read "\x7b\"\\u0063hecker\":\"\\ud83d\\ude00\",\"checker\":1\x7d" = .error e ∧
        e.fault.kind = .mistyped := by
  have hpair (before key value behind : List Char) (hbefore : IsBlanks before)
      (hbehind : IsBlanks behind) :
      IsPair key value (before ++ (key ++ ':' :: (value ++ behind))) :=
    ⟨before, [], [], behind, hbefore, isBlanks_nil, isBlanks_nil, hbehind, rfl⟩
  have hletters (cs : List Char) (h : ∀ c ∈ cs, c ≠ '"' ∧ c ≠ '\\' ∧ 0x20 ≤ c.toNat) :
      List.Forall₂ Spells cs (cs.map fun c => [c]) := by
    rw [List.forall₂_map_right_iff, List.forall₂_same]
    exact fun c hc => .plain ⟨(h c hc).1, (h c hc).2.1, (h c hc).2.2⟩
  have hquad (digits : List Char) (hlength : digits.length = 4)
      (hdigits : digits.all Text.isHexDigit = true) : IsQuad digits (Text.hexNumber digits) :=
    ⟨hlength, List.all_eq_true.mp hdigits, rfl⟩
  have hblank : IsBlanks [' '] := by simp [IsBlanks]
  -- The member of another name.
  have hname : Denotes ['"', 'a', '"'] "a" :=
    ⟨[['a']], hletters ['a'] (by simp), rfl⟩
  have hnumber : IsNumber ['-', '1', '.', '5', 'e', '3'] :=
    ⟨['-'], ['1'], ['.', '5'], ['e', '3'], .inr rfl, .digits (by decide) (by simp [IsDigits]),
      .digits (by decide) (by simp [IsDigits]),
      .digits (.inl rfl) (.inl rfl) (by decide) (by simp [IsDigits]), rfl⟩
  have hhalf : IsString ['"', '\\', 'u', 'd', '8', '0', '0', '"'] :=
    ⟨[['\\', 'u', 'd', '8', '0', '0']],
      by simpa using IsPiece.digits (hquad ['d', '8', '0', '0'] rfl rfl), rfl⟩
  have hlist : Derives .value
      ['[', '-', '1', '.', '5', 'e', '3', ',', '"', '\\', 'u', 'd', '8', '0', '0', '"', ']'] :=
    .list isBlanks_nil (.element (.number hnumber) isBlanks_nil isBlanks_nil
      (.lastElement (.string hhalf) isBlanks_nil))
  let c : Config := { Config.default with checker := "😀" }
  have hother : IsMember c none _ :=
    .other (by intro f; cases f <;> decide) hname hlist (hpair [] _ _ [] isBlanks_nil isBlanks_nil)
  -- The member of the checker.
  have hunit : List.Forall₂ IsQuad [['0', '0', '6', '3']] (Text.charUnits 'c') :=
    .cons (hquad _ rfl rfl) .nil
  have hunits : List.Forall₂ IsQuad [['d', '8', '3', 'd'], ['d', 'e', '0', '0']]
      (Text.charUnits '😀') :=
    .cons (hquad _ rfl rfl) (.cons (hquad _ rfl rfl) .nil)
  have hkey : Denotes ['"', '\\', 'u', '0', '0', '6', '3', 'h', 'e', 'c', 'k', 'e', 'r', '"']
      Field.checker.name :=
    ⟨_, .cons (.units hunit) (hletters ['h', 'e', 'c', 'k', 'e', 'r'] (by simp)), rfl⟩
  have hvalue : Denotes
      ['"', '\\', 'u', 'd', '8', '3', 'd', '\\', 'u', 'd', 'e', '0', '0', '"'] "😀" :=
    ⟨_, .cons (.units hunits) .nil, rfl⟩
  have hchecker (before behind : List Char) (hbefore : IsBlanks before)
      (hbehind : IsBlanks behind) : IsMember c (some .checker) _ :=
    .field hkey hvalue (hpair before _ _ behind hbefore hbehind)
  have hagain : Denotes ['"', 'c', 'h', 'e', 'c', 'k', 'e', 'r', '"'] Field.checker.name :=
    ⟨_, hletters ['c', 'h', 'e', 'c', 'k', 'e', 'r'] (by simp), rfl⟩
  constructor
  · have hread := (read_object.1 c [none, some .checker] (by decide)
      (by intro f hf; cases f <;> first | rfl | simp at hf)).2 _ [] []
      (.members (.cons hother .nil) (hchecker [' '] [' '] hblank hblank)) isBlanks_nil isBlanks_nil
    rw [← hread]
    exact congrArg Config.read (by decide)
  · obtain ⟨e, he, hfault⟩ := read_object.2 .checker [some .checker] _ [] [] _ [':', '1', '\x7d']
      (.cons ⟨c, hchecker [] [] isBlanks_nil isBlanks_nil⟩ .nil) (by decide) isBlanks_nil
      isBlanks_nil hagain
    refine ⟨e, ?_, hfault⟩
    rw [← he]
    exact congrArg Config.read (by decide)

end Config

end Contracts
