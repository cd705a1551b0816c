import HotSpot.Classfile.LegalClassName
import HotSpot.Classfile.LegalUtf8

/-! # Class names of older class files

`skip_over_field_name` with slashes, which scans the class names of class files before version
49. Its flag for the first character is that of the whole name, not of the part between two
slashes.
-/

namespace HotSpot.ClassFileParser

open UTF8

/-! ## Characters and identifiers -/

/-- A character as `next_character` reads it: the code point and the number of its bytes. -/
structure NameChar where
  point : Nat
  bytes : Nat
  deriving DecidableEq, Repr

def slashChar : NameChar := ⟨0x2F, 1⟩

def characters (p : Bytes) : List NameChar :=
  if p = [] then []
  else
    have := nextCharacter_pos p
    ⟨(nextCharacter p).1, (nextCharacter p).2⟩ :: characters (p.drop (nextCharacter p).2)
termination_by p.length
decreasing_by
  have := List.length_pos_of_ne_nil ‹p ≠ []›
  rw [List.length_drop]
  omega

/-- A letter of ASCII, where the underscore and the dollar sign count. -/
def isAsciiLetter (c : Nat) : Bool :=
  (0x61 ≤ c ∧ c ≤ 0x7A) ∨ (0x41 ≤ c ∧ c ≤ 0x5A) ∨ c = 0x5F ∨ c = 0x24

def isAsciiDigit (c : Nat) : Bool := 0x30 ≤ c ∧ c ≤ 0x39

/-- A control character that Java ignores in identifiers. -/
def isAsciiIgnorable (c : Nat) : Bool := c ≤ 0x08 ∨ (0x0E ≤ c ∧ c ≤ 0x1B) ∨ c = 0x7F

/-- What is documented of `Character.isJavaIdentifierStart` and `isJavaIdentifierPart`. -/
structure JavaCharacter (parser : ClassFileParser) : Prop where
  start_returns : ∀ c, parser.isJavaIdentifierStart c ≠ none
  part_returns : ∀ c, parser.isJavaIdentifierPart c ≠ none
  part_of_start : ∀ c, parser.isJavaIdentifierStart c = some true →
    parser.isJavaIdentifierPart c = some true
  ascii_start : ∀ c < 128, parser.isJavaIdentifierStart c = some (isAsciiLetter c)
  ascii_part : ∀ c < 128, parser.isJavaIdentifierPart c =
    some (isAsciiLetter c || isAsciiDigit c || isAsciiIgnorable c)

variable (parser : ClassFileParser)

def Start (c : NameChar) : Prop := parser.isJavaIdentifierStart c.point = some true

def Part (c : NameChar) : Prop := parser.isJavaIdentifierPart c.point = some true

def JavaIdentifier : List NameChar → Prop
  | [] => False
  | c :: cs => parser.Start c ∧ ∀ c' ∈ cs, parser.Part c'

/-- The parts of the name between the slashes are identifiers. -/
def JavaName (name : Bytes) : Prop :=
  ∀ part ∈ (characters name).splitOn slashChar, parser.JavaIdentifier part

/-- A control character in one byte. -/
def AsciiIgnorable (c : NameChar) : Prop := c.bytes = 1 ∧ isAsciiIgnorable c.point = true

/-- A character of an identifier that the scan takes behind the first one. -/
def Scanned (c : NameChar) : Prop := parser.Part c ∧ ¬AsciiIgnorable c

/-- Identifier characters and single slashes, of which the first is no mere part of an
identifier. -/
structure ScannedChars (cs : List NameChar) : Prop where
  ne_nil : cs ≠ []
  chars : ∀ c ∈ cs, c = slashChar ∨ parser.Scanned c
  first : ∀ c ∈ cs.head?, c = slashChar ∨ parser.Start c
  single : ¬[slashChar, slashChar] <:+: cs

/-- Such a name where a part between the slashes is empty or begins with a character that starts
no identifier. -/
def LooseName (name : Bytes) : Prop :=
  parser.ScannedChars (characters name) ∧
    ∃ part ∈ (characters name).splitOn slashChar, ∀ c ∈ part.head?, ¬parser.Start c

/-- Identifiers with a control character in one of them. -/
def IgnorableName (name : Bytes) : Prop :=
  parser.JavaName name ∧ ∃ c ∈ characters name, AsciiIgnorable c

/-! ## Reading characters -/

variable {parser} {p form rest : Bytes} {majorVersion : Nat} {cs : List Nat}

theorem isSupplementaryCharacter_length (h : isSupplementaryCharacter p = true) : 5 < p.length := by
  by_contra hlen
  have hlast : p[5]?.getD 0 = 0 := by
    rw [List.getElem?_eq_none (by omega), Option.getD_none]
  simp [isSupplementaryCharacter, hlast] at h

/-- A surrogate pair of a legal string is two of its forms. -/
theorem UTF8.Encodes.drop_supplementary (h : Encodes majorVersion p cs)
    (hpair : isSupplementaryCharacter p = true) : ∃ cs', Encodes majorVersion (p.drop 6) cs' := by
  obtain ⟨b2, b3, b5, b6, rest, rfl, -⟩ :=
    (isSupplementaryCharacter_iff (isSupplementaryCharacter_length hpair)).mp hpair
  have hthree : ∀ {x y : UInt8} {tail : Bytes} {cs : List Nat},
      Encodes majorVersion (0xED :: x :: y :: tail) cs → ∃ cs', Encodes majorVersion tail cs' := by
    intro x y tail cs h
    generalize hstr : 0xED :: x :: y :: tail = str at h
    cases h with
    | nil => simp at hstr
    | @cons form rest c cs hform hshort hrest =>
      cases hform with
      | one hpos hascii =>
        simp only [List.cons_append, List.cons.injEq] at hstr
        rw [← hstr.1] at hascii
        exact absurd hascii (by decide)
      | two hlead hnext =>
        simp only [List.cons_append, List.cons.injEq] at hstr
        rw [← hstr.1] at hlead
        exact absurd hlead (by decide)
      | three hlead hnext hlast =>
        simp only [List.cons_append, List.nil_append, List.cons.injEq] at hstr
        exact ⟨cs, hstr.2.2.2 ▸ hrest⟩
  obtain ⟨cs', h'⟩ := hthree h
  exact hthree h'

/-- The next character of a legal string is a byte of ASCII or has several bytes, and leaves a
legal string. -/
theorem UTF8.Encodes.nextCharacter (h : Encodes majorVersion p cs) (hne : p ≠ []) :
    (UTF8.nextCharacter p).2 ≤ p.length ∧
      (∃ cs', Encodes majorVersion (p.drop (UTF8.nextCharacter p).2) cs') ∧
      ((deref p).toNat < 128 ∧ UTF8.nextCharacter p = ((deref p).toNat, 1) ∨
        128 ≤ (deref p).toNat ∧ 2 ≤ (UTF8.nextCharacter p).2) := by
  rw [UTF8.nextCharacter]
  split
  next hpair =>
    have hlen := isSupplementaryCharacter_length hpair
    refine ⟨by simp only; omega, h.drop_supplementary hpair, Or.inr ⟨?_, by simp⟩⟩
    obtain ⟨b2, b3, b5, b6, rest, rfl, -⟩ := (isSupplementaryCharacter_iff hlen).mp hpair
    simp [deref]
  next hsingle =>
    cases h with
    | nil => exact absurd rfl hne
    | @cons form rest c cs hform hshort hrest =>
      rw [hform.next]
      refine ⟨by simp, ⟨cs, by rwa [List.drop_left]⟩, ?_⟩
      rcases hform.ascii_or with ⟨b, rfl, rfl, hascii⟩ | ⟨hlength, hbytes⟩
      · exact Or.inl ⟨hascii, rfl⟩
      · obtain ⟨b, more, rfl⟩ := List.exists_cons_of_length_pos (by omega : 0 < form.length)
        exact Or.inr ⟨hbytes b List.mem_cons_self, hlength⟩

theorem characters_nil : characters [] = [] := by
  rw [characters, if_pos rfl]

theorem characters_of_ne_nil (hne : p ≠ []) :
    characters p =
      ⟨(UTF8.nextCharacter p).1, (UTF8.nextCharacter p).2⟩ ::
        characters (p.drop (UTF8.nextCharacter p).2) := by
  rw [characters, if_neg hne]

/-! ## The scan -/

variable (parser) in
/-- What the scan takes up to the end, after a slash or not and for the first character or not. -/
def TakesAll : Bool → Bool → List NameChar → Prop
  | _, notFirst, [] => notFirst = true
  | lastIsSlash, notFirst, c :: cs =>
    if c = slashChar then lastIsSlash = false ∧ TakesAll true true cs
    else (parser.Start c ∨ notFirst = true ∧ parser.Scanned c) ∧ TakesAll false true cs

theorem start_or_scanned_ascii (hjava : JavaCharacter parser) {c : Nat} (hc : c < 128)
    (notFirst : Bool) :
    parser.Start ⟨c, 1⟩ ∨ notFirst = true ∧ parser.Scanned ⟨c, 1⟩ ↔
      (0x61 ≤ c ∧ c ≤ 0x7A) ∨ (0x41 ≤ c ∧ c ≤ 0x5A) ∨ c = 0x5F ∨ c = 0x24 ∨
        (notFirst = true ∧ 0x30 ≤ c ∧ c ≤ 0x39) := by
  simp only [Start, Scanned, Part, AsciiIgnorable, hjava.ascii_start c hc, hjava.ascii_part c hc,
    Option.some.injEq, Bool.or_eq_true, isAsciiLetter, isAsciiDigit, isAsciiIgnorable,
    decide_eq_true_eq, true_and]
  cases notFirst
  · simp only [Bool.false_eq_true, false_and, or_false]
  · simp only [true_and]
    omega

/-- For a character of several bytes the scan asks Java. -/
theorem isNameCharacter_iff (hjava : JavaCharacter parser) {c : NameChar} (hbytes : 2 ≤ c.bytes)
    (notFirst : Bool) :
    ∃ taken, parser.isNameCharacter notFirst c.point = some taken ∧
      (taken = true ↔ parser.Start c ∨ notFirst = true ∧ parser.Scanned c) := by
  have hnot : ¬AsciiIgnorable c := fun h => by
    have := h.1
    omega
  obtain ⟨start, hstart⟩ := Option.ne_none_iff_exists'.mp (hjava.start_returns c.point)
  obtain ⟨part, hpart⟩ := Option.ne_none_iff_exists'.mp (hjava.part_returns c.point)
  simp only [isNameCharacter, Start, Scanned, Part, hnot, hstart, hpart, Option.bind_eq_bind,
    Option.bind_some, not_false_eq_true, and_true, Option.some.injEq]
  cases start <;> cases notFirst <;> simp

theorem skipOverFieldNameLoop_iff (hjava : JavaCharacter parser) (h : Encodes majorVersion p cs)
    (lastIsSlash notFirst : Bool) :
    parser.skipOverFieldNameLoop true p p.length lastIsSlash notFirst = some [] ↔
      parser.TakesAll lastIsSlash notFirst (characters p) := by
  induction hlen : p.length using Nat.strongRecOn generalizing p cs lastIsSlash notFirst with
  | ind n ih =>
    rw [skipOverFieldNameLoop]
    by_cases hne : p = []
    · subst hne
      rw [← hlen, List.length_nil, if_pos rfl, characters_nil, TakesAll]
      cases notFirst <;> simp
    · have hpos := List.length_pos_of_ne_nil hne
      have hstop : (if notFirst = true then some p else none) ≠ some [] := by
        split <;> simp [hne]
      obtain ⟨hle, ⟨cs', hrest⟩, hnext⟩ := h.nextCharacter hne
      have hstep := UTF8.nextCharacter_pos p
      have hrec := fun last => ih (n - (UTF8.nextCharacter p).2) (by omega) hrest last true (by
        rw [List.length_drop, hlen])
      rw [if_neg (by omega), characters_of_ne_nil hne, TakesAll]
      dsimp only
      rcases hnext with ⟨hascii, hnext⟩ | ⟨hlead, hbytes⟩
      · -- a byte of ASCII
        have hslash : (⟨(deref p).toNat, 1⟩ : NameChar) = slashChar ↔ deref p = Letter.slash := by
          rw [slashChar, NameChar.mk.injEq, and_iff_left rfl, ← UInt8.toNat_inj]
          rfl
        simp only [hnext] at hrec
        simp only [if_pos hascii, hnext, hslash]
        rw [start_or_scanned_ascii hjava hascii]
        by_cases hsep : deref p = Letter.slash
        · rw [if_neg (by rw [hsep]; cases notFirst <;> decide), if_pos ⟨trivial, hsep⟩, if_pos hsep]
          cases lastIsSlash
          · rw [if_neg (by simp), hrec]
            exact (and_iff_right rfl).symm
          · simp
        · rw [if_neg hsep]
          split
          next htaken => rw [hrec, and_iff_right htaken]
          next hstops =>
            rw [if_neg (fun h => hsep h.2)]
            exact iff_of_false hstop fun h => hstops h.1
      · -- a character of several bytes
        have hsep : (⟨(UTF8.nextCharacter p).1, (UTF8.nextCharacter p).2⟩ : NameChar) ≠
            slashChar := by
          intro heq
          have := congrArg NameChar.bytes heq
          simp only [slashChar] at this
          omega
        obtain ⟨taken, htaken, hscan⟩ := isNameCharacter_iff hjava
          (c := ⟨(UTF8.nextCharacter p).1, (UTF8.nextCharacter p).2⟩) hbytes notFirst
        simp only at htaken
        rw [if_neg (by omega), if_neg hsep, htaken, ← hscan]
        cases taken
        · exact iff_of_false hstop fun h => absurd h.1 (by decide)
        · rw [and_iff_right rfl]
          exact hrec false

theorem Start.scanned (hjava : JavaCharacter parser) {c : NameChar} (h : parser.Start c) :
    parser.Scanned c := by
  refine ⟨hjava.part_of_start _ h, fun hignorable => ?_⟩
  have hcontrol := hignorable.2
  simp only [isAsciiIgnorable, decide_eq_true_eq] at hcontrol
  rw [Start, hjava.ascii_start _ (by omega)] at h
  simp only [Option.some.injEq, isAsciiLetter, decide_eq_true_eq] at h
  omega

theorem infix_cons_iff_head {c d : NameChar} {cs : List NameChar} :
    [d, d] <:+: c :: cs ↔ c = d ∧ cs.head? = some d ∨ [d, d] <:+: cs := by
  rw [List.infix_cons_iff, List.cons_prefix_cons]
  cases cs with
  | nil => simp
  | cons e cs => simp [List.cons_prefix_cons, eq_comm]

theorem takesAll_iff (hjava : JavaCharacter parser) (lastIsSlash : Bool) (cs : List NameChar) :
    parser.TakesAll lastIsSlash true cs ↔
      (∀ c ∈ cs, c = slashChar ∨ parser.Scanned c) ∧
        (lastIsSlash = true → cs.head? ≠ some slashChar) ∧ ¬[slashChar, slashChar] <:+: cs := by
  induction cs generalizing lastIsSlash with
  | nil => simp [TakesAll, List.infix_nil]
  | cons c cs ih =>
    rw [TakesAll, List.forall_mem_cons, infix_cons_iff_head, List.head?_cons]
    by_cases hslash : c = slashChar
    · rw [if_pos hslash, ih]
      simp only [hslash, true_or, true_and, not_or, ne_eq, not_true_eq_false, imp_false,
        Bool.not_eq_true, forall_const]
      tauto
    · have htaken : parser.Start c ∨ true = true ∧ parser.Scanned c ↔ parser.Scanned c :=
        ⟨fun h => h.elim (·.scanned hjava) (·.2), fun h => Or.inr ⟨rfl, h⟩⟩
      rw [if_neg hslash, ih, htaken]
      simp only [hslash, false_or, false_and, Bool.false_eq_true, false_implies, true_and,
        Option.some.injEq, not_false_eq_true, implies_true, ne_eq]
      tauto

/-- The scan takes the whole name just where it has the characters for it. -/
theorem skipOverFieldName_iff (hjava : JavaCharacter parser) (h : Encodes majorVersion p cs) :
    parser.skipOverFieldName p true p.length = some [] ↔ parser.ScannedChars (characters p) := by
  rw [skipOverFieldName, skipOverFieldNameLoop_iff hjava h]
  generalize characters p = cs
  cases cs with
  | nil => exact iff_of_false (by simp [TakesAll]) fun h => h.ne_nil rfl
  | cons c cs =>
    rw [TakesAll]
    constructor
    · intro htakes
      split at htakes
      next hslash =>
        obtain ⟨hchars, hhead, hsingle⟩ := (takesAll_iff hjava true cs).mp htakes.2
        refine ⟨by simp, ?_, by simp [hslash], ?_⟩
        · exact List.forall_mem_cons.mpr ⟨Or.inl hslash, hchars⟩
        · rw [infix_cons_iff_head]
          rintro (⟨-, hnext⟩ | hinfix)
          · exact hhead rfl hnext
          · exact hsingle hinfix
      next hslash =>
        have hstart : parser.Start c := htakes.1.resolve_right (by simp)
        obtain ⟨hchars, -, hsingle⟩ := (takesAll_iff hjava false cs).mp htakes.2
        refine ⟨by simp, ?_, by simp [hstart], ?_⟩
        · exact List.forall_mem_cons.mpr ⟨Or.inr (hstart.scanned hjava), hchars⟩
        · rw [infix_cons_iff_head]
          rintro (⟨heq, -⟩ | hinfix)
          · exact hslash heq
          · exact hsingle hinfix
    · intro hscanned
      have hchars := (List.forall_mem_cons.mp hscanned.chars).2
      have hsingle := hscanned.single
      rw [infix_cons_iff_head, not_or] at hsingle
      split
      next hslash =>
        exact ⟨rfl, (takesAll_iff hjava true cs).mpr
          ⟨hchars, fun _ hnext => hsingle.1 ⟨hslash, hnext⟩, hsingle.2⟩⟩
      next hslash =>
        exact ⟨Or.inl ((hscanned.first c rfl).resolve_left hslash),
          (takesAll_iff hjava false cs).mpr ⟨hchars, by simp, hsingle.2⟩⟩

/-! ## The grammar -/

/-- In a name that the scan takes, the parts are identifiers but for their first characters. -/
theorem ScannedChars.javaName_iff (h : parser.ScannedChars (characters p)) :
    parser.JavaName p ↔ ¬∃ part ∈ (characters p).splitOn slashChar,
      ∀ c ∈ part.head?, ¬parser.Start c := by
  have hpart : ∀ part ∈ (characters p).splitOn slashChar, ∀ c ∈ part, parser.Part c := by
    intro part hmem c hc
    obtain ⟨hin, hne⟩ := mem_parts_iff.mp ⟨part, hmem, hc⟩
    exact ((h.chars c hin).resolve_left hne).1
  rw [JavaName]
  push Not
  refine forall₂_congr fun part hmem => ?_
  have hchars := hpart part hmem
  cases part with
  | nil => simp [JavaIdentifier]
  | cons c cs =>
    simp only [JavaIdentifier, List.head?_cons, Option.mem_some_iff, exists_eq_left']
    exact and_iff_left fun c' hc' => hchars c' (List.mem_cons_of_mem _ hc')

/-- Identifiers without control characters are scanned to the end. -/
theorem JavaName.scannedChars (hjava : JavaCharacter parser) (h : parser.JavaName p)
    (hnone : ∀ c ∈ characters p, ¬AsciiIgnorable c) : parser.ScannedChars (characters p) := by
  rw [JavaName] at h
  generalize characters p = cs at h hnone
  have hempty : [] ∉ cs.splitOn slashChar := fun hnil => h [] hnil
  refine ⟨?_, fun c hc => ?_, fun c hc => ?_, fun hinfix => hempty (nil_mem_parts_of_twice hinfix)⟩
  · rintro rfl
    exact hempty (by simp)
  · by_cases hslash : c = slashChar
    · exact Or.inl hslash
    · obtain ⟨part, hmem, hin⟩ := mem_parts_iff.mpr ⟨hc, hslash⟩
      refine Or.inr ⟨?_, hnone c hc⟩
      have hident := h part hmem
      cases part with
      | nil => simp at hin
      | cons first part =>
        rcases List.mem_cons.mp hin with rfl | hin
        · exact hjava.part_of_start _ hident.1
        · exact hident.2 c hin
  · obtain ⟨rest, rfl⟩ := List.head?_eq_some_iff.mp hc
    by_cases hslash : c = slashChar
    · exact Or.inl hslash
    · obtain ⟨first, parts, hsplit⟩ := exists_splitOn_eq slashChar rest
      rw [splitOn_cons_of_ne hslash hsplit] at h
      exact Or.inr (h _ List.mem_cons_self).1

/-- The scan is right unless it is for one of the two kinds of names. -/
theorem skipOverFieldName_javaName_iff (hjava : JavaCharacter parser)
    (h : Encodes majorVersion p cs) :
    (parser.skipOverFieldName p true p.length = some [] ↔ parser.JavaName p) ↔
      ¬parser.LooseName p ∧ ¬parser.IgnorableName p := by
  rw [skipOverFieldName_iff hjava h]
  constructor
  · intro hagree
    refine ⟨fun hloose => ?_, fun hignorable => ?_⟩
    · exact hloose.1.javaName_iff.mp (hagree.mp hloose.1) hloose.2
    · obtain ⟨hjavaName, c, hc, hcontrol⟩ := hignorable
      rcases (hagree.mpr hjavaName).chars c hc with rfl | hscanned
      · exact absurd hcontrol.2 (by decide)
      · exact hscanned.2 hcontrol
  · rintro ⟨hloose, hignorable⟩
    constructor
    · intro hscanned
      exact hscanned.javaName_iff.mpr fun hparts => hloose ⟨hscanned, hparts⟩
    · intro hjavaName
      exact hjavaName.scannedChars hjava fun c hc hcontrol =>
        hignorable ⟨hjavaName, c, hc, hcontrol⟩

/-! ## Both checks -/

variable (parser) in
/-- The check for the version of the class file accepts the names of its grammar. -/
structure ChecksClassName (name : Bytes) : Prop where
  qualified : java15Version ≤ parser.majorVersion →
    (parser.verifyLegalClassName false name = .ok () ↔ QualifiedName name)
  java : parser.majorVersion < java15Version →
    (parser.skipOverFieldName name true name.length = some [] ↔ parser.JavaName name)

variable (parser) in
/-- A class name is checked as it should be unless it has an empty part, a part that begins with a
character that starts no identifier, or a control character. Only the newer check is not for the
names of arrays. -/
theorem checksClassName_iff (hjava : JavaCharacter parser) (hverify : parser.needVerify = true)
    {name : Bytes} (h : Encodes parser.majorVersion name cs)
    (harray : java15Version ≤ parser.majorVersion → deref name ≠ Letter.array) :
    parser.ChecksClassName name ↔
      (java15Version ≤ parser.majorVersion → ¬EmptyPart name) ∧
        (parser.majorVersion < java15Version →
          ¬parser.LooseName name ∧ ¬parser.IgnorableName name) := by
  constructor
  · intro hchecks
    exact ⟨fun hversion =>
        (verifyLegalClassName_qualified_iff hverify hversion h (harray hversion)).mp
          (hchecks.qualified hversion),
      fun hversion => (skipOverFieldName_javaName_iff hjava h).mp (hchecks.java hversion)⟩
  · rintro ⟨hnew, hold⟩
    exact ⟨fun hversion =>
        (verifyLegalClassName_qualified_iff hverify hversion h (harray hversion)).mpr
          (hnew hversion),
      fun hversion => (skipOverFieldName_javaName_iff hjava h).mpr (hold hversion)⟩

/-! ## Names of ASCII -/

theorem encodes_ascii (h : ∀ b ∈ p, 0 < b.toNat ∧ b.toNat < 128) :
    Encodes majorVersion p (p.map (·.toNat)) := by
  induction p with
  | nil => exact .nil
  | cons b p ih =>
    rw [List.forall_mem_cons] at h
    refine .cons (.one h.1.1 h.1.2) (fun _ => ?_) (ih h.2)
    rw [UNICODE.utf8Size, if_pos (by omega), List.length_singleton]

theorem characters_ascii (h : ∀ b ∈ p, 0 < b.toNat ∧ b.toNat < 128) :
    characters p = p.map fun b => ⟨b.toNat, 1⟩ := by
  induction p with
  | nil => exact characters_nil
  | cons b p ih =>
    rw [List.forall_mem_cons] at h
    have hnext : UTF8.nextCharacter (b :: p) = (b.toNat, 1) := by
      have hlead : ¬isSupplementaryCharacter (b :: p) = true := by
        simp only [isSupplementaryCharacter, List.getD_cons_zero, decide_eq_true_eq]
        omega
      rw [UTF8.nextCharacter, if_neg hlead]
      rw [← List.singleton_append]
      exact (Form.one h.1.1 h.1.2).next
    rw [characters_of_ne_nil (List.cons_ne_nil b p), hnext, List.drop_succ_cons, List.drop_zero,
      ih h.2, List.map_cons]

/-- A parser for which only ASCII has identifiers. -/
def asciiParser (majorVersion : Nat) : ClassFileParser where
  majorVersion := majorVersion
  needVerify := true
  className := []
  isJavaIdentifierStart c := some (isAsciiLetter c)
  isJavaIdentifierPart c := some (isAsciiLetter c || isAsciiDigit c || isAsciiIgnorable c)

theorem javaCharacter_ascii (majorVersion : Nat) : JavaCharacter (asciiParser majorVersion) where
  start_returns c := by simp [asciiParser]
  part_returns c := by simp [asciiParser]
  part_of_start c h := by
    simp only [asciiParser, Option.some.injEq] at h ⊢
    rw [h, Bool.true_or, Bool.true_or]
  ascii_start c _ := rfl
  ascii_part c _ := rfl

/-- The newer check takes `a//b`, and the older scan takes `a/1`. -/
theorem not_checksClassName :
    ¬(asciiParser 50).ChecksClassName [0x61, 0x2F, 0x2F, 0x62] ∧
      ¬(asciiParser 48).ChecksClassName [0x61, 0x2F, 0x31] := by
  constructor
  · intro hchecks
    have hencodes : Encodes 50 [0x61, 0x2F, 0x2F, 0x62] _ := encodes_ascii (by simp)
    have haccept : (asciiParser 50).verifyLegalClassName false [0x61, 0x2F, 0x2F, 0x62] = .ok () :=
      (verifyLegalClassName_iff rfl (by decide) hencodes (by decide)).mpr (by decide)
    exact ((hchecks.qualified (by decide)).mp haccept [] (by decide)).1 rfl
  · intro hchecks
    have hchars : characters [0x61, 0x2F, 0x31] = [⟨0x61, 1⟩, slashChar, ⟨0x31, 1⟩] :=
      characters_ascii (by simp)
    have hencodes : Encodes 48 [0x61, 0x2F, 0x31] _ := encodes_ascii (by simp)
    have haccept := (skipOverFieldName_iff (javaCharacter_ascii 48) hencodes).mpr (by
        rw [hchars]
        refine ⟨by decide, ?_, ?_, by decide⟩
        · simp [Scanned, Part, AsciiIgnorable, asciiParser, slashChar, isAsciiLetter, isAsciiDigit,
            isAsciiIgnorable]
        · simp [Start, asciiParser, isAsciiLetter])
    have hident := (hchecks.java (by decide)).mp haccept [⟨0x31, 1⟩] (by rw [hchars]; decide)
    exact absurd (Option.some.inj hident.1) (by decide)

/-- The name `a/b1` in a class file of version 48. -/
theorem checksClassName_ascii : (asciiParser 48).ChecksClassName [0x61, 0x2F, 0x62, 0x31] := by
  have hchars : characters [0x61, 0x2F, 0x62, 0x31] =
      [⟨0x61, 1⟩, slashChar, ⟨0x62, 1⟩, ⟨0x31, 1⟩] := characters_ascii (by simp)
  refine ((asciiParser 48).checksClassName_iff (javaCharacter_ascii 48) rfl
    (encodes_ascii (by simp)) fun h => absurd h (by decide)).mpr
      ⟨fun h => absurd h (by decide), fun _ => ⟨fun hloose => ?_, fun hignorable => ?_⟩⟩
  · obtain ⟨part, hpart, hhead⟩ := hloose.2
    have hparts : (characters [0x61, 0x2F, 0x62, 0x31]).splitOn slashChar =
        [[⟨0x61, 1⟩], [⟨0x62, 1⟩, ⟨0x31, 1⟩]] := by
      rw [hchars]
      decide
    rw [hparts] at hpart
    simp only [List.mem_cons, List.not_mem_nil, or_false] at hpart
    rcases hpart with rfl | rfl
    · exact hhead _ rfl rfl
    · exact hhead _ rfl rfl
  · obtain ⟨-, c, hc, hcontrol⟩ := hignorable
    rw [hchars] at hc
    simp only [List.mem_cons, List.not_mem_nil, or_false] at hc
    rcases hc with rfl | rfl | rfl | rfl <;> exact absurd hcontrol.2 (by decide)

end HotSpot.ClassFileParser
