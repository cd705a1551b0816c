import HotSpot.Classfile.SignatureGrammar
import HotSpot.Lib.Separated
import HotSpot.Utilities.Utf8

/-! # Legal class names

`verify_legal_class_name` and the two scans that it leaves names to: from version 49 on
`verify_unqualified_name`, before that `skip_over_field_name` with slashes.
-/

namespace HotSpot.ClassFileParser

open UTF8

/-- What `verify_unqualified_name` checks. -/
inductive NameType
  | legalClass
  | legalField
  | legalMethod
  deriving DecidableEq, Repr

def Letter.greater : UInt8 := 0x3E -- >

def verifyUnqualifiedName (type : NameType) (p : Bytes) : Bool :=
  if p = [] then true
  else if (deref p).toNat < 128 then
    if deref p = Letter.dot ∨ deref p = Letter.endClass then false
    else if type ≠ .legalClass ∧ deref p = Letter.slash then false
    else if type = .legalMethod ∧ (deref p = Letter.less ∨ deref p = Letter.greater) then false
    else verifyUnqualifiedName type (p.drop 1)
  else
    have := next_pos p
    verifyUnqualifiedName type (p.drop (next p).2)
termination_by p.length
decreasing_by
  all_goals
    have := List.length_pos_of_ne_nil ‹p ≠ []›
    rw [List.length_drop]
    omega

/-- What `verify_legal_class_name` throws. -/
inductive ClassNameError
  | format (e : FormatError)
  /-- Illegal class name "%s" in class file %s -/
  | illegalClassName (bytes className : Bytes)
  deriving DecidableEq, Repr

variable (parser : ClassFileParser)

def verifyLegalClassName (relaxVerify : Bool) (name : Bytes) : Except ClassNameError Unit :=
  if !parser.needVerify ∨ relaxVerify then .ok ()
  else
    let illegal := .error (.illegalClassName name parser.className)
    if 0 < name.length then
      if deref name = Letter.array then
        match parser.skipOverFieldSignature name false name.length with
        | .error e => .error (.format e)
        | .ok p => if p = some [] then .ok () else illegal
      else if parser.majorVersion < java15Version then
        if deref name ≠ Letter.less ∧ parser.skipOverFieldName name true name.length = some [] then
          .ok ()
        else illegal
      -- Identifiers between '/' must be unqualified names.
      else if verifyUnqualifiedName .legalClass name then .ok ()
      else illegal
    else illegal

/-! ## Newer class files -/

def UnqualifiedName (part : Bytes) : Prop :=
  part ≠ [] ∧ Letter.dot ∉ part ∧ Letter.endClass ∉ part

/-- The parts of the name between the slashes are unqualified names. -/
def QualifiedName (name : Bytes) : Prop :=
  ∀ part ∈ name.splitOn Letter.slash, UnqualifiedName part

/-- A name, but for a slash that is the first or last byte or follows another one. -/
def EmptyPart (name : Bytes) : Prop :=
  name ≠ [] ∧ Letter.dot ∉ name ∧ Letter.endClass ∉ name ∧ [] ∈ name.splitOn Letter.slash

variable {parser} {name form rest : Bytes} {c majorVersion : Nat} {cs : List Nat}

/-- A form is a byte of ASCII, or has no such byte. -/
theorem UTF8.Form.ascii_or (h : Form form c) :
    (∃ b, form = [b] ∧ c = b.toNat ∧ b.toNat < 128) ∨
      2 ≤ form.length ∧ ∀ b ∈ form, 128 ≤ b.toNat := by
  cases h with
  | @one b hpos hascii => exact Or.inl ⟨b, rfl, rfl, hascii⟩
  | two hlead hnext =>
    refine Or.inr ⟨Nat.le_refl 2, fun b hb => ?_⟩
    simp only [List.mem_cons, List.not_mem_nil, or_false] at hb
    rcases hb with rfl | rfl <;> omega
  | three hlead hnext hlast =>
    refine Or.inr ⟨by simp, fun b hb => ?_⟩
    simp only [List.mem_cons, List.not_mem_nil, or_false] at hb
    rcases hb with rfl | rfl | rfl <;> omega

theorem verifyUnqualifiedName_iff (h : Encodes majorVersion name cs) :
    verifyUnqualifiedName .legalClass name = true ↔ Letter.dot ∉ name ∧ Letter.endClass ∉ name := by
  induction h with
  | nil => simp [verifyUnqualifiedName]
  | @cons form rest c cs hform hshort hrest ih =>
    have hne : form ++ rest ≠ [] := by cases hform <;> simp
    rw [verifyUnqualifiedName, if_neg hne]
    rcases hform.ascii_or with ⟨b, rfl, rfl, hascii⟩ | ⟨hlength, hbytes⟩
    · simp only [List.cons_append, List.nil_append, deref, List.headD_cons, if_pos hascii,
        List.drop_succ_cons, List.drop_zero, List.mem_cons, not_or]
      by_cases hbad : b = Letter.dot ∨ b = Letter.endClass
      · rw [if_pos hbad]
        refine iff_of_false (by simp) fun hnot => ?_
        exact hbad.elim (fun h => hnot.1.1 h.symm) fun h => hnot.2.1 h.symm
      · rw [if_neg hbad, if_neg (by simp), if_neg (by simp), ih]
        rw [not_or] at hbad
        exact ⟨fun h => ⟨⟨Ne.symm hbad.1, h.1⟩, Ne.symm hbad.2, h.2⟩, fun h => ⟨h.1.2, h.2.2⟩⟩
    · obtain ⟨b, more, rfl⟩ := List.exists_cons_of_length_pos (by omega : 0 < form.length)
      have hnot : ∀ letter : UInt8, letter.toNat < 128 →
          (letter ∉ (b :: more) ++ rest ↔ letter ∉ rest) := by
        intro letter hletter
        rw [List.mem_append, not_or, and_iff_right]
        intro hmem
        have := hbytes letter hmem
        omega
      have hlead := hbytes b List.mem_cons_self
      rw [if_neg (by simp only [List.cons_append, deref, List.headD_cons]; omega), hform.next,
        List.drop_left, ih, hnot _ (by decide), hnot _ (by decide)]

theorem qualifiedName_iff :
    QualifiedName name ↔ [] ∉ name.splitOn Letter.slash ∧ Letter.dot ∉ name ∧
      Letter.endClass ∉ name := by
  have hparts : ∀ letter, letter ≠ Letter.slash →
      (letter ∉ name ↔ ∀ part ∈ name.splitOn Letter.slash, letter ∉ part) := by
    intro letter hne
    have hmem := @mem_parts_iff _ _ Letter.slash letter name
    rw [and_iff_left hne] at hmem
    rw [← hmem]
    simp only [not_exists, not_and]
  rw [hparts _ (by decide), hparts _ (by decide)]
  constructor
  · intro h
    exact ⟨fun hnil => (h [] hnil).1 rfl, fun part hpart => (h part hpart).2.1,
      fun part hpart => (h part hpart).2.2⟩
  · rintro ⟨hnil, hdot, hend⟩ part hpart
    exact ⟨fun heq => hnil (heq ▸ hpart), hdot part hpart, hend part hpart⟩

/-- From version 49 on the check takes any name without a dot and a semicolon. -/
theorem verifyLegalClassName_iff (hverify : parser.needVerify = true)
    (hversion : java15Version ≤ parser.majorVersion) (h : Encodes majorVersion name cs)
    (harray : deref name ≠ Letter.array) :
    parser.verifyLegalClassName false name = .ok () ↔
      name ≠ [] ∧ Letter.dot ∉ name ∧ Letter.endClass ∉ name := by
  rw [← verifyUnqualifiedName_iff h, verifyLegalClassName, if_neg (by simp [hverify])]
  by_cases hnil : name = []
  · subst hnil
    simp
  · simp only [List.length_pos_of_ne_nil hnil, if_true, if_neg harray,
      if_neg (Nat.not_lt_of_le hversion)]
    split <;> simp [*]

/-- The check of a newer class file is right unless it is for a name with an empty part. -/
theorem verifyLegalClassName_qualified_iff (hverify : parser.needVerify = true)
    (hversion : java15Version ≤ parser.majorVersion) (h : Encodes majorVersion name cs)
    (harray : deref name ≠ Letter.array) :
    (parser.verifyLegalClassName false name = .ok () ↔ QualifiedName name) ↔ ¬EmptyPart name := by
  rw [verifyLegalClassName_iff hverify hversion h harray, qualifiedName_iff, EmptyPart]
  by_cases hnil : name = []
  · subst hnil
    simp
  · simp only [ne_eq, hnil, not_false_eq_true, true_and]
    tauto

end HotSpot.ClassFileParser
