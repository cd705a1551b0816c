import Mathlib.Logic.Relation
import HotSpot.Classfile.VerificationType

/-! # Assignability of references

The relation of the specification on class and array types, in which an interface is treated
as `java.lang.Object`, and how the test of the verifier differs from it.
-/

namespace HotSpot

open ClassFileParser

inductive PrimitiveType where
  | boolean | byte | char | short | int | long | float | double
  deriving DecidableEq, Repr

namespace PrimitiveType

def letter : PrimitiveType → UInt8
  | boolean => Letter.boolean
  | byte => Letter.byte
  | char => Letter.char
  | short => Letter.short
  | int => Letter.int
  | long => Letter.long
  | float => Letter.float
  | double => Letter.double

def type : PrimitiveType → VerificationType
  | boolean => .boolean
  | byte => .byte
  | char => .char
  | short => .short
  | int => .integer
  | long => .long
  | float => .float
  | double => .double

/-- The types whose values are ints on the stack. -/
def Small (p : PrimitiveType) : Prop := p = boolean ∨ p = byte ∨ p = char ∨ p = short

end PrimitiveType

/-- The name of a class, which does not look like that of an array. -/
structure ClassName where
  bytes : Bytes
  ne_nil : bytes ≠ []
  ne_array : bytes.getD 0 0 ≠ Letter.array

inductive ReferenceType where
  | cls (name : ClassName)
  | primitiveArray (component : PrimitiveType)
  | array (component : ReferenceType)

namespace ReferenceType

def descriptor : ReferenceType → Bytes
  | cls name => Letter.cls :: (name.bytes ++ [Letter.endClass])
  | primitiveArray p => [Letter.array, p.letter]
  | array component => Letter.array :: component.descriptor

/-- The name under which a type stands in the constant pool. -/
def name : ReferenceType → Bytes
  | cls name => name.bytes
  | t => t.descriptor

/-- The verification type of a reference. -/
def type (t : ReferenceType) : VerificationType := .reference t.name

end ReferenceType

namespace ClassHierarchy

variable {K : Type} (h : ClassHierarchy K)

def Subclass : K → K → Prop := Relation.ReflTransGen fun t s => h.super t = some s

/-- A value of type `source` may be used where one of type `target` is expected. -/
def Assignable : ReferenceType → ReferenceType → Prop
  | .cls name, source => source.name = name.bytes ∨ name.bytes = javaLangObject ∨
      (∃ k, h.resolve name.bytes = some k ∧ h.isInterface k = true) ∨
      ∃ sourceName k s, source = .cls sourceName ∧ h.resolve name.bytes = some k ∧
        h.resolve sourceName.bytes = some s ∧ h.Subclass s k
  | .primitiveArray p, .primitiveArray q => p = q
  | .array target, .array source => Assignable target source
  | _, _ => False

end ClassHierarchy

namespace ReferenceType

/-- Arrays of ints taken for arrays of a smaller type. -/
def Widens : ReferenceType → ReferenceType → Prop
  | primitiveArray p, primitiveArray q => p.Small ∧ q = .int
  | array target, array source => Widens target source
  | _, _ => False

/-! ## Names -/

theorem letter_injective {p q : PrimitiveType} (heq : p.letter = q.letter) : p = q := by
  revert heq
  cases p <;> cases q <;> decide

theorem letter_ne_array (p : PrimitiveType) : p.letter ≠ Letter.array := by
  cases p <;> decide

theorem letter_ne_cls (p : PrimitiveType) : p.letter ≠ Letter.cls := by
  cases p <;> decide

theorem descriptor_injective {t s : ReferenceType} (heq : t.descriptor = s.descriptor) : t = s := by
  induction t generalizing s with
  | cls name =>
    cases s with
    | cls other =>
      simp only [descriptor, List.cons.injEq, List.append_cancel_right_eq, true_and] at heq
      cases name
      cases other
      cases heq
      rfl
    | primitiveArray q => exact absurd (List.head_eq_of_cons_eq heq) (by decide)
    | array other => exact absurd (List.head_eq_of_cons_eq heq) (by decide)
  | primitiveArray p =>
    cases s with
    | cls other => exact absurd (List.head_eq_of_cons_eq heq) (by decide)
    | primitiveArray q =>
      simp only [descriptor, List.cons.injEq, and_true, true_and] at heq
      rw [letter_injective heq]
    | array other =>
      simp only [descriptor, List.cons.injEq, true_and] at heq
      cases other with
      | cls name => exact absurd (List.head_eq_of_cons_eq heq) (letter_ne_cls p)
      | primitiveArray q => exact absurd (List.head_eq_of_cons_eq heq) (letter_ne_array p)
      | array other => exact absurd (List.head_eq_of_cons_eq heq) (letter_ne_array p)
  | array component ih =>
    cases s with
    | cls other => exact absurd (List.head_eq_of_cons_eq heq) (by decide)
    | primitiveArray q =>
      simp only [descriptor, List.cons.injEq, true_and] at heq
      cases component with
      | cls name => exact absurd (List.head_eq_of_cons_eq heq).symm (letter_ne_cls q)
      | primitiveArray p => exact absurd (List.head_eq_of_cons_eq heq).symm (letter_ne_array q)
      | array other => exact absurd (List.head_eq_of_cons_eq heq).symm (letter_ne_array q)
    | array other =>
      simp only [descriptor, List.cons.injEq, true_and] at heq
      rw [ih heq]

/-- Whether the name is that of an array. -/
theorem name_head (t : ReferenceType) : t.name.getD 0 0 = Letter.array ↔ ∀ name, t ≠ .cls name := by
  cases t with
  | cls name =>
    refine ⟨fun heq => absurd heq name.ne_array, fun hne => absurd rfl (hne name)⟩
  | primitiveArray p => simp [name, descriptor]
  | array component => simp [name, descriptor]

theorem name_injective {t s : ReferenceType} (heq : t.name = s.name) : t = s := by
  have hhead := t.name_head
  have hhead' := s.name_head
  rw [heq, hhead'] at hhead
  cases t with
  | cls name =>
    cases s with
    | cls other =>
      simp only [ReferenceType.name] at heq
      cases name
      cases other
      cases heq
      rfl
    | primitiveArray q => exact absurd rfl (hhead.mp (by simp) name)
    | array other => exact absurd rfl (hhead.mp (by simp) name)
  | primitiveArray p =>
    cases s with
    | cls other => exact absurd rfl (hhead.mpr (by simp) other)
    | primitiveArray q => exact descriptor_injective heq
    | array other => exact descriptor_injective heq
  | array component =>
    cases s with
    | cls other => exact absurd rfl (hhead.mpr (by simp) other)
    | primitiveArray q => exact descriptor_injective heq
    | array other => exact descriptor_injective heq

theorem isObject_type (t : ReferenceType) : t.type.isObject = true ↔ ∃ name, t = .cls name := by
  cases t with
  | cls name =>
    have hpos : 1 ≤ name.bytes.length := List.length_pos_iff.mpr name.ne_nil
    simpa [type, VerificationType.isObject, ReferenceType.name, hpos] using name.ne_array
  | primitiveArray p => simp [type, VerificationType.isObject, ReferenceType.name, descriptor]
  | array component => simp [type, VerificationType.isObject, ReferenceType.name, descriptor]

theorem length_descriptor_pos (t : ReferenceType) : 0 < t.descriptor.length := by
  cases t <;> simp [descriptor]

theorem isArray_type (t : ReferenceType) : t.type.isArray = true ↔ ∀ name, t ≠ .cls name := by
  cases t with
  | cls name =>
    simpa [type, VerificationType.isArray, ReferenceType.name] using fun _ => name.ne_array
  | primitiveArray p => simp [type, VerificationType.isArray, ReferenceType.name, descriptor]
  | array component =>
    have hpos : 1 ≤ component.descriptor.length := component.length_descriptor_pos
    simpa [type, VerificationType.isArray, ReferenceType.name, descriptor] using hpos

theorem getComponent_primitiveArray (p : PrimitiveType) :
    (primitiveArray p).type.getComponent = some p.type := by
  cases p <;> rfl

theorem getComponent_array (t : ReferenceType) : (array t).type.getComponent = some t.type := by
  cases t with
  | cls name =>
    simp [type, ReferenceType.name, descriptor, VerificationType.getComponent, Letter.cls,
      Letter.boolean, Letter.byte, Letter.char, Letter.short, Letter.int, Letter.long,
      Letter.float, Letter.double, Letter.array]
  | primitiveArray p => cases p <;> rfl
  | array component => rfl

end ReferenceType

/-! ## The test -/

namespace ClassHierarchy

variable {K : Type} [DecidableEq K] {h : ClassHierarchy K}

theorem isSubclassOfLoop_iff {k t : K} {fuel : Nat} (hfuel : h.depth t < fuel) :
    h.isSubclassOfLoop k fuel t = true ↔ h.Subclass t k := by
  induction fuel generalizing t with
  | zero => exact absurd hfuel (Nat.not_lt_zero _)
  | succ fuel ih =>
    rw [isSubclassOfLoop, Bool.or_eq_true, decide_eq_true_iff, Subclass,
      Relation.ReflTransGen.cases_head_iff]
    refine or_congr Iff.rfl ?_
    cases hsuper : h.super t with
    | none => simp
    | some s =>
      have hdepth := h.depth_super hsuper
      simp only [Option.some.injEq, exists_eq_left']
      exact ih (by omega)

theorem isSubclassOf_iff {t k : K} : h.isSubclassOf t k = true ↔ h.Subclass t k :=
  isSubclassOfLoop_iff (Nat.lt_succ_self _)

end ClassHierarchy

namespace ReferenceType

variable {K : Type} [DecidableEq K] (h : ClassHierarchy K)

open VerificationType

/-- One round of the test, for two names. -/
theorem isReferenceAssignableFrom_type {target source : ReferenceType} {fuel : Nat} :
    isReferenceAssignableFrom h (fuel + 1) target.type source.type =
      if target.name = source.name then some true
      else if target.type.isObject then
        if target.name = javaLangObject then some true
        else do
          let thisClass ← h.resolve target.name
          if h.isInterface thisClass then return true
          else if source.type.isObject then
            let sourceClass ← h.resolve source.name
            return h.isSubclassOf sourceClass thisClass
          else return false
      else if target.type.isArray && source.type.isArray then do
        let compThis ← target.type.getComponent
        let compSource ← source.type.getComponent
        isAssignableWith (isReferenceAssignableFrom h fuel) compThis compSource
      else some false := rfl

/-- The test for a class. -/
theorem isReferenceAssignableFrom_cls {name : ClassName} {source : ReferenceType} {fuel : Nat} :
    isReferenceAssignableFrom h (fuel + 1) (cls name).type source.type = some true ↔
      h.Assignable (cls name) source := by
  have hname : (cls name).name = name.bytes := rfl
  rw [isReferenceAssignableFrom_type, if_pos ((isObject_type (cls name)).mpr ⟨name, rfl⟩), hname]
  simp only [ClassHierarchy.Assignable]
  by_cases hsame : name.bytes = source.name
  · simp [hsame]
  rw [if_neg hsame]
  by_cases hroot : name.bytes = javaLangObject
  · simp [hroot]
  rw [if_neg hroot]
  cases hresolve : h.resolve name.bytes with
  | none => simp [hroot, Ne.symm hsame]
  | some k =>
    cases hinterface : h.isInterface k with
    | true => simp [hinterface]
    | false =>
      by_cases hcls : ∃ sourceName, source = .cls sourceName
      · have hsource := (isObject_type source).mpr hcls
        obtain ⟨sourceName, rfl⟩ := hcls
        have hsourceName : (cls sourceName).name = sourceName.bytes := rfl
        rw [hsourceName] at hsame ⊢
        cases hother : h.resolve sourceName.bytes with
        | none => simp [hroot, Ne.symm hsame, hinterface, hsource, hother]
        | some s =>
          simp [hroot, Ne.symm hsame, hinterface, hsource, hother,
            ClassHierarchy.isSubclassOf_iff]
      · have hsource : source.type.isObject = false := by
          rw [← Bool.not_eq_true, isObject_type]
          exact hcls
        have hnone : ∀ sourceName, source ≠ .cls sourceName := fun sourceName heq =>
          hcls ⟨sourceName, heq⟩
        simp [hroot, Ne.symm hsame, hinterface, hsource, hnone]

theorem isAssignableWith_primitive {test : VerificationType → VerificationType → Option Bool}
    (p q : PrimitiveType) :
    isAssignableWith test p.type q.type = some true ↔ p = q ∨ p.Small ∧ q = .int := by
  cases p <;> cases q <;>
    simp [isAssignableWith, PrimitiveType.type, PrimitiveType.Small, isBogus, isReference]

theorem isAssignableWith_primitive_reference
    {test : VerificationType → VerificationType → Option Bool} (p : PrimitiveType) (name : Bytes) :
    isAssignableWith test p.type (.reference name) = some false ∧
      isAssignableWith test (.reference name) p.type = some false := by
  cases p <;> simp [isAssignableWith, PrimitiveType.type, isBogus, isReference]

theorem length_name_lt (t : ReferenceType) : t.name.length < (array t).name.length := by
  cases t with
  | cls name => simp [ReferenceType.name, descriptor]; omega
  | primitiveArray p => exact Nat.lt_succ_self _
  | array component => exact Nat.lt_succ_self _

omit [DecidableEq K] in
theorem assignable_refl (t : ReferenceType) : h.Assignable t t := by
  induction t with
  | cls name => exact Or.inl rfl
  | primitiveArray p => exact rfl
  | array component ih => exact ih

/-- The test for two references as a component. -/
theorem isAssignableWith_type {test : VerificationType → VerificationType → Option Bool}
    (target source : ReferenceType) :
    isAssignableWith test target.type source.type = some true ↔
      target = source ∨ test target.type source.type = some true := by
  by_cases hsame : target = source
  · simp [hsame, isAssignableWith]
  · have hne : target.type ≠ source.type := by
      intro heq
      exact hsame (name_injective (VerificationType.reference.inj heq))
    have hbogus : target.type.isBogus = false := rfl
    have hround : isAssignableWith test target.type source.type =
        if target.type = source.type ∨ target.type.isBogus then some true
        else test target.type source.type := rfl
    rw [hround, if_neg (by simp [hne, hbogus])]
    simp [hsame]

/-- The test for an array: against the same type, or by the components. -/
theorem isReferenceAssignableFrom_array {target source : ReferenceType} {fuel : Nat}
    (htarget : ∀ name, target ≠ .cls name) {compThis compSource : VerificationType}
    (hthis : target.type.getComponent = some compThis)
    (hsource : (∀ name, source ≠ .cls name) → source.type.getComponent = some compSource) :
    isReferenceAssignableFrom h (fuel + 1) target.type source.type = some true ↔
      target = source ∨ (∀ name, source ≠ .cls name) ∧
        isAssignableWith (isReferenceAssignableFrom h fuel) compThis compSource = some true := by
  have hobject : target.type.isObject = false := by
    rw [← Bool.not_eq_true, isObject_type]
    rintro ⟨name, heq⟩
    exact htarget name heq
  rw [isReferenceAssignableFrom_type, hobject, (isArray_type target).mpr htarget, hthis]
  by_cases hsame : target = source
  · simp [hsame]
  rw [if_neg fun heq => hsame (name_injective heq)]
  by_cases harray : ∀ name, source ≠ .cls name
  · rw [(isArray_type source).mpr harray, hsource harray]
    simp [hsame, harray]
  · have hfalse : source.type.isArray = false := by
      rw [← Bool.not_eq_true, isArray_type]
      exact harray
    simp [hsame, harray, hfalse]

/-- The test takes arrays of ints for arrays of the smaller types, and agrees with the
specification on all other types. -/
theorem isReferenceAssignableFrom_iff {target source : ReferenceType} {fuel : Nat}
    (hfuel : target.name.length < fuel) :
    isReferenceAssignableFrom h fuel target.type source.type = some true ↔
      h.Assignable target source ∨ target.Widens source := by
  induction fuel generalizing target source with
  | zero => exact absurd hfuel (Nat.not_lt_zero _)
  | succ fuel ih =>
    cases target with
    | cls name => simp [isReferenceAssignableFrom_cls, Widens]
    | primitiveArray p =>
      have hthis := getComponent_primitiveArray p
      cases source with
      | cls name =>
        rw [@isReferenceAssignableFrom_array K _ h _ _ fuel (by simp) _ .bogus hthis
          fun hne => absurd rfl (hne name)]
        simp [ClassHierarchy.Assignable, Widens]
      | primitiveArray q =>
        rw [isReferenceAssignableFrom_array h (by simp) hthis
          fun _ => getComponent_primitiveArray q, isAssignableWith_primitive]
        simp [ClassHierarchy.Assignable, Widens]
      | array component =>
        rw [isReferenceAssignableFrom_array h (by simp) hthis
          fun _ => getComponent_array component, type,
          (isAssignableWith_primitive_reference p component.name).1]
        simp [ClassHierarchy.Assignable, Widens]
    | array component =>
      have hthis := getComponent_array component
      cases source with
      | cls name =>
        rw [@isReferenceAssignableFrom_array K _ h _ _ fuel (by simp) _ .bogus hthis
          fun hne => absurd rfl (hne name)]
        simp [ClassHierarchy.Assignable, Widens]
      | primitiveArray q =>
        rw [isReferenceAssignableFrom_array h (by simp) hthis
          fun _ => getComponent_primitiveArray q, type,
          (isAssignableWith_primitive_reference q component.name).2]
        simp [ClassHierarchy.Assignable, Widens]
      | array other =>
        have hlength := component.length_name_lt
        rw [isReferenceAssignableFrom_array h (by simp) hthis
          fun _ => getComponent_array other, isAssignableWith_type, ih (by omega)]
        have hrefl : component = other → h.Assignable component other := by
          rintro rfl
          exact assignable_refl h component
        simp only [array.injEq, ClassHierarchy.Assignable, Widens, ne_eq, reduceCtorEq,
          not_false_eq_true, implies_true, true_and]
        tauto

theorem isAssignableFrom_type (target source : ReferenceType) :
    isAssignableFrom h target.type source.type = some true ↔
      h.Assignable target source ∨ target.Widens source := by
  have hfuel : target.name.length < target.type.nameLength + 1 := Nat.lt_succ_self _
  rw [isAssignableFrom, isAssignableWith_type, isReferenceAssignableFrom_iff h hfuel]
  have hrefl : target = source → h.Assignable target source := by
    rintro rfl
    exact assignable_refl h target
  tauto

omit [DecidableEq K] in
/-- An array of ints is no array of a smaller type in the specification. -/
theorem Widens.not_assignable {target source : ReferenceType} (hwidens : target.Widens source) :
    ¬h.Assignable target source := by
  induction target generalizing source with
  | cls name => exact hwidens.elim
  | primitiveArray p =>
    cases source with
    | cls name => exact hwidens.elim
    | primitiveArray q =>
      obtain ⟨hsmall, rfl⟩ := hwidens
      rintro rfl
      simp [PrimitiveType.Small] at hsmall
    | array component => exact hwidens.elim
  | array component ih =>
    cases source with
    | cls name => exact hwidens.elim
    | primitiveArray q => exact hwidens.elim
    | array other => exact ih hwidens

/-! ## Order -/

omit [DecidableEq K] in
/-- A superclass of an interface or of the root is one of these itself. -/
theorem eq_of_subclass {s k : K} (hsub : h.Subclass s k)
    (hs : s = h.object ∨ h.isInterface s = true) : k = h.object ∨ k = s := by
  rcases Relation.ReflTransGen.cases_head_iff.mp hsub with rfl | ⟨t, hsuper, hrest⟩
  · exact Or.inr rfl
  · rcases hs with rfl | hinterface
    · rw [h.super_object] at hsuper
      exact absurd hsuper (by simp)
    · obtain rfl := h.super_interface hinterface hsuper
      rcases Relation.ReflTransGen.cases_head_iff.mp hrest with rfl | ⟨t, hsuper', -⟩
      · exact Or.inl rfl
      · rw [h.super_object] at hsuper'
        exact absurd hsuper' (by simp)

omit [DecidableEq K] in
/-- What is assignable to a subclass is assignable to the class. -/
theorem assignable_of_subclass {name sourceName : ClassName} {k s : K} {source : ReferenceType}
    (hk : h.resolve name.bytes = some k) (hs : h.resolve sourceName.bytes = some s)
    (hsub : h.Subclass s k) (hassign : h.Assignable (cls sourceName) source) :
    h.Assignable (cls name) source := by
  have hroot : s = h.object ∨ h.isInterface s = true → h.Assignable (cls name) source := by
    intro hs'
    rcases eq_of_subclass h hsub hs' with rfl | rfl
    · exact Or.inr (Or.inl (h.resolve_eq_object.mp hk))
    · rcases hs' with rfl | hinterface
      · exact Or.inr (Or.inl (h.resolve_eq_object.mp hk))
      · exact Or.inr (Or.inr (Or.inl ⟨_, hk, hinterface⟩))
  rcases hassign with hname | hobject | ⟨k', hk', hinterface⟩ |
      ⟨other, k', s', rfl, hk', hs', hsub'⟩
  · cases source with
    | cls other =>
      have hother : other.bytes = sourceName.bytes := hname
      exact Or.inr (Or.inr (Or.inr ⟨other, k, s, rfl, hk, by rw [hother, hs], hsub⟩))
    | primitiveArray q => exact absurd (hname ▸ rfl) sourceName.ne_array
    | array component => exact absurd (hname ▸ rfl) sourceName.ne_array
  · have hs' := h.resolve_eq_object.mpr hobject
    rw [hs, Option.some.injEq] at hs'
    exact hroot (Or.inl hs')
  · rw [hs, Option.some.injEq] at hk'
    exact hroot (Or.inr (hk' ▸ hinterface))
  · rw [hs, Option.some.injEq] at hk'
    exact Or.inr (Or.inr (Or.inr ⟨other, k, s', rfl, hk, hs', (hk' ▸ hsub').trans hsub⟩))

omit [DecidableEq K] in
/-- The test is transitive. -/
theorem accepts_trans {first second third : ReferenceType}
    (hsecond : h.Assignable second first ∨ second.Widens first)
    (hthird : h.Assignable third second ∨ third.Widens second) :
    h.Assignable third first ∨ third.Widens first := by
  induction third generalizing first second with
  | cls name =>
    rcases hthird with (hname | hobject | hinterface | ⟨other, k, s, rfl, hk, hs, hsub⟩) | hwidens
    · obtain rfl : second = .cls name := name_injective hname
      exact hsecond
    · exact Or.inl (Or.inr (Or.inl hobject))
    · exact Or.inl (Or.inr (Or.inr (Or.inl hinterface)))
    · exact Or.inl (assignable_of_subclass h hk hs hsub (hsecond.resolve_right id))
    · exact hwidens.elim
  | primitiveArray p =>
    cases second with
    | cls name => exact (hthird.elim id id).elim
    | array component => exact (hthird.elim id id).elim
    | primitiveArray q =>
      rcases hthird with hsame | ⟨hsmall, rfl⟩
      · obtain rfl : p = q := hsame
        exact hsecond
      · cases first with
        | cls name => exact (hsecond.elim id id).elim
        | array component => exact (hsecond.elim id id).elim
        | primitiveArray r =>
          rcases hsecond with hsame | ⟨hint, -⟩
          · obtain rfl : PrimitiveType.int = r := hsame
            exact Or.inr ⟨hsmall, rfl⟩
          · simp [PrimitiveType.Small] at hint
  | array component ih =>
    cases second with
    | cls name => exact (hthird.elim id id).elim
    | primitiveArray q => exact (hthird.elim id id).elim
    | array other =>
      cases first with
      | cls name => exact (hsecond.elim id id).elim
      | primitiveArray r => exact (hsecond.elim id id).elim
      | array innermost => exact ih hsecond hthird

/-- The verification type of a reference that may be null. -/
def typeOf : Option ReferenceType → VerificationType
  | none => .null
  | some t => t.type

/-- The relation of the specification, where null is assignable to any reference. -/
def Conforms (target source : Option ReferenceType) : Prop :=
  source = none ∨ ∃ t s, target = some t ∧ source = some s ∧ h.Assignable t s

/-- The test is the relation of the specification unless the types are arrays of the same
dimensions, the one of ints and the other of booleans, bytes, chars or shorts. In any case it is
reflexive and transitive. -/
theorem isAssignableFrom_conforms_iff (target source : Option ReferenceType) :
    ((isAssignableFrom h (typeOf target) (typeOf source) = some true ↔ Conforms h target source) ↔
      ¬∃ t s, target = some t ∧ source = some s ∧ t.Widens s) ∧
    (∀ t : ReferenceType, isAssignableFrom h t.type t.type = some true) ∧
    ∀ first second third : ReferenceType,
      isAssignableFrom h second.type first.type = some true →
      isAssignableFrom h third.type second.type = some true →
      isAssignableFrom h third.type first.type = some true := by
  refine ⟨?_, fun t => ?_, fun first second third hsecond hthird => ?_⟩
  · cases source with
    | none =>
      have htrue : isAssignableFrom h (typeOf target) .null = some true := by
        cases target <;> rfl
      simp [show typeOf none = .null from rfl, htrue, Conforms]
    | some s =>
      cases target with
      | none =>
        have hfalse : isAssignableFrom h .null s.type = some false := rfl
        simp [typeOf, hfalse, Conforms]
      | some t =>
        have hnot := @Widens.not_assignable K h t s
        simp only [typeOf, isAssignableFrom_type, Conforms, reduceCtorEq, false_or,
          Option.some.injEq, exists_eq_left', exists_and_left]
        tauto
  · exact (isAssignableFrom_type h t t).mpr (Or.inl (assignable_refl h t))
  · rw [isAssignableFrom_type] at *
    exact accepts_trans h hsecond hthird

/-- A hierarchy of the root alone. -/
def rootHierarchy : ClassHierarchy Unit where
  resolve name := if name = javaLangObject then some () else none
  isInterface _ := false
  super _ := none
  depth _ := 0
  depth_super := by simp
  object := ()
  resolve_eq_object := by simp
  super_object := rfl
  super_interface := by simp

/-- An array of ints passes for an array of booleans. -/
theorem isAssignableFrom_intArray :
    ¬(isAssignableFrom rootHierarchy (typeOf (some (primitiveArray .boolean)))
        (typeOf (some (primitiveArray .int))) = some true ↔
      Conforms rootHierarchy (some (primitiveArray .boolean)) (some (primitiveArray .int))) := by
  have haccepts : isAssignableFrom rootHierarchy (primitiveArray .boolean).type
      (primitiveArray .int).type = some true := by decide
  intro h
  obtain hnull | ⟨t, s, ht, hs, hassign⟩ := h.mp haccepts
  · simp at hnull
  · cases ht
    cases hs
    exact absurd hassign (by simp [ClassHierarchy.Assignable])

end ReferenceType

end HotSpot
