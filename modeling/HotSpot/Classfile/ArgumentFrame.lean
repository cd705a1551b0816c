import HotSpot.Classfile.FrameMatch

/-! # The frame of the arguments

The types of a table take one slot or two, and so do the arguments that a method starts with.
-/

namespace HotSpot

open VerificationType CurrentFrame Bytecode StackMapReader
open ClassFileParser (Bytes)

/-! ## Frames of the table -/

namespace PairedLocals

theorem replicate_bogus (n : Nat) : PairedLocals (List.replicate n bogus) := by
  constructor <;> intro i k hi <;> rw [List.getElem?_replicate] at hi <;> split at hi <;>
    cases k <;> cases hi

theorem cons {t : VerificationType} {ts : List VerificationType} (hts : PairedLocals ts)
    (hcat : t.isCategory1 = true) : PairedLocals (t :: ts) := by
  constructor
  · intro i k hi
    cases i with
    | zero =>
      cases hi
      rw [k.isCategory1_first] at hcat
      cases hcat
    | succ i => exact hts.second_of_first hi
  · intro i k hi
    cases i with
    | zero =>
      cases hi
      rw [k.isCategory1_second] at hcat
      cases hcat
    | succ i =>
      obtain ⟨j, rfl, hj⟩ := hts.first_of_second hi
      exact ⟨j + 1, rfl, hj⟩

theorem cons_wide {ts : List VerificationType} (hts : PairedLocals ts) (k : Wide) :
    PairedLocals (k.first :: k.second :: ts) := by
  constructor
  · intro i k' hi
    match i, hi with
    | 0, hi =>
      obtain rfl := Wide.first_injective (Option.some.inj hi)
      rfl
    | 1, hi => exact absurd (Option.some.inj hi).symm (Wide.first_ne_second k' k)
    | i + 2, hi => exact hts.second_of_first (i := i) hi
  · intro i k' hi
    match i, hi with
    | 0, hi => exact absurd (Option.some.inj hi) (Wide.first_ne_second k k')
    | 1, hi =>
      obtain rfl := Wide.second_injective (Option.some.inj hi)
      exact ⟨0, rfl, rfl⟩
    | i + 2, hi =>
      obtain ⟨j, rfl, hj⟩ := hts.first_of_second (i := i) hi
      exact ⟨j + 2, rfl, hj⟩

end PairedLocals

/-- A type of a table without the second half that it may take: a word or two. -/
theorem slots_cases {t : VerificationType} (hslot : t.isSlotType = true)
    (hsecond : t.isCategory2Second = false) :
    (t.isCategory1 = true ∧ slots t = [t]) ∨ ∃ k : Wide, slots t = [k.first, k.second] := by
  cases t with
  | long => exact .inr ⟨.long, rfl⟩
  | double => exact .inr ⟨.double, rfl⟩
  | long2 | double2 => cases hsecond
  | category1Check | category2Check | category2SecondCheck | referenceCheck => cases hslot
  | _ => exact .inl ⟨rfl, rfl⟩

theorem pairedLocals_slots {types : List VerificationType} {ts : List VerificationType}
    (htypes : ∀ t ∈ types, t.isSlotType = true ∧ t.isCategory2Second = false)
    (hts : PairedLocals ts) : PairedLocals (types.flatMap slots ++ ts) := by
  induction types with
  | nil => exact hts
  | cons t types ih =>
    obtain ⟨ht, htypes⟩ := List.forall_mem_cons.1 htypes
    rw [List.flatMap_cons, List.append_assoc]
    rcases slots_cases ht.1 ht.2 with ⟨hcat, hslots⟩ | ⟨k, hslots⟩
    · rw [hslots]
      exact (ih htypes).cons hcat
    · rw [hslots]
      exact (ih htypes).cons_wide k

/-! ## The arguments -/

/-- The type of the first slot of an argument. -/
def JavaType.slotType : JavaType → VerificationType
  | boolean | byte | char | short | int => .integer
  | long => .long
  | float => .float
  | double => .double
  | reference name => .reference name

theorem JavaType.toVerificationTypes_eq (type : JavaType) :
    type.toVerificationTypes = slots type.slotType := by
  cases type <;> rfl

namespace ClassVerifier

variable {K : Type} (v : ClassVerifier K) (m : MethodCode)

/-- The receiver and the arguments without second halves. -/
def argumentFrame : FrameTypes where
  offset := 0
  locals := (if m.isStatic then []
    else if m.isObjectInitializer ∧ v.className ≠ javaLangObject then [uninitializedThis]
    else [v.currentType]) ++ m.signature.args.map (·.slotType)
  stack := []

theorem argumentFrame_slotTypes : ∀ t ∈ (v.argumentFrame m).locals,
    t.isSlotType = true ∧ t.isCategory2Second = false := by
  intro t ht
  rcases List.mem_append.1 ht with ht | ht
  · split at ht
    · cases ht
    · split at ht
      · rw [List.mem_singleton.1 ht]
        exact ⟨rfl, rfl⟩
      · rw [List.mem_singleton.1 ht]
        exact ⟨rfl, rfl⟩
  · obtain ⟨type, -, rfl⟩ := List.mem_map.1 ht
    cases type <;> exact ⟨rfl, rfl⟩

theorem argumentFrame_slots : (v.argumentFrame m).locals.flatMap slots = v.argumentTypes m := by
  have hargs : (m.signature.args.map (·.slotType)).flatMap slots = m.signature.argTypes := by
    simp only [MethodSignature.argTypes, List.flatMap_map, JavaType.toVerificationTypes_eq]
  simp only [argumentFrame, argumentTypes, List.flatMap_append, hargs]
  congr 1
  split
  · rfl
  · split <;> rfl

theorem length_argumentTypes : (v.argumentTypes m).length ≤ m.maxLocals := by
  refine Nat.le_trans ?_ m.args_le
  rw [argumentTypes, List.length_append]
  split
  · exact Nat.le_refl _
  · split <;> exact Nat.le_refl _

end ClassVerifier

end HotSpot
