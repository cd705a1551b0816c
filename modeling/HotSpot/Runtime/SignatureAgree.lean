import HotSpot.Lib.Simulation
import HotSpot.Runtime.Signature
import Mathlib

/-! # The parsers agree on signatures of the grammar

What the guard accepts is `(`, types, `)` and a type, where a type may be `V` or an array
of `V` also among the parameters. The iterator finds exactly these types. The stream finds
the same if no type is an array of `V`, behind which it runs to the next `;`, and the
parameters have the sizes of values if none is `V`. Both hold for the grammar at the head
of `signature.cpp`, and for nothing else that the guard accepts.
-/

namespace HotSpot

open ClassFileParser (Bytes Letter.array Letter.byte Letter.char Letter.cls Letter.endClass
  Letter.float Letter.double Letter.func Letter.endFunc Letter.int Letter.long Letter.short
  Letter.void Letter.boolean Letter.dot)

/-! ## The language of the guard -/

/-- The text of a type without dimensions. -/
inductive ElementText : Bytes → BasicType → Prop where
  | letter {c : UInt8} {type : BasicType} (h : BasicType.ofLetter? c = some type) :
      ElementText [c] type
  | object {name : Bytes} (h : ∀ c ∈ name, SignatureVerifier.invalidNameChar c = false) :
      ElementText (Letter.cls :: (name ++ [Letter.endClass])) .object

structure TypeText where
  dims : Nat
  element : Bytes
  elementType : BasicType
  valid : ElementText element elementType

namespace TypeText

def text (t : TypeText) : Bytes := List.replicate t.dims Letter.array ++ t.element

def type (t : TypeText) : BasicType := if t.dims = 0 then t.elementType else .array

/-- `FieldType` of the grammar has no `V`. -/
def IsFieldType (t : TypeText) : Prop := t.elementType ≠ .void

end TypeText

structure MethodText where
  parameters : List TypeText
  result : TypeText

namespace MethodText

def text (m : MethodText) : Bytes :=
  Letter.func :: (m.parameters.flatMap TypeText.text ++ Letter.endFunc :: m.result.text)

/-- The parameters are `FieldType`s and the result is one or `V` itself. -/
def FollowsGrammar (m : MethodText) : Prop :=
  (∀ t ∈ m.parameters, t.IsFieldType) ∧ (m.result.dims = 0 ∨ m.result.IsFieldType)

end MethodText

/-- A `Signature` of the grammar at the head of `signature.cpp`. -/
def FollowsGrammar (sig : Bytes) : Prop :=
  ∃ m : MethodText, m.text = sig ∧ m.FollowsGrammar

/-! ## Letters -/

/-- The letters of types are none of the other letters that the parsers look for. -/
theorem BasicType.ofLetter?_ne {c : UInt8} {type : BasicType}
    (h : BasicType.ofLetter? c = some type) :
    c ≠ Letter.cls ∧ c ≠ Letter.array ∧ c ≠ Letter.endFunc ∧ c ≠ Letter.endClass ∧
      isDigit c = false := by
  unfold BasicType.ofLetter? at h
  split_ifs at h <;> subst c <;> decide

/-- A letter stands for no object and no array. -/
theorem BasicType.ofLetter?_primitive {c : UInt8} {type : BasicType}
    (h : BasicType.ofLetter? c = some type) : ¬(type = .object ∨ type = .array) := by
  unfold BasicType.ofLetter? at h
  split_ifs at h <;> cases h <;> decide

namespace ElementText

variable {e : Bytes} {type : BasicType}

/-- The first letter of an element. -/
theorem exists_cons (h : ElementText e type) :
    ∃ c p, e = c :: p ∧ c ≠ Letter.array ∧ c ≠ Letter.endFunc ∧ isDigit c = false := by
  cases h with
  | letter h =>
    obtain ⟨-, harray, hfunc, -, hdigit⟩ := BasicType.ofLetter?_ne h
    exact ⟨_, _, rfl, harray, hfunc, hdigit⟩
  | object h => exact ⟨_, _, rfl, by decide, by decide, by decide⟩

/-- No size stands behind a dimension. -/
theorem exists_not_digit (h : ElementText e type) (n : Nat) (q : Bytes) :
    ∃ c p, List.replicate n Letter.array ++ (e ++ q) = c :: p ∧ isDigit c = false := by
  obtain ⟨c, p, rfl, -, -, hdigit⟩ := h.exists_cons
  cases n with
  | zero => exact ⟨c, p ++ q, rfl, hdigit⟩
  | succ n => exact ⟨Letter.array, _, rfl, by decide⟩

end ElementText

/-- A name of the guard does not hold the end of a class name. -/
theorem endClass_not_mem {name : Bytes}
    (h : ∀ c ∈ name, SignatureVerifier.invalidNameChar c = false) : Letter.endClass ∉ name := by
  intro hmem
  exact absurd (h _ hmem) (by decide)

namespace SignatureVerifier

theorem nameLength_spec {p : Bytes} {n : Nat} (h : nameLength p = some n) :
    ∃ name q, p = name ++ Letter.endClass :: q ∧ n = name.length + 1 ∧
      ∀ c ∈ name, invalidNameChar c = false := by
  induction p generalizing n with
  | nil => cases h
  | cons c p ih =>
    rw [nameLength] at h
    split at h
    next hend =>
      cases h
      exact ⟨[], p, by rw [hend, List.nil_append], rfl, by simp⟩
    next hend =>
      split at h
      next => cases h
      next hvalid =>
        obtain ⟨k, hk, rfl⟩ := Option.map_eq_some_iff.mp h
        obtain ⟨name, q, rfl, rfl, hname⟩ := ih hk
        refine ⟨c :: name, q, rfl, rfl, ?_⟩
        intro d hd
        rcases List.mem_cons.mp hd with rfl | hd
        · simpa using hvalid
        · exact hname d hd

/-- What the guard takes for a type is the text of one. -/
theorem isValidType_spec {p : Bytes} {n : Nat} (h : isValidType p = some n) :
    ∃ (t : TypeText) (q : Bytes), p = t.text ++ q ∧ n = t.text.length := by
  induction p generalizing n with
  | nil => cases h
  | cons c p ih =>
    rw [isValidType] at h
    split at h
    next harray =>
      obtain ⟨k, hk, rfl⟩ := Option.map_eq_some_iff.mp h
      obtain ⟨t, q, rfl, rfl⟩ := ih hk
      refine ⟨⟨t.dims + 1, t.element, t.elementType, t.valid⟩, q, ?_, ?_⟩
      · simp [TypeText.text, List.replicate_succ, harray]
      · simp [TypeText.text]
        omega
    next harray =>
      split at h
      next hletter =>
        obtain ⟨type, htype⟩ := Option.isSome_iff_exists.mp hletter
        cases h
        exact ⟨⟨0, [c], type, .letter htype⟩, p, rfl, rfl⟩
      next =>
        split at h
        next hcls =>
          obtain ⟨k, hk, rfl⟩ := Option.map_eq_some_iff.mp h
          obtain ⟨name, q, rfl, rfl, hname⟩ := nameLength_spec hk
          refine ⟨⟨0, _, .object, .object hname⟩, q, ?_, ?_⟩
          · simp [TypeText.text, hcls]
          · simp [TypeText.text]
        next => cases h

end SignatureVerifier

/-! ## Positions in a signature -/

section Positions

variable {sig p q : Bytes} {c : UInt8} {i : Nat}

theorem byteAt_of_drop (h : sig.drop i = c :: q) : byteAt sig i = .ok c := by
  have hget : sig[i]? = some c := by
    rw [← List.head?_drop, h]
    rfl
  rw [byteAt, hget]

theorem drop_succ (h : sig.drop i = c :: q) : sig.drop (i + 1) = q := by
  rw [← List.drop_drop, h]
  rfl

theorem drop_length_add (h : sig.drop i = p ++ q) : sig.drop (i + p.length) = q := by
  rw [← List.drop_drop, h, List.drop_left]

theorem length_of_drop (h : sig.drop i = c :: q) : sig.length = i + q.length + 1 := by
  have hlength := congrArg List.length h
  simp only [List.length_drop, List.length_cons] at hlength
  omega

end Positions

namespace SignatureVerifier

/-- The loop over the parameters accepts types, `)` and a type. -/
theorem isValidParameters_spec {sig : Bytes} {fuel index : Nat}
    (h : isValidParameters sig fuel index = true) :
    ∃ (parameters : List TypeText) (result : TypeText),
      sig.drop index = parameters.flatMap TypeText.text ++ Letter.endFunc :: result.text := by
  induction fuel generalizing index with
  | zero => cases h
  | succ fuel ih =>
    rw [isValidParameters] at h
    split at h
    next => cases h
    next c hc =>
      have hdrop : sig.drop index = c :: sig.drop (index + 1) := by
        obtain ⟨hlt, hget⟩ := List.getElem?_eq_some_iff.mp hc
        rw [List.drop_eq_getElem_cons hlt, hget]
      split at h
      next hne =>
        split at h
        next => cases h
        next res hres =>
          obtain ⟨t, q, ht, rfl⟩ := isValidType_spec hres
          obtain ⟨parameters, result, hrest⟩ := ih h
          rw [drop_length_add ht] at hrest
          exact ⟨t :: parameters, result, by simp [ht, hrest]⟩
      next heq =>
        rw [decide_eq_true_iff] at h
        obtain ⟨t, q, ht, hlength⟩ := isValidType_spec h
        have hq : q = [] := by
          have hsum := congrArg List.length ht
          simp only [List.length_drop, List.length_append] at hsum
          exact List.length_eq_zero_iff.mp (by omega)
        rw [not_not] at heq
        exact ⟨[], t, by rw [hdrop, ht, heq, hq]; simp⟩

theorem isValidMethodSignature_spec {sig : Bytes} (h : isValidMethodSignature sig = true) :
    ∃ m : MethodText, m.text = sig := by
  simp only [isValidMethodSignature, Bool.and_eq_true, decide_eq_true_iff] at h
  obtain ⟨parameters, result, hrest⟩ := isValidParameters_spec h.2
  cases sig with
  | nil => exact absurd h.1.1 (by decide)
  | cons c p =>
    obtain rfl : c = Letter.func := by simpa using h.1.2
    exact ⟨⟨parameters, result⟩, by rw [MethodText.text, ← hrest]; rfl⟩

end SignatureVerifier

/-! ## The scans -/

section Scans

variable {sig q : Bytes} {i fuel : Nat}

theorem skipClassName_eq {name : Bytes} (hname : Letter.endClass ∉ name)
    (h : sig.drop i = name ++ Letter.endClass :: q) (hfuel : name.length < fuel) :
    skipClassName sig fuel i = .ok (i + name.length + 1) := by
  induction name generalizing i fuel with
  | nil =>
    obtain ⟨fuel, rfl⟩ : ∃ k, fuel = k + 1 := ⟨fuel - 1, by simp at hfuel; omega⟩
    rw [skipClassName, byteAt_of_drop h]
    rfl
  | cons c name ih =>
    obtain ⟨fuel, rfl⟩ : ∃ k, fuel = k + 1 := ⟨fuel - 1, by simp at hfuel; omega⟩
    rw [List.mem_cons, not_or] at hname
    have hrest := ih hname.2 (drop_succ h) (by simpa using hfuel)
    have hne : c ≠ Letter.endClass := fun heq => hname.1 heq.symm
    rw [skipClassName, byteAt_of_drop h, bind_ok, if_neg hne, hrest, List.length_cons]
    congr 1
    omega

/-- From the `L` of an object type to its end. -/
theorem skipClassName_object {name : Bytes}
    (hname : ∀ c ∈ name, SignatureVerifier.invalidNameChar c = false)
    (h : sig.drop i = Letter.cls :: (name ++ [Letter.endClass]) ++ q) :
    skipClassName sig sig.length i =
      .ok (i + (Letter.cls :: (name ++ [Letter.endClass])).length) := by
  have hmem : Letter.endClass ∉ Letter.cls :: name := by
    rw [List.mem_cons, not_or]
    exact ⟨by decide, endClass_not_mem hname⟩
  have hlength := congrArg List.length h
  simp only [List.length_drop, List.length_append, List.length_cons, List.length_nil] at hlength
  have hfuel : (Letter.cls :: name).length < sig.length := by
    rw [List.length_cons]
    omega
  rw [skipClassName_eq hmem (by simpa using h) hfuel]
  simp only [List.length_append, List.length_cons, List.length_nil]
  congr 1

/-- The scan for `;` does not end before the first byte that is none. -/
theorem lt_of_skipClassName {c : UInt8} {n : Nat} (h : sig.drop i = c :: q)
    (hc : c ≠ Letter.endClass) (hn : skipClassName sig fuel i = .ok n) : i + 1 < n := by
  have hle : ∀ (fuel i n : Nat), skipClassName sig fuel i = .ok n → i < n := by
    intro fuel
    induction fuel with
    | zero => simp [skipClassName]
    | succ fuel ih =>
      intro i n hn
      obtain ⟨c, -, hn⟩ := bind_eq_ok hn
      split at hn
      · cases hn
        exact Nat.lt_succ_self i
      · exact Nat.lt_of_succ_lt (ih _ _ hn)
  cases fuel with
  | zero => simp [skipClassName] at hn
  | succ fuel =>
    rw [skipClassName, byteAt_of_drop h, bind_ok, if_neg hc] at hn
    exact hle fuel (i + 1) n hn

namespace SignatureIterator

theorem skipOptionalSize_eq {c : UInt8} (h : sig.drop i = c :: q) (hc : isDigit c = false)
    (hfuel : 0 < fuel) : skipOptionalSize sig fuel i = .ok i := by
  obtain ⟨fuel, rfl⟩ := Nat.exists_eq_add_one.mpr hfuel
  rw [skipOptionalSize, byteAt_of_drop h, bind_ok, hc]
  rfl

/-- Dimensions, none of them with a size, end at the element. -/
theorem skipDimensions_eq {n : Nat} {e : Bytes} {type : BasicType} (he : ElementText e type)
    (h : sig.drop i = List.replicate n Letter.array ++ (e ++ q)) (hfuel : n < fuel) :
    skipDimensions sig fuel i = .ok (i + n) := by
  induction n generalizing i fuel with
  | zero =>
    obtain ⟨fuel, rfl⟩ := Nat.exists_eq_add_one.mpr hfuel
    obtain ⟨c, p, rfl, harray, -⟩ := he.exists_cons
    rw [skipDimensions, byteAt_of_drop h, bind_ok, if_neg harray]
    rfl
  | succ n ih =>
    obtain ⟨fuel, rfl⟩ := Nat.exists_eq_add_one.mpr (Nat.lt_of_le_of_lt (Nat.zero_le _) hfuel)
    rw [List.replicate_succ] at h
    obtain ⟨d, r, hd, hdigit⟩ := he.exists_not_digit n q
    have hpos : 0 < sig.length := by rw [length_of_drop h]; omega
    rw [skipDimensions, byteAt_of_drop h, bind_ok, if_pos rfl,
      skipOptionalSize_eq ((drop_succ h).trans hd) hdigit hpos, bind_ok,
      ih (drop_succ h) (by omega)]
    congr 1
    omega

theorem skipElement_eq {e : Bytes} {type : BasicType} (he : ElementText e type)
    (h : sig.drop i = e ++ q) : skipElement sig i = .ok (i + e.length) := by
  cases he with
  | letter hc =>
    have hne := (BasicType.ofLetter?_ne hc).1
    rw [skipElement, byteAt_of_drop h, bind_ok, if_neg hne]
    rfl
  | @object name hname =>
    rw [skipElement, byteAt_of_drop h, bind_ok, if_pos rfl, skipClassName_object hname h]

/-- The arguments of `do_object` and `do_array` leave out the first letter. -/
def argumentsOf (t : TypeText) (i : Nat) : Option (Nat × Nat) :=
  if t.type = .object ∨ t.type = .array then some (i + 1, i + t.text.length) else none

theorem scanType_eq {t : TypeText} (h : sig.drop i = t.text ++ q) :
    scanType sig i = .ok (t.type, argumentsOf t i, i + t.text.length) := by
  obtain ⟨dims, e, type, he⟩ := t
  cases dims with
  | zero =>
    cases he with
    | letter hc =>
      rw [scanType, byteAt_of_drop h, bind_ok, hc]
      have hne := BasicType.ofLetter?_primitive hc
      simp [argumentsOf, TypeText.type, TypeText.text, hne]
      rfl
    | @object name hname =>
      have hlength := congrArg List.length h
      simp only [TypeText.text, List.replicate_zero, List.nil_append, List.length_drop,
        List.length_append, List.length_cons, List.length_nil] at hlength
      have hscan : skipClassName sig sig.length (i + 1) = .ok (i + 1 + name.length + 1) :=
        skipClassName_eq (endClass_not_mem hname) (q := q) (by simpa using drop_succ h)
          (by omega)
      have hnone : BasicType.ofLetter? Letter.cls = none := by decide
      rw [scanType, byteAt_of_drop h, bind_ok, hnone]
      dsimp only
      rw [if_pos rfl, hscan, bind_ok]
      have hnext : i + 1 + name.length + 1 = i + (name.length + 1 + 1) := by omega
      simp [argumentsOf, TypeText.type, TypeText.text, hnext]
      rfl
  | succ n =>
    have hfirst : sig.drop i = Letter.array :: (List.replicate n Letter.array ++ (e ++ q)) := by
      rw [h, TypeText.text, List.replicate_succ]
      simp
    have hrest := drop_succ hfirst
    have hlength := length_of_drop hfirst
    simp only [List.length_append, List.length_replicate] at hlength
    obtain ⟨d, r, hd, hdigit⟩ := he.exists_not_digit n q
    have helement : sig.drop (i + 1 + n) = e ++ q := by
      simpa using drop_length_add hrest
    have hnone : BasicType.ofLetter? Letter.array = none := by decide
    have hcls : Letter.array ≠ Letter.cls := by decide
    rw [scanType, byteAt_of_drop hfirst, bind_ok, hnone]
    dsimp only
    rw [if_neg hcls, if_pos rfl, skipOptionalSize_eq (hrest.trans hd) hdigit (by omega),
      bind_ok, skipDimensions_eq he hrest (by omega), bind_ok, skipElement_eq he helement, bind_ok]
    have hnext : i + 1 + n + e.length = i + (n + 1 + e.length) := by omega
    simp [argumentsOf, TypeText.type, TypeText.text, hnext]
    rfl

end SignatureIterator

namespace SignatureStream

theorem skipSize_eq {c : UInt8} (h : sig.drop i = c :: q) (hc : isDigit c = false) :
    skipSize sig i = .ok i := by
  rw [skipSize, byteAt_of_drop h, bind_ok, skipDigits, hc]
  rfl

theorem skipDimensions_eq {n : Nat} {e : Bytes} {type : BasicType} (he : ElementText e type)
    (h : sig.drop i = List.replicate n Letter.array ++ (e ++ q)) (hfuel : n < fuel) :
    skipDimensions sig fuel i = .ok (i + n) := by
  induction n generalizing i fuel with
  | zero =>
    obtain ⟨fuel, rfl⟩ := Nat.exists_eq_add_one.mpr hfuel
    obtain ⟨c, p, rfl, harray, -⟩ := he.exists_cons
    rw [skipDimensions, byteAt_of_drop h, bind_ok, if_neg harray]
    rfl
  | succ n ih =>
    obtain ⟨fuel, rfl⟩ := Nat.exists_eq_add_one.mpr (Nat.lt_of_le_of_lt (Nat.zero_le _) hfuel)
    rw [List.replicate_succ] at h
    obtain ⟨d, r, hd, hdigit⟩ := he.exists_not_digit n q
    rw [skipDimensions, byteAt_of_drop h, bind_ok, if_pos rfl,
      skipSize_eq ((drop_succ h).trans hd) hdigit, bind_ok, ih (drop_succ h) (by omega)]
    congr 1
    omega

theorem skipElement_eq {e : Bytes} {type : BasicType} (he : ElementText e type)
    (hvoid : type ≠ .void) (h : sig.drop i = e ++ q) :
    skipElement sig i = .ok (i + e.length) := by
  cases he with
  | letter hc =>
    rw [skipElement, byteAt_of_drop h, bind_ok, hc]
    cases type <;> first | contradiction | rfl
  | @object name hname =>
    have hnone : BasicType.ofLetter? Letter.cls = none := by decide
    rw [skipElement, byteAt_of_drop h, bind_ok, hnone]
    exact skipClassName_object hname h

/-- Behind an element `V` the stream does not stop. -/
theorem lt_of_skipElement_void {e : Bytes} {n : Nat} (he : ElementText e .void)
    (h : sig.drop i = e ++ q) (hn : skipElement sig i = .ok n) : i + e.length < n := by
  cases he with
  | letter hc =>
    rw [skipElement, byteAt_of_drop h, bind_ok, hc] at hn
    exact lt_of_skipClassName h (BasicType.ofLetter?_ne hc).2.2.2.1 hn

/-- Where the stream is at a type that starts at `i`. -/
def atType (t : TypeText) (i : Nat) (atReturnType : Bool) : SignatureStream where
  begin := i
  stop := i + t.text.length
  type := some t.type
  atReturnType := atReturnType

/-- What `next` does at an array: all but the end of the element is known. -/
theorem next_array {n : Nat} {e : Bytes} {type : BasicType} {ss : SignatureStream}
    (he : ElementText e type)
    (h : sig.drop ss.stop = List.replicate (n + 1) Letter.array ++ (e ++ q)) :
    next sig (fuel + 1) ss = (skipElement sig (ss.stop + (n + 1)) >>= fun stop =>
      .ok { ss with begin := ss.stop, type := some .array, stop := stop }) := by
  have hfirst : sig.drop ss.stop =
      Letter.array :: (List.replicate n Letter.array ++ (e ++ q)) := by
    rw [h, List.replicate_succ]
    rfl
  have hlength := length_of_drop hfirst
  simp only [List.length_append, List.length_replicate] at hlength
  have hpos : 0 < e.length := by
    obtain ⟨c, p, rfl, -⟩ := he.exists_cons
    exact Nat.zero_lt_succ _
  have hnone : BasicType.ofLetter? Letter.array = none := by decide
  have hcls : Letter.array ≠ Letter.cls := by decide
  rw [next, if_neg (by omega), byteAt_of_drop hfirst, bind_ok, hnone]
  dsimp only
  rw [if_neg hcls, if_pos rfl, skipSize_eq hfirst (by decide), bind_ok,
    skipDimensions_eq he h (by omega), bind_ok]
  rfl

/-- The stream stops at a type that is no array of `V`. -/
theorem next_type {t : TypeText} {ss : SignatureStream} (h : sig.drop ss.stop = t.text ++ q)
    (ht : t.dims = 0 ∨ t.IsFieldType) :
    next sig (fuel + 1) ss = .ok (atType t ss.stop ss.atReturnType) := by
  obtain ⟨dims, e, type, he⟩ := t
  cases dims with
  | zero =>
    cases he with
    | letter hc =>
      have hlength := length_of_drop h
      rw [next, if_neg (by omega), byteAt_of_drop h, bind_ok, hc]
      rfl
    | @object name hname =>
      have hlength := length_of_drop h
      have hnone : BasicType.ofLetter? Letter.cls = none := by decide
      rw [next, if_neg (by omega), byteAt_of_drop h, bind_ok, hnone]
      dsimp only
      rw [if_pos rfl, skipClassName_object hname h, bind_ok]
      rfl
  | succ n =>
    have hvoid : type ≠ .void := ht.resolve_left (Nat.succ_ne_zero n)
    rw [TypeText.text, List.append_assoc] at h
    have helement : sig.drop (ss.stop + (n + 1)) = e ++ q := by
      simpa using drop_length_add h
    rw [next_array he h, skipElement_eq he hvoid helement, bind_ok]
    simp [atType, TypeText.type, TypeText.text]
    omega

/-- At an array of `V` it stops elsewhere, if at all. -/
theorem lt_of_next_void {t : TypeText} {ss ss' : SignatureStream}
    (h : sig.drop ss.stop = t.text ++ q) (ht : ¬(t.dims = 0 ∨ t.IsFieldType))
    (hnext : next sig (fuel + 1) ss = .ok ss') : ss.stop + t.text.length < ss'.stop := by
  obtain ⟨dims, e, type, he⟩ := t
  simp only [not_or, TypeText.IsFieldType, not_not] at ht
  obtain ⟨hdims, rfl⟩ := ht
  obtain ⟨n, rfl⟩ := Nat.exists_eq_add_one_of_ne_zero hdims
  rw [TypeText.text, List.append_assoc] at h
  have helement : sig.drop (ss.stop + (n + 1)) = e ++ q := by
    simpa using drop_length_add h
  rw [next_array he h] at hnext
  obtain ⟨stop, hstop, hnext⟩ := bind_eq_ok hnext
  cases hnext
  have hlt := lt_of_skipElement_void he helement hstop
  simp [TypeText.text]
  omega

end SignatureStream

end Scans

/-! ## The iterator's run -/

theorem TypeText.length_pos (t : TypeText) : 0 < t.text.length := by
  obtain ⟨c, p, hcons, -⟩ := t.valid.exists_cons
  rw [TypeText.text, List.length_append, hcons, List.length_cons]
  omega

theorem length_le_flatMap_text (ts : List TypeText) :
    ts.length ≤ (ts.flatMap TypeText.text).length := by
  induction ts with
  | nil => exact Nat.le_refl 0
  | cons t ts ih =>
    have hpos := t.length_pos
    simp only [List.flatMap_cons, List.length_append, List.length_cons]
    omega

theorem TypeText.exists_cons (t : TypeText) :
    ∃ c p, t.text = c :: p ∧ c ≠ Letter.endFunc := by
  obtain ⟨c, p, hcons, -, hfunc, -⟩ := t.valid.exists_cons
  cases hdims : t.dims with
  | zero => exact ⟨c, p, by rw [TypeText.text, hdims, hcons]; rfl, hfunc⟩
  | succ n => exact ⟨Letter.array, _, by rw [TypeText.text, hdims]; rfl, by decide⟩

namespace SignatureIterator

def callFor (t : TypeText) (i : Nat) (parameterIndex : Int) : DoType where
  type := t.type
  arguments := argumentsOf t i
  first := i
  next := i + t.text.length
  parameterIndex := parameterIndex

/-- The calls for the parameters from `i` on. -/
def callsFrom : Nat → Int → List TypeText → List DoType
  | _, _, [] => []
  | i, k, t :: ts => callFor t i k :: callsFrom (i + t.text.length) (k + t.type.size) ts

variable {sig q : Bytes} {fuel : Nat} {it : SignatureIterator}

theorem parseType_eq {t : TypeText} (h : sig.drop it.index = t.text ++ q) :
    parseType sig it = .ok (t.type.size, { it with
      index := it.index + t.text.length
      returnType := if it.parameterIndex < 0 then some t.type else it.returnType
      calls := it.calls ++ [callFor t it.index it.parameterIndex] }) := by
  rw [parseType, scanType_eq h, bind_ok]
  rfl

theorem parseParameters_eq {ts : List TypeText}
    (h : sig.drop it.index = ts.flatMap TypeText.text ++ Letter.endFunc :: q)
    (hfuel : ts.length < fuel) (hindex : 0 ≤ it.parameterIndex) :
    ∃ k, parseParameters sig fuel it = .ok { it with
      index := it.index + (ts.flatMap TypeText.text).length
      parameterIndex := k
      calls := it.calls ++ callsFrom it.index it.parameterIndex ts } := by
  induction ts generalizing it fuel with
  | nil =>
    obtain ⟨fuel, rfl⟩ := Nat.exists_eq_add_one.mpr hfuel
    refine ⟨it.parameterIndex, ?_⟩
    rw [parseParameters, byteAt_of_drop h, bind_ok, if_neg (not_not.mpr rfl)]
    simp [callsFrom]
    rfl
  | cons t ts ih =>
    obtain ⟨fuel, rfl⟩ := Nat.exists_eq_add_one.mpr (Nat.lt_of_le_of_lt (Nat.zero_le _) hfuel)
    rw [List.flatMap_cons, List.append_assoc] at h
    obtain ⟨c, p, hcons, hfunc⟩ := t.exists_cons
    have hfirst := h
    rw [hcons] at hfirst
    rw [parseParameters, byteAt_of_drop hfirst, bind_ok, if_pos hfunc, parseType_eq h, bind_ok]
    dsimp only
    rw [if_neg (Int.not_lt.mpr hindex)]
    obtain ⟨k, hk⟩ := @ih fuel { it with
        index := it.index + t.text.length
        calls := it.calls ++ [callFor t it.index it.parameterIndex]
        parameterIndex := it.parameterIndex + t.type.size }
      (drop_length_add h) (by simpa using hfuel) (by dsimp only; omega)
    refine ⟨k, hk.trans ?_⟩
    simp [callsFrom]
    omega

section Method

variable {m : MethodText}

/-- Where the result starts. -/
def resultIndex (m : MethodText) : Nat := 1 + (m.parameters.flatMap TypeText.text).length + 1

theorem parenthesized_eq : ∃ k, parenthesized m.text = .ok
    ⟨resultIndex m, k, none, callsFrom 1 0 m.parameters⟩ := by
  have hstart : m.text.drop 0 = Letter.func ::
      (m.parameters.flatMap TypeText.text ++ Letter.endFunc :: m.result.text) := rfl
  have hlength := length_of_drop hstart
  have hcount := length_le_flatMap_text m.parameters
  rw [List.length_append] at hlength
  obtain ⟨k, hk⟩ := @parseParameters_eq m.text m.result.text m.text.length ⟨1, 0, none, []⟩
    m.parameters (drop_succ hstart) (by omega) (Int.le_refl 0)
  refine ⟨k, ?_⟩
  have hexpect : expect m.text Letter.func start = .ok ⟨1, 0, none, []⟩ := rfl
  rw [parenthesized, hexpect, bind_ok, hk, bind_ok, expect,
    byteAt_of_drop (drop_length_add (drop_succ hstart)), bind_ok, if_pos rfl]
  rfl

theorem iterate_eq : iterate m.text = .ok ⟨m.text.length, 0, some m.result.type,
    callsFrom 1 0 m.parameters ++ [callFor m.result (resultIndex m) (-1)]⟩ := by
  obtain ⟨k, hk⟩ := @parenthesized_eq m
  have hresult : m.text.drop (resultIndex m) = m.result.text ++ [] := by
    rw [List.append_nil, resultIndex]
    exact drop_succ (drop_length_add rfl)
  rw [iterate, hk, bind_ok, parseType_eq hresult, bind_ok]
  have hlength : m.text.length = resultIndex m + m.result.text.length := by
    simp [MethodText.text, resultIndex]
    omega
  rw [hlength]
  rfl

/-- The sizes of the types of the parameters. -/
theorem size_eq : ArgumentSizeComputer.size m.text =
    .ok ((callsFrom 1 0 m.parameters).map (·.type.size)).sum := by
  obtain ⟨k, hk⟩ := @parenthesized_eq m
  rw [ArgumentSizeComputer.size, iterateParameters, hk]
  rfl

end Method

end SignatureIterator

/-! ## The stream's run -/

namespace SignatureStream

def atTypesFrom : Nat → List TypeText → List SignatureStream
  | _, [] => []
  | i, t :: ts => atType t i false :: atTypesFrom (i + t.text.length) ts

variable {sig q : Bytes} {fuel : Nat} {ss : SignatureStream}

/-- The rest of the run at a stop that lies inside the signature. -/
theorem stops_succ (h : ss.stop ≤ sig.length) :
    stops sig (fuel + 1) ss = (next sig sig.length ss >>= stops sig fuel >>= fun rest =>
      .ok (ss :: rest)) := by
  rw [stops, if_neg (by simpa [isDone] using h)]
  cases next sig sig.length ss <;> rfl

theorem bind_cons_eq_ok {x : Except SignatureFault (List SignatureStream)}
    {rest : List SignatureStream} :
    (x >>= fun rest => .ok (ss :: rest)) = .ok (ss :: rest) ↔ x = .ok rest := by
  cases x with
  | error fault => exact iff_of_false nofun nofun
  | ok found => simp [bind_ok]

/-- At the end the stream is done. -/
theorem stops_end (h : ss.stop = sig.length) (hpos : 0 < sig.length) :
    stops sig (fuel + 2) ss = .ok [ss] := by
  obtain ⟨n, hn⟩ := Nat.exists_eq_add_one.mpr hpos
  rw [stops_succ (Nat.le_of_eq h), hn, next, if_pos (Nat.le_of_eq h.symm)]
  change stops sig (fuel + 1) { ss with stop := sig.length + 1 } >>= _ = _
  rw [stops, if_pos (by simp [isDone])]
  rfl

/-- From a `)` on: the result. -/
theorem stops_result {t : TypeText} (h : sig.drop ss.stop = Letter.endFunc :: t.text)
    (hindex : 0 < ss.stop) :
    next sig sig.length ss >>= stops sig (fuel + 2) = .ok [atType t (ss.stop + 1) true] ↔
      t.dims = 0 ∨ t.IsFieldType := by
  have hpos := t.length_pos
  have hlength := length_of_drop h
  obtain ⟨n, hn⟩ : ∃ n, sig.length = n + 2 := ⟨sig.length - 2, by omega⟩
  have hnone : BasicType.ofLetter? Letter.endFunc = none := by decide
  have hcls : Letter.endFunc ≠ Letter.cls := by decide
  have harray : Letter.endFunc ≠ Letter.array := by decide
  have hnext : next sig sig.length ss =
      (next sig (n + 1) { ss with begin := ss.stop, stop := ss.stop + 1 } >>= fun ss' =>
        .ok { ss' with atReturnType := true }) := by
    rw [hn, next, if_neg (by omega), byteAt_of_drop h, bind_ok, hnone]
    dsimp only
    rw [if_neg hcls, if_neg harray, if_pos rfl]
    rfl
  have hdrop : sig.drop (ss.stop + 1) = t.text ++ [] := by
    rw [List.append_nil]
    exact drop_succ h
  rw [hnext]
  constructor
  · intro hrun
    by_contra hbad
    obtain ⟨ss', hss, hrun⟩ := bind_eq_ok hrun
    obtain ⟨found, hfound, hss⟩ := bind_eq_ok hss
    cases hss
    have hlt : ss.stop + 1 + t.text.length < found.stop := lt_of_next_void hdrop hbad hfound
    have hdone : isDone sig { found with atReturnType := true } = true := by
      simp only [isDone, decide_eq_true_iff]
      omega
    rw [stops, if_pos hdone] at hrun
    cases hrun
  · intro hgood
    rw [next_type hdrop hgood, bind_ok, bind_ok]
    exact stops_end (by simp [atType]; omega) (by omega)

/-- The run over the parameters and the result is as the text says exactly if no type is
an array of `V`. -/
theorem stops_iff {ts : List TypeText} {t : TypeText}
    (h : sig.drop ss.stop = ts.flatMap TypeText.text ++ Letter.endFunc :: t.text)
    (hindex : 0 < ss.stop) (hreturn : ss.atReturnType = false) (hfuel : ts.length + 2 ≤ fuel) :
    next sig sig.length ss >>= stops sig fuel = .ok (atTypesFrom ss.stop ts ++
        [atType t (ss.stop + (ts.flatMap TypeText.text).length + 1) true]) ↔
      (∀ t ∈ ts, t.dims = 0 ∨ t.IsFieldType) ∧ (t.dims = 0 ∨ t.IsFieldType) := by
  induction ts generalizing ss fuel with
  | nil =>
    obtain ⟨fuel, rfl⟩ := Nat.exists_eq_add_of_le' hfuel
    simpa [atTypesFrom] using stops_result h hindex
  | cons first ts ih =>
    obtain ⟨fuel, rfl⟩ := Nat.exists_eq_add_one.mpr (Nat.lt_of_lt_of_le (Nat.succ_pos _) hfuel)
    rw [List.flatMap_cons, List.append_assoc] at h
    have hpos : sig.length = ss.stop + (first.text ++
        (ts.flatMap TypeText.text ++ Letter.endFunc :: t.text)).length := by
      rw [← h, List.length_drop]
      have hne : sig.drop ss.stop ≠ [] := by
        rw [h]
        simp
      have hlt : ss.stop < sig.length := by simpa using hne
      omega
    obtain ⟨n, hn⟩ := Nat.exists_eq_add_one.mpr (by omega : 0 < sig.length)
    simp only [List.length_append] at hpos
    by_cases hgood : first.dims = 0 ∨ first.IsFieldType
    · have hfirst : next sig sig.length ss = .ok (atType first ss.stop false) := by
        rw [hn, next_type h hgood, hreturn]
      have hrest := @ih fuel (atType first ss.stop false) (drop_length_add h)
        (by simp only [atType]; omega) rfl (by simpa using hfuel)
      have hindex : ss.stop + ((first :: ts).flatMap TypeText.text).length + 1 =
          ss.stop + first.text.length + (ts.flatMap TypeText.text).length + 1 := by
        rw [List.flatMap_cons, List.length_append]
        omega
      rw [hfirst, bind_ok, stops_succ (by simp only [atType]; omega), hindex, atTypesFrom,
        List.cons_append, bind_cons_eq_ok, List.forall_mem_cons, and_assoc]
      exact hrest.trans (and_iff_right hgood).symm
    · refine iff_of_false ?_ fun hall => hgood (hall.1 first List.mem_cons_self)
      intro hrun
      obtain ⟨found, hfound, hrun⟩ := bind_eq_ok hrun
      rw [hn] at hfound
      have hlt := lt_of_next_void h hgood hfound
      rw [stops] at hrun
      split at hrun
      · cases hrun
      · obtain ⟨ss', -, hrun⟩ := bind_eq_ok hrun
        obtain ⟨rest, -, hrun⟩ := bind_eq_ok hrun
        rw [atTypesFrom, List.cons_append] at hrun
        have hhead := (List.cons.inj (Except.ok.inj hrun)).1
        rw [hhead] at hlt
        exact Nat.lt_irrefl _ hlt

end SignatureStream

/-! ## Agreement -/

namespace DoType

def isReturnType (call : DoType) : Bool := call.parameterIndex < 0

/-- Where a stream is that agrees with the call. -/
def position (call : DoType) : SignatureStream :=
  ⟨call.first, call.next, some call.type, call.isReturnType⟩

/-- The words of a value. -/
def words (call : DoType) : Nat := if call.type = .long ∨ call.type = .double then 2 else 1

theorem size_le_words (call : DoType) : call.type.size ≤ call.words := by
  unfold words
  cases call.type <;> decide

theorem size_eq_words_iff (call : DoType) :
    call.type.size = call.words ↔ call.type ≠ .void := by
  unfold words
  cases call.type <;> decide

end DoType

theorem sum_size_le (calls : List DoType) :
    (calls.map (·.type.size)).sum ≤ (calls.map DoType.words).sum := by
  induction calls with
  | nil => exact Nat.le_refl 0
  | cons call calls ih => exact Nat.add_le_add call.size_le_words ih

/-- Both parsers return, with the same types at the same bytes, and the size of the
arguments is that of the values. `do_object` and `do_array` get the range without its
first letter. -/
def ParsersAgree (sig : Bytes) : Prop :=
  ∃ it, SignatureIterator.iterate sig = .ok it ∧
    SignatureStream.enumerate sig = .ok (it.calls.map DoType.position) ∧
    (∀ call ∈ it.calls, ∀ range, call.arguments = some range →
      range = (call.first + 1, call.next)) ∧
    ArgumentSizeComputer.size sig =
      .ok ((it.calls.filter (!·.isReturnType)).map DoType.words).sum

namespace SignatureIterator

theorem position_callsFrom {i : Nat} {k : Int} (hk : 0 ≤ k) (ts : List TypeText) :
    (callsFrom i k ts).map DoType.position = SignatureStream.atTypesFrom i ts := by
  induction ts generalizing i k with
  | nil => rfl
  | cons t ts ih =>
    have hparameter : (callFor t i k).isReturnType = false :=
      decide_eq_false (Int.not_lt.mpr hk)
    have hhead : (callFor t i k).position = SignatureStream.atType t i false := by
      rw [DoType.position, hparameter]
      rfl
    rw [callsFrom, List.map_cons, hhead, ih (by omega), SignatureStream.atTypesFrom]

theorem isReturnType_callsFrom {i : Nat} {k : Int} (hk : 0 ≤ k) {ts : List TypeText}
    {call : DoType} (h : call ∈ callsFrom i k ts) : call.isReturnType = false := by
  induction ts generalizing i k with
  | nil => cases h
  | cons t ts ih =>
    rcases List.mem_cons.mp h with rfl | h
    · exact decide_eq_false (Int.not_lt.mpr hk)
    · exact ih (by omega) h

/-- The sizes are those of values exactly if no parameter is `V`. -/
theorem sum_size_eq_iff {calls : List DoType} :
    (calls.map (·.type.size)).sum = (calls.map DoType.words).sum ↔
      ∀ call ∈ calls, call.type ≠ .void := by
  induction calls with
  | nil => simp
  | cons call calls ih =>
    have hhead := call.size_eq_words_iff
    have hle := call.size_le_words
    have hrest := sum_size_le calls
    rw [List.forall_mem_cons, ← ih, ← hhead]
    simp only [List.map_cons, List.sum_cons]
    omega

theorem type_callsFrom {i : Nat} {k : Int} {ts : List TypeText} :
    (∀ call ∈ callsFrom i k ts, call.type ≠ .void) ↔ ∀ t ∈ ts, t.type ≠ .void := by
  induction ts generalizing i k with
  | nil => simp [callsFrom]
  | cons t ts ih =>
    rw [callsFrom, List.forall_mem_cons, List.forall_mem_cons, ih]
    rfl

theorem arguments_callFor {t : TypeText} {i : Nat} {k : Int} {range : Nat × Nat}
    (h : (callFor t i k).arguments = some range) : range = (i + 1, i + t.text.length) := by
  simp only [callFor, argumentsOf] at h
  split at h
  · exact (Option.some.inj h).symm
  · cases h

theorem arguments_callsFrom {i : Nat} {k : Int} {ts : List TypeText} {call : DoType}
    (h : call ∈ callsFrom i k ts) {range : Nat × Nat} (hrange : call.arguments = some range) :
    range = (call.first + 1, call.next) := by
  induction ts generalizing i k with
  | nil => cases h
  | cons t ts ih =>
    rcases List.mem_cons.mp h with rfl | h
    · exact arguments_callFor hrange
    · exact ih h

end SignatureIterator

/-- What the guard accepts has at most two flaws: an array of `V`, or `V` as a parameter. -/
theorem MethodText.followsGrammar_iff {m : MethodText} :
    m.FollowsGrammar ↔
      ((∀ t ∈ m.parameters, t.dims = 0 ∨ t.IsFieldType) ∧
        (m.result.dims = 0 ∨ m.result.IsFieldType)) ∧ ∀ t ∈ m.parameters, t.type ≠ .void := by
  have htype : ∀ t : TypeText, t.IsFieldType ↔
      (t.dims = 0 ∨ t.IsFieldType) ∧ t.type ≠ .void := by
    intro t
    rw [TypeText.IsFieldType, TypeText.type]
    split <;> simp [*]
  constructor
  · rintro ⟨hparameters, hresult⟩
    exact ⟨⟨fun t ht => .inr (hparameters t ht), hresult⟩,
      fun t ht => ((htype t).mp (hparameters t ht)).2⟩
  · rintro ⟨⟨harrays, hresult⟩, hvoid⟩
    exact ⟨fun t ht => (htype t).mpr ⟨harrays t ht, hvoid t ht⟩, hresult⟩

theorem SignatureStream.enumerate_iff {m : MethodText} :
    SignatureStream.enumerate m.text = .ok
        (SignatureStream.atTypesFrom 1 m.parameters ++
          [SignatureStream.atType m.result (SignatureIterator.resultIndex m) true]) ↔
      (∀ t ∈ m.parameters, t.dims = 0 ∨ t.IsFieldType) ∧
        (m.result.dims = 0 ∨ m.result.IsFieldType) := by
  have hcount := length_le_flatMap_text m.parameters
  have hfuel : m.parameters.length + 2 ≤ m.text.length + 1 := by
    simp only [MethodText.text, List.length_cons, List.length_append]
    omega
  exact @stops_iff m.text (m.text.length + 1) ⟨1, 1, none, false⟩ m.parameters m.result rfl
    Nat.one_pos rfl hfuel

/-- On a text that the guard accepts the parsers agree exactly if it follows the grammar. -/
theorem MethodText.parsersAgree_iff {m : MethodText} :
    ParsersAgree m.text ↔ m.FollowsGrammar := by
  let calls := SignatureIterator.callsFrom 1 0 m.parameters
  let last := SignatureIterator.callFor m.result (SignatureIterator.resultIndex m) (-1)
  have hpositions : (calls ++ [last]).map DoType.position =
      SignatureStream.atTypesFrom 1 m.parameters ++
        [SignatureStream.atType m.result (SignatureIterator.resultIndex m) true] := by
    rw [List.map_append, SignatureIterator.position_callsFrom (Int.le_refl 0)]
    rfl
  have hparameters : (calls ++ [last]).filter (!·.isReturnType) = calls := by
    have hall : ∀ call ∈ calls, (!call.isReturnType) = true := by
      intro call hcall
      rw [SignatureIterator.isReturnType_callsFrom (Int.le_refl 0) hcall]
      rfl
    rw [List.filter_append, List.filter_eq_self.mpr hall]
    exact List.append_nil calls
  have harguments : ∀ call ∈ calls ++ [last], ∀ range, call.arguments = some range →
      range = (call.first + 1, call.next) := by
    intro call hcall range hrange
    rcases List.mem_append.mp hcall with hcall | hcall
    · exact SignatureIterator.arguments_callsFrom hcall hrange
    · rw [List.mem_singleton.mp hcall] at hrange ⊢
      exact SignatureIterator.arguments_callFor hrange
  have hsizes : ArgumentSizeComputer.size m.text = .ok (calls.map DoType.words).sum ↔
      ∀ t ∈ m.parameters, t.type ≠ .void := by
    rw [SignatureIterator.size_eq, Except.ok.injEq, SignatureIterator.sum_size_eq_iff]
    exact SignatureIterator.type_callsFrom
  rw [MethodText.followsGrammar_iff, ← SignatureStream.enumerate_iff, ← hsizes, ← hpositions]
  constructor
  · rintro ⟨it, hit, hstream, -, hsize⟩
    rw [SignatureIterator.iterate_eq] at hit
    cases hit
    rw [hparameters] at hsize
    exact ⟨hstream, hsize⟩
  · rintro ⟨hstream, hsize⟩
    refine ⟨_, SignatureIterator.iterate_eq, hstream, harguments, ?_⟩
    rw [hparameters]
    exact hsize

/-- All parsers agree on what the guard accepts exactly if it is a signature of the
grammar at the head of `signature.cpp`. -/
theorem parsersAgree_iff_followsGrammar {sig : Bytes}
    (h : SignatureVerifier.isValidMethodSignature sig = true) :
    ParsersAgree sig ↔ FollowsGrammar sig := by
  obtain ⟨m, rfl⟩ := SignatureVerifier.isValidMethodSignature_spec h
  constructor
  · intro hagree
    exact ⟨m, rfl, MethodText.parsersAgree_iff.mp hagree⟩
  · rintro ⟨m', htext, hgrammar⟩
    rw [← htext]
    exact MethodText.parsersAgree_iff.mpr hgrammar

/-- `([Lfoo;D)I`, the example of the header. -/
theorem parsersAgree_iff_followsGrammar_foo :
    SignatureVerifier.isValidMethodSignature
      [0x28, 0x5B, 0x4C, 0x66, 0x6F, 0x6F, 0x3B, 0x44, 0x29, 0x49] = true ∧
    ParsersAgree [0x28, 0x5B, 0x4C, 0x66, 0x6F, 0x6F, 0x3B, 0x44, 0x29, 0x49] := by
  have hvalid : SignatureVerifier.isValidMethodSignature
      [0x28, 0x5B, 0x4C, 0x66, 0x6F, 0x6F, 0x3B, 0x44, 0x29, 0x49] = true := by decide
  refine ⟨hvalid, (parsersAgree_iff_followsGrammar hvalid).mpr ?_⟩
  have hname : ∀ c ∈ ([0x66, 0x6F, 0x6F] : Bytes), SignatureVerifier.invalidNameChar c = false := by
    simp only [List.forall_mem_cons, List.not_mem_nil, false_imp_iff, implies_true, and_true]
    exact ⟨rfl, rfl, rfl⟩
  let foo : TypeText := ⟨1, _, .object, .object hname⟩
  let double : TypeText := ⟨0, [Letter.double], .double, .letter (by decide)⟩
  let int : TypeText := ⟨0, [Letter.int], .int, .letter (by decide)⟩
  refine ⟨⟨[foo, double], int⟩, rfl, ?_, .inl rfl⟩
  intro t ht
  simp only [List.mem_cons, List.not_mem_nil, or_false] at ht
  rcases ht with rfl | rfl <;> exact nofun

/-- `([V)V` passes the guard; the stream reads past its end. -/
theorem voidArray_parsers_disagree :
    SignatureVerifier.isValidMethodSignature [0x28, 0x5B, 0x56, 0x29, 0x56] = true ∧
    SignatureStream.enumerate [0x28, 0x5B, 0x56, 0x29, 0x56] = .error .pastEnd ∧
    ¬ParsersAgree [0x28, 0x5B, 0x56, 0x29, 0x56] := by
  have hstream : SignatureStream.enumerate [0x28, 0x5B, 0x56, 0x29, 0x56] = .error .pastEnd := by
    decide
  refine ⟨by decide, hstream, ?_⟩
  rintro ⟨it, -, henumerate, -⟩
  rw [hstream] at henumerate
  cases henumerate

end HotSpot
