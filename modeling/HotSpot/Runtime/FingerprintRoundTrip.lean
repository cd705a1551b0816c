import HotSpot.Runtime.Fingerprinter
import HotSpot.Runtime.SignatureAgree
import Mathlib.Data.Nat.Digits.Defs
import Mathlib.Data.Nat.Digits.Lemmas
import Mathlib.Tactic.Ring

/-! # What a fingerprint tells

The features of a method of at most `maxSizeOfParameters` words are digits of its
fingerprint that do not overlap, and the iteration over them makes the calls of the
iteration over the signature. The result type is that behind the first `)`, which may be
one of a class name.
-/

namespace HotSpot

open ClassFileParser (Bytes Letter.array Letter.cls Letter.endClass Letter.func Letter.endFunc)
open SignatureIterator

/-- Arrays are reported as objects. -/
def BasicType.reported : BasicType → BasicType
  | .array => .object
  | type => type

theorem BasicType.size_reported (type : BasicType) : type.reported.size = type.size := by
  cases type <;> rfl

theorem BasicType.one_le_size {type : BasicType} (htype : type ≠ .void) : 1 ≤ type.size := by
  cases type <;> simp [BasicType.size] at htype ⊢

/-- The result type fits into its field. -/
theorem BasicType.number_lt (type : BasicType) : type.number < 2 ^ resultFeatureSize := by
  cases type <;> decide

theorem BasicType.number_pos (type : BasicType) : 0 < type.number := by
  cases type <;> decide

theorem BasicType.number_injective {type type' : BasicType} (h : type.number = type'.number) :
    type = type' := by
  cases type <;> cases type' <;> first | rfl | cases h

namespace Fingerprinter

/-- The feature of a parameter. -/
def feature (type : BasicType) : Nat := (parm type).getD 0

theorem parm_eq {type : BasicType} (htype : type ≠ .void) : parm type = some (feature type) := by
  cases type <;> first | rfl | exact absurd rfl htype

theorem feature_lt (type : BasicType) : feature type < 10 := by
  cases type <;> decide

theorem feature_reported (type : BasicType) : feature type.reported = feature type := by
  cases type <;> rfl

theorem typeOfParm_feature {type : BasicType} (htype : type ≠ .void) :
    typeOfParm (feature type) = some type.reported := by
  cases type <;> first | rfl | exact absurd rfl htype

theorem reported_of_feature {type type' : BasicType} (htype : type ≠ .void)
    (htype' : type' ≠ .void) (h : feature type = feature type') :
    type.reported = type'.reported := by
  have := typeOfParm_feature htype
  rw [h, typeOfParm_feature htype'] at this
  exact (Option.some_inj.mp this).symm

/-! ## Packing -/

/-- A feature is put above those that are there. -/
theorem addParm_eq {parm : Nat} {f : Fingerprinter} (hparm : parm < 16)
    (hf : f.fingerprint < 2 ^ f.shiftCount) (hroom : f.shiftCount + 4 ≤ 64) :
    (f.addParm parm).fingerprint = f.fingerprint + 2 ^ f.shiftCount * parm ∧
      (f.addParm parm).fingerprint < 2 ^ (f.shiftCount + 4) := by
  have hpow : 2 ^ f.shiftCount * 16 = 2 ^ (f.shiftCount + 4) := by
    rw [pow_add]
    rfl
  have hmul : 2 ^ f.shiftCount * parm + 2 ^ f.shiftCount ≤ 2 ^ f.shiftCount * 16 := by
    rw [← Nat.mul_succ]
    exact Nat.mul_le_mul_left _ hparm
  have htop : 2 ^ (f.shiftCount + 4) ≤ 2 ^ 64 := Nat.pow_le_pow_right (by decide) hroom
  have hshift : parm <<< f.shiftCount = 2 ^ f.shiftCount * parm := by
    rw [Nat.shiftLeft_eq, Nat.mul_comm]
  have heq : (f.addParm parm).fingerprint = f.fingerprint + 2 ^ f.shiftCount * parm := by
    have hfits : parm <<< f.shiftCount < 2 ^ bitsPerLong := by
      rw [hshift]
      change _ < 2 ^ 64
      omega
    change f.fingerprint ||| shiftLeft64 parm f.shiftCount = _
    rw [shiftLeft64, Nat.mod_eq_of_lt hfits, Nat.or_comm, ← Nat.shiftLeft_add_eq_or_of_lt hf,
      hshift, Nat.add_comm]
  exact ⟨heq, by omega⟩

/-- The features of parameters are the digits above what is there. -/
theorem foldlM_doType {types : List BasicType} (hvoid : ∀ type ∈ types, type ≠ .void)
    {f : Fingerprinter} (hf : f.fingerprint < 2 ^ f.shiftCount)
    (hroom : f.shiftCount + 4 * types.length ≤ 64) :
    ∃ g, types.foldlM doType f = .ok g ∧ g.shiftCount = f.shiftCount + 4 * types.length ∧
      g.fingerprint = f.fingerprint + 2 ^ f.shiftCount * Nat.ofDigits 16 (types.map feature) ∧
      g.fingerprint < 2 ^ g.shiftCount := by
  induction types generalizing f with
  | nil => exact ⟨f, rfl, rfl, by simp, hf⟩
  | cons type types ih =>
    have htype := hvoid type List.mem_cons_self
    rw [List.length_cons] at hroom
    obtain ⟨hfirst, hlt⟩ := addParm_eq (by have := feature_lt type; omega :
      feature type < 16) hf (by omega)
    have hshift : (f.addParm (feature type)).shiftCount = f.shiftCount + 4 := rfl
    obtain ⟨g, hfold, hcount, hsum, hg⟩ :=
      ih (fun t ht => hvoid t (List.mem_cons_of_mem _ ht)) hlt (by rw [hshift]; omega)
    refine ⟨g, ?_, ?_, ?_, hg⟩
    · rw [List.foldlM_cons, doType, parm_eq htype]
      exact hfold
    · rw [hcount, hshift, List.length_cons]
      ring
    · rw [hsum, hfirst, hshift, List.map_cons, Nat.ofDigits_cons, pow_add]
      ring

/-- The number that the features make: the static bit, the result type and above them the
parameters and the mark of their end. -/
def packed (isStatic : Bool) (result : BasicType) (types : List BasicType) : Nat :=
  (if isStatic then 1 else 0) + 2 * result.number +
    32 * Nat.ofDigits 16 (types.map feature ++ [doneParm])

theorem packed_append (isStatic : Bool) (result : BasicType) (types : List BasicType) :
    packed isStatic result types =
      (if isStatic then 1 else 0) + 2 * result.number +
        2 ^ 5 * Nat.ofDigits 16 (types.map feature) + 2 ^ (5 + 4 * types.length) * doneParm := by
  have hpow : 16 ^ types.length = 2 ^ (4 * types.length) := by
    rw [pow_mul]
    rfl
  rw [packed, Nat.ofDigits_append, List.length_map, Nat.ofDigits_singleton, hpow, pow_add]
  ring

theorem digit_lt (types : List BasicType) :
    ∀ digit ∈ types.map feature ++ [doneParm], digit < 16 := by
  intro digit hdigit
  rcases List.mem_append.mp hdigit with hdigit | hdigit
  · obtain ⟨type, -, rfl⟩ := List.mem_map.mp hdigit
    exact (feature_lt type).trans (by decide)
  · rw [List.mem_singleton.mp hdigit]
    decide

/-- The fields below the parameters. -/
theorem low_fields_lt (isStatic : Bool) (result : BasicType) :
    (if isStatic then 1 else 0) + 2 * result.number < 32 := by
  cases isStatic <;> cases result <;> decide

/-- The static bit, the result type and the digits are read back. -/
theorem packed_fields (isStatic : Bool) (result : BasicType) (types : List BasicType) :
    packed isStatic result types % 2 = (if isStatic then 1 else 0) ∧
      packed isStatic result types / 2 % 16 = result.number ∧
      packed isStatic result types / 32 =
        Nat.ofDigits 16 (types.map feature ++ [doneParm]) := by
  have hlow := low_fields_lt isStatic result
  have hresult : result.number < 16 := result.number_lt
  unfold packed
  cases isStatic <;> simp only [Bool.false_eq_true, if_true, if_false] at hlow ⊢ <;> omega

/-- Different features make different numbers. -/
theorem packed_injective {isStatic isStatic' : Bool} {result result' : BasicType}
    {types types' : List BasicType} (hvoid : ∀ type ∈ types, type ≠ .void)
    (hvoid' : ∀ type ∈ types', type ≠ .void)
    (h : packed isStatic result types = packed isStatic' result' types') :
    isStatic = isStatic' ∧ result = result' ∧
      types.map BasicType.reported = types'.map BasicType.reported := by
  obtain ⟨hstatic, hresult, hdigits⟩ := packed_fields isStatic result types
  obtain ⟨hstatic', hresult', hdigits'⟩ := packed_fields isStatic' result' types'
  rw [h] at hstatic hresult hdigits
  refine ⟨?_, BasicType.number_injective (hresult.symm.trans hresult'), ?_⟩
  · rw [hstatic'] at hstatic
    cases isStatic <;> cases isStatic' <;> first | rfl | cases hstatic
  · have hlast (types : List BasicType) (hne : types.map feature ++ [doneParm] ≠ []) :
        (types.map feature ++ [doneParm]).getLast hne ≠ 0 := by
      rw [List.getLast_append_singleton]
      decide
    have heq : types.map feature ++ [doneParm] = types'.map feature ++ [doneParm] := by
      rw [← Nat.digits_ofDigits 16 (by decide) _ (fun _ => digit_lt _ _) (hlast types),
        ← Nat.digits_ofDigits 16 (by decide) _ (fun _ => digit_lt _ _) (hlast types'),
        ← hdigits, hdigits']
    have hfeatures := List.append_cancel_right heq
    clear h hdigits hdigits' hresult hresult' hstatic hstatic' heq
    induction types generalizing types' with
    | nil =>
      cases types' with
      | nil => rfl
      | cons => cases hfeatures
    | cons type types ih =>
      cases types' with
      | nil => cases hfeatures
      | cons type' types' =>
        rw [List.map_cons, List.map_cons, List.cons.injEq] at hfeatures
        have hrest := ih (fun t ht => hvoid t (List.mem_cons_of_mem _ ht))
          (fun t ht => hvoid' t (List.mem_cons_of_mem _ ht)) hfeatures.2
        rw [List.map_cons, List.map_cons, hrest,
          reported_of_feature (hvoid type List.mem_cons_self)
            (hvoid' type' List.mem_cons_self) hfeatures.1]

end Fingerprinter

/-! ## Iteration -/

/-- The calls for parameters of the given types. -/
def featureCalls : Int → List BasicType → List DoCall
  | _, [] => []
  | k, type :: types =>
    ⟨type.reported, if type.reported = .object then some (0, 0) else none, k⟩ ::
      featureCalls (k + type.size) types

/-- The digits of a fingerprint are taken one by one, up to the mark of the end. -/
theorem iterateFeatures_eq {types : List BasicType} (hvoid : ∀ type ∈ types, type ≠ .void)
    {fuel : Nat} (hfuel : types.length < fuel) (k : Int) :
    iterateFeatures fuel
      (Nat.ofDigits 16 (types.map Fingerprinter.feature ++ [doneParm])) k =
        .ok (featureCalls k types) := by
  have hmask (digit rest : Nat) (hdigit : digit < 16) :
      (digit + 16 * rest) &&& parameterFeatureMask = digit ∧
        (digit + 16 * rest) >>> parameterFeatureSize = rest := by
    have hand : (digit + 16 * rest) &&& parameterFeatureMask = (digit + 16 * rest) % 16 :=
      Nat.and_two_pow_sub_one_eq_mod _ 4
    rw [hand, Nat.shiftRight_eq_div_pow]
    change _ ∧ (digit + 16 * rest) / 16 = rest
    omega
  induction types generalizing fuel k with
  | nil =>
    obtain ⟨fuel, rfl⟩ := Nat.exists_eq_add_one.mpr hfuel
    rfl
  | cons type types ih =>
    obtain ⟨fuel, rfl⟩ := Nat.exists_eq_add_one.mpr (Nat.zero_lt_of_lt hfuel)
    have htype := hvoid type List.mem_cons_self
    have hdigit := Fingerprinter.feature_lt type
    have hdone : Fingerprinter.feature type ≠ doneParm := by
      change _ ≠ 10
      omega
    obtain ⟨hand, hshift⟩ := hmask (Fingerprinter.feature type)
      (Nat.ofDigits 16 (types.map Fingerprinter.feature ++ [doneParm])) (by omega)
    have hcons : Nat.ofDigits 16 ((type :: types).map Fingerprinter.feature ++ [doneParm]) =
        Fingerprinter.feature type +
          16 * Nat.ofDigits 16 (types.map Fingerprinter.feature ++ [doneParm]) := rfl
    have hrest := ih (fun t ht => hvoid t (List.mem_cons_of_mem _ ht))
      (by simpa using hfuel) (k + type.reported.size)
    rw [iterateFeatures, hcons]
    dsimp only
    rw [hand, hshift, if_neg hdone, Fingerprinter.typeOfParm_feature htype]
    dsimp only
    rw [hrest, BasicType.size_reported]
    rfl

/-! ## Methods -/

namespace MethodText

/-- The types of the parameters. -/
def types (m : MethodText) : List BasicType := m.parameters.map TypeText.type

/-- The kinds of the parameters, without the difference of objects and arrays. -/
def kinds (m : MethodText) : List BasicType := m.types.map BasicType.reported

/-- The size of the parameters in words, with the receiver. -/
def words (m : MethodText) (isStatic : Bool) : Nat :=
  (m.types.map BasicType.size).sum + if isStatic then 0 else 1

theorem types_ne_void {m : MethodText} (hm : m.FollowsGrammar) :
    ∀ type ∈ m.types, type ≠ .void := by
  intro type htype
  obtain ⟨t, ht, rfl⟩ := List.mem_map.mp htype
  exact (followsGrammar_iff.mp hm).2 t ht

theorem length_types_le {m : MethodText} (hm : m.FollowsGrammar) (isStatic : Bool) :
    m.types.length ≤ m.words isStatic := by
  have hsum (types : List BasicType) (hvoid : ∀ type ∈ types, type ≠ .void) :
      types.length ≤ (types.map BasicType.size).sum := by
    induction types with
    | nil => exact Nat.le_refl 0
    | cons type types ih =>
      have := BasicType.one_le_size (hvoid type List.mem_cons_self)
      have := ih fun t ht => hvoid t (List.mem_cons_of_mem _ ht)
      simp only [List.length_cons, List.map_cons, List.sum_cons]
      omega
  exact (hsum m.types (types_ne_void hm)).trans (Nat.le_add_right _ _)

end MethodText

theorem map_type_callsFrom (i : Nat) (k : Int) (ts : List TypeText) :
    (callsFrom i k ts).map (·.type) = ts.map TypeText.type := by
  induction ts generalizing i k with
  | nil => rfl
  | cons t ts ih =>
    rw [callsFrom, List.map_cons, List.map_cons, ih]
    rfl

theorem iterateParameters_eq (m : MethodText) :
    ∃ it, iterateParameters m.text = .ok it ∧ it.calls = callsFrom 1 0 m.parameters := by
  obtain ⟨k, hk⟩ := parenthesized_eq (m := m)
  refine ⟨⟨resultIndex m, 0, none, callsFrom 1 0 m.parameters⟩, ?_, rfl⟩
  rw [iterateParameters, hk]
  rfl

namespace Fingerprinter

theorem create_eq (m : MethodText) (isStatic : Bool)
    (hsize : m.words isStatic ≤ maxSizeOfParameters) :
    Method.create m.text isStatic = .ok ⟨m.text, isStatic, m.words isStatic, initval⟩ := by
  have hwords : ((callsFrom 1 0 m.parameters).map (·.type.size)).sum +
      (if isStatic then 0 else 1) = m.words isStatic := by
    rw [MethodText.words, MethodText.types, ← map_type_callsFrom 1 0 m.parameters,
      List.map_map]
    rfl
  have hmax : maxSizeOfParameters = 13 := rfl
  rw [Method.create, Method.computeSizeOfParameters, size_eq, bind_ok, hwords,
    Nat.mod_eq_of_lt (by omega)]
  rfl

/-- What `fingerprint` computes, and keeps. -/
theorem fingerprintOf_eq {m : MethodText} (hm : m.FollowsGrammar) {isStatic : Bool}
    (hsize : m.words isStatic ≤ maxSizeOfParameters) {result : BasicType}
    (hresult : ResultTypeFinder.type m.text = .ok result) :
    fingerprintOf ⟨m.text, isStatic, m.words isStatic, initval⟩ =
      .ok (packed isStatic result m.types,
        ⟨m.text, isStatic, m.words isStatic, packed isStatic result m.types⟩) := by
  have hlength := (m.length_types_le hm isStatic).trans hsize
  have hmax : maxSizeOfParameters = 13 := rfl
  obtain ⟨it, hit, hcalls⟩ := iterateParameters_eq m
  have hstart : (if isStatic then shiftLeft64 result.number staticFeatureSize ||| 1
      else shiftLeft64 result.number staticFeatureSize) =
        (if isStatic then 1 else 0) + 2 * result.number := by
    cases isStatic <;> cases result <;> decide
  obtain ⟨g, hfold, hcount, hsum, hlt⟩ := foldlM_doType (m.types_ne_void hm)
    (f := ⟨(if isStatic then 1 else 0) + 2 * result.number,
      resultFeatureSize + staticFeatureSize⟩) (low_fields_lt isStatic result)
    (by change 5 + 4 * m.types.length ≤ 64; omega)
  have hcount : g.shiftCount = 5 + 4 * m.types.length := hcount
  obtain ⟨hdone, -⟩ := addParm_eq (by decide : doneParm < 16) hlt (by omega)
  have hpacked : (g.addParm doneParm).fingerprint = packed isStatic result m.types := by
    rw [hdone, hsum, hcount, packed_append]
    rfl
  have hfresh : ¬ Method.fingerprint ⟨m.text, isStatic, m.words isStatic, initval⟩ ≠ 0 :=
    not_not.mpr (if_pos (.inl (show initval % 2 ^ 32 = 0 by decide)))
  rw [fingerprintOf, if_neg hfresh, if_neg (Nat.not_lt.mpr hsize)]
  dsimp only
  rw [hresult, bind_ok, hit, bind_ok, hcalls, map_type_callsFrom, hstart]
  change (m.types.foldlM doType _ >>= _) = _
  rw [hfold, bind_ok, hpacked]
  rfl

theorem packed_lt (isStatic : Bool) (result : BasicType) {types : List BasicType}
    (hlength : types.length ≤ maxSizeOfParameters) :
    packed isStatic result types < 2 ^ 61 := by
  have hlow := low_fields_lt isStatic result
  have hdigits := Nat.ofDigits_lt_base_pow_length (by decide : 1 < 16)
    (fun _ => digit_lt types _)
  rw [List.length_append, List.length_map, List.length_singleton] at hdigits
  have htop : 16 ^ (types.length + 1) ≤ 16 ^ 14 :=
    Nat.pow_le_pow_right (by decide) (Nat.succ_le_succ hlength)
  have : (16 : Nat) ^ 14 * 32 = 2 ^ 61 := by norm_num
  unfold packed
  omega

theorem packed_pos (isStatic : Bool) (result : BasicType) (types : List BasicType) :
    0 < packed isStatic result types := by
  have := result.number_pos
  unfold packed
  omega

/-! ## Fingerprints of one method and of two -/

/-- The fingerprint of a method that had none. -/
def newFingerprint (sig : Bytes) (isStatic : Bool) : Except SignatureFault Nat := do
  let mh ← Method.create sig isStatic
  let (fingerprint, _) ← fingerprintOf mh
  return fingerprint

theorem newFingerprint_eq {m : MethodText} (hm : m.FollowsGrammar) {isStatic : Bool}
    (hsize : m.words isStatic ≤ maxSizeOfParameters) :
    newFingerprint m.text isStatic =
      (ResultTypeFinder.type m.text).map (packed isStatic · m.types) := by
  rw [newFingerprint, create_eq m isStatic hsize, bind_ok]
  rcases hresult : ResultTypeFinder.type m.text with fault | result
  · have hfresh : ¬ Method.fingerprint ⟨m.text, isStatic, m.words isStatic, initval⟩ ≠ 0 :=
      not_not.mpr (if_pos (.inl (show initval % 2 ^ 32 = 0 by decide)))
    rw [fingerprintOf, if_neg hfresh, if_neg (Nat.not_lt.mpr hsize)]
    dsimp only
    rw [hresult]
    rfl
  · rw [fingerprintOf_eq hm hsize hresult]
    rfl

/-- What a call tells apart from where the text of its type is. -/
def seen (call : DoCall) : BasicType × Int := (call.type.reported, call.parameterIndex)

/-- The calls for a fingerprint are those for the signature. -/
def Iterates (sig : Bytes) (isStatic : Bool) : Prop :=
  ∃ fingerprint it calls, newFingerprint sig isStatic = .ok fingerprint ∧
    0 < fingerprint ∧ fingerprint < 2 ^ 63 ∧ iterateParameters sig = .ok it ∧
    iterateFingerprint sig fingerprint = .ok calls ∧
    calls.map seen = (it.calls.map DoType.call).map seen

theorem map_seen_featureCalls (i : Nat) (k : Int) (ts : List TypeText) :
    (featureCalls k (ts.map TypeText.type)).map seen =
      ((callsFrom i k ts).map DoType.call).map seen := by
  induction ts generalizing i k with
  | nil => rfl
  | cons t ts ih =>
    have hreported : t.type.reported.reported = t.type.reported := by
      cases t.type <;> rfl
    rw [List.map_cons, featureCalls, callsFrom]
    simp only [List.map_cons]
    rw [ih]
    simp only [seen, hreported]
    rfl

theorem iterateFingerprint_packed {m : MethodText} (hm : m.FollowsGrammar) {isStatic : Bool}
    (hsize : m.words isStatic ≤ maxSizeOfParameters) (result : BasicType) :
    iterateFingerprint m.text (packed isStatic result m.types) =
      .ok (featureCalls 0 m.types) := by
  have hlength := (m.length_types_le hm isStatic).trans hsize
  have hlt := packed_lt isStatic result hlength
  have hmany : packed isStatic result m.types ≠ tooMany := by
    have : tooMany = 2 ^ 64 - 1 := rfl
    omega
  have hshift : packed isStatic result m.types >>> (staticFeatureSize + resultFeatureSize) =
      Nat.ofDigits 16 (m.types.map feature ++ [doneParm]) := by
    rw [Nat.shiftRight_eq_div_pow]
    exact (packed_fields isStatic result m.types).2.2
  rw [iterateFingerprint, if_neg hmany, hshift]
  exact iterateFeatures_eq (m.types_ne_void hm) (hlength.trans_lt (by decide)) 0

/-- An iteration of the fingerprint fails only where the result type is not found. -/
theorem reports_iff {m : MethodText} (hm : m.FollowsGrammar) {isStatic : Bool}
    (hsize : m.words isStatic ≤ maxSizeOfParameters) :
    Iterates m.text isStatic ↔ ∃ result, ResultTypeFinder.type m.text = .ok result := by
  have hnew := newFingerprint_eq hm hsize
  constructor
  · rintro ⟨fingerprint, it, calls, hfingerprint, -⟩
    rcases hresult : ResultTypeFinder.type m.text with fault | result
    · rw [hfingerprint, hresult] at hnew
      cases hnew
    · exact ⟨result, rfl⟩
  · rintro ⟨result, hresult⟩
    have hlength := (m.length_types_le hm isStatic).trans hsize
    have hlt := packed_lt isStatic result hlength
    obtain ⟨it, hit, hcalls⟩ := iterateParameters_eq m
    refine ⟨packed isStatic result m.types, it, featureCalls 0 m.types, ?_,
      packed_pos isStatic result m.types, by omega, hit,
      iterateFingerprint_packed hm hsize result, ?_⟩
    · rw [hnew, hresult]
      rfl
    · rw [hcalls]
      exact map_seen_featureCalls 1 0 m.parameters

/-- Two methods differ in their parameters, result types or staticness. -/
def Differ (m m' : MethodText) (isStatic isStatic' : Bool) : Prop :=
  m.kinds ≠ m'.kinds ∨ m.result.type ≠ m'.result.type ∨ isStatic ≠ isStatic'

/-- The fingerprints of two methods iterate like their signatures, and tell them apart. -/
def Tell (m m' : MethodText) (isStatic isStatic' : Bool) : Prop :=
  Iterates m.text isStatic ∧ Iterates m'.text isStatic' ∧
    (Differ m m' isStatic isStatic' →
      newFingerprint m.text isStatic ≠ newFingerprint m'.text isStatic')

theorem features_eq_of_kinds {m m' : MethodText} (h : m.kinds = m'.kinds) :
    m.types.map feature = m'.types.map feature := by
  have hkinds (m : MethodText) : m.types.map feature = m.kinds.map feature := by
    rw [MethodText.kinds, List.map_map]
    exact List.map_congr_left fun type _ => (feature_reported type).symm
  rw [hkinds, hkinds, h]

/-- A type is found behind the first `)` of each signature, and methods with the same such
type that are alike otherwise have the same result type. -/
def ResultsFound (m m' : MethodText) (isStatic isStatic' : Bool) : Prop :=
  ∃ result result', ResultTypeFinder.type m.text = .ok result ∧
    ResultTypeFinder.type m'.text = .ok result' ∧
    (m.kinds = m'.kinds → isStatic = isStatic' → result = result' →
      m.result.type = m'.result.type)

section

variable {m m' : MethodText} (hm : m.FollowsGrammar) (hm' : m'.FollowsGrammar)
  {isStatic isStatic' : Bool} (hsize : m.words isStatic ≤ maxSizeOfParameters)
  (hsize' : m'.words isStatic' ≤ maxSizeOfParameters)
include hm hm' hsize hsize'

theorem ResultsFound.tell (hfound : ResultsFound m m' isStatic isStatic') :
    Tell m m' isStatic isStatic' := by
  obtain ⟨result, result', hresult, hresult', hsame⟩ := hfound
  refine ⟨(reports_iff hm hsize).mpr ⟨result, hresult⟩,
    (reports_iff hm' hsize').mpr ⟨result', hresult'⟩, fun hdiffer heq => ?_⟩
  rw [newFingerprint_eq hm hsize, newFingerprint_eq hm' hsize', hresult, hresult'] at heq
  obtain ⟨hstatic, hfound, hkinds⟩ := packed_injective (m.types_ne_void hm)
    (m'.types_ne_void hm') (Except.ok.inj heq)
  rcases hdiffer with hne | hne | hne
  · exact hne hkinds
  · exact hne (hsame hkinds hstatic hfound)
  · exact hne hstatic

theorem Tell.resultsFound (htell : Tell m m' isStatic isStatic') :
    ResultsFound m m' isStatic isStatic' := by
  obtain ⟨hiterates, hiterates', hdiffer⟩ := htell
  obtain ⟨result, hresult⟩ := (reports_iff hm hsize).mp hiterates
  obtain ⟨result', hresult'⟩ := (reports_iff hm' hsize').mp hiterates'
  refine ⟨result, result', hresult, hresult', fun hkinds hstatic heq => ?_⟩
  by_contra hne
  refine hdiffer (.inr (.inl hne)) ?_
  subst hstatic heq
  rw [newFingerprint_eq hm hsize, newFingerprint_eq hm' hsize', hresult, hresult']
  change Except.ok (packed _ _ _) = Except.ok (packed _ _ _)
  rw [packed, packed, features_eq_of_kinds hkinds]

end

/-! ## The first `)` -/

section FirstEndFunc

/-- The search for the end of the parameters stops at the first `)`. -/
theorem skipToEndFunc_eq {sig p q : Bytes} {fuel index : Nat}
    (h : sig.drop index = p ++ Letter.endFunc :: q) (hp : Letter.endFunc ∉ p)
    (hfuel : p.length < fuel) :
    skipToEndFunc sig fuel index = .ok (index + p.length) := by
  induction p generalizing fuel index with
  | nil =>
    obtain ⟨fuel, rfl⟩ := Nat.exists_eq_add_one.mpr hfuel
    rw [skipToEndFunc, byteAt_of_drop h, bind_ok, if_neg (not_not.mpr rfl)]
    rfl
  | cons c p ih =>
    obtain ⟨fuel, rfl⟩ := Nat.exists_eq_add_one.mpr (Nat.zero_lt_of_lt hfuel)
    have hc : c ≠ Letter.endFunc := fun heq => hp (heq ▸ List.mem_cons_self)
    rw [skipToEndFunc, byteAt_of_drop h, bind_ok, if_pos hc,
      ih (drop_succ h) (fun hmem => hp (List.mem_cons_of_mem _ hmem)) (by simpa using hfuel),
      List.length_cons, Nat.add_assoc, Nat.add_comm 1]

/-- The result type is that of what stands behind the first `)`. -/
theorem resultType_eq {p q : Bytes} (hp : Letter.endFunc ∉ p) :
    ResultTypeFinder.type (Letter.func :: (p ++ Letter.endFunc :: q)) =
      (scanType (Letter.func :: (p ++ Letter.endFunc :: q)) (1 + p.length + 1)).map (·.1) := by
  generalize hsig : Letter.func :: (p ++ Letter.endFunc :: q) = sig
  have hdrop : sig.drop 1 = p ++ Letter.endFunc :: q := by rw [← hsig]; rfl
  have hlength : p.length < sig.length := by
    rw [← hsig]
    simp
  have hstart : expect sig Letter.func start = .ok ⟨1, 0, none, []⟩ := by rw [← hsig]; rfl
  rw [ResultTypeFinder.type, iterateReturntype, hstart, bind_ok, skipToEndFunc_eq hdrop hp hlength,
    bind_ok, expect, byteAt_of_drop (drop_length_add hdrop), bind_ok, if_pos rfl]
  change (parseType sig ⟨1 + p.length + 1, -1, none, []⟩ >>= _ >>= _) = _
  rw [parseType]
  cases scanType sig (1 + p.length + 1) <;> rfl

/-- A type that is found is told by its first letter. -/
theorem type_of_scanType {sig sig' : Bytes} {index : Nat} {c : UInt8}
    {found found' : BasicType × Option (Nat × Nat) × Nat}
    (hc : byteAt sig index = .ok c) (hc' : byteAt sig' index = .ok c)
    (h : scanType sig index = .ok found) (h' : scanType sig' index = .ok found') :
    found.1 = found'.1 := by
  rw [scanType, hc, bind_ok] at h
  rw [scanType, hc', bind_ok] at h'
  cases htype : BasicType.ofLetter? c with
  | some type =>
    rw [htype] at h h'
    cases h
    cases h'
    rfl
  | none =>
    rw [htype] at h h'
    dsimp only at h h'
    split at h
    next hcls =>
      rw [if_pos hcls] at h'
      obtain ⟨next, -, h⟩ := bind_eq_ok h
      obtain ⟨next', -, h'⟩ := bind_eq_ok h'
      cases h
      cases h'
      rfl
    next hcls =>
      rw [if_neg hcls] at h'
      split at h
      next harray =>
        rw [if_pos harray] at h'
        obtain ⟨_, -, h⟩ := bind_eq_ok h
        obtain ⟨_, -, h⟩ := bind_eq_ok h
        obtain ⟨_, -, h⟩ := bind_eq_ok h
        obtain ⟨_, -, h'⟩ := bind_eq_ok h'
        obtain ⟨_, -, h'⟩ := bind_eq_ok h'
        obtain ⟨_, -, h'⟩ := bind_eq_ok h'
        cases h
        cases h'
        rfl
      next => cases h

/-- No type ends in a `)`. -/
theorem exists_last (t : TypeText) : ∃ p c, t.text = p ++ [c] ∧ c ≠ Letter.endFunc := by
  obtain ⟨dims, e, type, he⟩ := t
  cases he with
  | letter hc => exact ⟨_, _, rfl, (BasicType.ofLetter?_ne hc).2.2.1⟩
  | @object name hname =>
    exact ⟨List.replicate dims Letter.array ++ Letter.cls :: name, Letter.endClass,
      by simp [TypeText.text], by decide⟩

/-- Behind a `)` among the parameters there is more of them. -/
theorem exists_first_endFunc {ts : List TypeText} {t : TypeText} (ht : t ∈ ts)
    (hmem : Letter.endFunc ∈ t.text) :
    ∃ p c q, ts.flatMap TypeText.text = p ++ Letter.endFunc :: c :: q ∧ Letter.endFunc ∉ p := by
  obtain ⟨p, rest, hsplit, hp⟩ :=
    List.eq_append_cons_of_mem (List.mem_flatMap.mpr ⟨t, ht, hmem⟩)
  cases rest with
  | cons c q => exact ⟨p, c, q, hsplit, hp⟩
  | nil =>
    have hne : ts ≠ [] := List.ne_nil_of_mem ht
    obtain ⟨p', c, htext, hc⟩ := exists_last (ts.getLast hne)
    rw [← List.dropLast_append_getLast hne, List.flatMap_append, List.flatMap_singleton, htext,
      ← List.append_assoc] at hsplit
    have hlast := congrArg List.getLast? hsplit
    rw [List.getLast?_concat, List.getLast?_concat] at hlast
    exact absurd (Option.some.inj hlast) hc

theorem resultType_of_not_mem {m : MethodText} (h : ∀ t ∈ m.parameters, Letter.endFunc ∉ t.text) :
    ResultTypeFinder.type m.text = .ok m.result.type := by
  have hp : Letter.endFunc ∉ m.parameters.flatMap TypeText.text := by
    intro hmem
    obtain ⟨t, ht, htext⟩ := List.mem_flatMap.mp hmem
    exact h t ht htext
  have hresult : m.text.drop (1 + (m.parameters.flatMap TypeText.text).length + 1) =
      m.result.text ++ [] := by
    have hstart : m.text.drop 1 =
        m.parameters.flatMap TypeText.text ++ Letter.endFunc :: m.result.text := rfl
    rw [List.append_nil]
    exact drop_succ (drop_length_add hstart)
  rw [MethodText.text, resultType_eq hp, ← MethodText.text, scanType_eq hresult]
  rfl

/-- With a `)` among the parameters the result does not matter. -/
theorem resultType_eq_of_mem {ts : List TypeText} {t : TypeText} (ht : t ∈ ts)
    (hmem : Letter.endFunc ∈ t.text) {result result' : TypeText} {type type' : BasicType}
    (h : ResultTypeFinder.type (MethodText.text ⟨ts, result⟩) = .ok type)
    (h' : ResultTypeFinder.type (MethodText.text ⟨ts, result'⟩) = .ok type') : type = type' := by
  obtain ⟨p, c, q, hsplit, hp⟩ := exists_first_endFunc ht hmem
  have htext : ∀ result, MethodText.text ⟨ts, result⟩ =
      Letter.func :: (p ++ Letter.endFunc :: (c :: (q ++ Letter.endFunc :: result.text))) := by
    intro result
    rw [MethodText.text, hsplit]
    simp
  have hbyte : ∀ result, byteAt (MethodText.text ⟨ts, result⟩) (1 + p.length + 1) = .ok c := by
    intro result
    have hdrop : (MethodText.text ⟨ts, result⟩).drop (1 + p.length + 1) =
        c :: (q ++ Letter.endFunc :: result.text) := by
      have hstart : (MethodText.text ⟨ts, result⟩).drop 1 =
          p ++ Letter.endFunc :: (c :: (q ++ Letter.endFunc :: result.text)) := by
        rw [htext]
        rfl
      exact drop_succ (drop_length_add hstart)
    exact byteAt_of_drop hdrop
  have hfound : ∀ {result type}, ResultTypeFinder.type (MethodText.text ⟨ts, result⟩) = .ok type →
      ∃ found, scanType (MethodText.text ⟨ts, result⟩) (1 + p.length + 1) = .ok found ∧
        found.1 = type := by
    intro result type h
    rw [htext, resultType_eq hp, ← htext] at h
    cases hscan : scanType (MethodText.text ⟨ts, result⟩) (1 + p.length + 1) with
    | error e =>
      rw [hscan] at h
      cases h
    | ok found =>
      rw [hscan] at h
      exact ⟨found, rfl, Except.ok.inj h⟩
  obtain ⟨found, hscan, rfl⟩ := hfound h
  obtain ⟨found', hscan', rfl⟩ := hfound h'
  exact type_of_scanType (hbyte result) (hbyte result') hscan hscan'

end FirstEndFunc

/-! ## Every result type -/

/-- A type of one letter. -/
def letterText (c : UInt8) (type : BasicType) (hc : BasicType.ofLetter? c = some type) :
    TypeText :=
  ⟨0, [c], type, .letter hc⟩

/-- A class whose name is `a)` and one more letter. -/
def bracketText (c : UInt8) (hc : SignatureVerifier.invalidNameChar c = false) : TypeText :=
  ⟨0, 0x4C :: ([0x61, 0x29, c] ++ [0x3B]), .object, .object (by
    intro d hd
    simp only [List.mem_cons, List.not_mem_nil, or_false] at hd
    rcases hd with rfl | rfl | rfl
    · rfl
    · rfl
    · exact hc)⟩

def voidText : TypeText := letterText 0x56 .void rfl

def intText : TypeText := letterText 0x49 .int rfl

/-- The parameters of a valid signature that fit into a fingerprint. -/
def Fit (ts : List TypeText) : Prop :=
  (∀ t ∈ ts, t.IsFieldType) ∧ ((ts.map TypeText.type).map BasicType.size).sum ≤ maxSizeOfParameters

/-- The methods with some of the parameter lists, of any result type and staticness. -/
structure Among (parameters : Set (List TypeText)) (m : MethodText) (isStatic : Bool) : Prop where
  mem : m.parameters ∈ parameters
  grammar : m.FollowsGrammar
  words : m.words isStatic ≤ maxSizeOfParameters

/-- Fingerprints iterate like the signatures and tell the methods apart for just the parameters
without a class name that holds a `)`. -/
theorem tell_iff (parameters : Set (List TypeText)) :
    (∀ m m' isStatic isStatic', Among parameters m isStatic → Among parameters m' isStatic' →
      Tell m m' isStatic isStatic') ↔
      ∀ ts ∈ parameters, Fit ts → ∀ t ∈ ts, Letter.endFunc ∉ t.text := by
  constructor
  · intro htell ts hts hfit t ht hmem
    have hamong : ∀ result : TypeText, result.dims = 0 → Among parameters ⟨ts, result⟩ true :=
      fun result hdims => ⟨hts, ⟨hfit.1, .inl hdims⟩, hfit.2⟩
    have hvoid := hamong voidText rfl
    have hint := hamong intText rfl
    obtain ⟨type, type', htype, htype', hsame⟩ := Tell.resultsFound hvoid.grammar hint.grammar
      hvoid.words hint.words (htell _ _ _ _ hvoid hint)
    cases hsame rfl rfl (resultType_eq_of_mem ht hmem htype htype')
  · intro hnone m m' isStatic isStatic' hm hm'
    have hfound : ∀ {m isStatic}, Among parameters m isStatic →
        ResultTypeFinder.type m.text = .ok m.result.type := by
      intro m isStatic hm
      have hwords := hm.words
      rw [MethodText.words] at hwords
      exact resultType_of_not_mem
        (hnone _ hm.mem ⟨hm.grammar.1, (Nat.le_add_right _ _).trans hwords⟩)
    exact ResultsFound.tell hm.grammar hm'.grammar hm.words hm'.words
      ⟨m.result.type, m'.result.type, hfound hm, hfound hm', fun _ _ heq => heq⟩

/-- `(La)I;)V` and `(La)I;)I` have one fingerprint, and `(La)b;)V` has none. -/
theorem brackets_not_tell :
    SignatureVerifier.isValidMethodSignature
      (MethodText.text ⟨[bracketText 0x49 rfl], voidText⟩) = true ∧
    ¬ Tell ⟨[bracketText 0x49 rfl], voidText⟩ ⟨[bracketText 0x49 rfl], intText⟩ true true ∧
    ¬ Iterates (MethodText.text ⟨[bracketText 0x62 rfl], voidText⟩) true := by
  refine ⟨by decide, ?_, ?_⟩
  · rintro ⟨-, -, hdiffer⟩
    exact hdiffer (.inr (.inl (by decide))) rfl
  · rintro ⟨fingerprint, it, calls, hfingerprint, -⟩
    cases hfingerprint

end Fingerprinter

end HotSpot
