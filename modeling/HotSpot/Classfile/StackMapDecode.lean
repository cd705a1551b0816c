import HotSpot.Classfile.StackMapTable
import Mathlib

/-! # Decoding stack map tables

A step of the reader is compared with a grammar: it succeeds exactly on the byte strings of the
grammar, whatever follows them.
-/

namespace HotSpot

open StackMapStream StackMapReader
open ClassFileParser (Bytes)

/-- The step succeeds exactly with what the grammar `D` gives for the bytes in front. -/
def Reads {α : Type} (f : StackMapStream → α × StackMapStream) (D : Bytes → α → Prop) : Prop :=
  ∀ s a rest, f s = (a, ⟨rest, []⟩) ↔ ∃ bytes, D bytes a ∧ s = ⟨bytes ++ rest, []⟩

theorem report_errors_ne_nil (s : StackMapStream) (e : StackMapError) :
    (s.report e).errors ≠ [] := by
  simp [report]

namespace Reads

variable {α β : Type} {f : StackMapStream → α × StackMapStream} {D D' : Bytes → α → Prop}

theorem congr (hf : Reads f D) (hD : ∀ bytes a, D bytes a ↔ D' bytes a) : Reads f D' := by
  intro s a rest
  rw [hf s a rest]
  simp only [hD]

/-- One step after the other. -/
theorem bind {g : α → StackMapStream → β × StackMapStream} {E : α → Bytes → β → Prop}
    (hf : Reads f D) (hg : ∀ a, Reads (g a) (E a)) :
    Reads (fun s => g (f s).1 (f s).2)
      fun bytes b => ∃ a front back, D front a ∧ E a back b ∧ bytes = front ++ back := by
  intro s b rest
  constructor
  · intro h
    obtain ⟨back, hE, hs⟩ := (hg _ _ _ _).1 h
    obtain ⟨front, hD, rfl⟩ := (hf s (f s).1 (back ++ rest)).1 (by rw [← hs])
    exact ⟨front ++ back, ⟨_, front, back, hD, hE, rfl⟩, by rw [List.append_assoc]⟩
  · rintro ⟨bytes, ⟨a, front, back, hD, hE, rfl⟩, rfl⟩
    have hfs := (hf _ a (back ++ rest)).2 ⟨front, hD, rfl⟩
    simp only [List.append_assoc, hfs]
    exact (hg a _ _ _).2 ⟨back, hE, rfl⟩

theorem pure (a : α) : Reads (fun s => (a, s)) fun bytes b => bytes = [] ∧ b = a := by
  intro s b rest
  constructor
  · intro h
    cases h
    exact ⟨[], ⟨rfl, rfl⟩, rfl⟩
  · rintro ⟨bytes, ⟨rfl, rfl⟩, rfl⟩
    rfl

/-- A step that reports an error never succeeds. -/
theorem fail {f : StackMapStream → α × StackMapStream} (hf : ∀ s, (f s).2.errors ≠ []) :
    Reads f fun _ _ => False := by
  intro s a rest
  constructor
  · intro h
    exact absurd (by rw [h]) (hf s)
  · rintro ⟨_, hfalse, _⟩
    exact hfalse.elim

theorem error (a : α) (e : StackMapError) :
    Reads (fun s => (a, s.report e)) fun _ _ => False := fail fun s => report_errors_ne_nil s e

theorem ite {p : Prop} [Decidable p] {g : StackMapStream → α × StackMapStream}
    {E : Bytes → α → Prop} (hf : p → Reads f D) (hg : ¬ p → Reads g E) :
    Reads (fun s => if p then f s else g s)
      fun bytes a => p ∧ D bytes a ∨ ¬ p ∧ E bytes a := by
  by_cases hp : p
  · simpa [hp] using hf hp
  · simpa [hp] using hg hp

/-- A step that is only taken without an error. -/
theorem guarded {f : StackMapStream → Option α × StackMapStream} {D : Bytes → Option α → Prop}
    (hf : Reads f D) : Reads (fun s => if s.errors ≠ [] then (none, s) else f s) D := by
  intro s a rest
  by_cases hs : s.errors = []
  · simp only [hs, ne_eq, not_true_eq_false, if_false]
    exact hf s a rest
  · simp only [ne_eq, hs, not_false_eq_true, if_true]
    constructor
    · intro h
      cases h
      exact absurd rfl hs
    · rintro ⟨bytes, _, rfl⟩
      exact absurd rfl hs

theorem checkSize {f : StackMapStream → Option α × StackMapStream} {D : Bytes → Option α → Prop}
    (hf : Reads f D) (size : Int) (maxSize : Nat) :
    Reads (fun s => if (checkSize size maxSize s).errors ≠ [] then
        (none, StackMapReader.checkSize size maxSize s)
      else f (StackMapReader.checkSize size maxSize s))
      fun bytes a => (0 ≤ size ∧ size ≤ maxSize) ∧ D bytes a := by
  by_cases hsize : 0 ≤ size ∧ size ≤ maxSize
  · have hcheck : ∀ s, StackMapReader.checkSize size maxSize s = s := by
      intro s
      rw [StackMapReader.checkSize, if_neg (by omega)]
    simp only [hcheck, hsize, and_self, true_and]
    exact hf.guarded
  · have hcheck : ∀ s, (StackMapReader.checkSize size maxSize s).errors ≠ [] := by
      intro s
      rw [StackMapReader.checkSize, if_pos (by omega)]
      exact report_errors_ne_nil s _
    refine (fail fun s => ?_).congr fun bytes a => by simp [hsize]
    simp only [hcheck, ne_eq, not_false_eq_true, if_true]

/-- A step that looks at the first byte. -/
theorem of_byte {f : StackMapStream → α × StackMapStream} {D : Bytes → α → Prop}
    (hnil : ∀ errors, (f ⟨[], errors⟩).2.errors ≠ []) (hD : ∀ a, ¬ D [] a)
    (hcons : ∀ b, Reads (fun s => f ⟨b :: s.rest, s.errors⟩) fun bytes a => D (b :: bytes) a) :
    Reads f D := by
  rintro ⟨bytes, errors⟩ a rest
  constructor
  · intro h
    cases bytes with
    | nil => exact absurd (by rw [h]) (hnil errors)
    | cons b bytes =>
      obtain ⟨front, hfront, hs⟩ := (hcons b ⟨bytes, errors⟩ a rest).1 h
      cases hs
      exact ⟨b :: front, hfront, rfl⟩
  · rintro ⟨front, hfront, hs⟩
    cases front with
    | nil => exact absurd hfront (hD a)
    | cons b front =>
      rw [hs]
      exact (hcons b ⟨front ++ rest, []⟩ a rest).2 ⟨front, hfront, rfl⟩

end Reads

/-! ## Bytes -/

theorem u2_of_bytes (b1 b2 : UInt8) : u2 (b1.toNat * 256 + b2.toNat) = [b1, b2] := by
  have h1 := b1.toNat_lt
  have h2 := b2.toNat_lt
  have hhigh : (b1.toNat * 256 + b2.toNat) / 256 = b1.toNat := by omega
  have hlow : (b1.toNat * 256 + b2.toNat) % 256 = b2.toNat := by omega
  simp [u2, hhigh, hlow]

theorem reads_getU2 : Reads getU2 fun bytes n => n < 2 ^ 16 ∧ bytes = u2 n := by
  intro s n rest
  constructor
  · intro h
    obtain ⟨bytes, errors⟩ := s
    match bytes with
    | [] => simp [getU2, report] at h
    | [_] => simp [getU2, report] at h
    | b1 :: b2 :: bytes =>
      simp only [getU2, Prod.mk.injEq, StackMapStream.mk.injEq] at h
      obtain ⟨rfl, rfl, rfl⟩ := h
      have h1 := b1.toNat_lt
      have h2 := b2.toNat_lt
      exact ⟨_, ⟨by omega, rfl⟩, by rw [u2_of_bytes]; rfl⟩
  · rintro ⟨bytes, ⟨hn, rfl⟩, rfl⟩
    have hhigh : n / 256 % 256 = n / 256 := Nat.mod_eq_of_lt (by omega)
    simp only [u2, List.cons_append, List.nil_append, getU2, UInt8.toNat_ofNat', Nat.reducePow,
      hhigh, Nat.mod_mod]
    congr 1
    omega

/-! ## Types -/

variable (r : StackMapReader)

/-- The grammar of a type. -/
def TypeBytes (bytes : Bytes) (t : VerificationType) : Prop :=
  ∃ info : TypeInfo, info.Denotes r t ∧ bytes = info.encode

theorem typeBytes_cons_iff {b : UInt8} {bytes : Bytes} {t : VerificationType} :
    TypeBytes r (b :: bytes) t ↔
      (b.toNat < itemUninitializedThis ∧ bytes = [] ∧ t = fromTag b.toNat) ∨
      (b.toNat = itemUninitializedThis ∧ bytes = [] ∧ t = VerificationType.uninitializedThis) ∨
      (b.toNat = itemObject ∧ ∃ i name, i < 2 ^ 16 ∧ bytes = u2 i ∧ r.klassNameAt i = some name ∧
        t = .reference name) ∨
      (b.toNat = itemUninitialized ∧ ∃ i, i < 2 ^ 16 ∧ bytes = u2 i ∧
        r.codeData.getD i .inside = .new ∧ t = .uninitialized i) := by
  constructor
  · rintro ⟨info, hden, hbytes⟩
    cases hden with
    | object hlt hname =>
      obtain ⟨rfl, rfl⟩ := List.cons.inj hbytes
      exact .inr (.inr (.inl ⟨rfl, _, _, hlt, rfl, hname, rfl⟩))
    | uninitialized hlt hnew =>
      obtain ⟨rfl, rfl⟩ := List.cons.inj hbytes
      exact .inr (.inr (.inr ⟨rfl, _, hlt, rfl, hnew, rfl⟩))
    | uninitializedThis =>
      obtain ⟨rfl, rfl⟩ := List.cons.inj hbytes
      exact .inr (.inl ⟨rfl, rfl, rfl⟩)
    | _ =>
      obtain ⟨rfl, rfl⟩ := List.cons.inj hbytes
      exact .inl ⟨by decide, rfl, rfl⟩
  · rintro (⟨hb, rfl, rfl⟩ | ⟨hb, rfl, rfl⟩ | ⟨hb, i, name, hlt, rfl, hname, rfl⟩ |
      ⟨hb, i, hlt, rfl, hnew, rfl⟩)
    · have hcases : b = 0 ∨ b = 1 ∨ b = 2 ∨ b = 3 ∨ b = 4 ∨ b = 5 := by
        simp only [itemUninitializedThis, ← UInt8.toNat_inj, UInt8.reduceToNat] at hb ⊢
        omega
      rcases hcases with rfl | rfl | rfl | rfl | rfl | rfl
      · exact ⟨.top, .top, rfl⟩
      · exact ⟨.integer, .integer, rfl⟩
      · exact ⟨.float, .float, rfl⟩
      · exact ⟨.double, .double, rfl⟩
      · exact ⟨.long, .long, rfl⟩
      · exact ⟨.null, .null, rfl⟩
    · obtain rfl : b = 6 := UInt8.toNat_inj.1 hb
      exact ⟨.uninitializedThis, .uninitializedThis, rfl⟩
    · obtain rfl : b = 7 := UInt8.toNat_inj.1 hb
      exact ⟨.object i, .object hlt hname, rfl⟩
    · obtain rfl : b = 8 := UInt8.toNat_inj.1 hb
      exact ⟨.uninitialized i, .uninitialized hlt hnew, rfl⟩

theorem reads_klassName :
    Reads (fun s => match r.klassNameAt s.getU2.1 with
        | none => (VerificationType.bogus, s.getU2.2.report .badClassIndex)
        | some name => (.reference name, s.getU2.2))
      fun bytes t => ∃ i name, i < 2 ^ 16 ∧ bytes = u2 i ∧ r.klassNameAt i = some name ∧
        t = .reference name := by
  have hclass : ∀ i, Reads (fun s => match r.klassNameAt i with
        | none => (VerificationType.bogus, s.report .badClassIndex)
        | some name => (.reference name, s))
      fun bytes t => ∃ name, bytes = [] ∧ r.klassNameAt i = some name ∧ t = .reference name := by
    intro i
    cases hname : r.klassNameAt i with
    | none => exact (Reads.error _ _).congr fun bytes t => by simp
    | some name => exact (Reads.pure _).congr fun bytes t => by simp
  refine (reads_getU2.bind hclass).congr fun bytes t => ?_
  constructor
  · rintro ⟨i, front, back, ⟨hlt, rfl⟩, ⟨name, rfl, hname, rfl⟩, rfl⟩
    exact ⟨i, name, hlt, List.append_nil _, hname, rfl⟩
  · rintro ⟨i, name, hlt, rfl, hname, rfl⟩
    exact ⟨i, u2 i, [], ⟨hlt, rfl⟩, ⟨name, rfl, hname, rfl⟩, (List.append_nil _).symm⟩

theorem reads_uninitialized :
    Reads (fun s => if r.codeData.getD s.getU2.1 .inside ≠ .new then
          (VerificationType.bogus, s.getU2.2.report .badOffsetForUninitialized)
        else (.uninitialized s.getU2.1, s.getU2.2))
      fun bytes t => ∃ i, i < 2 ^ 16 ∧ bytes = u2 i ∧ r.codeData.getD i .inside = .new ∧
        t = .uninitialized i := by
  refine (reads_getU2.bind fun i => Reads.ite (p := r.codeData.getD i .inside ≠ .new)
    (fun _ => Reads.error VerificationType.bogus .badOffsetForUninitialized)
    fun _ => Reads.pure (VerificationType.uninitialized i)).congr fun bytes t => ?_
  simp only [and_false, false_or, ne_eq, not_not]
  constructor
  · rintro ⟨i, front, back, ⟨hlt, rfl⟩, ⟨hnew, rfl, rfl⟩, rfl⟩
    exact ⟨i, hlt, List.append_nil _, hnew, rfl⟩
  · rintro ⟨i, hlt, rfl, hnew, rfl⟩
    exact ⟨i, u2 i, [], ⟨hlt, rfl⟩, ⟨hnew, rfl, rfl⟩, (List.append_nil _).symm⟩

theorem reads_parseVerificationType : Reads r.parseVerificationType (TypeBytes r) := by
  refine Reads.of_byte (fun errors => ?_) (fun t => ?_) fun b => ?_
  · exact report_errors_ne_nil ⟨[], errors⟩ _
  · rintro ⟨info, -, hbytes⟩
    cases info <;> cases hbytes
  · simp only [typeBytes_cons_iff]
    by_cases hlt : b.toNat < itemUninitializedThis
    · have hne : b.toNat ≠ itemUninitializedThis ∧ b.toNat ≠ itemObject ∧
          b.toNat ≠ itemUninitialized := by
        simp only [itemUninitializedThis, itemObject, itemUninitialized] at hlt ⊢
        omega
      simp only [parseVerificationType, getU1, hlt, if_true, true_and, hne, false_and, or_false]
      exact Reads.pure _
    simp only [parseVerificationType, getU1, hlt, if_false, false_and, false_or]
    by_cases hobject : b.toNat = itemObject
    · simp only [hobject, if_true, true_and, itemObject, itemUninitializedThis, itemUninitialized,
        Nat.reduceEqDiff, false_and, or_false, false_or]
      exact reads_klassName r
    simp only [hobject, if_false, false_and, false_or]
    by_cases hthis : b.toNat = itemUninitializedThis
    · simp only [hthis, if_true, true_and, itemUninitializedThis, itemUninitialized,
        Nat.reduceEqDiff, false_and, or_false]
      exact Reads.pure _
    simp only [hthis, if_false, false_and, false_or]
    by_cases huninit : b.toNat = itemUninitialized
    · simp only [huninit, if_true, true_and]
      exact reads_uninitialized r
    · simp only [huninit, if_false, false_and]
      exact Reads.error _ _

/-- The grammar of several types, without the second halves. -/
def TypesBytes (count : Nat) (bytes : Bytes) (types : List VerificationType) : Prop :=
  ∃ infos : List TypeInfo, infos.length = count ∧ List.Forall₂ (TypeInfo.Denotes r) infos types ∧
    bytes = infos.flatMap (·.encode)

theorem reads_parseTypes (count : Nat) (acc : List VerificationType) :
    Reads (r.parseTypes count acc) fun bytes slotted =>
      ∃ types, TypesBytes r count bytes types ∧ slotted = acc ++ types.flatMap slots := by
  induction count generalizing acc with
  | zero =>
    refine (Reads.pure acc).congr fun bytes slotted => ?_
    constructor
    · rintro ⟨rfl, rfl⟩
      exact ⟨[], ⟨[], rfl, .nil, rfl⟩, (List.append_nil _).symm⟩
    · rintro ⟨types, ⟨infos, hlen, htypes, rfl⟩, rfl⟩
      obtain rfl := List.length_eq_zero_iff.1 hlen
      cases htypes
      exact ⟨rfl, List.append_nil _⟩
  | succ count ih =>
    refine ((reads_parseVerificationType r).bind fun t => ih (acc ++ slots t)).congr
      fun bytes slotted => ?_
    constructor
    · rintro ⟨t, front, back, ⟨info, hinfo, rfl⟩, ⟨types, ⟨infos, rfl, htypes, rfl⟩, rfl⟩, rfl⟩
      exact ⟨t :: types, ⟨info :: infos, rfl, .cons hinfo htypes, rfl⟩, by simp⟩
    · rintro ⟨types, ⟨infos, hlen, htypes, rfl⟩, rfl⟩
      cases htypes with
      | nil => cases hlen
      | @cons info t infos types hinfo htypes =>
        exact ⟨t, _, _, ⟨info, hinfo, rfl⟩,
          ⟨types, ⟨infos, Nat.succ.inj hlen, htypes, rfl⟩, by simp⟩, by simp⟩

/-! ## Slots -/

theorem TypeInfo.Denotes.not_isCategory2Second {r : StackMapReader} {info : TypeInfo}
    {t : VerificationType} (h : info.Denotes r t) : t.isCategory2Second = false := by
  cases h <;> rfl

theorem slots_ne_nil (t : VerificationType) : slots t ≠ [] := by
  unfold slots
  split <;> simp

theorem hasUninitializedThis_slots (t : VerificationType) :
    hasUninitializedThis (slots t) = t.isUninitializedThis := by
  cases t <;> simp [hasUninitializedThis, slots, VerificationType.isCategory2,
    VerificationType.toCategory2Second, VerificationType.isUninitializedThis,
    VerificationType.uninitializedThis]

@[simp] theorem hasUninitializedThis_append (types types' : List VerificationType) :
    hasUninitializedThis (types ++ types') =
      (hasUninitializedThis types || hasUninitializedThis types') := List.any_append

@[simp] theorem hasUninitializedThis_flatMap_slots (types : List VerificationType) :
    hasUninitializedThis (types.flatMap slots) = hasUninitializedThis types := by
  induction types with
  | nil => rfl
  | cons t types ih =>
    rw [List.flatMap_cons, hasUninitializedThis_append, hasUninitializedThis_slots, ih]
    rfl

theorem take_flatMap_slots (types : List VerificationType) (count : Nat) :
    (types.flatMap slots).take ((types.take count).flatMap slots).length =
      (types.take count).flatMap slots := by
  conv_lhs => rw [← List.take_append_drop count types, List.flatMap_append]
  rw [List.take_append_drop, List.take_left]

/-- One round of `chop` from the end of an entry goes to the end of the entry before it. -/
theorem chop_round (front : List VerificationType) (t : VerificationType)
    (ht : t.isCategory2Second = false) (back : List VerificationType) (pos : Int)
    (hpos : pos = ((front ++ [t]).flatMap slots).length - 1) :
    (if (if pos < 0 then VerificationType.bogus
        else ((front ++ [t]).flatMap slots ++ back).getD pos.toNat .bogus).isCategory2Second = true
      then pos - 2 else pos - 1) = ((front.flatMap slots).length : Int) - 1 := by
  have hlen := List.length_pos_iff.2 (slots_ne_nil t)
  simp only [List.flatMap_append, List.flatMap_singleton, List.length_append] at hpos ⊢
  rw [if_neg (by omega : ¬ pos < 0), List.append_assoc,
    List.getD_append_right _ _ _ _ (by omega), List.getD_append _ _ _ _ (by omega)]
  have hindex : pos.toNat - (front.flatMap slots).length = (slots t).length - 1 := by omega
  rw [hindex]
  by_cases hcat : t.isCategory2 = true
  · have hslots : slots t = [t, t.toCategory2Second] := if_pos hcat
    have hsecond : t.toCategory2Second.isCategory2Second = true := by
      unfold VerificationType.toCategory2Second
      split <;> rfl
    rw [hslots] at hpos ⊢
    simp only [List.length_cons, List.length_nil] at hpos ⊢
    rw [if_pos (by simpa using hsecond)]
    omega
  · have hslots : slots t = [t] := if_neg hcat
    rw [hslots] at hpos ⊢
    simp only [List.length_cons, List.length_nil] at hpos ⊢
    rw [if_neg (by simp [ht])]
    omega

theorem chopLoop_spec {chops count i : Nat} {front back : List VerificationType} {pos : Int}
    (hfront : ∀ t ∈ front, t.isCategory2Second = false) (hi : i + count = chops)
    (hpos : pos = (front.flatMap slots).length - 1) :
    (count ≤ front.length → chopLoop (front.flatMap slots ++ back) chops count i pos =
        ((front.take (front.length - count)).flatMap slots).length) ∧
      (front.length < count → chopLoop (front.flatMap slots ++ back) chops count i pos < 0) := by
  induction count generalizing i front back pos with
  | zero =>
    refine ⟨fun _ => ?_, fun h => absurd h (Nat.not_lt_zero _)⟩
    rw [chopLoop, Nat.sub_zero, List.take_length, hpos]
    omega
  | succ count ih =>
    rcases List.eq_nil_or_concat' front with rfl | ⟨front, t, rfl⟩
    · -- there is nothing left, and nothing is found in front of the array
      refine ⟨fun h => absurd h (Nat.not_succ_le_zero _), fun _ => ?_⟩
      obtain rfl : pos = -1 := by simpa using hpos
      have hbogus : VerificationType.bogus.isCategory2Second = false := rfl
      simp only [chopLoop, if_pos (by decide : (-1 : Int) < 0), hbogus,
        Bool.false_eq_true, if_false]
      split
      · decide
      · next hlast =>
          obtain rfl : count = 0 := by omega
          simp [chopLoop]
    · have hround := chop_round front t (hfront t (by simp)) back pos hpos
      have hrest : (front ++ [t]).flatMap slots ++ back =
          front.flatMap slots ++ (slots t ++ back) := by simp
      have hfront' : ∀ u ∈ front, u.isCategory2Second = false :=
        fun u hu => hfront u (List.mem_append_left _ hu)
      simp only [chopLoop, hround]
      rw [List.length_append, List.length_singleton, hrest]
      split
      · next hstop =>
          have hnil : front = [] := by
            rcases List.eq_nil_or_concat' front with h | ⟨front', u, rfl⟩
            · exact h
            · have hlen := List.length_pos_iff.2 (slots_ne_nil u)
              simp only [List.flatMap_append, List.flatMap_singleton, List.length_append] at hstop
              omega
          subst hnil
          simp only [List.length_nil]
          exact ⟨fun h => by omega, fun _ => by omega⟩
      · obtain ⟨hle, hgt⟩ := @ih (i + 1) front (slots t ++ back) _ hfront' (by omega) rfl
        refine ⟨fun h => ?_, fun h => hgt (by omega)⟩
        rw [hle (by omega), Nat.add_sub_add_right, List.take_append_of_le_length (by omega)]

/-- `chop` removes entries, each with its second half. -/
theorem chop_spec {types : List VerificationType}
    (htypes : ∀ t ∈ types, t.isCategory2Second = false) (chops : Nat) :
    (chops ≤ types.length → chop (types.flatMap slots) chops =
        ((types.take (types.length - chops)).flatMap slots).length) ∧
      (types.length < chops → chop (types.flatMap slots) chops < 0) := by
  have hspec := @chopLoop_spec chops chops 0 types [] _ htypes (Nat.zero_add chops) rfl
  rwa [List.append_nil] at hspec

/-! ## Frames -/

/-- The frame stays within the limits of the method. -/
def FrameTypes.InLimits (r : StackMapReader) (f : FrameTypes) : Prop :=
  (f.locals.flatMap slots).length ≤ r.maxLocals ∧ (f.stack.flatMap slots).length ≤ r.maxStack

section Frames

variable {pre : FrameTypes} (offset : Nat)

theorem reads_sameLocals1 :
    Reads (r.sameLocals1 offset pre.toFrame) fun bytes o => ∃ t, TypeBytes r bytes t ∧
      (slots t).length ≤ r.maxStack ∧ o = some (FrameTypes.toFrame ⟨offset, pre.locals, [t]⟩) := by
  refine ((reads_parseVerificationType r).bind fun t => ((Reads.pure (some (StackMapFrame.mk offset
    pre.toFrame.flagThisUninit pre.toFrame.locals (slots t)))).checkSize
      (slots t).length r.maxStack).guarded).congr fun bytes o => ?_
  constructor
  · rintro ⟨t, front, back, ht, ⟨⟨-, hsize⟩, rfl, rfl⟩, rfl⟩
    exact ⟨t, by rwa [List.append_nil], by omega, by simp [FrameTypes.toFrame]⟩
  · rintro ⟨t, ht, hsize, rfl⟩
    exact ⟨t, bytes, [], ht, ⟨⟨by omega, by omega⟩, rfl, by simp [FrameTypes.toFrame]⟩,
      (List.append_nil _).symm⟩

theorem reads_chopFrame (hpre : ∀ t ∈ pre.locals, t.isCategory2Second = false)
    (hlimits : (pre.locals.flatMap slots).length ≤ r.maxLocals) {frameType : Nat}
    (hlt : frameType < sameExtended) :
    Reads (r.chopFrame frameType offset pre.toFrame) fun bytes o =>
      sameExtended - frameType ≤ pre.locals.length ∧ bytes = [] ∧
      o = some (FrameTypes.toFrame
        ⟨offset, pre.locals.take (pre.locals.length - (sameExtended - frameType)), []⟩) := by
  have hchops : sameExtended - frameType ≠ 0 := by omega
  have hspec := chop_spec hpre (sameExtended - frameType)
  have hlocals : pre.toFrame.locals = pre.locals.flatMap slots := rfl
  unfold chopFrame
  simp only [ne_eq, hchops, not_false_eq_true, if_true, hlocals]
  refine ((Reads.pure (some _)).checkSize (chop (pre.locals.flatMap slots)
    (sameExtended - frameType)) r.maxLocals).congr fun bytes o => ?_
  by_cases hle : sameExtended - frameType ≤ pre.locals.length
  · rw [hspec.1 hle, Int.toNat_natCast, take_flatMap_slots]
    have hroom : ((pre.locals.take (pre.locals.length - (sameExtended - frameType))).flatMap
        slots).length ≤ r.maxLocals := by
      rw [← take_flatMap_slots]
      exact Nat.le_trans (List.length_take_le' _ _) hlimits
    constructor
    · rintro ⟨-, rfl, rfl⟩
      exact ⟨hle, rfl, by simp [FrameTypes.toFrame]⟩
    · rintro ⟨-, rfl, rfl⟩
      exact ⟨⟨by omega, by omega⟩, rfl, by simp [FrameTypes.toFrame]⟩
  · have hneg := hspec.2 (by omega)
    constructor
    · rintro ⟨⟨h, -⟩, -⟩
      omega
    · rintro ⟨h, -⟩
      exact absurd h hle

theorem reads_sameExtended :
    Reads (r.chopFrame sameExtended offset pre.toFrame) fun bytes o =>
      bytes = [] ∧ o = some (FrameTypes.toFrame ⟨offset, pre.locals, []⟩) := Reads.pure _

theorem reads_appendFrame (frameType : Nat) :
    Reads (r.appendFrame frameType offset pre.toFrame) fun bytes o => ∃ types,
      TypesBytes r (frameType - sameExtended) bytes types ∧
      ((pre.locals ++ types).flatMap slots).length ≤ r.maxLocals ∧
      o = some (FrameTypes.toFrame ⟨offset, pre.locals ++ types, []⟩) := by
  have hlocals : pre.toFrame.locals = pre.locals.flatMap slots := rfl
  unfold appendFrame
  generalize frameType - sameExtended = count
  refine ((reads_parseTypes r count []).bind fun added =>
    (Reads.pure (some (StackMapFrame.mk offset (pre.toFrame.flagThisUninit ||
      hasUninitializedThis added) (pre.toFrame.locals ++ added) []))).checkSize
        (pre.toFrame.locals ++ added).length r.maxLocals).congr fun bytes o => ?_
  simp only [List.nil_append, hlocals]
  constructor
  · rintro ⟨added, front, back, ⟨types, htypes, rfl⟩, ⟨⟨-, hsize⟩, rfl, rfl⟩, rfl⟩
    rw [← List.flatMap_append] at hsize ⊢
    exact ⟨types, by rwa [List.append_nil], by omega, by simp [FrameTypes.toFrame]⟩
  · rintro ⟨types, htypes, hsize, rfl⟩
    refine ⟨_, bytes, [], ⟨types, htypes, rfl⟩, ⟨⟨by omega, ?_⟩, rfl, by simp [FrameTypes.toFrame]⟩,
      (List.append_nil _).symm⟩
    rw [← List.flatMap_append]
    omega

/-- Types with the number of them in front. -/
def CountedBytes (bytes : Bytes) (types : List VerificationType) : Prop :=
  ∃ infos : List TypeInfo, infos.length < 2 ^ 16 ∧ List.Forall₂ (TypeInfo.Denotes r) infos types ∧
    bytes = u2 infos.length ++ infos.flatMap (·.encode)

theorem reads_counted :
    Reads (fun s => r.parseTypes s.getU2.1 [] s.getU2.2) fun bytes slotted =>
      ∃ types, CountedBytes r bytes types ∧ slotted = types.flatMap slots := by
  refine (reads_getU2.bind fun count => reads_parseTypes r count []).congr fun bytes slotted => ?_
  constructor
  · rintro ⟨count, front, back, ⟨hlt, rfl⟩, ⟨types, ⟨infos, rfl, htypes, rfl⟩, rfl⟩, rfl⟩
    exact ⟨types, ⟨infos, hlt, htypes, rfl⟩, rfl⟩
  · rintro ⟨types, ⟨infos, hlt, htypes, rfl⟩, rfl⟩
    exact ⟨_, _, _, ⟨hlt, rfl⟩, ⟨types, ⟨infos, rfl, htypes, rfl⟩, rfl⟩, rfl⟩

theorem reads_fullFrame :
    Reads (r.fullFrame offset) fun bytes o => ∃ types stackTypes localBytes stackBytes,
      CountedBytes r localBytes types ∧ CountedBytes r stackBytes stackTypes ∧
      bytes = localBytes ++ stackBytes ∧
      FrameTypes.InLimits r ⟨offset, types, stackTypes⟩ ∧
      o = some (FrameTypes.toFrame ⟨offset, types, stackTypes⟩) := by
  refine ((reads_counted r).bind fun locals => ((reads_counted r).bind fun stack =>
    (Reads.pure (some (StackMapFrame.mk offset (hasUninitializedThis locals) locals
      stack))).checkSize stack.length r.maxStack).checkSize locals.length r.maxLocals).congr
        fun bytes o => ?_
  constructor
  · rintro ⟨_, front, back, ⟨types, htypes, rfl⟩, ⟨⟨-, hsize⟩, _, front', back',
      ⟨stackTypes, hstackTypes, rfl⟩, ⟨⟨-, hstackSize⟩, rfl, rfl⟩, rfl⟩, rfl⟩
    rw [List.append_nil]
    exact ⟨types, stackTypes, front, front', htypes, hstackTypes, rfl,
      ⟨Int.ofNat_le.1 hsize, Int.ofNat_le.1 hstackSize⟩, by simp [FrameTypes.toFrame]⟩
  · rintro ⟨types, stackTypes, front, front', htypes, hstackTypes, rfl, ⟨hsize, hstackSize⟩, rfl⟩
    exact ⟨_, front, front', ⟨types, htypes, rfl⟩, ⟨⟨by omega, Int.ofNat_le.2 hsize⟩, _, front', [],
      ⟨stackTypes, hstackTypes, rfl⟩, ⟨⟨by omega, Int.ofNat_le.2 hstackSize⟩, rfl,
      by simp [FrameTypes.toFrame]⟩, (List.append_nil _).symm⟩, rfl⟩

/-- What follows the offset in a form that has two bytes for it. -/
def ExtendedBytes (pre : FrameTypes) (offset frameType : Nat) (bytes : Bytes)
    (o : Option StackMapFrame) : Prop :=
  (frameType = sameLocals1StackItemExtended ∧ ∃ t, TypeBytes r bytes t ∧
      (slots t).length ≤ r.maxStack ∧ o = some (FrameTypes.toFrame ⟨offset, pre.locals, [t]⟩)) ∨
    ((sameLocals1StackItemExtended < frameType ∧ frameType < sameExtended) ∧
      sameExtended - frameType ≤ pre.locals.length ∧ bytes = [] ∧
      o = some (FrameTypes.toFrame
        ⟨offset, pre.locals.take (pre.locals.length - (sameExtended - frameType)), []⟩)) ∨
    (frameType = sameExtended ∧ bytes = [] ∧
      o = some (FrameTypes.toFrame ⟨offset, pre.locals, []⟩)) ∨
    ((sameExtended < frameType ∧ frameType < full) ∧ ∃ types,
      TypesBytes r (frameType - sameExtended) bytes types ∧
      ((pre.locals ++ types).flatMap slots).length ≤ r.maxLocals ∧
      o = some (FrameTypes.toFrame ⟨offset, pre.locals ++ types, []⟩)) ∨
    (frameType = full ∧ ∃ types stackTypes localBytes stackBytes,
      CountedBytes r localBytes types ∧ CountedBytes r stackBytes stackTypes ∧
      bytes = localBytes ++ stackBytes ∧ FrameTypes.InLimits r ⟨offset, types, stackTypes⟩ ∧
      o = some (FrameTypes.toFrame ⟨offset, types, stackTypes⟩))

theorem reads_extended (hpre : ∀ t ∈ pre.locals, t.isCategory2Second = false)
    (hlimits : (pre.locals.flatMap slots).length ≤ r.maxLocals) (offset frameType : Nat)
    (hbyte : frameType ≤ full) :
    Reads (fun s => if frameType < sameLocals1StackItemExtended then
          (none, s.report .reservedFrameType)
        else if frameType = sameLocals1StackItemExtended then r.sameLocals1 offset pre.toFrame s
        else if frameType ≤ sameExtended then r.chopFrame frameType offset pre.toFrame s
        else if frameType < sameExtended + 4 then r.appendFrame frameType offset pre.toFrame s
        else r.fullFrame offset s)
      (ExtendedBytes r pre offset frameType) := by
  have h1 : sameLocals1StackItemExtended = 247 := rfl
  have h2 : sameExtended = 251 := rfl
  have h3 : full = 255 := rfl
  by_cases hreserved : frameType < sameLocals1StackItemExtended
  · simp only [hreserved, if_true]
    refine (Reads.error none .reservedFrameType).congr fun bytes o => ⟨False.elim, ?_⟩
    rintro (⟨h, -⟩ | ⟨⟨h, -⟩, -⟩ | ⟨h, -⟩ | ⟨⟨h, -⟩, -⟩ | ⟨h, -⟩) <;> omega
  by_cases hsame1 : frameType = sameLocals1StackItemExtended
  · subst hsame1
    simp only [hreserved, if_true, if_false]
    refine (reads_sameLocals1 r offset).congr fun bytes o => ?_
    simp [ExtendedBytes, sameLocals1StackItemExtended, sameExtended, full]
  by_cases hsame : frameType = sameExtended
  · subst hsame
    simp only [hreserved, hsame1, if_false, Nat.le_refl, if_true]
    refine (reads_sameExtended r offset).congr fun bytes o => ?_
    simp [ExtendedBytes, sameLocals1StackItemExtended, sameExtended, full]
  by_cases hfull : frameType = full
  · subst hfull
    have hnot : ¬ full ≤ sameExtended ∧ ¬ full < sameExtended + 4 := by omega
    simp only [hreserved, hsame1, if_false, hnot]
    refine (reads_fullFrame r offset).congr fun bytes o => ?_
    simp [ExtendedBytes, sameLocals1StackItemExtended, sameExtended, full]
  have hgt : sameLocals1StackItemExtended < frameType := by omega
  have hlt : frameType < full := by omega
  by_cases hchop : frameType < sameExtended
  · have hle : frameType ≤ sameExtended := by omega
    have hnot : ¬ sameExtended < frameType := by omega
    simp only [hreserved, hsame1, if_false, hle, if_true]
    refine (reads_chopFrame r offset hpre hlimits hchop).congr fun bytes o => ?_
    simp only [ExtendedBytes, hsame1, hsame, hfull, hgt, hchop, hnot, false_and, true_and, or_false,
      false_or]
  · have hle : ¬ frameType ≤ sameExtended := by omega
    have hgt' : sameExtended < frameType := by omega
    have hlt' : frameType < sameExtended + 4 := by omega
    simp only [hreserved, hsame1, if_false, hle, hlt', if_true]
    refine (reads_appendFrame r offset frameType).congr fun bytes o => ?_
    simp only [ExtendedBytes, hsame1, hsame, hfull, hgt', hlt, hchop, and_false, false_and,
      true_and,
      or_false, false_or]

/-- The grammar of a frame behind the frame `pre`. -/
def FrameBytes (pre : FrameTypes) (first : Bool) (bytes : Bytes)
    (o : Option StackMapFrame) : Prop :=
  ∃ (form : FrameForm) (f : FrameTypes), form.Denotes r pre first f ∧ f.InLimits r ∧
    bytes = form.encode ∧ o = some f.toFrame

theorem toNat_ofNat_lt {n : Nat} (hn : n < 256) : (UInt8.ofNat n).toNat = n := by
  rw [UInt8.toNat_ofNat', Nat.mod_eq_of_lt hn]

/-- The first byte tells the forms apart. -/
theorem frameBytes_cons_iff {first : Bool}
    (hlimits : (pre.locals.flatMap slots).length ≤ r.maxLocals)
    {b : UInt8} {bytes : Bytes} {o : Option StackMapFrame} :
    FrameBytes r pre first (b :: bytes) o ↔
      (b.toNat < 64 ∧ bytes = [] ∧
        o = some (FrameTypes.toFrame ⟨FrameForm.offsetAfter pre first b.toNat, pre.locals, []⟩)) ∨
      ((64 ≤ b.toNat ∧ b.toNat < 128) ∧ ∃ t, TypeBytes r bytes t ∧ (slots t).length ≤ r.maxStack ∧
        o = some (FrameTypes.toFrame
          ⟨FrameForm.offsetAfter pre first (b.toNat - 64), pre.locals, [t]⟩)) ∨
      (128 ≤ b.toNat ∧ ∃ delta back, delta < 2 ^ 16 ∧ bytes = u2 delta ++ back ∧
        ExtendedBytes r pre (FrameForm.offsetAfter pre first delta) b.toNat back o) := by
  constructor
  · rintro ⟨form, f, hform, hin, hbytes, rfl⟩
    cases hform with
    | same hdelta =>
      obtain ⟨rfl, rfl⟩ := List.cons.inj hbytes
      rw [toNat_ofNat_lt (by omega)]
      exact .inl ⟨hdelta, rfl, rfl⟩
    | sameLocals1 hdelta ht =>
      obtain ⟨rfl, rfl⟩ := List.cons.inj hbytes
      rw [toNat_ofNat_lt (by omega), Nat.add_sub_cancel_left]
      refine .inr (.inl ⟨by omega, _, ⟨_, ht, rfl⟩, ?_, rfl⟩)
      simpa using hin.2
    | sameLocals1Extended hdelta ht =>
      obtain ⟨rfl, rfl⟩ := List.cons.inj hbytes
      refine .inr (.inr ⟨by decide, _, _, hdelta, rfl, .inl ⟨rfl, _, ⟨_, ht, rfl⟩, ?_, rfl⟩⟩)
      simpa using hin.2
    | @chop count delta hpos hcount hlocals hdelta =>
      obtain ⟨rfl, rfl⟩ := List.cons.inj hbytes
      rw [toNat_ofNat_lt (by omega)]
      have hchops : sameExtended - (251 - count) = count := by
        simp only [sameExtended]
        omega
      refine .inr (.inr ⟨by omega, delta, [], hdelta, (List.append_nil _).symm, .inr (.inl
        ⟨?_, by rwa [hchops], rfl, by rw [hchops]⟩)⟩)
      simp only [sameLocals1StackItemExtended, sameExtended]
      omega
    | sameExtended hdelta =>
      obtain ⟨rfl, rfl⟩ := List.cons.inj hbytes
      exact .inr (.inr ⟨by decide, _, [], hdelta, (List.append_nil _).symm, .inr (.inr (.inl
        ⟨rfl, rfl, rfl⟩))⟩)
    | @append delta infos types hpos hcount hdelta htypes =>
      obtain ⟨rfl, rfl⟩ := List.cons.inj hbytes
      rw [toNat_ofNat_lt (by omega)]
      refine .inr (.inr ⟨by omega, delta, _, hdelta, rfl, .inr (.inr (.inr (.inl ⟨?_, types,
        ⟨infos, (Nat.add_sub_cancel_left _ _).symm, htypes, rfl⟩, hin.1, rfl⟩)))⟩)
      simp only [sameExtended, StackMapReader.full]
      omega
    | @full delta infos stackInfos types stackTypes hlocals hstack hdelta htypes hstackTypes =>
      obtain ⟨rfl, rfl⟩ := List.cons.inj hbytes
      refine .inr (.inr ⟨by decide, delta, _, hdelta, rfl, .inr (.inr (.inr (.inr ⟨rfl, types,
        stackTypes, _, _, ⟨infos, hlocals, htypes, rfl⟩, ⟨stackInfos, hstack, hstackTypes, rfl⟩,
        ?_, hin, rfl⟩)))⟩)
      simp only [List.append_assoc]
  · have hb {n : Nat} (hn : b.toNat = n) : b = UInt8.ofNat n := by
      rw [← hn, UInt8.ofNat_toNat]
    rintro (⟨hlt, rfl, rfl⟩ | ⟨⟨hge, hlt⟩, t, ⟨info, ht, rfl⟩, hsize, rfl⟩ |
        ⟨-, delta, back, hdelta, rfl,
      ⟨hn, t, ⟨info, ht, rfl⟩, hsize, rfl⟩ | ⟨⟨hgt, hlt⟩, hchops, rfl, rfl⟩ | ⟨hn, rfl, rfl⟩ |
      ⟨⟨hgt, hlt⟩, types, ⟨infos, hlen, htypes, rfl⟩, hsize, rfl⟩ |
      ⟨hn, types, stackTypes, _, _, ⟨infos, hlen, htypes, rfl⟩,
        ⟨stackInfos, hstackLen, hstackTypes, rfl⟩, rfl, hin, rfl⟩⟩)
    · exact ⟨.same b.toNat, _, .same hlt, ⟨hlimits, Nat.zero_le _⟩, by
        rw [FrameForm.encode, ← hb rfl], rfl⟩
    · refine ⟨.sameLocals1 (b.toNat - 64) info, _, .sameLocals1 (by omega) ht,
        ⟨hlimits, by simpa using hsize⟩, ?_, rfl⟩
      rw [FrameForm.encode, ← hb (by omega)]
    · exact ⟨.sameLocals1Extended delta info, _, .sameLocals1Extended hdelta ht,
        ⟨hlimits, by simpa using hsize⟩, by rw [hb hn]; rfl, rfl⟩
    · simp only [sameLocals1StackItemExtended, sameExtended] at hgt hlt hchops ⊢
      refine ⟨.chop (251 - b.toNat) delta, _, .chop (by omega) (by omega) hchops hdelta,
        ⟨?_, Nat.zero_le _⟩, ?_, rfl⟩
      · rw [← take_flatMap_slots]
        exact Nat.le_trans (List.length_take_le' _ _) hlimits
      · rw [FrameForm.encode, ← hb (by omega), List.append_nil]
    · exact ⟨.sameExtended delta, _, .sameExtended hdelta, ⟨hlimits, Nat.zero_le _⟩, by
        rw [hb hn, List.append_nil]; rfl, rfl⟩
    · simp only [sameExtended, StackMapReader.full] at hgt hlt hlen
      refine ⟨.append delta infos, _, .append (by omega) (by omega) hdelta htypes,
        ⟨hsize, Nat.zero_le _⟩, ?_, rfl⟩
      rw [FrameForm.encode, ← hb (by omega)]
    · refine ⟨.full delta infos stackInfos, _, .full hlen hstackLen hdelta htypes hstackTypes, hin,
        ?_, rfl⟩
      rw [hb hn]
      simp only [FrameForm.encode, List.append_assoc]
      rfl

theorem reads_next (hpre : ∀ t ∈ pre.locals, t.isCategory2Second = false)
    (hlimits : (pre.locals.flatMap slots).length ≤ r.maxLocals) (first : Bool) :
    Reads (r.next pre.toFrame first) (FrameBytes r pre first) := by
  refine Reads.of_byte (fun errors => ?_) (fun o => ?_) fun b => ?_
  · exact report_errors_ne_nil ⟨[], errors⟩ _
  · rintro ⟨form, f, -, -, hbytes, -⟩
    cases form <;> cases hbytes
  · simp only [frameBytes_cons_iff r hlimits]
    have hoffset (delta : Nat) : (if first = true then delta else pre.toFrame.offset + delta + 1) =
        FrameForm.offsetAfter pre first delta := rfl
    simp only [next, getU1, hoffset]
    by_cases hsame : b.toNat < 64
    · have hge : ¬ 64 ≤ b.toNat := by omega
      have hge' : ¬ 128 ≤ b.toNat := by omega
      simp only [hsame, if_true, true_and, hge, false_and, or_false, hge']
      exact Reads.pure _
    by_cases hsame1 : b.toNat < 128
    · have hge : 64 ≤ b.toNat := by omega
      have hge' : ¬ 128 ≤ b.toNat := by omega
      simp only [hsame, hsame1, if_true, if_false, true_and, hge, false_and, false_or,
        hge', or_false]
      exact reads_sameLocals1 r _
    have hge' : 128 ≤ b.toNat := by omega
    simp only [hsame, hsame1, if_false, false_and, and_false, false_or, hge', true_and]
    refine (reads_getU2.bind fun delta => reads_extended r hpre hlimits
      (FrameForm.offsetAfter pre first delta) b.toNat (Nat.le_of_lt_succ b.toNat_lt)).congr
        fun bytes o => ?_
    constructor
    · rintro ⟨delta, front, back, ⟨hdelta, rfl⟩, hback, rfl⟩
      exact ⟨delta, back, hdelta, rfl, hback⟩
    · rintro ⟨delta, back, hdelta, rfl, hback⟩
      exact ⟨delta, _, back, ⟨hdelta, rfl⟩, hback, rfl⟩

end Frames

/-! ## The table -/

theorem FrameForm.Denotes.not_isCategory2Second {r : StackMapReader} {pre f : FrameTypes}
    {first : Bool} {form : FrameForm} (h : form.Denotes r pre first f)
    (hpre : ∀ t ∈ pre.locals, t.isCategory2Second = false) :
    ∀ t ∈ f.locals, t.isCategory2Second = false := by
  have hadded {infos : List TypeInfo} {types : List VerificationType}
      (htypes : List.Forall₂ (TypeInfo.Denotes r) infos types) :
      ∀ t ∈ types, t.isCategory2Second = false := by
    induction htypes with
    | nil => simp
    | cons hinfo _ ih => exact List.forall_mem_cons.2 ⟨hinfo.not_isCategory2Second, ih⟩
  cases h with
  | chop => exact fun t ht => hpre t (List.mem_of_mem_take ht)
  | append _ _ _ htypes =>
    intro t ht
    rcases List.mem_append.1 ht with ht | ht
    · exact hpre t ht
    · exact hadded htypes t ht
  | full _ _ _ htypes => exact hadded htypes
  | _ => exact hpre

theorem reads_readFrames {pre : FrameTypes} (hpre : ∀ t ∈ pre.locals, t.isCategory2Second = false)
    (hlimits : (pre.locals.flatMap slots).length ≤ r.maxLocals) (count : Nat) (first : Bool) :
    Reads (r.readFrames count pre.toFrame first) fun bytes frames => ∃ forms fs,
      forms.length = count ∧ TableDenotes r pre first forms fs ∧
      bytes = forms.flatMap (·.encode) ∧ frames = fs.map (·.toFrame) := by
  induction count generalizing pre first with
  | zero =>
    refine (Reads.pure []).congr fun bytes frames => ?_
    constructor
    · rintro ⟨rfl, rfl⟩
      exact ⟨[], [], rfl, .nil, rfl, rfl⟩
    · rintro ⟨forms, fs, hlen, htable, rfl, rfl⟩
      obtain rfl := List.length_eq_zero_iff.1 hlen
      cases htable
      exact ⟨rfl, rfl⟩
  | succ count ih =>
    intro s frames rest
    constructor
    · intro h
      rw [readFrames] at h
      rcases hnext : r.next pre.toFrame first s with ⟨_ | frame, s1⟩
      · rw [hnext] at h
        cases h
        obtain ⟨_, ⟨_, _, _, _, _, hsome⟩, _⟩ := (reads_next r hpre hlimits first _ _ _).1 hnext
        cases hsome
      · simp only [hnext] at h
        split at h
        · next herrors =>
            cases h
            exact absurd rfl herrors
        next herrors =>
        split at h
        · have herrors' := congrArg (·.2.errors) h
          exact absurd herrors' (report_errors_ne_nil _ _)
        next hstart =>
        obtain ⟨bytes1, errors1⟩ := s1
        obtain rfl : errors1 = [] := not_not.1 herrors
        obtain ⟨front, ⟨form, f, hform, hin, rfl, hframe⟩, rfl⟩ :=
          (reads_next r hpre hlimits first _ _ _).1 hnext
        cases hframe
        obtain ⟨back, ⟨forms, fs, rfl, htable, rfl, hframes⟩, hs1⟩ :=
          (ih (hform.not_isCategory2Second hpre) hin.1 false ⟨bytes1, []⟩ _ rest).1
            (Prod.ext rfl (Prod.mk.inj h).2)
        cases hs1
        refine ⟨_, ⟨form :: forms, f :: fs, rfl,
          .cons hform ⟨hin.1, hin.2, hstart⟩ htable, rfl, ?_⟩,
          by simp⟩
        rw [List.map_cons, ← hframes]
        exact (congrArg Prod.fst h).symm
    · rintro ⟨bytes, ⟨forms, fs, hlen, htable, rfl, rfl⟩, rfl⟩
      cases htable with
      | nil => cases hlen
      | @cons _ f _ form forms fs hform hfits hrest =>
        have hnext :=
          (reads_next r hpre hlimits first ⟨(form :: forms).flatMap (·.encode) ++ rest, []⟩
          (some f.toFrame) (forms.flatMap (·.encode) ++ rest)).2
            ⟨_, ⟨form, f, hform, ⟨hfits.locals, hfits.stack⟩, rfl, rfl⟩, by simp⟩
        have htail := (ih (hform.not_isCategory2Second hpre) hfits.locals false
          ⟨forms.flatMap (·.encode) ++ rest, []⟩ (fs.map (·.toFrame)) rest).2
            ⟨_, ⟨forms, fs, Nat.succ.inj hlen, hrest, rfl, rfl⟩, rfl⟩
        have hstart : ¬ r.codeData.getD f.toFrame.offset .inside = .inside := hfits.start
        simp only [readFrames, hnext, htail, hstart, ne_eq, not_true_eq_false, if_false]
        rfl

theorem TableDenotes.fits {r : StackMapReader} {pre : FrameTypes} {first : Bool}
    {forms : List FrameForm} {fs : List FrameTypes} (h : TableDenotes r pre first forms fs) :
    ∀ f ∈ fs, f.Fits r := by
  induction h with
  | nil => simp
  | cons hform hfits hrest ih => exact List.forall_mem_cons.2 ⟨hfits, ih⟩

theorem FrameForm.Denotes.offset_lt {r : StackMapReader} {pre f : FrameTypes} {form : FrameForm}
    (h : form.Denotes r pre false f) : pre.offset < f.offset := by
  cases h <;> simp only [offsetAfter, Bool.false_eq_true, if_false] <;> omega

theorem TableDenotes.offsets_lt {r : StackMapReader} {pre : FrameTypes} {forms : List FrameForm}
    {fs : List FrameTypes} (h : TableDenotes r pre false forms fs) :
    (∀ f ∈ fs, pre.offset < f.offset) ∧ fs.Pairwise fun f f' => f.offset < f'.offset := by
  generalize hfirst : false = first at h
  induction h with
  | nil => simp
  | cons hform hfits hrest ih =>
    subst hfirst
    obtain ⟨hlt, hpairwise⟩ := ih rfl
    refine ⟨?_, List.pairwise_cons.2 ⟨hlt, hpairwise⟩⟩
    intro f hf
    rcases List.mem_cons.1 hf with rfl | hf
    · exact hform.offset_lt
    · exact Nat.lt_trans hform.offset_lt (hlt f hf)

/-- The offsets go up, also from the first frame. -/
theorem TableDenotes.pairwise_offset {r : StackMapReader} {pre : FrameTypes} {first : Bool}
    {forms : List FrameForm} {fs : List FrameTypes} (h : TableDenotes r pre first forms fs) :
    fs.Pairwise fun f f' => f.offset < f'.offset := by
  cases h with
  | nil => exact .nil
  | cons hform hfits hrest => exact List.pairwise_cons.2 hrest.offsets_lt

theorem stackMapTable_eq_iff {init : FrameTypes}
    (hinit : ∀ t ∈ init.locals, t.isCategory2Second = false)
    (hlimits : (init.locals.flatMap slots).length ≤ r.maxLocals) {data : Bytes}
    {frames : List StackMapFrame} :
    r.stackMapTable init.toFrame data = (frames, []) ↔ ∃ forms fs,
      forms.length < 2 ^ 16 ∧ data = u2 forms.length ++ forms.flatMap (·.encode) ∧
      TableDenotes r init true forms fs ∧ frames = fs.map (·.toFrame) := by
  have hreads := reads_getU2.bind fun count => reads_readFrames r hinit hlimits count true
  have hiff : r.stackMapTable init.toFrame data = (frames, []) ↔
      r.readFrames (getU2 ⟨data, []⟩).1 init.toFrame true (getU2 ⟨data, []⟩).2 =
        (frames, ⟨[], []⟩) := by
    simp only [stackMapTable]
    generalize r.readFrames (getU2 ⟨data, []⟩).1 init.toFrame true (getU2 ⟨data, []⟩).2 = result
    obtain ⟨frames', bytes, errors⟩ := result
    by_cases herrors : errors = []
    · subst herrors
      by_cases hbytes : bytes = []
      · simp [hbytes]
      · simp [hbytes, report]
    · simp only [Prod.mk.injEq, StackMapStream.mk.injEq, herrors, and_false, iff_false]
      split
      · simp [herrors]
      · simp only [Prod.mk.injEq, not_and]
        intro _
        split
        · exact report_errors_ne_nil _ _
        · exact herrors
  rw [hiff, hreads ⟨data, []⟩ frames []]
  constructor
  · rintro ⟨_, ⟨count, front, back, ⟨hlt, rfl⟩, ⟨forms, fs, rfl, htable, rfl, rfl⟩, rfl⟩, hdata⟩
    rw [List.append_nil] at hdata
    cases hdata
    exact ⟨forms, fs, hlt, rfl, htable, rfl⟩
  · rintro ⟨forms, fs, hlt, rfl, htable, rfl⟩
    exact ⟨_, ⟨_, _, _, ⟨hlt, rfl⟩, ⟨forms, fs, rfl, htable, rfl, rfl⟩, rfl⟩,
      by rw [List.append_nil]⟩

theorem hasUninitializedThis_iff (types : List VerificationType) :
    hasUninitializedThis types = true ↔ VerificationType.uninitializedThis ∈ types := by
  simp [hasUninitializedThis, VerificationType.isUninitializedThis]

/-- The constructor of the table reports no error exactly for the attributes of the
specification, and the frames are the ones that these stand for. -/
theorem stackMapTable_exact {init : FrameTypes}
    (hinit : ∀ t ∈ init.locals, t.isCategory2Second = false)
    (hlimits : (init.locals.flatMap slots).length ≤ r.maxLocals) (data : Bytes)
    (frames : List StackMapFrame) :
    (r.stackMapTable init.toFrame data = (frames, []) ↔ ∃ forms fs,
      forms.length < 2 ^ 16 ∧ data = u2 forms.length ++ forms.flatMap (·.encode) ∧
      TableDenotes r init true forms fs ∧ frames = fs.map (·.toFrame)) ∧
    (r.stackMapTable init.toFrame data = (frames, []) →
      frames.Pairwise (fun f f' => f.offset < f'.offset) ∧ ∀ f ∈ frames,
        r.codeData.getD f.offset .inside ≠ .inside ∧ f.locals.length ≤ r.maxLocals ∧
        f.stack.length ≤ r.maxStack ∧
        (f.flagThisUninit = true ↔ VerificationType.uninitializedThis ∈ f.locals)) := by
  refine ⟨stackMapTable_eq_iff r hinit hlimits, fun h => ?_⟩
  obtain ⟨forms, fs, -, -, htable, rfl⟩ := (stackMapTable_eq_iff r hinit hlimits).1 h
  refine ⟨List.pairwise_map.2 htable.pairwise_offset, ?_⟩
  intro frame hframe
  obtain ⟨f, hf, rfl⟩ := List.mem_map.1 hframe
  have hfits := htable.fits f hf
  refine ⟨hfits.start, hfits.locals, hfits.stack, ?_⟩
  rw [← hasUninitializedThis_iff]
  simp [FrameTypes.toFrame]

/-- A method with an int as its argument and room for a long. -/
def intArgument : StackMapReader where
  klassNameAt _ := none
  codeData := [.bytecode, .bytecode, .bytecode]
  codeLength_le := by decide
  maxLocals := 3
  maxStack := 0

/-- The long is appended and chopped again behind the argument. -/
theorem stackMapTable_exact_append_chop :
    intArgument.stackMapTable (FrameTypes.toFrame ⟨0, [.integer], []⟩)
        [0, 2, 252, 0, 1, 4, 250, 0, 0] =
        ([⟨1, false, [.integer, .long, .long2], []⟩, ⟨2, false, [.integer], []⟩], []) ∧
      ∃ forms fs, forms.length < 2 ^ 16 ∧
        [0, 2, 252, 0, 1, 4, 250, 0, 0] = u2 forms.length ++ forms.flatMap (·.encode) ∧
        TableDenotes intArgument ⟨0, [.integer], []⟩ true forms fs ∧
        [⟨1, false, [.integer, .long, .long2], []⟩, ⟨2, false, [.integer], []⟩] =
          fs.map (·.toFrame) :=
  ⟨by decide, (@stackMapTable_exact intArgument ⟨0, [.integer], []⟩ (by decide) (by decide) _ _).1.1
    (by decide)⟩

end HotSpot
