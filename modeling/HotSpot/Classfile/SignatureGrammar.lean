import HotSpot.Classfile.Signature
import Mathlib

/-! # The grammar of descriptors

What the checks of `classFileParser.cpp` accept in class files of version 49 and later,
against the grammar of the specification. They take any name without a dot for a class name.
-/

namespace HotSpot.ClassFileParser

/-! ## Grammar -/

/-- A non-empty part of a class name. -/
def Segment (segment : Bytes) : Prop :=
  segment ≠ [] ∧ ∀ c ∈ segment,
    c ≠ Letter.dot ∧ c ≠ Letter.endClass ∧ c ≠ Letter.array ∧ c ≠ Letter.slash

/-- A class name of the specification. -/
def ClassName (name : Bytes) : Prop :=
  ∃ segments, segments ≠ [] ∧ (∀ segment ∈ segments, Segment segment) ∧
    name = [Letter.slash].intercalate segments

/-- What the scan takes for a class name. -/
def ScannedName (name : Bytes) : Prop := Letter.dot ∉ name ∧ Letter.endClass ∉ name

/-- A descriptor without dimensions, where `void` allows that of `void`. -/
inductive BaseType (nameOk : Bytes → Prop) (void : Prop) : Bytes → Prop
  | primitive {c : UInt8} (h : c ∈ [Letter.byte, Letter.char, Letter.double, Letter.float,
      Letter.int, Letter.long, Letter.short, Letter.boolean]) : BaseType nameOk void [c]
  | void (h : void) : BaseType nameOk void [Letter.void]
  | object {name : Bytes} (h : nameOk name) :
      BaseType nameOk void (Letter.cls :: (name ++ [Letter.endClass]))

/-- A field descriptor; an array of `void` is none. -/
def FieldDescriptor (nameOk : Bytes → Prop) (voidOk : Bool) (descriptor : Bytes) : Prop :=
  ∃ dims base, dims ≤ 255 ∧ BaseType nameOk (voidOk = true ∧ dims = 0) base ∧
    descriptor = List.replicate dims Letter.array ++ base

/-- The slots of an argument. -/
def slots (descriptor : Bytes) : Nat :=
  if descriptor = [Letter.long] ∨ descriptor = [Letter.double] then 2 else 1

/-- The return type of a method; the names of internal methods start with `<`. -/
def ReturnDescriptor (nameOk : Bytes → Prop) (name result : Bytes) : Prop :=
  if name.head? = some Letter.less then result = [Letter.void]
  else FieldDescriptor nameOk true result

/-- The parts of a method descriptor. -/
structure MethodDescriptor (nameOk : Bytes → Prop) (name signature : Bytes) (args : List Bytes)
    (result : Bytes) : Prop where
  eq : signature = Letter.func :: (args.flatten ++ Letter.endFunc :: result)
  arg : ∀ arg ∈ args, FieldDescriptor nameOk false arg
  result : ReturnDescriptor nameOk name result

/-! ## Scanning -/

variable (parser : ClassFileParser)

theorem isPrimitive_iff {c : UInt8} :
    isPrimitive c = true ↔ c ∈ [Letter.byte, Letter.char, Letter.double, Letter.float,
      Letter.int, Letter.long, Letter.short, Letter.boolean] := by
  simp only [isPrimitive, decide_eq_true_eq, List.mem_cons, List.not_mem_nil, or_false]
  tauto

theorem skipOverClassName_iff {p q : Bytes} :
    parser.skipOverClassName p.length p = .ok (some q) ↔
      ∃ name, ScannedName name ∧ p = name ++ Letter.endClass :: q := by
  induction p with
  | nil => simp [skipOverClassName, deref, Letter.endClass]
  | cons c p ih =>
    rw [List.length_cons, skipOverClassName]
    change (if c = Letter.endClass then Except.ok (some p) else
      if c = Letter.dot then _ else parser.skipOverClassName p.length p) = _ ↔ _
    split
    next hend =>
      subst hend
      constructor
      · intro h
        cases h
        exact ⟨[], by simp [ScannedName], rfl⟩
      · rintro ⟨name, hname, heq⟩
        cases name with
        | nil => simp_all
        | cons d name =>
          obtain ⟨rfl, -⟩ := List.cons.inj heq
          exact absurd List.mem_cons_self hname.2
    next hend =>
      split
      next hdot =>
        subst hdot
        simp only [reduceCtorEq, false_iff]
        rintro ⟨name, hname, heq⟩
        cases name with
        | nil => exact hend (List.cons.inj heq).1
        | cons d name =>
          obtain ⟨rfl, -⟩ := List.cons.inj heq
          exact hname.1 List.mem_cons_self
      next hdot =>
        rw [ih]
        constructor
        · rintro ⟨name, hname, rfl⟩
          refine ⟨c :: name, ?_, rfl⟩
          simp only [ScannedName, List.mem_cons, not_or]
          exact ⟨⟨Ne.symm hdot, hname.1⟩, Ne.symm hend, hname.2⟩
        · rintro ⟨name, hname, heq⟩
          cases name with
          | nil => exact absurd (List.cons.inj heq).1 hend
          | cons d name =>
            obtain ⟨rfl, rfl⟩ := List.cons.inj heq
            simp only [ScannedName, List.mem_cons, not_or] at hname
            exact ⟨name, ⟨hname.1.2, hname.2.2⟩, rfl⟩

section Letters

variable {nameOk : Bytes → Prop} {void : Prop} {c : UInt8} {p q : Bytes}

/-- The first letter of a type without dimensions decides. -/
theorem exists_baseType_iff :
    (∃ base, BaseType nameOk void base ∧ c :: p = base ++ q) ↔
      (isPrimitive c = true ∧ p = q) ∨ (void ∧ c = Letter.void ∧ p = q) ∨
      (c = Letter.cls ∧ ∃ name, nameOk name ∧ p = name ++ Letter.endClass :: q) := by
  constructor
  · rintro ⟨base, hbase, heq⟩
    cases hbase with
    | primitive h =>
      obtain ⟨rfl, rfl⟩ := List.cons.inj heq
      exact .inl ⟨isPrimitive_iff.mpr h, rfl⟩
    | void h =>
      obtain ⟨rfl, rfl⟩ := List.cons.inj heq
      exact .inr (.inl ⟨h, rfl, rfl⟩)
    | object h =>
      obtain ⟨rfl, rfl⟩ := List.cons.inj heq
      exact .inr (.inr ⟨rfl, _, h, by simp⟩)
  · rintro (⟨hc, rfl⟩ | ⟨hvoid, rfl, rfl⟩ | ⟨rfl, name, hname, rfl⟩)
    · exact ⟨_, .primitive (isPrimitive_iff.mp hc), rfl⟩
    · exact ⟨_, .void hvoid, rfl⟩
    · exact ⟨_, .object hname, by simp⟩

/-- A type starts with its dimensions. -/
theorem exists_dims_iff {limit : Nat} {voidOk : Bool} (hlimit : 0 ≤ limit) :
    (∃ dims base, dims ≤ limit ∧ BaseType nameOk (voidOk = true ∧ dims = 0) base ∧
      c :: p = List.replicate dims Letter.array ++ (base ++ q)) ↔
      (∃ base, BaseType nameOk (voidOk = true) base ∧ c :: p = base ++ q) ∨
      (c = Letter.array ∧ ∃ dims base, dims + 1 ≤ limit ∧
        BaseType nameOk (false = true ∧ dims = 0) base ∧
        p = List.replicate dims Letter.array ++ (base ++ q)) := by
  constructor
  · rintro ⟨dims, base, hdims, hbase, heq⟩
    cases dims with
    | zero => exact .inl ⟨base, by simpa using hbase, by simpa using heq⟩
    | succ dims =>
      rw [List.replicate_succ, List.cons_append] at heq
      obtain ⟨rfl, rfl⟩ := List.cons.inj heq
      exact .inr ⟨rfl, dims, base, hdims, by simpa using hbase, rfl⟩
  · rintro (⟨base, hbase, heq⟩ | ⟨rfl, dims, base, hdims, hbase, rfl⟩)
    · exact ⟨0, base, hlimit, by simpa using hbase, by simpa using heq⟩
    · exact ⟨dims + 1, base, hdims, by simpa using hbase, rfl⟩

end Letters

/-- The loop, after `arrayDim` dimensions. -/
theorem skipOverFieldSignatureLoop_iff (hversion : java15Version ≤ parser.majorVersion)
    {arrayDim : Nat} {p q : Bytes} {voidOk : Bool} :
    parser.skipOverFieldSignatureLoop p.length arrayDim p voidOk = .ok (some q) ↔
      ∃ dims base, dims ≤ 255 - arrayDim ∧
        BaseType ScannedName (voidOk = true ∧ dims = 0) base ∧
        p = List.replicate dims Letter.array ++ (base ++ q) := by
  induction p generalizing arrayDim voidOk with
  | nil =>
    simp only [List.length_nil, skipOverFieldSignatureLoop, Except.ok.injEq, reduceCtorEq,
      false_iff]
    rintro ⟨dims, base, -, hbase, heq⟩
    have : base = [] := by simp_all
    subst this
    cases hbase
  | cons c p ih =>
    rw [exists_dims_iff (Nat.zero_le _), exists_baseType_iff, List.length_cons,
      skipOverFieldSignatureLoop]
    have hderef : deref (c :: p) = c := rfl
    have hdrop : (c :: p).drop 1 = p := rfl
    simp only [hderef, hdrop, if_neg (Nat.not_lt.mpr hversion)]
    have hvoid : isPrimitive Letter.void = false := by decide
    split
    next hc =>
      subst hc
      have h1 : Letter.void ≠ Letter.cls := by decide
      have h2 : Letter.void ≠ Letter.array := by decide
      cases voidOk <;> simp [hvoid, h1, h2]
    next hvoid =>
      split
      next hprimitive =>
        have h1 : c ≠ Letter.cls := by rintro rfl; exact absurd hprimitive (by decide)
        have h2 : c ≠ Letter.array := by rintro rfl; exact absurd hprimitive (by decide)
        simp [hprimitive, hvoid, h1, h2]
      next hprimitive =>
        split
        next hc =>
          subst hc
          have h2 : Letter.cls ≠ Letter.array := by decide
          simp [hprimitive, hvoid, h2, parser.skipOverClassName_iff]
        next hcls =>
          split
          next hc =>
            subst hc
            split
            next hmany =>
              simp [hprimitive, hvoid, hcls]
              omega
            next hfew =>
              have hlimit : ∀ dims, dims + 1 ≤ 255 - arrayDim ↔ dims ≤ 254 - arrayDim := by
                omega
              simp [hprimitive, hvoid, hcls, ih, hlimit]
          next harray => simp [hprimitive, hvoid, hcls, harray]

/-- The scan accepts the grammar with any class names. -/
theorem skipOverFieldSignature_iff (hversion : java15Version ≤ parser.majorVersion)
    {p q : Bytes} {voidOk : Bool} :
    parser.skipOverFieldSignature p voidOk p.length = .ok (some q) ↔
      ∃ d, FieldDescriptor ScannedName voidOk d ∧ p = d ++ q := by
  rw [skipOverFieldSignature, parser.skipOverFieldSignatureLoop_iff hversion]
  constructor
  · rintro ⟨dims, base, hdims, hbase, rfl⟩
    exact ⟨_, ⟨dims, base, hdims, hbase, rfl⟩, by simp⟩
  · rintro ⟨d, ⟨dims, base, hdims, hbase, rfl⟩, rfl⟩
    exact ⟨dims, base, hdims, hbase, by simp⟩

/-! ## Class names -/

theorem ClassName.scanned {name : Bytes} (h : ClassName name) : ScannedName name := by
  obtain ⟨segments, -, hsegments, rfl⟩ := h
  induction segments with
  | nil => simp [ScannedName, List.intercalate]
  | cons segment segments ih =>
    have hhead := (hsegments _ List.mem_cons_self).2
    have htail := ih fun s hs => hsegments s (List.mem_cons_of_mem _ hs)
    have hsegment : ScannedName segment :=
      ⟨fun h => (hhead _ h).1 rfl, fun h => (hhead _ h).2.1 rfl⟩
    cases segments with
    | nil => simpa [List.intercalate] using hsegment
    | cons next segments =>
      rw [List.intercalate_cons_cons]
      simp only [ScannedName, List.mem_append, List.mem_singleton, not_or] at hsegment htail ⊢
      exact ⟨⟨⟨hsegment.1, by decide⟩, htail.1⟩, ⟨hsegment.2, by decide⟩, htail.2⟩

theorem ClassName.ne_nil {name : Bytes} (h : ClassName name) : name ≠ [] := by
  obtain ⟨segments, hne, hsegments, rfl⟩ := h
  cases segments with
  | nil => exact absurd rfl hne
  | cons segment segments =>
    have hsegment := (hsegments segment List.mem_cons_self).1
    cases segments with
    | nil => simpa [List.intercalate] using hsegment
    | cons next segments =>
      rw [List.intercalate_cons_cons]
      simp

theorem BaseType.mono {nameOk nameOk' : Bytes → Prop} {void : Prop} {base : Bytes}
    (hmono : ∀ name, nameOk name → nameOk' name) (h : BaseType nameOk void base) :
    BaseType nameOk' void base := by
  cases h with
  | primitive h => exact .primitive h
  | void h => exact .void h
  | object h => exact .object (hmono _ h)

theorem FieldDescriptor.scanned {voidOk : Bool} {d : Bytes}
    (h : FieldDescriptor ClassName voidOk d) : FieldDescriptor ScannedName voidOk d := by
  obtain ⟨dims, base, hdims, hbase, heq⟩ := h
  exact ⟨dims, base, hdims, hbase.mono fun _ => ClassName.scanned, heq⟩

/-- The class name that a descriptor ends in, after its dimensions. -/
def HasClassName (descriptor name : Bytes) : Prop :=
  ∃ dims, descriptor = List.replicate dims Letter.array ++
    Letter.cls :: (name ++ [Letter.endClass])

/-- The dimensions are those before the first other letter. -/
theorem replicate_append_inj {m n : Nat} {c d : UInt8} {p q : Bytes} (hc : c ≠ Letter.array)
    (hd : d ≠ Letter.array)
    (h : List.replicate m Letter.array ++ c :: p = List.replicate n Letter.array ++ d :: q) :
    m = n ∧ c = d ∧ p = q := by
  induction m generalizing n with
  | zero =>
    cases n with
    | zero => simpa using h
    | succ n => exact absurd (List.cons.inj h).1 hc
  | succ m ih =>
    cases n with
    | zero => exact absurd (List.cons.inj h).1.symm hd
    | succ n =>
      rw [List.replicate_succ, List.replicate_succ, List.cons_append, List.cons_append] at h
      obtain ⟨rfl, hrest⟩ := ih (List.cons.inj h).2
      exact ⟨rfl, hrest⟩

/-- The class name of a descriptor is unique, and so are the dimensions before it. -/
theorem FieldDescriptor.className {nameOk : Bytes → Prop} {voidOk : Bool} {d name : Bytes}
    {n : Nat} (h : FieldDescriptor nameOk voidOk d)
    (heq : d = List.replicate n Letter.array ++ Letter.cls :: (name ++ [Letter.endClass])) :
    n ≤ 255 ∧ nameOk name := by
  obtain ⟨dims, base, hdims, hbase, rfl⟩ := h
  cases hbase with
  | @primitive c hc =>
    have hne : c ≠ Letter.array := by
      rintro rfl
      exact absurd hc (by decide)
    obtain ⟨-, rfl, -⟩ := replicate_append_inj hne (by decide) heq
    exact absurd hc (by decide)
  | void =>
    have hparts := replicate_append_inj (by decide) (by decide) heq
    exact absurd hparts.2.1 (by decide)
  | object hname =>
    obtain ⟨rfl, -, hrest⟩ := replicate_append_inj (by decide) (by decide) heq
    rw [List.append_cancel_right hrest] at hname
    exact ⟨hdims, hname⟩

/-- A scanned descriptor is one of the specification if its class name is. -/
theorem fieldDescriptor_iff {voidOk : Bool} {d : Bytes} :
    FieldDescriptor ClassName voidOk d ↔
      FieldDescriptor ScannedName voidOk d ∧ ∀ name, HasClassName d name → ClassName name := by
  constructor
  · intro h
    refine ⟨h.scanned, ?_⟩
    rintro name ⟨n, heq⟩
    exact (h.className heq).2
  · rintro ⟨⟨dims, base, hdims, hbase, rfl⟩, hnames⟩
    refine ⟨dims, base, hdims, ?_, rfl⟩
    cases hbase with
    | primitive h => exact .primitive h
    | void h => exact .void h
    | object h => exact .object (hnames _ ⟨dims, rfl⟩)

/-! ## Fields -/

/-- The scan meets the specification: it succeeds just past a descriptor. -/
def SkipsDescriptor (signature : Bytes) (voidOk : Bool) : Prop :=
  ∀ rest, parser.skipOverFieldSignature signature voidOk signature.length = .ok (some rest) ↔
    ∃ d, FieldDescriptor ClassName voidOk d ∧ signature = d ++ rest

/-- If the signature starts with an object type, its class name is legal. -/
def LegalFieldName (signature : Bytes) : Prop :=
  ∀ dims name rest, dims ≤ 255 →
    signature = List.replicate dims Letter.array ++
      Letter.cls :: (name ++ Letter.endClass :: rest) →
    ScannedName name → ClassName name

theorem skipsDescriptor_iff (hversion : java15Version ≤ parser.majorVersion) {signature : Bytes}
    {voidOk : Bool} :
    parser.SkipsDescriptor signature voidOk ↔ LegalFieldName signature := by
  constructor
  · intro h dims name rest hdims heq hname
    -- The scan accepts this prefix, and only this one ends there.
    have hscanned : FieldDescriptor ScannedName voidOk
        (List.replicate dims Letter.array ++ Letter.cls :: (name ++ [Letter.endClass])) :=
      ⟨dims, _, hdims, .object hname, rfl⟩
    have hskip := (parser.skipOverFieldSignature_iff hversion).mpr
      ⟨_, hscanned, show signature = _ ++ rest by simpa using heq⟩
    obtain ⟨d, hd, heq'⟩ := (h rest).mp hskip
    have hd' :
        d = List.replicate dims Letter.array ++ Letter.cls :: (name ++ [Letter.endClass]) := by
      rw [heq'] at heq
      exact List.append_cancel_right (show d ++ rest = _ ++ rest by simpa using heq)
    exact (hd.className hd').2
  · intro h rest
    rw [parser.skipOverFieldSignature_iff hversion]
    constructor
    · rintro ⟨d, hd, rfl⟩
      refine ⟨d, fieldDescriptor_iff.mpr ⟨hd, ?_⟩, rfl⟩
      rintro name ⟨dims, rfl⟩
      obtain ⟨hdims, hname⟩ := hd.className rfl
      exact h dims name rest hdims (by simp) hname
    · rintro ⟨d, hd, rfl⟩
      exact ⟨d, hd.scanned, rfl⟩

/-! ## Methods -/

/-- A descriptor does not start with the letter that ends the arguments. -/
theorem FieldDescriptor.ne_endFunc {nameOk : Bytes → Prop} {d p q : Bytes}
    (h : FieldDescriptor nameOk false d) : d ++ p ≠ Letter.endFunc :: q := by
  obtain ⟨dims, base, -, hbase, rfl⟩ := h
  intro heq
  cases dims with
  | zero =>
    cases hbase with
    | @primitive c hc =>
      obtain ⟨rfl, -⟩ := List.cons.inj heq
      exact absurd hc (by decide)
    | void hvoid => exact absurd hvoid.1 (by decide)
    | object => exact absurd (List.cons.inj heq).1 (by decide)
  | succ dims => exact absurd (List.cons.inj heq).1 (by decide)

/-- The first letter of an argument tells how many slots it has. -/
theorem FieldDescriptor.slots_eq {nameOk : Bytes → Prop} {d p : Bytes}
    (h : FieldDescriptor nameOk false d) :
    slots d = if deref (d ++ p) = Letter.long ∨ deref (d ++ p) = Letter.double then 2 else 1 := by
  obtain ⟨dims, base, -, hbase, rfl⟩ := h
  cases dims with
  | zero =>
    cases hbase with
    | @primitive c hc => simp [slots, deref]
    | void hvoid => exact absurd hvoid.1 (by decide)
    | object => simp [slots, deref, Letter.cls, Letter.long, Letter.double]
  | succ dims => simp [slots, deref, List.replicate_succ, Letter.array, Letter.long, Letter.double]

theorem skipOverFieldSignature_endFunc (voidOk : Bool) (q : Bytes) :
    parser.skipOverFieldSignature (Letter.endFunc :: q) voidOk (Letter.endFunc :: q).length =
      .ok none := by
  simp [skipOverFieldSignature, skipOverFieldSignatureLoop, deref, isPrimitive, Letter.endFunc,
    Letter.void, Letter.boolean, Letter.byte, Letter.char, Letter.short, Letter.int, Letter.float,
    Letter.long, Letter.double, Letter.cls, Letter.array]

/-- The arguments are skipped one by one. -/
theorem skipArguments_args (hversion : java15Version ≤ parser.majorVersion) {args : List Bytes}
    {q : Bytes} {argsSize : Nat} (hargs : ∀ arg ∈ args, FieldDescriptor ScannedName false arg) :
    parser.skipArguments (args.flatten ++ Letter.endFunc :: q)
      (args.flatten ++ Letter.endFunc :: q).length argsSize =
      .ok (argsSize + (args.map slots).sum, Letter.endFunc :: q,
        (Letter.endFunc :: q).length) := by
  induction args generalizing argsSize with
  | nil =>
    have hskip : parser.skipOverFieldSignature (([] : List Bytes).flatten ++ Letter.endFunc :: q)
        false (([] : List Bytes).flatten ++ Letter.endFunc :: q).length = .ok none :=
      parser.skipOverFieldSignature_endFunc false q
    rw [skipArguments]
    split
    next heq => rw [hskip] at heq; cases heq
    next => simp
    next heq => rw [hskip] at heq; cases heq
  | cons arg args ih =>
    have harg := hargs arg List.mem_cons_self
    have hskip := (parser.skipOverFieldSignature_iff hversion).mpr
      ⟨arg, harg, show (arg :: args).flatten ++ Letter.endFunc :: q =
        arg ++ (args.flatten ++ Letter.endFunc :: q) by simp⟩
    have hslots := harg.slots_eq (p := args.flatten ++ Letter.endFunc :: q)
    rw [skipArguments]
    split
    next heq => rw [hskip] at heq; cases heq
    next heq => rw [hskip] at heq; cases heq
    next nextp heq =>
      rw [hskip] at heq
      cases heq
      have hsize : (if deref ((arg :: args).flatten ++ Letter.endFunc :: q) = Letter.long ∨
          deref ((arg :: args).flatten ++ Letter.endFunc :: q) = Letter.double
          then argsSize + 1 + 1 else argsSize + 1) = argsSize + slots arg := by
        rw [hslots, List.flatten_cons, List.append_assoc]
        split <;> rfl
      have hlength : ((arg :: args).flatten ++ Letter.endFunc :: q).length -
          (((arg :: args).flatten ++ Letter.endFunc :: q).length -
            (args.flatten ++ Letter.endFunc :: q).length) =
          (args.flatten ++ Letter.endFunc :: q).length := by
        simp
      rw [if_neg (by simp), hlength]
      dsimp only
      rw [hsize,
        ih fun a ha => hargs a (List.mem_cons_of_mem _ ha), List.map_cons, List.sum_cons,
        Nat.add_assoc]

theorem exists_args_of_skipArguments (hversion : java15Version ≤ parser.majorVersion)
    {p q : Bytes} {argsSize n length : Nat}
    (h : parser.skipArguments p p.length argsSize = .ok (n, q, length)) :
    ∃ args : List Bytes, (∀ arg ∈ args, FieldDescriptor ScannedName false arg) ∧
      p = args.flatten ++ q ∧ n = argsSize + (args.map slots).sum ∧ length = q.length := by
  rw [skipArguments] at h
  split at h
  next => cases h
  next =>
    cases h
    exact ⟨[], by simp⟩
  next nextp hnext =>
    have hlt := parser.skipOverFieldSignatureLoop_length hnext
    obtain ⟨arg, harg, rfl⟩ := (parser.skipOverFieldSignature_iff hversion).mp hnext
    split at h
    next hzero => omega
    next =>
      rw [show (arg ++ nextp).length - ((arg ++ nextp).length - nextp.length) = nextp.length by
        simp] at h
      obtain ⟨args, hargs, hp, hn, hlength⟩ := exists_args_of_skipArguments hversion h
      refine ⟨arg :: args, ?_, by simp [hp], ?_, hlength⟩
      · simpa using ⟨harg, hargs⟩
      · have hslots := harg.slots_eq (p := nextp)
        rw [hn, List.map_cons, List.sum_cons, hslots]
        split <;> omega
termination_by p.length

theorem eq_cons_of_deref {p : Bytes} {c : UInt8} (hc : c ≠ 0) (h : deref p = c) :
    p = c :: p.drop 1 := by
  cases p with
  | nil => exact absurd h.symm hc
  | cons d p => rw [← h]; rfl

/-- The last part of the check is about the return type. -/
theorem returnDescriptor_iff (hversion : java15Version ≤ parser.majorVersion)
    {name result : Bytes} :
    ReturnDescriptor ScannedName name result ↔
      if 0 < name.length ∧ deref name = Letter.less then
        result.length = 1 ∧ deref result = Letter.void
      else ∃ nextp, parser.skipOverFieldSignature result true result.length = .ok (some nextp) ∧
        result.length = result.length - nextp.length := by
  have hhead : name.head? = some Letter.less ↔ 0 < name.length ∧ deref name = Letter.less := by
    cases name <;> simp [deref, List.headD]
  unfold ReturnDescriptor
  simp only [hhead]
  split
  next =>
    match result with
    | [] => simp
    | [c] => simp [deref]
    | _ :: _ :: _ => simp
  next =>
    constructor
    · intro h
      exact ⟨[], (parser.skipOverFieldSignature_iff hversion).mpr ⟨result, h, by simp⟩, by simp⟩
    · rintro ⟨nextp, hskip, hlength⟩
      have hlt := parser.skipOverFieldSignatureLoop_length hskip
      obtain ⟨d, hd, hresult⟩ := (parser.skipOverFieldSignature_iff hversion).mp hskip
      have hnil : nextp = [] := List.length_eq_zero_iff.mp (by omega)
      rw [hnil, List.append_nil] at hresult
      rwa [hresult]

/-- The check accepts the grammar with any class names. -/
theorem verifyLegalMethodSignature_iff (hversion : java15Version ≤ parser.majorVersion)
    (hverify : parser.needVerify = true) {name signature : Bytes} {n : Int} :
    parser.verifyLegalMethodSignature name signature = .ok n ↔
      ∃ args result, MethodDescriptor ScannedName name signature args result ∧
        n = (args.map slots).sum := by
  unfold verifyLegalMethodSignature
  rw [if_neg (by simp [hverify])]
  dsimp only
  constructor
  · intro h
    split at h
    next => cases h
    next hlength =>
      split at h
      next => cases h
      next hfunc =>
        split at h
        next => cases h
        next argsSize p length hargs =>
          rw [show signature.length - 1 = (signature.drop 1).length by simp] at hargs
          obtain ⟨args, hdescriptors, hp, hsize, rfl⟩ :=
            parser.exists_args_of_skipArguments hversion hargs
          split at h
          next => cases h
          next hne =>
            split at h
            next => cases h
            next hend =>
              have hsignature := eq_cons_of_deref (by decide) (not_not.mp hfunc)
              have hrest := eq_cons_of_deref (by decide) (not_not.mp hend)
              have hreturn :
                  ReturnDescriptor ScannedName name (p.drop 1) ∧ (argsSize : Int) = n := by
                rw [returnDescriptor_iff parser hversion, List.length_drop]
                split at h
                next hinternal =>
                  rw [if_pos hinternal]
                  split at h <;> cases h
                  next hvoid => exact ⟨hvoid, rfl⟩
                next hinternal =>
                  rw [if_neg hinternal]
                  split at h
                  next => cases h
                  next => cases h
                  next nextp hnext =>
                    split at h <;> cases h
                    next heq =>
                      rw [List.length_drop] at heq
                      exact ⟨⟨nextp, hnext, heq⟩, rfl⟩
              refine ⟨args, p.drop 1, ⟨?_, hdescriptors, hreturn.1⟩, ?_⟩
              · rw [← hrest, ← hp]
                exact hsignature
              · rw [← hreturn.2, hsize, Nat.zero_add]
  · rintro ⟨args, result, ⟨rfl, hargs, hresult⟩, rfl⟩
    have hskip : parser.skipArguments (args.flatten ++ Letter.endFunc :: result) _ 0 = _ :=
      parser.skipArguments_args hversion hargs
    rw [returnDescriptor_iff parser hversion] at hresult
    have hdrop : ∀ (c : UInt8) (l : Bytes), (c :: l).drop 1 = l := fun _ _ => rfl
    have hderef : ∀ (c : UInt8) (l : Bytes), deref (c :: l) = c := fun _ _ => rfl
    simp only [List.length_cons, Nat.add_one_sub_one, hdrop, hderef, hskip]
    rw [if_neg (by omega), if_neg (by simp), if_neg (by omega), if_neg (by simp)]
    split
    next hinternal =>
      rw [if_pos hinternal] at hresult
      rw [if_pos hresult, Nat.zero_add]
    next hinternal =>
      rw [if_neg hinternal] at hresult
      obtain ⟨nextp, hnext, hlength⟩ := hresult
      rw [hnext]
      dsimp only
      rw [if_pos hlength, Nat.zero_add]

/-! ## The specification -/

/-- The check meets the specification: it accepts the method descriptors and counts the slots
of their arguments. -/
def ChecksMethod (name signature : Bytes) : Prop :=
  ∀ n : Int, parser.verifyLegalMethodSignature name signature = .ok n ↔
    ∃ args result, MethodDescriptor ClassName name signature args result ∧
      n = (args.map slots).sum

/-- If the signature is that of a method but for class names, these are legal. -/
def LegalMethodNames (name signature : Bytes) : Prop :=
  ∀ args result, MethodDescriptor ScannedName name signature args result →
    ∀ descriptor ∈ args ++ [result], ∀ className, HasClassName descriptor className →
      ClassName className

theorem returnDescriptor_classNames_iff {name result : Bytes} :
    ReturnDescriptor ClassName name result ↔ ReturnDescriptor ScannedName name result ∧
      ∀ className, HasClassName result className → ClassName className := by
  unfold ReturnDescriptor
  split
  next =>
    constructor
    · rintro rfl
      refine ⟨rfl, ?_⟩
      rintro className ⟨dims, heq⟩
      have hparts := @replicate_append_inj 0 dims Letter.void Letter.cls [] _ (by decide)
        (by decide) heq
      exact absurd hparts.2.1 (by decide)
    · exact And.left
  next => exact fieldDescriptor_iff

theorem methodDescriptor_iff {name signature result : Bytes} {args : List Bytes} :
    MethodDescriptor ClassName name signature args result ↔
      MethodDescriptor ScannedName name signature args result ∧
      ∀ descriptor ∈ args ++ [result], ∀ className, HasClassName descriptor className →
        ClassName className := by
  simp only [List.mem_append, List.mem_singleton]
  constructor
  · rintro ⟨heq, hargs, hresult⟩
    rw [returnDescriptor_classNames_iff] at hresult
    refine ⟨⟨heq, fun arg harg => (hargs arg harg).scanned, hresult.1⟩, ?_⟩
    rintro d (hd | rfl)
    · exact (fieldDescriptor_iff.mp (hargs d hd)).2
    · exact hresult.2
  · rintro ⟨⟨heq, hargs, hresult⟩, hnames⟩
    exact ⟨heq, fun arg harg => fieldDescriptor_iff.mpr ⟨hargs arg harg, hnames arg (.inl harg)⟩,
      returnDescriptor_classNames_iff.mpr ⟨hresult, hnames result (.inr rfl)⟩⟩

/-- There is one way only to read the arguments, which is that of the scan. -/
theorem flatten_append_inj (hversion : java15Version ≤ parser.majorVersion)
    {args args' : List Bytes} {result result' : Bytes}
    (hargs : ∀ arg ∈ args, FieldDescriptor ScannedName false arg)
    (hargs' : ∀ arg ∈ args', FieldDescriptor ScannedName false arg)
    (h : args.flatten ++ Letter.endFunc :: result = args'.flatten ++ Letter.endFunc :: result') :
    args = args' ∧ result = result' := by
  induction args generalizing args' with
  | nil =>
    cases args' with
    | nil => simpa using h
    | cons arg' args' =>
      rw [List.flatten_cons, List.append_assoc] at h
      exact absurd h.symm (hargs' arg' List.mem_cons_self).ne_endFunc
  | cons arg args ih =>
    cases args' with
    | nil =>
      rw [List.flatten_cons, List.append_assoc] at h
      exact absurd h (hargs arg List.mem_cons_self).ne_endFunc
    | cons arg' args' =>
      rw [List.flatten_cons, List.append_assoc, List.flatten_cons, List.append_assoc] at h
      have hskip := (@skipOverFieldSignature_iff parser hversion
        (arg ++ (args.flatten ++ Letter.endFunc :: result)) _ false).mpr
        ⟨arg, hargs arg List.mem_cons_self, rfl⟩
      have hskip' := (parser.skipOverFieldSignature_iff hversion).mpr
        ⟨arg', hargs' arg' List.mem_cons_self, h⟩
      have hrest : args.flatten ++ Letter.endFunc :: result =
          args'.flatten ++ Letter.endFunc :: result' := by
        simpa using hskip.symm.trans hskip'
      rw [hrest] at h
      obtain ⟨rfl, rfl⟩ := ih (fun a ha => hargs a (List.mem_cons_of_mem _ ha))
        (fun a ha => hargs' a (List.mem_cons_of_mem _ ha)) hrest
      exact ⟨by rw [List.append_cancel_right h], rfl⟩

theorem checksMethod_iff (hversion : java15Version ≤ parser.majorVersion)
    (hverify : parser.needVerify = true) {name signature : Bytes} :
    parser.ChecksMethod name signature ↔ LegalMethodNames name signature := by
  constructor
  · intro h args result hscanned
    have haccept := (parser.verifyLegalMethodSignature_iff hversion hverify).mpr
      ⟨args, result, hscanned, rfl⟩
    obtain ⟨args', result', hlegal, -⟩ := (h _).mp haccept
    have hscanned' := (methodDescriptor_iff.mp hlegal).1
    have heq := (List.cons.inj (hscanned.eq.symm.trans hscanned'.eq)).2
    obtain ⟨rfl, rfl⟩ := parser.flatten_append_inj hversion hscanned.arg hscanned'.arg heq
    exact (methodDescriptor_iff.mp hlegal).2
  · intro h n
    rw [parser.verifyLegalMethodSignature_iff hversion hverify]
    constructor
    · rintro ⟨args, result, hscanned, hn⟩
      exact ⟨args, result, methodDescriptor_iff.mpr ⟨hscanned, h args result hscanned⟩, hn⟩
    · rintro ⟨args, result, hlegal, hn⟩
      exact ⟨args, result, (methodDescriptor_iff.mp hlegal).1, hn⟩

/-- The checks of a newer class file meet the specification if and only if the class names in
the signature are legal. -/
theorem signatureChecks_exact_iff (hversion : java15Version ≤ parser.majorVersion)
    (hverify : parser.needVerify = true) :
    (∀ signature voidOk, parser.SkipsDescriptor signature voidOk ↔ LegalFieldName signature) ∧
    ∀ name signature,
      parser.ChecksMethod name signature ↔ LegalMethodNames name signature :=
  ⟨fun _ _ => parser.skipsDescriptor_iff hversion,
    fun _ _ => parser.checksMethod_iff hversion hverify⟩

/-- A parser of a class file of version 50. -/
def java6Parser : ClassFileParser where
  majorVersion := 50
  needVerify := true
  className := []
  isJavaIdentifierStart _ := some true
  isJavaIdentifierPart _ := some true

theorem signatureChecks_exact_iff_java6 :
    (∀ signature voidOk,
      java6Parser.SkipsDescriptor signature voidOk ↔ LegalFieldName signature) ∧
    ∀ name signature,
      java6Parser.ChecksMethod name signature ↔ LegalMethodNames name signature :=
  java6Parser.signatureChecks_exact_iff (by decide) rfl

/-- The scan takes `L;` for a field descriptor, though its class name is empty. -/
theorem skipsDescriptor_emptyName :
    ¬ java6Parser.SkipsDescriptor [Letter.cls, Letter.endClass] false := by
  rw [java6Parser.skipsDescriptor_iff (by decide)]
  intro h
  exact (h 0 [] [] (by decide) rfl (by simp [ScannedName])).ne_nil rfl

end HotSpot.ClassFileParser
