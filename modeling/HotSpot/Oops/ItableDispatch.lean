import HotSpot.Classfile.VerificationType
import HotSpot.Lib.Simulation
import HotSpot.Oops.KlassItable
import Mathlib

/-! # Dispatch through interface tables

The routines behind an itable agree on where the methods of an interface are, with one exception:
`visit_all_interfaces` means to leave out a leading `<clinit>` and looks for `<init>`.
-/

namespace HotSpot

/-- What a slot of a method table holds. -/
def ItableWord.ofTarget {K : Type} : Option (Method K) → ItableWord K
  | none => .null
  | some m => .method m

namespace LoadedClasses

open ClassFileParser Method

variable {K : Type} (h : LoadedClasses K)

/-! ## Statement -/

/-- The interfaces with at least one method that counts. -/
def countedInterfaces (intfs : List K) : List K :=
  intfs.filter fun intf => 0 < h.itableMethodCount intf

/-- The first instance method with the name and signature on the way up from `k`. -/
def instanceMethod (k : K) (name signature : Bytes) : Option (Method K) :=
  (h.ancestors k).findSome? fun a => (h.methods a).find? fun m =>
    (m.name = name ∧ m.signature = signature) ∧ m.isStatic = false

/-- It answers a call through an interface if it is public and not abstract. -/
def publicMethod (c : ItableLinker K) (name signature : Bytes) : Option (Method K) :=
  (h.instanceMethod c.klass name signature).filter fun m =>
    m.access = .public_ ∧ c.isAbstract m = false

/-- `m` is a class initializer in front of the methods of `intf`. -/
def IsLeadingInitializer (intf : K) (m : Method K) : Prop :=
  (h.methods intf).head? = some m ∧ m.name = classInitializerName

/-- A word belongs to the method table of the `i`-th interface, `intf`. -/
def InMethodTable (t : KlassItable K) (i : Nat) (intf : K) (word : Nat) : Prop :=
  t.offset i ≤ word ∧ word < t.offset i + h.itableMethodCount intf

/-- The itable of a class with the interfaces `intfs`: its layout, its contents after
`initialize_itable` and the indices into it. -/
structure ItableConsistent [DecidableEq K] (c : ItableLinker K) (intfs : List K) (start : Nat) :
    Prop where
  entry : ∀ (i : Nat) (intf : K), (h.countedInterfaces intfs)[i]? = some intf →
    (h.itable intfs start).interfaceKlass i = some intf
  terminator : (h.itable intfs start).interfaceKlass (h.countedInterfaces intfs).length = none ∧
    (h.itable intfs start).offset (h.countedInterfaces intfs).length = 0
  disjoint : ∀ (i j : Nat) (intf intf' : K) (word : Nat),
    (h.countedInterfaces intfs)[i]? = some intf → (h.countedInterfaces intfs)[j]? = some intf' →
    h.InMethodTable (h.itable intfs start) i intf word →
    h.InMethodTable (h.itable intfs start) j intf' word → i = j
  fills : ∀ word, (∃ i intf, (h.countedInterfaces intfs)[i]? = some intf ∧
      h.InMethodTable (h.itable intfs start) i intf word) ↔
    start + ((h.countedInterfaces intfs).length + 1) * itableOffsetEntrySize ≤ word ∧
      word < start + h.computeItableSize intfs
  slot : ∀ (i : Nat) (intf : K) (m : Method K), (h.countedInterfaces intfs)[i]? = some intf →
    m ∈ h.methods intf → ¬ h.IsLeadingInitializer intf m →
    ∃ index : Nat, h.computeItableIndex m = some (index : Int) ∧
      h.InMethodTable (h.itable intfs start) i intf ((h.itable intfs start).offset i + index) ∧
      ∀ t, h.initializeItable c (h.itable intfs start) = .ok t →
        t.words ((h.itable intfs start).offset i + index) =
          .ofTarget (h.publicMethod c m.name m.signature)
  inverse : ∀ (intf : K) (m : Method K), m ∈ h.methods intf → ¬ h.IsLeadingInitializer intf m →
    ∀ index, h.computeItableIndex m = some index ↔ h.methodForItableIndex intf index = some m

/-! ## Lookup -/

theorem findSome?_ancestors {α : Type} (f : K → Option α) (k : K) :
    (h.ancestors k).findSome? f =
      (f k).or ((h.super k).bind fun s => (h.ancestors s).findSome? f) := by
  rw [ancestors_eq, List.findSome?_cons, supers]
  cases f k with
  | some a => rfl
  | none => cases h.super k <;> rfl

/-- The methods of a class that the search for an instance method finds. -/
theorem find?_instance {k : K} {name signature : Bytes} :
    ((h.methods k).find? fun m => (m.name = name ∧ m.signature = signature) ∧ m.isStatic = false) =
      (findMethod (h.methods k) name signature).filter fun m => m.isStatic = false := by
  cases hfind : findMethod (h.methods k) name signature with
  | none =>
    rw [Option.filter_none, List.find?_eq_none]
    intro m hm hmatch
    have hnot := List.find?_eq_none.1 hfind m hm
    simp only [decide_eq_true_eq] at hmatch hnot
    exact hnot hmatch.1
  | some target =>
    obtain ⟨hmem, hname, hsignature⟩ := findMethod_eq_some hfind
    have hunique : ∀ m ∈ h.methods k, m.name = name ∧ m.signature = signature → m = target :=
      fun m hm hmatch => h.methods_unique hm hmem
        ⟨hmatch.1.trans hname.symm, hmatch.2.trans hsignature.symm⟩
    cases hfound : (h.methods k).find? fun m =>
        (m.name = name ∧ m.signature = signature) ∧ m.isStatic = false with
    | none =>
      have hnot := List.find?_eq_none.1 hfound target hmem
      simp only [decide_eq_true_eq, not_and] at hnot
      rw [Option.filter_some, if_neg (by simpa using hnot ⟨hname, hsignature⟩)]
    | some m =>
      have hmatch := List.find?_some hfound
      simp only [decide_eq_true_eq] at hmatch
      obtain rfl := hunique m (List.mem_of_find?_eq_some hfound) hmatch.1
      rw [Option.filter_some, if_pos (by simpa using hmatch.2)]

/-- Passing over static methods from class to class finds the first instance method. -/
theorem lookupInstanceLoop_eq (name signature : Bytes) (k : K) :
    ∀ fuel, h.depth k < fuel →
      h.lookupInstanceLoop name signature fuel k = h.instanceMethod k name signature := by
  induction k using h.super_induction with
  | hstep k ih =>
    intro fuel hfuel
    obtain ⟨fuel, rfl⟩ := Nat.exists_eq_add_one_of_ne_zero (Nat.ne_zero_of_lt hfuel)
    have hlookup := h.findSome?_ancestors (fun a => findMethod (h.methods a) name signature) k
    have hinstance := h.findSome?_ancestors (fun a => (h.methods a).find? fun m =>
      (m.name = name ∧ m.signature = signature) ∧ m.isStatic = false) k
    rw [h.find?_instance] at hinstance
    change h.lookupMethod k name signature = _ at hlookup
    change h.instanceMethod k name signature = _ at hinstance
    rw [hinstance]
    cases hfind : findMethod (h.methods k) name signature with
    | some target =>
      rw [hfind, Option.some_or] at hlookup
      rw [lookupInstanceLoop, hlookup]
      cases hstatic : target.isStatic with
      | false => simp [hstatic, Option.filter_some]
      | true =>
        have hholder := h.holder_eq (findMethod_eq_some hfind).1
        simp only [hholder, if_true, Option.filter_some, hstatic]
        cases hs : h.super k with
        | none => rfl
        | some s =>
          have hdepth := h.depth_super hs
          exact ih s hs fuel (by omega)
    | none =>
      rw [hfind, Option.none_or] at hlookup
      rw [Option.filter_none, Option.none_or]
      cases hs : h.super k with
      | none =>
        rw [hs] at hlookup
        rw [lookupInstanceLoop, hlookup]
        rfl
      | some s =>
        have hdepth := h.depth_super hs
        rw [hs] at hlookup
        have hsame : h.lookupInstanceLoop name signature (fuel + 1) k =
            h.lookupInstanceLoop name signature (fuel + 1) s := by
          rw [lookupInstanceLoop, lookupInstanceLoop, hlookup]
          rfl
        rw [hsame]
        exact ih s hs (fuel + 1) (by omega)

theorem itableTarget_eq (c : ItableLinker K) (name signature : Bytes) :
    h.itableTarget c name signature = h.publicMethod c name signature := by
  rw [itableTarget, lookupInstanceMethod, h.lookupInstanceLoop_eq _ _ _ _ (Nat.lt_succ_self _),
    publicMethod]
  cases h.instanceMethod c.klass name signature with
  | none => rfl
  | some target =>
    rw [Option.filter_some]
    by_cases hpublic : target.access = .public_ <;>
      cases habstract : c.isAbstract target <;> simp [hpublic, habstract]

/-! ## Layout -/

theorem visitAllInterfaces_eq {S : Type} (doit : S → K → Nat → S) (intfs : List K) (s : S) :
    h.visitAllInterfaces doit intfs s =
      (h.countedInterfaces intfs).foldl
        (fun s intf => doit s intf (h.itableMethodCount intf)) s := by
  induction intfs generalizing s with
  | nil => rfl
  | cons intf intfs ih =>
    rw [visitAllInterfaces, countedInterfaces, List.filter_cons]
    by_cases hpos : 0 < h.itableMethodCount intf
    · rw [if_pos hpos, if_pos (by simpa using hpos), List.foldl_cons]
      exact ih _
    · rw [if_neg hpos, if_neg (by simpa using hpos)]
      exact ih _

/-- The number of method entries in front of those of the `i`-th interface. -/
def methodsBefore (cs : List K) (i : Nat) : Nat := ((cs.take i).map h.itableMethodCount).sum

theorem methodsBefore_zero (cs : List K) : h.methodsBefore cs 0 = 0 := rfl

theorem methodsBefore_cons (c : K) (cs : List K) (i : Nat) :
    h.methodsBefore (c :: cs) (i + 1) = h.itableMethodCount c + h.methodsBefore cs i := by
  simp [methodsBefore]

theorem methodsBefore_succ {cs : List K} {i : Nat} {intf : K} (hi : cs[i]? = some intf) :
    h.methodsBefore cs (i + 1) = h.methodsBefore cs i + h.itableMethodCount intf := by
  obtain ⟨hlt, rfl⟩ := List.getElem?_eq_some_iff.1 hi
  have hsum := List.sum_take_succ (cs.map h.itableMethodCount) i (by simpa using hlt)
  simpa only [methodsBefore, List.map_take, List.getElem_map] using hsum

theorem methodsBefore_mono (cs : List K) {i j : Nat} (hij : i ≤ j) :
    h.methodsBefore cs i ≤ h.methodsBefore cs j := by
  simpa only [methodsBefore, List.map_take] using
    List.monotone_sum_take (cs.map h.itableMethodCount) hij

theorem methodsBefore_length (cs : List K) :
    h.methodsBefore cs cs.length = (cs.map h.itableMethodCount).sum := by
  rw [methodsBefore, List.take_length]

/-- The method tables lie one behind the other. -/
theorem exists_methodsBefore {cs : List K} {n : Nat} (hn : n < h.methodsBefore cs cs.length) :
    ∃ i intf, cs[i]? = some intf ∧ h.methodsBefore cs i ≤ n ∧
      n < h.methodsBefore cs i + h.itableMethodCount intf := by
  induction cs generalizing n with
  | nil => exact absurd hn (Nat.not_lt_zero n)
  | cons c cs ih =>
    rw [List.length_cons, methodsBefore_cons] at hn
    by_cases hfirst : n < h.itableMethodCount c
    · exact ⟨0, c, rfl, Nat.zero_le n, by rw [methodsBefore_zero]; omega⟩
    · obtain ⟨i, intf, hi, hle, hlt⟩ := ih (n := n - h.itableMethodCount c) (by omega)
      refine ⟨i + 1, intf, hi, ?_, ?_⟩ <;> rw [methodsBefore_cons] <;> omega

theorem countInterfaces_eq (intfs : List K) : h.countInterfaces intfs =
    ⟨((h.countedInterfaces intfs).map h.itableMethodCount).sum,
      (h.countedInterfaces intfs).length⟩ := by
  rw [countInterfaces, visitAllInterfaces_eq]
  have hfold : ∀ (cs : List K) (c : CountInterfaces),
      cs.foldl (fun c intf => c.doit intf (h.itableMethodCount intf)) c =
        ⟨c.nofMethods + (cs.map h.itableMethodCount).sum, c.nofInterfaces + cs.length⟩ := by
    intro cs
    induction cs with
    | nil => intro c; rfl
    | cons intf cs ih =>
      intro c
      rw [List.foldl_cons, ih, CountInterfaces.doit, List.map_cons, List.sum_cons,
        List.length_cons, Nat.add_assoc, Nat.add_assoc, Nat.add_comm 1]
  rw [hfold, Nat.zero_add, Nat.zero_add]

theorem computeItableSize_eq (intfs : List K) : h.computeItableSize intfs =
    ((h.countedInterfaces intfs).length + 1) * itableOffsetEntrySize +
      ((h.countedInterfaces intfs).map h.itableMethodCount).sum := by
  rw [computeItableSize, countInterfaces_eq, calcItableSize, itableMethodEntrySize, Nat.mul_one]

/-- The offset table is filled in from `s.offsetEntry`, and nothing else is written. -/
theorem foldl_setupItable (cs : List K) (s : SetupItable K) :
    let words := (cs.foldl (fun s intf => s.doit intf (h.itableMethodCount intf)) s).words
    (∀ i intf, cs[i]? = some intf →
      words (s.offsetEntry + i * itableOffsetEntrySize) = .klass intf ∧
        words (s.offsetEntry + i * itableOffsetEntrySize + 1) =
          .offset (s.methodEntry + h.methodsBefore cs i)) ∧
    ∀ word, word < s.offsetEntry ∨ s.offsetEntry + cs.length * itableOffsetEntrySize ≤ word →
      words word = s.words word := by
  induction cs generalizing s with
  | nil => exact ⟨by simp, fun _ _ => rfl⟩
  | cons c cs ih =>
    obtain ⟨hentry, hother⟩ := ih (s.doit c (h.itableMethodCount c))
    have hplace : (s.doit c (h.itableMethodCount c)).offsetEntry = s.offsetEntry + 2 := rfl
    have hmethod : (s.doit c (h.itableMethodCount c)).methodEntry =
        s.methodEntry + h.itableMethodCount c := by
      rw [SetupItable.doit, itableMethodEntrySize, Nat.mul_one]
    have hwords : (s.doit c (h.itableMethodCount c)).words =
        Function.update (Function.update s.words s.offsetEntry (.klass c)) (s.offsetEntry + 1)
          (.offset s.methodEntry) := rfl
    rw [hplace, hmethod] at hentry
    rw [hplace, hwords] at hother
    simp only [List.foldl_cons, itableOffsetEntrySize, List.length_cons] at hentry hother ⊢
    constructor
    · intro i intf hi
      cases i with
      | zero =>
        obtain rfl : c = intf := by simpa using hi
        rw [Nat.zero_mul, Nat.add_zero]
        refine ⟨(hother _ (.inl (by omega))).trans ?_, (hother _ (.inl (by omega))).trans ?_⟩
        · rw [Function.update_of_ne (by omega), Function.update_self]
        · rw [Function.update_self]
          rfl
      | succ i =>
        obtain ⟨hklass, hoffset⟩ := hentry i intf (by simpa using hi)
        have hnext : s.offsetEntry + (i + 1) * 2 = s.offsetEntry + 2 + i * 2 := by omega
        rw [hnext, methodsBefore_cons, ← Nat.add_assoc]
        exact ⟨hklass, hoffset⟩
    · intro word hword
      rw [hother word (by omega), Function.update_of_ne (by omega),
        Function.update_of_ne (by omega)]

/-- The offset table of `t` names the interfaces `cs`, whose method tables lie from `base` on. -/
structure HasOffsetTable (cs : List K) (base : Nat) (t : KlassItable K) : Prop where
  klass : ∀ i intf, cs[i]? = some intf → t.interfaceKlass i = some intf
  offset : ∀ i intf, cs[i]? = some intf → t.offset i = base + h.methodsBefore cs i
  noKlass : t.interfaceKlass cs.length = none
  noOffset : t.offset cs.length = 0
  base_eq : base = t.start + (cs.length + 1) * itableOffsetEntrySize

/-- The itable of a new class: the offset table, and cleared words behind it. -/
theorem itable_spec (intfs : List K) (start : Nat) :
    h.HasOffsetTable (h.countedInterfaces intfs)
      (start + ((h.countedInterfaces intfs).length + 1) * itableOffsetEntrySize)
      (h.itable intfs start) ∧
    (h.itable intfs start).length = h.computeItableSize intfs ∧
    ∀ word, start + (h.countedInterfaces intfs).length * itableOffsetEntrySize ≤ word →
      (h.itable intfs start).words word = .null := by
  have hsize : (h.allocateItable intfs start).length ≠ 0 := by
    have hpos : 0 < h.computeItableSize intfs := by
      rw [computeItableSize_eq, itableOffsetEntrySize]
      omega
    exact hpos.ne'
  obtain ⟨words, hitable, hentry, hother⟩ : ∃ words,
      h.itable intfs start = ⟨start, h.computeItableSize intfs, words⟩ ∧
      (∀ i intf, (h.countedInterfaces intfs)[i]? = some intf →
        words (start + i * itableOffsetEntrySize) = .klass intf ∧
          words (start + i * itableOffsetEntrySize + 1) =
            .offset (start + ((h.countedInterfaces intfs).length + 1) * itableOffsetEntrySize +
              h.methodsBefore (h.countedInterfaces intfs) i)) ∧
      ∀ word, word < start ∨
          start + (h.countedInterfaces intfs).length * itableOffsetEntrySize ≤ word →
        words word = .null := by
    refine ⟨_, ?_, h.foldl_setupItable (h.countedInterfaces intfs) ⟨start, _, fun _ => .null⟩⟩
    rw [itable, setupItableOffsetTable, if_neg hsize]
    simp only [visitAllInterfaces_eq, countInterfaces_eq]
    rfl
  rw [hitable]
  refine ⟨⟨fun i intf hi => ?_, fun i intf hi => ?_, ?_, ?_, rfl⟩, rfl,
    fun word hword => hother word (.inr hword)⟩
  · simp only [KlassItable.interfaceKlass, (hentry i intf hi).1]
  · simp only [KlassItable.offset, (hentry i intf hi).2]
  · simp only [KlassItable.interfaceKlass, hother _ (.inr (Nat.le_refl _))]
  · simp only [KlassItable.offset, hother _ (.inr (Nat.le_succ _))]

namespace HasOffsetTable

variable {h} {cs : List K} {base : Nat} {t : KlassItable K}

/-- Only the words in front of the method tables matter. -/
theorem congr (ht : h.HasOffsetTable cs base t) {words : Nat → ItableWord K}
    (hwords : ∀ word < base, words word = t.words word) :
    h.HasOffsetTable cs base { t with words := words } := by
  have hentry : ∀ i ≤ cs.length,
      KlassItable.interfaceKlass { t with words := words } i = t.interfaceKlass i ∧
        KlassItable.offset { t with words := words } i = t.offset i := by
    intro i hi
    have hbase := ht.base_eq
    rw [itableOffsetEntrySize] at hbase
    simp only [KlassItable.interfaceKlass, KlassItable.offset, itableOffsetEntrySize]
    exact ⟨by rw [hwords _ (by omega)], by rw [hwords _ (by omega)]⟩
  have hlt : ∀ {i intf}, cs[i]? = some intf → i ≤ cs.length :=
    fun hi => ((List.getElem?_eq_some_iff.1 hi).1).le
  exact ⟨fun i intf hi => (hentry i (hlt hi)).1.trans (ht.klass i intf hi),
    fun i intf hi => (hentry i (hlt hi)).2.trans (ht.offset i intf hi),
    (hentry _ (Nat.le_refl _)).1.trans ht.noKlass, (hentry _ (Nat.le_refl _)).2.trans ht.noOffset,
    ht.base_eq⟩

/-- The constructor reads the size of the offset table off its first entry. -/
theorem sizeOffsetTable_eq (ht : h.HasOffsetTable cs base t) (hlength : 0 < t.length)
    (hcs : cs ≠ []) : t.sizeOffsetTable = cs.length + 1 := by
  obtain ⟨intf, cs', rfl⟩ := List.exists_cons_of_ne_nil hcs
  have hbase := ht.base_eq
  rw [KlassItable.sizeOffsetTable, if_pos hlength, ht.klass 0 intf rfl, ht.offset 0 intf rfl,
    methodsBefore_zero]
  simp only [itableOffsetEntrySize] at hbase ⊢
  omega

end HasOffsetTable

/-! ## Contents -/

/-- The methods of an interface that have an index. -/
def indexedMethods (intf : K) : List (Method K) :=
  (h.methods intf).drop (if startsWithClassInitializer (h.methods intf) then 1 else 0)

variable {h} {c : ItableLinker K}

/-- The loop fills one slot for each method and writes nothing else. -/
theorem initializeEntries_spec {intf : K} {ms : List (Method K)} {ime : Nat}
    {words words' : Nat → ItableWord K}
    (hok : h.initializeEntries c intf ms ime words = .ok words') :
    (∀ word, word < ime ∨ ime + ms.length ≤ word → words' word = words word) ∧
    ∀ j m, ms[j]? = some m → words (ime + j) = .null →
      words' (ime + j) = .ofTarget (h.publicMethod c m.name m.signature) := by
  induction ms generalizing ime words with
  | nil =>
    obtain rfl : words = words' := by simpa [initializeEntries] using hok
    exact ⟨fun _ _ => rfl, by simp⟩
  | cons m ms ih =>
    -- The first slot is written, and then the loop goes on behind it.
    have hstep : ∃ words₁, h.initializeEntries c intf ms (ime + 1) words₁ = .ok words' ∧
        (∀ word, word ≠ ime → words₁ word = words word) ∧
        (words ime = .null → words₁ ime = .ofTarget (h.publicMethod c m.name m.signature)) := by
      rw [initializeEntries, h.itableTarget_eq, itableMethodEntrySize] at hok
      split at hok
      · next hnone => exact ⟨words, hok, fun _ _ => rfl, fun hnull => by rw [hnull, hnone]; rfl⟩
      · next target hsome =>
          split at hok
          · cases hok
          · refine ⟨_, hok, fun word hne => Function.update_of_ne hne _ _, fun _ => ?_⟩
            rw [Function.update_self, hsome]
            rfl
    obtain ⟨words₁, hrest, hother, hfirst⟩ := hstep
    obtain ⟨houtside, hslots⟩ := ih hrest
    rw [List.length_cons]
    constructor
    · intro word hword
      rw [houtside word (by omega), hother word (by omega)]
    · intro j m' hj hnull
      cases j with
      | zero =>
        obtain rfl : m = m' := by simpa using hj
        rw [Nat.add_zero] at hnull ⊢
        rw [houtside ime (.inl (Nat.lt_succ_self _)), hfirst hnull]
      | succ j =>
        have hplace : ime + (j + 1) = ime + 1 + j := by omega
        rw [hplace] at hnull ⊢
        refine hslots j m' (by simpa using hj) ?_
        rw [hother _ (by omega), hnull]

/-- The tables are filled one after the other. A table may run over the end of its interface, but
never back in front of its start. -/
theorem initializeInterfaces_spec {cs : List K} {base n i : Nat} {t t' : KlassItable K}
    (hok : h.initializeInterfaces c n i t = .ok t') (ht : h.HasOffsetTable cs base t)
    (hn : i + n = cs.length) :
    h.HasOffsetTable cs base t' ∧
    (∀ word < base + h.methodsBefore cs i, t'.words word = t.words word) ∧
    ((∀ intf ∈ cs, (h.indexedMethods intf).length ≤ h.itableMethodCount intf) →
      ∀ j intf k m, i ≤ j → cs[j]? = some intf → (h.indexedMethods intf)[k]? = some m →
        t.words (base + h.methodsBefore cs j + k) = .null →
        t'.words (base + h.methodsBefore cs j + k) =
          .ofTarget (h.publicMethod c m.name m.signature)) := by
  induction n generalizing i t with
  | zero =>
    obtain rfl : t = t' := by simpa [initializeInterfaces] using hok
    refine ⟨ht, fun _ _ => rfl, fun _ j intf k m hj hget => ?_⟩
    have hlt := (List.getElem?_eq_some_iff.1 hget).1
    omega
  | succ n ih =>
    obtain ⟨intf₀, hget⟩ : ∃ intf₀, cs[i]? = some intf₀ :=
      ⟨_, List.getElem?_eq_getElem (by omega)⟩
    rw [initializeInterfaces, ht.klass i _ hget] at hok
    obtain ⟨words, hfill, hrest⟩ := bind_eq_ok hok
    rw [ht.offset i _ hget] at hfill
    change h.initializeEntries c intf₀ (h.indexedMethods intf₀) _ _ = _ at hfill
    obtain ⟨houtside, hslots⟩ := initializeEntries_spec hfill
    obtain ⟨ht', hbefore, hlater⟩ :=
      ih hrest (ht.congr fun word hword => houtside word (.inl (by omega))) (by omega)
    have hsucc := h.methodsBefore_succ hget
    refine ⟨ht', fun word hword => ?_, fun hfits j intf k m hj hintf hm hnull => ?_⟩
    · exact (hbefore word (by omega)).trans (houtside word (.inl hword))
    have hk := (List.getElem?_eq_some_iff.1 hm).1
    have hfitsHere := hfits _ (List.mem_of_getElem? hget)
    rcases Nat.lt_or_eq_of_le hj with hlt | rfl
    · have hmono := h.methodsBefore_mono cs (show i + 1 ≤ j from hlt)
      exact hlater hfits j intf k m hlt hintf hm ((houtside _ (.inr (by omega))).trans hnull)
    · obtain rfl : intf₀ = intf := Option.some.inj (hget.symm.trans hintf)
      exact (hbefore _ (by omega)).trans (hslots k m hm hnull)

/-- A table without interfaces stays as it is, and the others are filled. -/
theorem initializeItable_eq {cs : List K} {base : Nat} {t : KlassItable K}
    (ht : h.HasOffsetTable cs base t)
    (hlength : t.length = (cs.length + 1) * itableOffsetEntrySize +
      (cs.map h.itableMethodCount).sum) :
    h.initializeItable c t = h.initializeInterfaces c cs.length 0 t := by
  have hpos : 0 < t.length := by
    rw [hlength, itableOffsetEntrySize]
    omega
  cases cs with
  | nil => rw [initializeItable, if_pos (by simpa using hlength), List.length_nil,
      initializeInterfaces]
  | cons intf cs =>
    have hsize := ht.sizeOffsetTable_eq hpos (List.cons_ne_nil _ _)
    have hne : t.length ≠ itableOffsetEntrySize := by
      rw [hlength, itableOffsetEntrySize, List.length_cons]
      omega
    rw [initializeItable, if_neg hne, hsize, if_neg (by omega), Nat.add_sub_cancel]
    dsimp only
    cases hrun : h.initializeInterfaces c (intf :: cs).length 0 t with
    | error e => rfl
    | ok t' =>
      obtain ⟨ht', -⟩ := initializeInterfaces_spec hrun ht (Nat.zero_add _)
      rw [bind_ok, if_pos ⟨ht'.noKlass, ht'.noOffset⟩]

/-! ## Indices -/

theorem methods_nodup (h : LoadedClasses K) (k : K) : (h.methods k).Nodup :=
  (h.methods_distinct k).imp fun hne heq =>
    hne ⟨congrArg Method.name heq, congrArg Method.signature heq⟩

theorem startsWithClassInitializer_iff {methods : List (Method K)} :
    startsWithClassInitializer methods = true ↔
      ∃ m, methods.head? = some m ∧ m.name = classInitializerName := by
  cases methods <;> simp [startsWithClassInitializer]

/-- The methods that have an index are those other than a leading class initializer. -/
theorem mem_indexedMethods {intf : K} {m : Method K} :
    m ∈ h.indexedMethods intf ↔ m ∈ h.methods intf ∧ ¬ h.IsLeadingInitializer intf m := by
  unfold indexedMethods IsLeadingInitializer
  have hnodup := h.methods_nodup intf
  cases hmethods : h.methods intf with
  | nil => simp [startsWithClassInitializer]
  | cons m₀ ms =>
    rw [hmethods, List.nodup_cons] at hnodup
    by_cases hfirst : m₀.name = classInitializerName
    · rw [if_pos (by simpa [startsWithClassInitializer] using hfirst), List.drop_one,
        List.tail_cons, List.head?_cons]
      constructor
      · intro hm
        exact ⟨List.mem_cons_of_mem _ hm,
          fun hlead => hnodup.1 (Option.some.inj hlead.1 ▸ hm)⟩
      · rintro ⟨hm, hlead⟩
        refine (List.mem_cons.1 hm).resolve_left ?_
        rintro rfl
        exact hlead ⟨rfl, hfirst⟩
    · rw [if_neg (by simpa [startsWithClassInitializer] using hfirst), List.drop_zero]
      refine ⟨fun hm => ⟨hm, ?_⟩, And.left⟩
      rintro ⟨hhead, hname⟩
      obtain rfl : m₀ = m := Option.some.inj hhead
      exact hfirst hname

section Indices

variable [DecidableEq K]

theorem itableIndexLoop_eq_some {m : Method K} {ms : List (Method K)} {index i : Nat}
    (hnodup : ms.Nodup) :
    itableIndexLoop m ms index = some i ↔ ∃ j, i = index + j ∧ ms[j]? = some m := by
  induction ms generalizing index with
  | nil => simp [itableIndexLoop]
  | cons m' ms ih =>
    rw [List.nodup_cons] at hnodup
    rw [itableIndexLoop]
    split
    · next heq =>
        subst heq
        constructor
        · intro hi
          exact ⟨0, (Option.some.inj hi).symm, rfl⟩
        · rintro ⟨j, rfl, hj⟩
          cases j with
          | zero => rfl
          | succ j => exact absurd (List.mem_of_getElem? (show ms[j]? = some m' from hj)) hnodup.1
    · next hne =>
        rw [ih hnodup.2]
        constructor
        · rintro ⟨j, rfl, hj⟩
          exact ⟨j + 1, by omega, hj⟩
        · rintro ⟨j, rfl, hj⟩
          cases j with
          | zero => exact absurd (Option.some.inj hj) hne
          | succ j => exact ⟨j, by omega, hj⟩

/-- The index of a method is its place among the methods that have one. -/
theorem computeItableIndex_eq_some {intf : K} {m : Method K} (hm : m ∈ h.indexedMethods intf)
    {index : Int} : h.computeItableIndex m = some index ↔
      ∃ j : Nat, index = j ∧ (h.indexedMethods intf)[j]? = some m := by
  obtain ⟨hmem, hlead⟩ := mem_indexedMethods.1 hm
  obtain rfl := h.holder_eq hmem
  have hloop : ∀ i, itableIndexLoop m (h.methods m.holder) 0 = some i ↔
      (h.methods m.holder)[i]? = some m := by
    intro i
    rw [itableIndexLoop_eq_some (h.methods_nodup _)]
    exact ⟨fun ⟨j, hi, hj⟩ => by rwa [hi, Nat.zero_add], fun hi => ⟨i, (Nat.zero_add i).symm, hi⟩⟩
  obtain ⟨i, hi⟩ := List.mem_iff_getElem?.1 hmem
  have hunique : ∀ j, (h.methods m.holder)[j]? = some m → j = i := by
    intro j hj
    have heq := ((hloop j).2 hj).symm.trans ((hloop i).2 hi)
    exact Option.some.inj heq
  rw [computeItableIndex, (hloop i).2 hi, indexedMethods]
  by_cases hstarts : startsWithClassInitializer (h.methods m.holder) = true
  · have hpos : i ≠ 0 := by
      rintro rfl
      obtain ⟨m₀, hhead, hname⟩ := startsWithClassInitializer_iff.1 hstarts
      rw [List.head?_eq_getElem?, hi] at hhead
      obtain rfl := Option.some.inj hhead
      exact hlead ⟨by rw [List.head?_eq_getElem?, hi], hname⟩
    simp only [if_pos hstarts, Option.some.injEq, List.getElem?_drop]
    constructor
    · intro hindex
      exact ⟨i - 1, by omega, by rw [show 1 + (i - 1) = i by omega, hi]⟩
    · rintro ⟨j, rfl, hj⟩
      have := hunique _ hj
      omega
  · simp only [if_neg hstarts, Option.some.injEq, List.getElem?_drop, Nat.zero_add]
    constructor
    · rintro rfl
      exact ⟨i, rfl, hi⟩
    · rintro ⟨j, rfl, hj⟩
      rw [hunique j hj]

end Indices

theorem methodForItableIndex_eq_some {intf : K} {m : Method K} {index : Int} :
    h.methodForItableIndex intf index = some m ↔
      ∃ j : Nat, index = j ∧ (h.indexedMethods intf)[j]? = some m := by
  have hshift : (if startsWithClassInitializer (h.methods intf) then index + 1 else index) =
      index + (if startsWithClassInitializer (h.methods intf) then 1 else 0 : Nat) := by
    split <;> simp
  rw [methodForItableIndex, hshift, indexedMethods]
  generalize (if startsWithClassInitializer (h.methods intf) then 1 else 0 : Nat) = skipped
  split
  · next hbad =>
      refine ⟨nofun, ?_⟩
      rintro ⟨j, rfl, hj⟩
      rw [List.getElem?_drop] at hj
      have hlt := (List.getElem?_eq_some_iff.1 hj).1
      omega
  · next hgood =>
      obtain ⟨j, rfl⟩ := Int.eq_ofNat_of_zero_le (by omega : 0 ≤ index)
      have hplace : ((j : Int) + (skipped : Nat)).toNat = skipped + j := by omega
      rw [hplace, ← List.getElem?_drop]
      constructor
      · intro hj
        exact ⟨j, rfl, hj⟩
      · rintro ⟨j', heq, hj⟩
        rwa [Int.ofNat_inj.1 heq]

/-! ## Consistency -/

/-- The exception: an interface with further methods behind a leading `<init>`. -/
def HasLeadingConstructor (intf : K) : Prop :=
  ∃ m m' ms, h.methods intf = m :: m' :: ms ∧ m.name = objectInitializerName

theorem classInitializerName_ne : classInitializerName ≠ objectInitializerName := by decide

theorem length_indexedMethods_le {intf : K} (hcounted : 0 < h.itableMethodCount intf)
    (hnot : ¬ h.HasLeadingConstructor intf) :
    (h.indexedMethods intf).length ≤ h.itableMethodCount intf := by
  unfold itableMethodCount at hcounted ⊢
  rw [indexedMethods, List.length_drop]
  cases hmethods : h.methods intf with
  | nil => simp
  | cons m ms =>
    rw [hmethods] at hcounted
    dsimp only at hcounted ⊢
    split at hcounted
    · next hname =>
        obtain ⟨m', ms', rfl⟩ := List.exists_cons_of_length_pos hcounted
        exact absurd ⟨m, m', ms', hmethods, hname⟩ hnot
    · next hname =>
        rw [if_neg hname, List.length_cons]
        exact Nat.sub_le _ _

/-- Behind a leading `<init>` the last method has no slot in the range of its interface. -/
theorem length_indexedMethods_of_constructor {intf : K} (hlead : h.HasLeadingConstructor intf) :
    (h.indexedMethods intf).length = h.itableMethodCount intf + 1 ∧
      0 < h.itableMethodCount intf := by
  obtain ⟨m, m', ms, hmethods, hname⟩ := hlead
  have hne : m.name ≠ classInitializerName := fun heq =>
    classInitializerName_ne (heq.symm.trans hname)
  have hstarts : startsWithClassInitializer (m :: m' :: ms) = false := by
    simpa [startsWithClassInitializer] using hne
  rw [indexedMethods, itableMethodCount, hmethods, hstarts]
  simp [hname]

theorem mem_countedInterfaces {intfs : List K} {intf : K} :
    intf ∈ h.countedInterfaces intfs ↔ intf ∈ intfs ∧ 0 < h.itableMethodCount intf := by
  rw [countedInterfaces, List.mem_filter, decide_eq_true_eq]

/-- A word of the `i`-th method table, counted from the start of the first one. -/
theorem inMethodTable_iff {cs : List K} {base i word : Nat} {t : KlassItable K} {intf : K}
    (ht : h.HasOffsetTable cs base t) (hi : cs[i]? = some intf) :
    h.InMethodTable t i intf word ↔
      base + h.methodsBefore cs i ≤ word ∧ word < base + h.methodsBefore cs (i + 1) := by
  rw [InMethodTable, ht.offset i intf hi, h.methodsBefore_succ hi, Nat.add_assoc]

theorem methodTables_disjoint {cs : List K} {base i j word : Nat} {t : KlassItable K}
    {intf intf' : K} (ht : h.HasOffsetTable cs base t) (hi : cs[i]? = some intf)
    (hj : cs[j]? = some intf') (hword : h.InMethodTable t i intf word)
    (hword' : h.InMethodTable t j intf' word) : i = j := by
  rw [inMethodTable_iff ht hi] at hword
  rw [inMethodTable_iff ht hj] at hword'
  rcases Nat.lt_trichotomy i j with hlt | heq | hlt
  · have hmono := h.methodsBefore_mono cs (show i + 1 ≤ j from hlt)
    omega
  · exact heq
  · have hmono := h.methodsBefore_mono cs (show j + 1 ≤ i from hlt)
    omega

theorem methodTables_fill {cs : List K} {base word : Nat} {t : KlassItable K}
    (ht : h.HasOffsetTable cs base t) :
    (∃ i intf, cs[i]? = some intf ∧ h.InMethodTable t i intf word) ↔
      base ≤ word ∧ word < base + h.methodsBefore cs cs.length := by
  constructor
  · rintro ⟨i, intf, hi, hword⟩
    rw [inMethodTable_iff ht hi] at hword
    have hmono := h.methodsBefore_mono cs
      (show i + 1 ≤ cs.length from (List.getElem?_eq_some_iff.1 hi).1)
    omega
  · rintro ⟨hle, hlt⟩
    obtain ⟨i, intf, hi, hge, hlt'⟩ := h.exists_methodsBefore
      (show word - base < h.methodsBefore cs cs.length by omega)
    refine ⟨i, intf, hi, ?_⟩
    rw [InMethodTable, ht.offset i intf hi]
    omega

variable [DecidableEq K]

/-- The slot at the index of a method is filled with the method that answers a call. -/
theorem slot_of_fits {intfs : List K} {start i : Nat} {intf : K} {m : Method K}
    (hfits : ∀ intf ∈ h.countedInterfaces intfs,
      (h.indexedMethods intf).length ≤ h.itableMethodCount intf)
    (hi : (h.countedInterfaces intfs)[i]? = some intf) (hm : m ∈ h.indexedMethods intf) :
    ∃ index : Nat, h.computeItableIndex m = some (index : Int) ∧
      h.InMethodTable (h.itable intfs start) i intf ((h.itable intfs start).offset i + index) ∧
      ∀ t, h.initializeItable c (h.itable intfs start) = .ok t →
        t.words ((h.itable intfs start).offset i + index) =
          .ofTarget (h.publicMethod c m.name m.signature) := by
  obtain ⟨ht, hlength, hnull⟩ := h.itable_spec intfs start
  obtain ⟨index, hindex⟩ := List.mem_iff_getElem?.1 hm
  have hlt := (List.getElem?_eq_some_iff.1 hindex).1
  have hle := hfits intf (List.mem_of_getElem? hi)
  refine ⟨index, (computeItableIndex_eq_some hm).2 ⟨index, rfl, hindex⟩,
    ⟨Nat.le_add_right _ _, by omega⟩, fun t hok => ?_⟩
  rw [initializeItable_eq ht (hlength.trans (h.computeItableSize_eq intfs))] at hok
  obtain ⟨-, -, hslots⟩ := initializeInterfaces_spec hok ht (Nat.zero_add _)
  rw [ht.offset i intf hi]
  refine hslots hfits i intf index m (Nat.zero_le i) hi hindex (hnull _ ?_)
  rw [itableOffsetEntrySize]
  omega

/-- The routines agree exactly if no interface has further methods behind a leading `<init>`. -/
theorem itableConsistent_iff (h : LoadedClasses K) (c : ItableLinker K) (intfs : List K)
    (start : Nat) :
    h.ItableConsistent c intfs start ↔ ∀ intf ∈ intfs, ¬ h.HasLeadingConstructor intf := by
  constructor
  · intro hconsistent intf hintf hlead
    obtain ⟨hlength, hcount⟩ := length_indexedMethods_of_constructor hlead
    obtain ⟨i, hi⟩ := List.mem_iff_getElem?.1 (mem_countedInterfaces.2 ⟨hintf, hcount⟩)
    obtain ⟨m, hm⟩ : ∃ m, (h.indexedMethods intf)[h.itableMethodCount intf]? = some m :=
      ⟨_, List.getElem?_eq_getElem (by omega)⟩
    have hmem := List.mem_of_getElem? hm
    obtain ⟨hmethod, hinitializer⟩ := mem_indexedMethods.1 hmem
    obtain ⟨index, hindex, hrange, -⟩ := hconsistent.slot i intf m hi hmethod hinitializer
    have heq := hindex.symm.trans ((computeItableIndex_eq_some hmem).2 ⟨_, rfl, hm⟩)
    have hindexEq : index = h.itableMethodCount intf := Int.ofNat_inj.1 (Option.some.inj heq)
    have hlt := hrange.2
    omega
  · intro hnot
    obtain ⟨ht, -, -⟩ := h.itable_spec intfs start
    have hfits : ∀ intf ∈ h.countedInterfaces intfs,
        (h.indexedMethods intf).length ≤ h.itableMethodCount intf := by
      intro intf hintf
      obtain ⟨hmem, hcount⟩ := mem_countedInterfaces.1 hintf
      exact length_indexedMethods_le hcount (hnot intf hmem)
    refine ⟨ht.klass, ⟨ht.noKlass, ht.noOffset⟩,
      fun i j intf intf' word hi hj hword hword' => methodTables_disjoint ht hi hj hword hword',
      fun word => ?_, fun i intf m hi hm hlead =>
        slot_of_fits hfits hi (mem_indexedMethods.2 ⟨hm, hlead⟩), fun intf m hm hlead index => ?_⟩
    · rw [methodTables_fill ht, h.methodsBefore_length, h.computeItableSize_eq, Nat.add_assoc]
    · rw [computeItableIndex_eq_some (mem_indexedMethods.2 ⟨hm, hlead⟩),
        methodForItableIndex_eq_some]

/-! ## An interface with a constructor -/

/-- A class that implements an interface with the methods `<init>()V` and `m()V`. -/
def constructorInterface : LoadedClasses (Fin 3) where
  object := 0
  super k := match k with
    | 0 => none
    | 1 => some 0
    | 2 => some 0
  super_eq_none := by decide
  depth k := match k with
    | 0 => 0
    | 1 => 1
    | 2 => 1
  depth_super := by decide
  loader _ := 0
  name k := match k with
    | 0 => javaLangObject
    | 1 => [0x49]
    | 2 => [0x43]
  isFinal _ := false
  majorVersion _ := 50
  methods k := match k with
    | 0 => []
    | 1 => [{ exampleMethod 1 .public_ with name := objectInitializerName },
        exampleMethod 1 .public_]
    | 2 => [{ exampleMethod 2 .public_ with name := objectInitializerName },
        exampleMethod 2 .public_]
  localInterfaces k := match k with
    | 2 => [1]
    | _ => []
  transitiveInterfaces k := match k with
    | 2 => [1]
    | _ => []
  holder_eq := by decide
  methods_distinct := by decide
  super_not_final := by decide
  object_access := by decide
  object_interfaces := rfl
  interface_super := by decide
  mem_transitiveInterfaces := by decide

/-- The methods of the interface are abstract. -/
def constructorLinker : ItableLinker (Fin 3) where
  klass := 2
  isAbstract m := m.holder = 1
  check _ _ _ := true
  checkConstraints := true

/-- The slot of `m` lies behind the itable, and what is there is overwritten. -/
theorem constructorInterface_not_itableConsistent :
    ¬ constructorInterface.ItableConsistent constructorLinker
      (constructorInterface.transitiveInterfaces 2) 100 ∧
    ∃ t, constructorInterface.initializeItable constructorLinker
        (constructorInterface.itable (constructorInterface.transitiveInterfaces 2) 100) = .ok t ∧
      t.words (t.start + t.length) = .method (exampleMethod 2 .public_) := by
  refine ⟨fun hconsistent => ?_, _, rfl, by decide⟩
  have hinitializer : ¬ constructorInterface.IsLeadingInitializer 1 (exampleMethod 1 .public_) :=
    fun hlead => absurd hlead.2 (by decide)
  obtain ⟨index, hindex, hrange, -⟩ :=
    hconsistent.slot 0 1 (exampleMethod 1 .public_) (by decide) (by decide) hinitializer
  have hone : constructorInterface.computeItableIndex (exampleMethod 1 .public_) = some 1 := by
    decide
  have hcount : constructorInterface.itableMethodCount 1 = 1 := by decide
  have hlt := hrange.2
  have hindexEq : (index : Int) = 1 := Option.some.inj (hindex.symm.trans hone)
  omega

end LoadedClasses

end HotSpot
