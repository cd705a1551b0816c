import HotSpot.Code.RelocInfo
import Mathlib.Data.List.Forall2

/-! # Relocation records are read as they were written

The halfwords of a section are the encodings of a list of entries, one after the other.
An entry is a filler or what a call of `relocate` wrote, and the iterator reads entries
back one by one. `set_type` replaces one entry by the same with another type. A call
makes room for one filler for each full offset in its gap, but a filler carries less than
that, so the records are read back just where the room that was made suffices.
-/

namespace HotSpot

namespace RelocType

@[simp] theorem ofCode_code (t : RelocType) : ofCode t.code = t := by
  cases t <;> rfl

theorem code_lt (t : RelocType) : t.code < 16 := by
  cases t <;> decide

end RelocType

namespace RelocInfo

variable {pd : RelocPlatform}

/-! ## Fields of a halfword -/

theorem toNat_ofRawBits {t : RelocType} {bits : Nat} (h : bits < 2 ^ 12) :
    (ofRawBits t bits).toNat = t.code * 2 ^ 12 + bits := by
  have hcode := t.code_lt
  rw [ofRawBits, BitVec.toNat_ofNat, nontypeWidth, Nat.shiftLeft_eq]
  omega

theorem type_ofRawBits {t : RelocType} {bits : Nat} (h : bits < 2 ^ 12) :
    type (ofRawBits t bits) = t := by
  rw [type, toNat_ofRawBits h, nontypeWidth, Nat.shiftRight_eq_div_pow]
  have hdiv : (t.code * 2 ^ 12 + bits) / 2 ^ 12 = t.code := by omega
  rw [hdiv, RelocType.ofCode_code]

theorem offsetWidth_add (pd : RelocPlatform) : pd.formatWidth + offsetWidth pd = 12 := by
  have hle := pd.formatWidth_le
  rw [offsetWidth, nontypeWidth]
  omega

theorem offsetLimit_eq (pd : RelocPlatform) :
    offsetLimit pd = 2 ^ offsetWidth pd * pd.offsetUnit := by
  rw [offsetLimit, Nat.one_shiftLeft]

/-- What may stand in a record that is not a prefix. -/
structure Fits (pd : RelocPlatform) (offset format : Nat) : Prop where
  offset_lt : offset < offsetLimit pd
  aligned : pd.offsetUnit ∣ offset
  format_lt : format < 2 ^ pd.formatWidth

theorem Fits.units_lt {offset format : Nat} (h : Fits pd offset format) :
    offset / pd.offsetUnit < 2 ^ offsetWidth pd := by
  refine Nat.div_lt_of_lt_mul ?_
  rw [Nat.mul_comm, ← offsetLimit_eq]
  exact h.offset_lt

theorem Fits.bits_lt {offset format : Nat} (h : Fits pd offset format) :
    offset / pd.offsetUnit + (format <<< offsetWidth pd) < 2 ^ 12 := by
  have hunits := h.units_lt
  have hformat := h.format_lt
  have hpow : 2 ^ pd.formatWidth * 2 ^ offsetWidth pd = 2 ^ 12 := by
    rw [← Nat.pow_add, offsetWidth_add]
  rw [Nat.shiftLeft_eq]
  have hle : (format + 1) * 2 ^ offsetWidth pd ≤ 2 ^ pd.formatWidth * 2 ^ offsetWidth pd :=
    Nat.mul_le_mul_right _ hformat
  rw [hpow, Nat.add_mul, Nat.one_mul] at hle
  omega

theorem type_make {t : RelocType} {offset format : Nat} (h : Fits pd offset format) :
    type (make pd t offset format) = t := type_ofRawBits h.bits_lt

/-- The low bits of a record are the offset in units, the format stands above them. -/
theorem toNat_make {t : RelocType} {offset format : Nat} (h : Fits pd offset format) :
    (make pd t offset format).toNat =
      (t.code * 2 ^ pd.formatWidth + format) * 2 ^ offsetWidth pd + offset / pd.offsetUnit := by
  have hpow : 2 ^ 12 = 2 ^ pd.formatWidth * 2 ^ offsetWidth pd := by
    rw [← Nat.pow_add, offsetWidth_add]
  rw [make, toNat_ofRawBits h.bits_lt, Nat.shiftLeft_eq, hpow, Nat.add_mul, Nat.mul_assoc]
  omega

theorem addrOffset_make {t : RelocType} {offset format : Nat} (h : Fits pd offset format) :
    addrOffset pd (make pd t offset format) = offset := by
  rw [addrOffset, offsetMask, Nat.one_shiftLeft, Nat.and_two_pow_sub_one_eq_mod, toNat_make h,
    Nat.mul_add_mod_of_lt h.units_lt, Nat.div_mul_cancel h.aligned]

theorem format_make {t : RelocType} {offset format : Nat} (h : Fits pd offset format) :
    RelocInfo.format pd (make pd t offset format) = format := by
  have hpos : 0 < 2 ^ offsetWidth pd := Nat.two_pow_pos _
  have hdiv : (make pd t offset format).toNat >>> offsetWidth pd =
      t.code * 2 ^ pd.formatWidth + format := by
    rw [Nat.shiftRight_eq_div_pow, toNat_make h, Nat.mul_comm _ (2 ^ offsetWidth pd),
      Nat.mul_add_div hpos, Nat.div_eq_of_lt h.units_lt, Nat.add_zero]
  have hformat := h.format_lt
  rw [RelocInfo.format, formatMask, Nat.one_shiftLeft]
  split
  next hmask => omega
  next hmask =>
    rw [hdiv, Nat.and_comm, Nat.and_two_pow_sub_one_eq_mod, Nat.mul_add_mod_of_lt hformat]

theorem setType_make {t t' : RelocType} {offset format : Nat} (h : Fits pd offset format) :
    setType pd (make pd t offset format) t' = make pd t' offset format := by
  rw [setType, addrOffset_make h, format_make h]

/-! ## Prefixes -/

/-- The prefix of counted data has its tag set above the count. -/
theorem toNat_prefixRelocInfo {n : Nat} (h : n < datalenLimit) :
    (prefixRelocInfo n).toNat = 31 * 2 ^ 11 + n := by
  have hlt : n < 2 ^ 11 := h
  have hor : datalenTag ||| n = n + 2 ^ 11 := by
    rw [Nat.or_comm]
    exact Nat.or_two_pow_eq_add_of_lt hlt
  rw [prefixRelocInfo, hor, toNat_ofRawBits (by omega)]
  change 15 * 2 ^ 12 + (n + 2 ^ 11) = _
  omega

theorem isDatalen_iff (ri : Halfword) : isDatalen ri = true ↔ ri.toNat.testBit 11 = true := by
  have htag : datalenTag = 2 ^ 11 := rfl
  rw [isDatalen, htag, Nat.and_two_pow, decide_eq_true_iff]
  cases ri.toNat.testBit 11 <;> simp

theorem isPrefix_of_le {ri : Halfword} (h : 15 * 2 ^ 12 ≤ ri.toNat) : isPrefix ri = true := by
  have hlt := ri.isLt
  have hcode : ri.toNat >>> nontypeWidth = 15 := by
    rw [nontypeWidth, Nat.shiftRight_eq_div_pow]
    omega
  rw [isPrefix, type, hcode]
  rfl

theorem datalen_eq (ri : Halfword) : datalen ri = ri.toNat % 2 ^ 11 :=
  Nat.and_two_pow_sub_one_eq_mod ri.toNat 11

theorem prefixRelocInfo_spec {n : Nat} (h : n < datalenLimit) :
    isPrefix (prefixRelocInfo n) = true ∧ isDatalen (prefixRelocInfo n) = true ∧
      datalen (prefixRelocInfo n) = n := by
  have hvalue := toNat_prefixRelocInfo h
  have hlt : n < 2 ^ 11 := h
  refine ⟨isPrefix_of_le (by omega), ?_, ?_⟩
  · rw [isDatalen_iff, hvalue, Nat.testBit_eq_decide_div_mod_eq, decide_eq_true_iff]
    omega
  · rw [datalen_eq, hvalue]
    omega

theorem immediateRelocInfo_spec {d : Halfword} (h : fitsIntoImmediate d = true) :
    isPrefix (immediateRelocInfo d) = true ∧ isDatalen (immediateRelocInfo d) = false ∧
      BitVec.ofNat 16 (immediate (immediateRelocInfo d)) = d := by
  have hlt : d.toNat < 2 ^ 11 := by
    simp only [fitsIntoImmediate, Bool.and_eq_true, decide_eq_true_iff] at h
    have hlimit : (datalenLimit : Int) = 2 ^ 11 := rfl
    have htoInt := BitVec.toInt_eq_toNat_cond d
    rw [hlimit] at h
    split at htoInt <;> omega
  have hvalue : (immediateRelocInfo d).toNat = 30 * 2 ^ 11 + d.toNat := by
    rw [immediateRelocInfo, toNat_ofRawBits (by omega)]
    rfl
  refine ⟨isPrefix_of_le (by omega), ?_, ?_⟩
  · rw [← Bool.not_eq_true, isDatalen_iff, hvalue, Nat.testBit_eq_decide_div_mod_eq,
      decide_eq_true_iff]
    omega
  · have himmediate : immediate (immediateRelocInfo d) = d.toNat := by
      change datalen _ = _
      rw [datalen_eq, hvalue]
      omega
    rw [himmediate, BitVec.ofNat_toNat, BitVec.setWidth_eq]

/-! ## Data -/

theorem toNat_data0FromInt (x : BitVec 32) : (data0FromInt x).toNat = x.toNat / 2 ^ 16 := by
  have hbits : data0FromInt x = (x >>> 16).setWidth 16 := by
    ext i hi
    have hlt : 16 + i < 32 := by omega
    have hge : ¬32 ≤ i := by omega
    simp [data0FromInt, BitVec.getLsbD_sshiftRight, hlt, hge]
  have hlt := x.isLt
  rw [hbits, BitVec.toNat_setWidth, BitVec.toNat_ushiftRight, Nat.shiftRight_eq_div_pow]
  omega

theorem jintFromData_data (x : BitVec 32) : jintFromData (data0FromInt x) (data1FromInt x) = x := by
  have hlt := x.isLt
  have hhigh := toNat_data0FromInt x
  have hsign : ∃ k, ((data0FromInt x).signExtend 32).toNat = x.toNat / 2 ^ 16 + k * 2 ^ 16 := by
    have hsmall : x.toNat / 2 ^ 16 < 2 ^ 32 := by omega
    rw [BitVec.toNat_signExtend, BitVec.toNat_setWidth, hhigh, Nat.mod_eq_of_lt hsmall]
    split
    next => exact ⟨2 ^ 16 - 1, rfl⟩
    next => exact ⟨0, rfl⟩
  obtain ⟨k, hk⟩ := hsign
  apply BitVec.eq_of_toNat_eq
  rw [jintFromData, BitVec.toNat_add, BitVec.toNat_shiftLeft, hk, Nat.shiftLeft_eq, data1FromInt,
    BitVec.toNat_setWidth, BitVec.toNat_setWidth]
  omega

end RelocInfo

namespace Relocation

open RelocInfo

theorem signExtend_of_isShort {x : BitVec 32} (h : isShort x = true) :
    (x.setWidth 16).signExtend 32 = x := (of_decide_eq_true h).symm

theorem shortDataAt_zero {x : BitVec 32} (h : isShort x = true) (rest : List Halfword) :
    shortDataAt 0 (x.setWidth 16 :: rest) = x := signExtend_of_isShort h

theorem unpack1Int_pack1Int (x : BitVec 32) : unpack1Int (pack1Int x) = x := by
  unfold pack1Int
  split
  next hne =>
    unfold addVarInt
    split
    next hshort => exact shortDataAt_zero hshort []
    next => exact jintFromData_data x
  next hzero =>
    rw [not_not] at hzero
    rw [hzero]
    rfl

theorem unpack2Ints_pack2Ints (x0 x1 : BitVec 32) :
    unpack2Ints (pack2Ints x0 x1) = (x0, x1) := by
  unfold pack2Ints
  split
  next hzero =>
    rw [hzero.1, hzero.2]
    rfl
  next =>
    split
    next hshort =>
      split
      next =>
        have hfirst := shortDataAt_zero hshort.1 (addShort x1)
        have hsecond := shortDataAt_zero hshort.2 []
        exact Prod.ext hfirst hsecond
      next hzero =>
        rw [not_not] at hzero
        rw [hzero]
        exact Prod.ext (shortDataAt_zero hshort.1 []) rfl
    next =>
      unfold addVarInt
      split
      next hshort => exact Prod.ext (jintFromData_data x0) (shortDataAt_zero hshort [])
      next => exact Prod.ext (jintFromData_data x0) (jintFromData_data x1)

end Relocation

theorem RelocData.unpack_pack (data : RelocData) : data.unpack data.pack = data := by
  cases data with
  | none => rfl
  | oneInt x0 => exact congrArg RelocData.oneInt (Relocation.unpack1Int_pack1Int x0)
  | twoInts x0 x1 =>
    rw [RelocData.unpack, RelocData.pack, Relocation.unpack2Ints_pack2Ints]

theorem RelocData.length_pack_le (data : RelocData) : data.pack.length ≤ 4 := by
  cases data with
  | none => decide
  | oneInt x0 =>
    simp only [RelocData.pack, Relocation.pack1Int, Relocation.addVarInt]
    split_ifs <;> simp [Relocation.addShort, Relocation.addJint]
  | twoInts x0 x1 =>
    simp only [RelocData.pack, Relocation.pack2Ints, Relocation.addVarInt]
    split_ifs <;> simp [Relocation.addShort, Relocation.addJint]

/-! ## Entries -/

/-- A record with the data before it, as it can be written. -/
structure RelocEntry (pd : RelocPlatform) where
  type : RelocType
  offset : Nat
  format : Nat
  data : List Halfword
  type_ne : type ≠ .dataPrefixTag
  fits : RelocInfo.Fits pd offset format
  data_lt : data.length < RelocInfo.datalenLimit

namespace RelocEntry

open RelocInfo RelocIterator

theorem noData_lt : ([] : List Halfword).length < datalenLimit := by decide

variable {pd : RelocPlatform}

/-- The halfwords before the record itself. -/
def leading (e : RelocEntry pd) : List Halfword := if e.data = [] then [] else finishPrefix e.data

def record (e : RelocEntry pd) : Halfword := make pd e.type e.offset e.format

def encode (e : RelocEntry pd) : List Halfword := initializeRecord e.record e.data

theorem encode_eq (e : RelocEntry pd) : e.encode = e.leading ++ [e.record] := by
  rw [encode, initializeRecord, leading]
  split <;> rfl

theorem length_encode (e : RelocEntry pd) : e.encode.length = e.leading.length + 1 := by
  rw [encode_eq, List.length_append, List.length_singleton]

variable {locs q : List Halfword} {current : Nat}

theorem getElem?_of_drop {d : Halfword} (h : locs.drop current = d :: q) :
    locs[current]? = some d := by
  rw [← List.head?_drop, h]
  rfl

/-- One halfword may stand in the prefix, else the prefix counts the data. -/
theorem finishPrefix_cases (data : List Halfword) :
    (∃ d, data = [d] ∧ fitsIntoImmediate d = true ∧
        finishPrefix data = [immediateRelocInfo d]) ∨
      finishPrefix data = prefixRelocInfo data.length :: data := by
  unfold finishPrefix
  split
  next d =>
    split
    next hfits => exact .inl ⟨d, rfl, hfits, rfl⟩
    next => exact .inr rfl
  next => exact .inr rfl

/-- A counted prefix is skipped with its data. -/
theorem atIndex_counted {data : List Halfword} (hdata : data.length < datalenLimit)
    (h : locs.drop current = prefixRelocInfo data.length :: data ++ q) :
    atIndex locs current (prefixRelocInfo data.length) =
      (data, current + (prefixRelocInfo data.length :: data).length) := by
  obtain ⟨htagged, hdatalen, hlength⟩ := prefixRelocInfo_spec hdata
  have hrest : locs.drop (current + 1) = data ++ q := by
    rw [← List.drop_drop, h]
    rfl
  rw [atIndex, if_pos htagged, advanceOverPrefix, if_pos hdatalen, hlength, hrest,
    List.take_left, List.length_cons]
  rfl

/-- The iterator finds the data of an entry, and its record behind the data. -/
theorem atIndex_encode (e : RelocEntry pd) (h : locs.drop current = e.encode ++ q) :
    ∃ ri, locs[current]? = some ri ∧
      atIndex locs current ri = (e.data, current + e.leading.length) := by
  rw [encode_eq, List.append_assoc] at h
  by_cases hnil : e.data = []
  · have hleading : e.leading = [] := if_pos hnil
    rw [hleading] at h
    refine ⟨e.record, getElem?_of_drop h, ?_⟩
    have htype : isPrefix e.record = false := by
      rw [isPrefix, record, type_make e.fits]
      exact decide_eq_false e.type_ne
    rw [atIndex, htype, hnil, hleading]
    rfl
  · have hleading : e.leading = finishPrefix e.data := if_neg hnil
    rcases finishPrefix_cases e.data with ⟨d, hd, hfits, hfinish⟩ | hfinish
    · rw [hleading, hfinish] at h
      obtain ⟨htagged, hdatalen, hvalue⟩ := immediateRelocInfo_spec hfits
      refine ⟨immediateRelocInfo d, getElem?_of_drop h, ?_⟩
      rw [atIndex, if_pos htagged, advanceOverPrefix, hdatalen, hvalue, hleading, hfinish, hd]
      rfl
    · rw [hleading, hfinish] at h
      refine ⟨prefixRelocInfo e.data.length, getElem?_of_drop h, ?_⟩
      rw [atIndex_counted e.data_lt h, hleading, hfinish]

/-- What the iterator reads at an entry, which is not at the end. -/
theorem read_encode (e : RelocEntry pd) (h : locs.drop current = e.encode ++ q) :
    current ≠ locs.length ∧
      (∃ ri, locs[current]? = some ri ∧
        atIndex locs current ri = (e.data, current + e.leading.length)) ∧
      locs[current + e.leading.length]? = some e.record := by
  obtain ⟨ri, hri, hindex⟩ := e.atIndex_encode h
  refine ⟨?_, ⟨ri, hri, hindex⟩, getElem?_of_drop (q := q) ?_⟩
  · rintro rfl
    rw [List.getElem?_eq_none (Nat.le_refl _)] at hri
    cases hri
  · rw [← List.drop_drop, h, encode_eq, List.append_assoc, List.drop_left]
    rfl

/-- The record that the iterator shows for an entry. -/
def shown (e : RelocEntry pd) (current addr : Nat) : RelocRecord where
  current := current + e.leading.length
  addr := addr + e.offset
  type := e.type
  format := e.format
  data := e.data

theorem records_cons (e : RelocEntry pd) (h : locs.drop current = e.encode ++ q)
    {fuel addr : Nat} :
    records pd locs (fuel + 1) current addr =
      (records pd locs fuel (current + e.encode.length) (addr + e.offset)).map
        (e.shown current addr :: ·) := by
  obtain ⟨hne, ⟨ri, hri, hindex⟩, hrecord⟩ := e.read_encode h
  rw [records, if_neg hne, hri]
  simp only [Option.bind_eq_bind, Option.bind_some, hindex, hrecord]
  rw [record, addrOffset_make e.fits, type_make e.fits, format_make e.fits, length_encode,
    Nat.add_assoc current]
  cases records pd locs fuel (current + (e.leading.length + 1)) (addr + e.offset) <;> rfl

/-- The records that the iterator shows for entries. -/
def shownFrom : Nat → Nat → List (RelocEntry pd) → List RelocRecord
  | _, _, [] => []
  | current, addr, e :: es =>
    e.shown current addr :: shownFrom (current + e.encode.length) (addr + e.offset) es

theorem records_eq {es : List (RelocEntry pd)} (h : locs.drop current = es.flatMap encode)
    (hle : current ≤ locs.length) {fuel addr : Nat} (hfuel : es.length ≤ fuel) :
    records pd locs fuel current addr = some (shownFrom current addr es) := by
  induction es generalizing current fuel addr with
  | nil =>
    have hend : current = locs.length :=
      Nat.le_antisymm hle (List.drop_eq_nil_iff.mp h)
    cases fuel <;> rw [records, if_pos hend] <;> rfl
  | cons e es ih =>
    obtain ⟨fuel, rfl⟩ := Nat.exists_eq_add_one.mpr (Nat.lt_of_lt_of_le (Nat.succ_pos _) hfuel)
    rw [List.flatMap_cons] at h
    have hrest : locs.drop (current + e.encode.length) = es.flatMap encode := by
      rw [← List.drop_drop, h, List.drop_left]
    have hlength := congrArg List.length h
    simp only [List.length_drop, List.length_append] at hlength
    have hpos := e.length_encode
    rw [records_cons e h, ih hrest (by omega) (by simpa using hfuel)]
    rfl

theorem iterate_eq (es : List (RelocEntry pd)) (addr : Nat) :
    iterate pd (es.flatMap encode) addr = some (shownFrom 0 addr es) := by
  refine records_eq rfl (Nat.zero_le _) ?_
  induction es with
  | nil => exact Nat.le_refl 0
  | cons e es ih =>
    have hpos := e.length_encode
    rw [List.flatMap_cons, List.length_append, List.length_cons]
    omega

/-! ## Types that are changed -/

/-- The entry with another type. -/
def withType (e : RelocEntry pd) (t : RelocType) (ht : t ≠ .dataPrefixTag) : RelocEntry pd :=
  { e with type := t, type_ne := ht }

theorem shownFrom_append (es fs : List (RelocEntry pd)) (current addr : Nat) :
    shownFrom current addr (es ++ fs) = shownFrom current addr es ++
      shownFrom (current + (es.flatMap encode).length) (addr + (es.map offset).sum) fs := by
  induction es generalizing current addr with
  | nil => rfl
  | cons e es ih =>
    simp only [List.cons_append, shownFrom, ih, List.flatMap_cons, List.length_append,
      List.map_cons, List.sum_cons, Nat.add_assoc]

theorem length_shownFrom (es : List (RelocEntry pd)) (current addr : Nat) :
    (shownFrom current addr es).length = es.length := by
  induction es generalizing current addr with
  | nil => rfl
  | cons e es ih => rw [shownFrom, List.length_cons, List.length_cons, ih]

theorem modify_append_cons {α : Type} (xs ys : List α) (x : α) (f : α → α) :
    (xs ++ x :: ys).modify xs.length f = xs ++ f x :: ys := by
  induction xs with
  | nil => rfl
  | cons z xs ih =>
    rw [List.cons_append, List.length_cons, List.modify_succ_cons, ih, List.cons_append]

/-- One `set_type` changes the type of one entry. -/
theorem setTypes_one {es : List (RelocEntry pd)} {addr index : Nat} {t : RelocType}
    (ht : t ≠ .dataPrefixTag) (hindex : index < es.length) :
    ∃ es' : List (RelocEntry pd), es'.length = es.length ∧
      (do let shown ← iterate pd (es.flatMap encode) addr
          let r ← shown[index]?
          return setTypeAt pd (es.flatMap encode) r t) = some (es'.flatMap encode) ∧
      shownFrom 0 addr es' =
        (shownFrom 0 addr es).modify index fun r => { r with type := t } := by
  obtain ⟨before, e, after, rfl, rfl⟩ : ∃ before e after,
      es = before ++ e :: after ∧ before.length = index :=
    ⟨es.take index, es[index], es.drop (index + 1),
      by rw [← List.drop_eq_getElem_cons, List.take_append_drop], List.length_take_of_le (by omega)⟩
  refine ⟨before ++ e.withType t ht :: after, by simp, ?_, ?_⟩
  · have hshown : (shownFrom 0 addr (before ++ e :: after))[before.length]? =
        some (e.shown (before.flatMap encode).length (addr + (before.map offset).sum)) := by
      rw [shownFrom_append, List.getElem?_append_right (by rw [length_shownFrom]),
        length_shownFrom, Nat.sub_self, Nat.zero_add]
      rfl
    have hflat : ∀ e' : RelocEntry pd, (before ++ e' :: after).flatMap encode =
        (before.flatMap encode ++ e'.leading) ++ e'.record :: after.flatMap encode := by
      intro e'
      rw [List.flatMap_append, List.flatMap_cons, encode_eq]
      simp
    have hlength : (before.flatMap encode).length + e.leading.length =
        (before.flatMap encode ++ e.leading).length := by rw [List.length_append]
    rw [iterate_eq]
    simp only [Option.bind_eq_bind, Option.bind_some, hshown]
    rw [setTypeAt, hflat, hflat]
    simp only [shown]
    rw [hlength, List.getElem?_append_right (Nat.le_refl _), Nat.sub_self]
    simp only [List.getElem?_cons_zero]
    rw [List.set_append_right _ _ (Nat.le_refl _), Nat.sub_self, List.set_cons_zero, record,
      setType_make e.fits]
    rfl
  · have hlead : (e.withType t ht).encode.length = e.encode.length := by
      rw [length_encode, length_encode]
      rfl
    have hindex := length_shownFrom before 0 addr
    rw [shownFrom_append, shownFrom_append, shownFrom, shownFrom, hlead, ← hindex,
      modify_append_cons]
    rfl

theorem setTypes_eq {es : List (RelocEntry pd)} {addr : Nat} {edits : List (Nat × RelocType)}
    (hedits : ∀ edit ∈ edits, edit.1 < es.length ∧ edit.2 ≠ .dataPrefixTag) :
    ∃ es' : List (RelocEntry pd),
      setTypes pd (es.flatMap encode) addr edits = some (es'.flatMap encode) ∧
      shownFrom 0 addr es' = edits.foldl
        (fun shown edit => shown.modify edit.1 fun r => { r with type := edit.2 })
        (shownFrom 0 addr es) := by
  induction edits generalizing es with
  | nil => exact ⟨es, rfl, rfl⟩
  | cons edit edits ih =>
    rw [List.forall_mem_cons] at hedits
    obtain ⟨es₁, hlength, hlocs, hshown⟩ :=
      @setTypes_one pd es addr _ _ hedits.1.2 hedits.1.1
    rw [← hlength] at hedits
    obtain ⟨es', hlocs', hshown'⟩ := ih hedits.2
    refine ⟨es', ?_, ?_⟩
    · rw [setTypes, List.foldlM_cons]
      exact (congrArg (· >>= _) hlocs).trans hlocs'
    · rw [hshown', hshown, List.foldl_cons]

end RelocEntry

/-! ## Writing -/

namespace CodeSection

open RelocInfo RelocEntry

variable {pd : RelocPlatform}

/-- The offset of a filler. -/
theorem fits_filler (pd : RelocPlatform) :
    Fits pd (offsetLimit pd - pd.offsetUnit) 0 ∧ 0 < offsetLimit pd - pd.offsetUnit := by
  have hpos := pd.offsetUnit_pos
  have hwidth := offsetWidth_add pd
  have hle := pd.formatWidth_le
  have htwo : 2 ≤ 2 ^ offsetWidth pd :=
    Nat.le_self_pow (by omega : offsetWidth pd ≠ 0) 2
  have hlimit : 2 * pd.offsetUnit ≤ offsetLimit pd := by
    rw [offsetLimit_eq]
    exact Nat.mul_le_mul_right _ htwo
  refine ⟨⟨by omega, ?_, Nat.two_pow_pos _⟩, by omega⟩
  rw [offsetLimit_eq]
  exact Nat.dvd_sub (Nat.dvd_mul_left _ _) (Nat.dvd_refl _)

def filler (pd : RelocPlatform) : RelocEntry pd where
  type := .none
  offset := offsetLimit pd - pd.offsetUnit
  format := 0
  data := []
  type_ne := by decide
  fits := (fits_filler pd).1
  data_lt := by decide

/-- How many fillers stand before the record that ends a gap. -/
def fillers (pd : RelocPlatform) (gap : Nat) : Nat :=
  (gap - pd.offsetUnit) / (offsetLimit pd - pd.offsetUnit)

/-- The length of a record with its data and their prefix. -/
def recordLength : List Halfword → Nat
  | [] => 1
  | [d] => if fitsIntoImmediate d then 2 else 3
  | data => data.length + 2

theorem length_initializeRecord (suffix : Halfword) (data : List Halfword) :
    (initializeRecord suffix data).length = recordLength data := by
  match data with
  | [] => rfl
  | [d] =>
    simp only [initializeRecord, finishPrefix, recordLength, List.cons_ne_nil, if_false,
      List.length_append]
    split <;> rfl
  | d₀ :: d₁ :: data => simp [initializeRecord, finishPrefix, recordLength]

/-- A remainder below the limit, and no less than a unit behind a filler, counts them. -/
theorem fillers_eq {n rest gap : Nat} (hrest : rest < offsetLimit pd)
    (hunit : n = 0 ∨ pd.offsetUnit ≤ rest)
    (hsum : n * (offsetLimit pd - pd.offsetUnit) + rest = gap) : fillers pd gap = n := by
  obtain ⟨-, hpos⟩ := fits_filler pd
  rcases hunit with rfl | hunit
  · exact Nat.div_eq_of_lt (by omega)
  · have hgap : gap - pd.offsetUnit =
        (rest - pd.offsetUnit) + n * (offsetLimit pd - pd.offsetUnit) := by omega
    rw [fillers, hgap, Nat.add_mul_div_right _ _ hpos, Nat.div_eq_of_lt (by omega), Nat.zero_add]

/-- The fillers leave an offset that fits. -/
theorem emitFillers_spec {fuel offset : Nat} {locs : List Halfword} (hfuel : offset ≤ fuel)
    (haligned : pd.offsetUnit ∣ offset) :
    ∃ n rest, emitFillers pd fuel locs offset =
        (locs ++ (List.replicate n (filler pd)).flatMap encode, rest) ∧
      rest < offsetLimit pd ∧ pd.offsetUnit ∣ rest ∧ n * (filler pd).offset + rest = offset ∧
      (n = 0 ∨ pd.offsetUnit ≤ rest) := by
  obtain ⟨hfits, hpos⟩ := fits_filler pd
  induction fuel generalizing offset locs with
  | zero =>
    have hlimit : 0 < offsetLimit pd := by omega
    obtain rfl : offset = 0 := by omega
    exact ⟨0, 0, by simp [emitFillers], hlimit, Nat.dvd_zero _, by simp, .inl rfl⟩
  | succ fuel ih =>
    rw [emitFillers]
    split
    next hle =>
      have hoffset : addrOffset pd (fillerRelocInfo pd) = (filler pd).offset :=
        addrOffset_make hfits
      have hdvd : pd.offsetUnit ∣ offset - (filler pd).offset :=
        Nat.dvd_sub haligned hfits.aligned
      have hsmaller : (filler pd).offset ≤ offset := by
        change offsetLimit pd - pd.offsetUnit ≤ offset
        omega
      have hpos' : 0 < (filler pd).offset := hpos
      have hleft : pd.offsetUnit ≤ offset - (filler pd).offset := by
        change pd.offsetUnit ≤ offset - (offsetLimit pd - pd.offsetUnit)
        omega
      obtain ⟨n, rest, heq, hlt, hrest, hsum, hunit⟩ :=
        @ih (offset - (filler pd).offset) (locs ++ [fillerRelocInfo pd]) (by omega) hdvd
      refine ⟨n + 1, rest, ?_, hlt, hrest, by rw [Nat.add_mul]; omega, ?_⟩
      · rw [hoffset, heq, List.replicate_succ, List.flatMap_cons]
        have hencode : (filler pd).encode = [fillerRelocInfo pd] := rfl
        rw [hencode, List.append_assoc]
      · right
        rcases hunit with rfl | hunit
        · rw [Nat.zero_mul, Nat.zero_add] at hsum
          rwa [hsum]
        · exact hunit
    next hlt =>
      exact ⟨0, offset, by simp, by omega, haligned, by simp, .inl rfl⟩

/-- The halfwords in the buffer behind a call. -/
def countAfter (pd : RelocPlatform) (count point : Nat) (call : RelocCall) : Nat :=
  count + fillers pd (call.addr - point) + recordLength call.data.pack

/-- A call writes fillers and its own record, if the room that it makes suffices. -/
theorem relocate_spec {cs : CodeSection} {call : RelocCall} {capacity : Int}
    (hcapacity : cs.locsCapacity = some capacity) (htype : call.type ≠ .none)
    (htagged : call.type ≠ .dataPrefixTag) (hformat : call.format < 2 ^ pd.formatWidth)
    (hpoint : pd.offsetUnit ∣ cs.locsPoint) (haddr : pd.offsetUnit ∣ call.addr) :
    ∃ (n : Nat) (e : RelocEntry pd) (locs : List Halfword),
      locs = cs.locs ++ (List.replicate n (filler pd) ++ [e]).flatMap encode ∧
      locs.length = countAfter pd cs.locs.length cs.locsPoint call ∧
      relocate pd cs call =
        (if (locs.length : Int) ≤
            reserveLocs pd cs.locs.length capacity (call.addr - cs.locsPoint) then
          some ⟨call.addr, locs,
            some (reserveLocs pd cs.locs.length capacity (call.addr - cs.locsPoint))⟩
        else none) ∧
      n * (filler pd).offset + e.offset = call.addr - cs.locsPoint ∧
      e.type = call.type ∧ e.format = call.format ∧ e.data = call.data.pack := by
  obtain ⟨n, rest, heq, hlt, hrest, hsum, hunit⟩ := @emitFillers_spec pd _ _ cs.locs
    (Nat.le_refl (call.addr - cs.locsPoint)) (Nat.dvd_sub haddr hpoint)
  have hdata : call.data.pack.length < datalenLimit :=
    Nat.lt_of_le_of_lt call.data.length_pack_le (by decide)
  let e : RelocEntry pd :=
    ⟨call.type, rest, call.format, call.data.pack, htagged, ⟨hlt, hrest, hformat⟩, hdata⟩
  have hlocs : cs.locs ++ (List.replicate n (filler pd) ++ [e]).flatMap encode =
      cs.locs ++ (List.replicate n (filler pd)).flatMap encode ++ e.encode := by
    rw [List.flatMap_append, List.append_assoc, List.flatMap_singleton]
  refine ⟨n, e, _, rfl, ?_, ?_, hsum, rfl, rfl, rfl⟩
  · have hfillers : ((List.replicate n (filler pd)).flatMap encode).length = n := by
      rw [List.length_flatMap, List.map_replicate, List.sum_replicate_nat]
      exact Nat.mul_one n
    rw [hlocs, List.length_append, List.length_append, hfillers, encode,
      length_initializeRecord, countAfter, fillers_eq hlt hunit hsum]
  · rw [relocate, if_neg htype, hcapacity, hlocs]
    dsimp only
    rw [heq]
    rfl

/-- The iterator shows what the call asked for. -/
def Shows (r : RelocRecord) (call : RelocCall) : Prop :=
  r.addr = call.addr ∧ r.type = call.type ∧ r.format = call.format ∧
    call.data.unpack r.data = call.data

def isRelocation (t : RelocType) : Bool := t ≠ .none

theorem filter_shownFrom_fillers (n current addr : Nat) :
    (shownFrom current addr (List.replicate n (filler pd))).filter (isRelocation ·.type) = [] := by
  induction n generalizing current addr with
  | zero => rfl
  | succ n ih =>
    have hnone : isRelocation ((filler pd).shown current addr).type = false := rfl
    rw [List.replicate_succ, shownFrom, List.filter_cons_of_neg (by simp [hnone]), ih]

/-- A call that can be made. -/
structure Allowed (pd : RelocPlatform) (call : RelocCall) : Prop where
  type_ne : call.type ≠ .dataPrefixTag
  format_lt : call.format < 2 ^ pd.formatWidth
  aligned : pd.offsetUnit ∣ call.addr

/-- A call adds entries of which the iterator shows one, or it writes behind the limit. -/
theorem relocate_shows {es : List (RelocEntry pd)} {start : Nat} {cs : CodeSection}
    {call : RelocCall} {capacity : Int} (hlocs : cs.locs = es.flatMap encode)
    (hsum : start + (es.map RelocEntry.offset).sum = cs.locsPoint)
    (hcapacity : cs.locsCapacity = some capacity) (hallowed : Allowed pd call)
    (hle : cs.locsPoint ≤ call.addr) (hpoint : pd.offsetUnit ∣ cs.locsPoint)
    (htype : call.type ≠ .none) :
    ∃ es' : List (RelocEntry pd),
      (es'.flatMap encode).length = countAfter pd cs.locs.length cs.locsPoint call ∧
      relocate pd cs call =
        (if (countAfter pd cs.locs.length cs.locsPoint call : Int) ≤
            reserveLocs pd cs.locs.length capacity (call.addr - cs.locsPoint) then
          some ⟨call.addr, es'.flatMap encode,
            some (reserveLocs pd cs.locs.length capacity (call.addr - cs.locsPoint))⟩
        else none) ∧
      start + (es'.map RelocEntry.offset).sum = call.addr ∧
      ∃ r, (shownFrom 0 start es').filter (isRelocation ·.type) =
          (shownFrom 0 start es).filter (isRelocation ·.type) ++ [r] ∧ Shows r call := by
  obtain ⟨n, e, locs, hwritten, hlength, hrelocate, hoffset, he, hf, hd⟩ :=
    relocate_spec hcapacity htype hallowed.type_ne hallowed.format_lt hpoint hallowed.aligned
  have hflat : locs = (es ++ (List.replicate n (filler pd) ++ [e])).flatMap encode := by
    rw [hwritten, hlocs, ← List.flatMap_append]
  rw [hlength, hflat] at hrelocate
  refine ⟨es ++ (List.replicate n (filler pd) ++ [e]), by rw [← hflat, hlength], hrelocate,
    ?_, ?_⟩
  · simp only [List.map_append, List.sum_append, List.map_replicate,
      List.sum_replicate_nat, List.map_cons, List.map_nil, List.sum_cons, List.sum_nil]
    omega
  · rw [shownFrom_append, shownFrom_append, List.filter_append, List.filter_append,
      filter_shownFrom_fillers, List.nil_append, shownFrom, shownFrom,
      List.filter_cons_of_pos (by simpa [shown, he, isRelocation] using htype)]
    refine ⟨_, rfl, ?_, he, hf, ?_⟩
    · simp only [shown, List.map_replicate, List.sum_replicate_nat]
      omega
    · rw [shown, hd, RelocData.unpack_pack]

/-- The room that each call makes suffices for what it writes: from a count of halfwords,
a capacity and the address of the record before. -/
def Reserved (pd : RelocPlatform) (count : Nat) (capacity : Int) (point : Nat) :
    List RelocCall → Prop
  | [] => True
  | call :: calls =>
    if call.type = .none then Reserved pd count capacity point calls
    else
      countAfter pd count point call ≤ reserveLocs pd count capacity (call.addr - point) ∧
        Reserved pd (countAfter pd count point call)
          (reserveLocs pd count capacity (call.addr - point)) call.addr calls

/-- A run shows what was there and its calls, or one of them writes behind the limit. -/
theorem relocateAll_shows {es : List (RelocEntry pd)} {start : Nat} {cs : CodeSection}
    {capacity : Int} {calls done : List RelocCall} (hlocs : cs.locs = es.flatMap encode)
    (hsum : start + (es.map RelocEntry.offset).sum = cs.locsPoint)
    (hcapacity : cs.locsCapacity = some capacity) (hpoint : pd.offsetUnit ∣ cs.locsPoint)
    (hshows : List.Forall₂ Shows ((shownFrom 0 start es).filter (isRelocation ·.type)) done)
    (hallowed : ∀ call ∈ calls, Allowed pd call)
    (hsorted : (cs.locsPoint :: calls.map (·.addr)).Pairwise (· ≤ ·)) :
    (Reserved pd cs.locs.length capacity cs.locsPoint calls →
      ∃ written, relocateAll pd cs calls = some written ∧
        ∃ es' : List (RelocEntry pd), written.locs = es'.flatMap encode ∧
          List.Forall₂ Shows ((shownFrom 0 start es').filter (isRelocation ·.type))
            (done ++ calls.filter (isRelocation ·.type))) ∧
    (¬Reserved pd cs.locs.length capacity cs.locsPoint calls →
      relocateAll pd cs calls = none) := by
  induction calls generalizing cs es done capacity with
  | nil =>
    refine ⟨fun _ => ⟨cs, rfl, es, hlocs, by simpa using hshows⟩, fun h => ?_⟩
    exact absurd trivial h
  | cons call calls ih =>
    rw [List.forall_mem_cons] at hallowed
    obtain ⟨hfirst, hrest⟩ := List.pairwise_cons.mp hsorted
    rw [List.map_cons] at hfirst hrest
    rw [Reserved, relocateAll, List.foldlM_cons]
    by_cases htype : call.type = .none
    · have hsame : relocate pd cs call = some cs := if_pos htype
      have hskip : (call :: calls).filter (isRelocation ·.type) =
          calls.filter (isRelocation ·.type) :=
        List.filter_cons_of_neg (by simp [isRelocation, htype])
      rw [if_pos htype, hsame, hskip]
      refine ih hlocs hsum hcapacity hpoint hshows hallowed.2 (List.pairwise_cons.mpr ⟨?_, ?_⟩)
      · exact fun addr haddr => hfirst addr (List.mem_cons_of_mem _ haddr)
      · exact (List.pairwise_cons.mp hrest).2
    · obtain ⟨es₁, hlength, hrelocate, hsum₁, r, hfilter, hshow⟩ := relocate_shows hlocs hsum
        hcapacity hallowed.1 (hfirst _ List.mem_cons_self) hpoint htype
      rw [if_neg htype, hrelocate]
      by_cases hfits : (countAfter pd cs.locs.length cs.locsPoint call : Int) ≤
          reserveLocs pd cs.locs.length capacity (call.addr - cs.locsPoint)
      · have hshows₁ : List.Forall₂ Shows
            ((shownFrom 0 start es₁).filter (isRelocation ·.type)) (done ++ [call]) := by
          rw [hfilter]
          exact List.rel_append hshows (.cons hshow .nil)
        have hkept : (call :: calls).filter (isRelocation ·.type) =
            call :: calls.filter (isRelocation ·.type) :=
          List.filter_cons_of_pos (decide_eq_true htype)
        rw [if_pos hfits, hkept, List.append_cons, ← hlength]
        obtain ⟨hread, hover⟩ := @ih es₁ ⟨call.addr, es₁.flatMap encode, _⟩ _ _ rfl hsum₁ rfl
          hallowed.1.aligned hshows₁ hallowed.2 hrest
        exact ⟨fun h => hread h.2, fun h => hover fun hrest => h ⟨hlength ▸ hfits, hrest⟩⟩
      · rw [if_neg hfits]
        exact ⟨fun h => absurd h.1 hfits, fun _ => rfl⟩

/-- The claim of a section: what calls of `relocate` wrote in its buffer is shown by the
iterator, and `set_type` changes the types that it is asked to and nothing else. -/
def RoundTrips (pd : RelocPlatform) (start : Nat) (capacity : Int) (calls : List RelocCall) :
    Prop :=
  ∃ written shown, relocateAll pd ⟨start, [], some capacity⟩ calls = some written ∧
    RelocIterator.iterate pd written.locs start = some shown ∧
    List.Forall₂ Shows (shown.filter (isRelocation ·.type))
      (calls.filter (isRelocation ·.type)) ∧
    ∀ edits : List (Nat × RelocType),
      (∀ edit ∈ edits, edit.1 < shown.length ∧ edit.2 ≠ .dataPrefixTag) →
      ∃ locs, RelocIterator.setTypes pd written.locs start edits = some locs ∧
        RelocIterator.iterate pd locs start = some (edits.foldl
          (fun shown edit => shown.modify edit.1 fun r => { r with type := edit.2 }) shown)

/-- Records are read as they were written just where the room that was made suffices. -/
theorem roundTrips_iff_reserved {start : Nat} {capacity : Int} {calls : List RelocCall}
    (hstart : pd.offsetUnit ∣ start) (hallowed : ∀ call ∈ calls, Allowed pd call)
    (hsorted : (start :: calls.map (·.addr)).Pairwise (· ≤ ·)) :
    RoundTrips pd start capacity calls ↔ Reserved pd 0 capacity start calls := by
  obtain ⟨hread, hover⟩ := @relocateAll_shows pd [] start ⟨start, [], some capacity⟩ capacity
    calls [] rfl rfl rfl hstart .nil hallowed hsorted
  constructor
  · rintro ⟨written, -, hwritten, -⟩
    by_contra hreserved
    rw [hover hreserved] at hwritten
    cases hwritten
  · intro hreserved
    obtain ⟨written, hwritten, es, hlocs, hshows⟩ := hread hreserved
    refine ⟨written, shownFrom 0 start es, hwritten, hlocs ▸ iterate_eq es start, hshows, ?_⟩
    intro edits hedits
    rw [length_shownFrom] at hedits
    obtain ⟨es', hes', hshown⟩ := @setTypes_eq pd es start edits hedits
    exact ⟨es'.flatMap encode, hlocs ▸ hes', by rw [iterate_eq, hshown]⟩

/-- AMD64: byte offsets and two bits of format. -/
def amd64 : RelocPlatform := ⟨1, 2, 8, by decide, by decide⟩

/-- A call far from the start with two ints, one that is none, one with an immediate, and
one behind a gap for which the buffer is expanded. -/
def spacedCalls : List RelocCall :=
  [⟨3000, .oop, 1, .twoInts 7 (-70000), by decide⟩, ⟨3000, .none, 0, .none, by decide⟩,
    ⟨3004, .staticStub, 0, .oneInt 9, by decide⟩, ⟨90000, .runtimeCall, 0, .none, by decide⟩]

theorem roundTrips_iff_reserved_spacedCalls : RoundTrips amd64 0 4 spacedCalls := by
  have hallowed : ∀ call ∈ spacedCalls, Allowed amd64 call := by
    intro call hcall
    simp only [spacedCalls, List.mem_cons, List.not_mem_nil, or_false] at hcall
    rcases hcall with rfl | rfl | rfl | rfl <;>
      exact ⟨by decide, by decide, Nat.one_dvd _⟩
  have hreserved : Reserved amd64 0 4 0 spacedCalls := by
    refine ⟨by decide, ?_⟩
    exact ⟨by decide, by decide, trivial⟩
  exact (roundTrips_iff_reserved (Nat.dvd_zero _) hallowed (by decide)).mpr hreserved

/-- Room is made for 15360 halfwords in all, and 15360 fillers come before the record. -/
theorem not_roundTrips_farCall :
    ¬RoundTrips amd64 0 4 [⟨15713281, .runtimeCall, 0, .none, by decide⟩] := by
  rintro ⟨written, -, hwritten, -⟩
  obtain ⟨-, hover⟩ := @relocateAll_shows amd64 [] 0 ⟨0, [], some 4⟩ 4
    [⟨15713281, .runtimeCall, 0, .none, by decide⟩] [] rfl rfl rfl (Nat.dvd_zero _) .nil
    (List.forall_mem_singleton.mpr ⟨by decide, by decide, Nat.one_dvd _⟩) (by decide)
  rw [hover fun hreserved => absurd hreserved.1 (by decide)] at hwritten
  cases hwritten

end CodeSection

end HotSpot
