import HotSpot.Code.RelocInfo
import HotSpot.Code.RelocRoundTrip
import Mathlib

/-! # The index of relocation records

`RelocIterator` of `relocInfo.cpp` under `UseRelocIndex`, where an index stands behind the records
of a code blob: one entry for each card of 128 bytes but the first. An address of 0 is null.
-/

namespace HotSpot

namespace RelocIterator

open RelocInfo

def indexCardSize : Nat := 128

/-- `sizeof(RelocIndexEntry)`, of two ints -/
def indexEntrySize : Nat := 8

def numCards (codeSize : Nat) : Nat := (codeSize - 1) / indexCardSize

def roundTo (size alignment : Nat) : Nat := (size + (alignment - 1)) / alignment * alignment

/-- The size in bytes, of which the last four are for the size of the index. -/
def locsAndIndexSize (oopSize codeSize locsSize : Nat) : Nat :=
  let codeSize := roundTo codeSize oopSize
  let locsSize := roundTo locsSize oopSize
  let indexSize := numCards codeSize * indexEntrySize
  locsSize + indexSize + 4

/-- `CodeBuffer::total_relocation_size`; a `HeapWord` is as large as an oop. -/
def totalRelocationSize (oopSize codeSize locsSize : Nat) : Nat :=
  roundTo (locsAndIndexSize oopSize codeSize locsSize) oopSize

/-! ## Iteration -/

/-- The state of an iterator between two records. -/
structure Cursor where
  /-- The index behind `_current` -/
  behind : Nat
  addr : Nat
  limit : Nat
  deriving DecidableEq, Repr

variable (pd : RelocPlatform) (locs : List Halfword)

/-- `next`: the next record, or none at the end or the limit; nothing if the end is overrun. -/
def next (c : Cursor) : Option (Option RelocRecord × Cursor) :=
  if c.behind = locs.length then some (none, { c with behind := c.behind + 1 })
  else do
    let ri ← locs[c.behind]?
    let (data, current) := atIndex locs c.behind ri
    let ri ← locs[current]?
    let addr := c.addr + addrOffset pd ri
    let c := { c with behind := current + 1, addr := addr }
    if c.limit ≠ 0 ∧ c.limit ≤ addr then return (none, c)
    return (some ⟨current, addr, type ri, format pd ri, data⟩, c)

/-- `while (iter.next())`, with a bound on the rounds -/
def collect : Nat → Cursor → Option (List RelocRecord)
  | 0, _ => none
  | fuel + 1, c => do
      let (shown, c) ← next pd locs c
      match shown with
      | none => return []
      | some r => return r :: (← collect fuel c)

/-! ## Writing the index -/

structure IndexEntry where
  /-- offset from header_end of an addr() -/
  addrOffset : Nat
  /-- offset from header_end of a relocInfo (prefix) -/
  relocOffset : Nat
  deriving DecidableEq, Repr

/-- The records of a blob with their index. -/
structure IndexedLocs where
  locs : List Halfword
  index : List IndexEntry
  /-- The int at the end -/
  indexSize : Nat
  deriving DecidableEq, Repr

/-- The entries of the cards up to that of a record. -/
def fillCards (addr : Nat) (entry : IndexEntry) (index : List IndexEntry) (nextCardAddr : Nat) :
    List IndexEntry × Nat :=
  if nextCardAddr ≤ addr then
    fillCards addr entry (index ++ [entry]) (nextCardAddr + indexCardSize)
  else (index, nextCardAddr)
  termination_by addr + 1 - nextCardAddr
  decreasing_by
    simp only [indexCardSize]
    omega

/-- The walk over the records, and the state before it ended. -/
def indexLoop : Nat → Cursor → List IndexEntry → Nat → Option (List IndexEntry × IndexEntry)
  | 0, _, _, _ => none
  | fuel + 1, c, index, nextCardAddr => do
      -- Checkpoint the iterator before advancing it.
      let entry : IndexEntry := ⟨c.addr, c.behind⟩
      let (shown, c) ← next pd locs c
      match shown with
      | none => return (index, entry)
      | some r =>
        let (index, nextCardAddr) := fillCards r.addr entry index nextCardAddr
        indexLoop fuel c index nextCardAddr

/-- `create_index` for an area of `totalSize` bytes that starts with the records. Its assertions,
such as that the index is a whole number of entries, are left out: a product has none. -/
def createIndex (totalSize : Nat) : Option IndexedLocs := do
  let locsSize := 2 * locs.length
  let indexSize := totalSize - locsSize - 4
  let ncards := indexSize / indexEntrySize
  if indexSize = 0 then return ⟨locs, [], indexSize⟩
  let (index, entry) ← indexLoop pd locs (locs.length + 1) ⟨0, 0, ncards * indexCardSize⟩ []
    indexCardSize
  return ⟨locs, index ++ List.replicate (ncards - index.length) entry, indexSize⟩

/-! ## Looking up -/

/-- The entry at a byte of the index -/
def IndexedLocs.entryAt (il : IndexedLocs) (pos : Nat) : Option IndexEntry :=
  if pos % indexEntrySize = 0 then il.index[pos / indexEntrySize]? else none

/-- Advances to the state before the first record from `begin_` on. -/
def scanTo (begin_ : Nat) : Nat → Cursor → Option Cursor
  | 0, _ => none
  | fuel + 1, c => do
      let backup := c
      let (shown, c) ← next pd locs c
      match shown with
      | none => return backup
      | some r => if begin_ ≤ r.addr then return backup else scanTo begin_ fuel c

/-- `set_limits` without the checks of the index, for the iterator that `initialize` has set to
the start of the instructions. -/
def setLimits (il : IndexedLocs) (instructionsBegin begin_ limit : Nat) : Option Cursor := do
  let c : Cursor := ⟨0, instructionsBegin, limit⟩
  if begin_ = 0 then return c
  let card := (begin_ - c.addr) / indexCardSize
  if 0 < il.indexSize ∧ 0 < card then
    -- skip ahead
    let pos := (card - 1) * indexEntrySize
    let entry ← il.entryAt (if pos < il.indexSize then pos else il.indexSize - indexEntrySize)
    scanTo pd il.locs begin_ (il.locs.length + 1)
      { c with addr := c.addr + entry.addrOffset, behind := c.behind + entry.relocOffset }
  else scanTo pd il.locs begin_ (il.locs.length + 1) c

/-- The records that the iterator shows after `set_limits`. -/
def lookup (il : IndexedLocs) (instructionsBegin begin_ limit : Nat) :
    Option (List RelocRecord) := do
  let c ← setLimits pd il instructionsBegin begin_ limit
  collect pd il.locs (il.locs.length + 1) c

end RelocIterator

/-! ## Lookup through the index

An entry of the index is a state of the iterator in front of all records of its card and behind
none, so that a lookup that starts there finds what it finds from the start.
-/

open RelocInfo RelocIterator

variable {pd : RelocPlatform}

namespace RelocEntry

variable {ps qs es : List (RelocEntry pd)} {e : RelocEntry pd} {base limit : Nat}

/-- The distance of the last record from the start -/
def span (ps : List (RelocEntry pd)) : Nat := (ps.map offset).sum

/-- The iterator behind the first entries -/
def cursorAt (base limit : Nat) (ps : List (RelocEntry pd)) : Cursor :=
  ⟨(ps.flatMap encode).length, base + span ps, limit⟩

@[simp] theorem span_nil : span ([] : List (RelocEntry pd)) = 0 := rfl

@[simp] theorem span_concat : span (ps ++ [e]) = span ps + e.offset := by simp [span]

theorem next_end : next pd (es.flatMap encode) (cursorAt base limit es) =
    some (none, { cursorAt base limit es with behind := (es.flatMap encode).length + 1 }) := by
  rw [next, if_pos (by rfl)]
  rfl

/-- The record of the next entry, unless it is at the limit. -/
theorem next_cons (hes : es = ps ++ e :: qs) :
    next pd (es.flatMap encode) (cursorAt base limit ps) = some
      (if limit ≠ 0 ∧ limit ≤ base + span (ps ++ [e]) then none
        else some (e.shown (ps.flatMap encode).length (base + span ps)),
      cursorAt base limit (ps ++ [e])) := by
  have hdrop : (es.flatMap encode).drop (ps.flatMap encode).length =
      e.encode ++ qs.flatMap encode := by
    rw [hes, List.flatMap_append, List.drop_left, List.flatMap_cons]
  obtain ⟨hne, ⟨ri, hri, hindex⟩, hrecord⟩ := e.read_encode hdrop
  have hbehind : (ps.flatMap encode).length + e.leading.length + 1 =
      ((ps ++ [e]).flatMap encode).length := by
    simp only [List.flatMap_append, List.flatMap_singleton, List.length_append, length_encode]
    omega
  have hne : (cursorAt base limit ps).behind ≠ (es.flatMap encode).length := hne
  have hri : (es.flatMap encode)[(cursorAt base limit ps).behind]? = some ri := hri
  have hindex : atIndex (es.flatMap encode) (cursorAt base limit ps).behind ri =
    (e.data, (ps.flatMap encode).length + e.leading.length) := hindex
  rw [next, if_neg hne, hri]
  simp only [Option.bind_eq_bind, Option.bind_some, hindex, hrecord, hbehind]
  rw [record, addrOffset_make e.fits, type_make e.fits, format_make e.fits,
    show (cursorAt base limit ps).addr + e.offset = base + span (ps ++ [e]) by
      rw [span_concat, ← Nat.add_assoc]
      rfl, show (cursorAt base limit ps).limit = limit from rfl]
  split
  · rfl
  · rw [shown, Nat.add_assoc base, ← span_concat]
    rfl

theorem length_le_flatMap_encode (es : List (RelocEntry pd)) :
    es.length ≤ (es.flatMap encode).length := by
  induction es with
  | nil => exact Nat.le_refl 0
  | cons e es ih =>
    have hpos := e.length_encode
    rw [List.flatMap_cons, List.length_append, List.length_cons]
    omega

/-! ## The records in address order -/

theorem addr_mem_shownFrom {current addr : Nat} {r : RelocRecord}
    (hr : r ∈ shownFrom current addr es) : addr ≤ r.addr ∧ r.addr ≤ addr + span es := by
  induction es generalizing current addr with
  | nil => cases hr
  | cons e es ih =>
    have hspan : span (e :: es) = e.offset + span es := by simp [span]
    rcases List.mem_cons.1 hr with rfl | hr
    · simp only [shown]
      omega
    · have := ih hr
      omega

/-- The records before the limit come first. -/
theorem filter_shownFrom (limit current addr : Nat) (es : List (RelocEntry pd)) :
    (shownFrom current addr es).filter (fun r => limit = 0 ∨ r.addr < limit) =
      (shownFrom current addr es).takeWhile (fun r => limit = 0 ∨ r.addr < limit) := by
  induction es generalizing current addr with
  | nil => rfl
  | cons e es ih =>
    by_cases hlimit : limit = 0 ∨ (e.shown current addr).addr < limit
    · rw [shownFrom, List.filter_cons_of_pos (by simpa using hlimit),
        List.takeWhile_cons_of_pos (by simpa using hlimit), ih]
    · rw [shownFrom, List.filter_cons_of_neg (by simpa using hlimit),
        List.takeWhile_cons_of_neg (by simpa using hlimit)]
      refine List.filter_eq_nil_iff.2 fun r hr => ?_
      have := addr_mem_shownFrom hr
      simp only [shown] at hlimit
      rw [decide_eq_true_eq]
      omega

theorem collect_eq (hes : es = ps ++ qs) {fuel : Nat} (hfuel : qs.length < fuel) :
    collect pd (es.flatMap encode) fuel (cursorAt base limit ps) =
      some ((shownFrom (ps.flatMap encode).length (base + span ps) qs).takeWhile
        fun r => limit = 0 ∨ r.addr < limit) := by
  induction qs generalizing ps fuel with
  | nil =>
    obtain ⟨fuel, rfl⟩ := Nat.exists_eq_add_one.2 hfuel
    obtain rfl : es = ps := by simpa using hes
    rw [collect, next_end]
    rfl
  | cons e qs ih =>
    obtain ⟨fuel, rfl⟩ := Nat.exists_eq_add_one.2 (Nat.lt_of_le_of_lt (Nat.zero_le _) hfuel)
    have hconcat : es = (ps ++ [e]) ++ qs := by simpa using hes
    have hrest := ih hconcat (show qs.length < fuel by simpa using hfuel)
    have hbehind : ((ps ++ [e]).flatMap encode).length =
        (ps.flatMap encode).length + e.encode.length := by simp
    rw [hbehind, span_concat, ← Nat.add_assoc] at hrest
    rw [collect, next_cons hes, span_concat, ← Nat.add_assoc]
    have haddr : (e.shown (ps.flatMap encode).length (base + span ps)).addr =
        base + span ps + e.offset := rfl
    by_cases hlimit : limit ≠ 0 ∧ limit ≤ base + span ps + e.offset
    · rw [if_pos hlimit, shownFrom,
        List.takeWhile_cons_of_neg (by rw [decide_eq_true_eq, haddr]; omega)]
      rfl
    · rw [if_neg hlimit, shownFrom,
        List.takeWhile_cons_of_pos (by rw [decide_eq_true_eq, haddr]; omega)]
      simp only [Option.bind_eq_bind, Option.bind_some, hrest]
      rfl

/-! ## The scan -/

/-- The records of these entries are before `begin_`. -/
def Before (base begin_ : Nat) (ps : List (RelocEntry pd)) : Prop :=
  ps = [] ∨ base + span ps < begin_

theorem scanTo_eq (limit : Nat) {begin_ : Nat} (hes : es = ps ++ qs)
    (hbefore : Before base begin_ ps) {fuel : Nat} (hfuel : qs.length < fuel) :
    ∃ ps' qs', scanTo pd (es.flatMap encode) begin_ fuel (cursorAt base limit ps) =
        some (cursorAt base limit ps') ∧ es = ps' ++ qs' ∧ Before base begin_ ps' ∧
      ∀ e rest, qs' = e :: rest → begin_ ≤ base + span (ps' ++ [e]) ∨
        limit ≠ 0 ∧ limit ≤ base + span (ps' ++ [e]) := by
  induction qs generalizing ps fuel with
  | nil =>
    obtain ⟨fuel, rfl⟩ := Nat.exists_eq_add_one.2 hfuel
    obtain rfl : es = ps := by simpa using hes
    refine ⟨es, [], ?_, by simp, hbefore, by simp⟩
    rw [scanTo, next_end]
    rfl
  | cons e qs ih =>
    obtain ⟨fuel, rfl⟩ := Nat.exists_eq_add_one.2 (Nat.lt_of_le_of_lt (Nat.zero_le _) hfuel)
    rw [scanTo, next_cons hes]
    by_cases hlimit : limit ≠ 0 ∧ limit ≤ base + span (ps ++ [e])
    · refine ⟨ps, e :: qs, ?_, hes, hbefore, ?_⟩
      · rw [if_pos hlimit]
        rfl
      · rintro e' rest ⟨rfl, rfl⟩
        exact .inr hlimit
    · rw [if_neg hlimit]
      simp only [Option.bind_eq_bind, Option.bind_some]
      have haddr : (e.shown (ps.flatMap encode).length (base + span ps)).addr =
          base + span (ps ++ [e]) := by rw [span_concat, ← Nat.add_assoc]; rfl
      rw [haddr]
      by_cases hbegin : begin_ ≤ base + span (ps ++ [e])
      · refine ⟨ps, e :: qs, ?_, hes, hbefore, ?_⟩
        · rw [if_pos hbegin]
          rfl
        · rintro e' rest ⟨rfl, rfl⟩
          exact .inl hbegin
      · rw [if_neg hbegin]
        exact ih (by simpa using hes) (.inr (Nat.not_le.1 hbegin)) (by simpa using hfuel)

/-- From any state in front of the records from `begin_` on, the same records are shown. -/
theorem scan_collect (limit : Nat) {begin_ : Nat} (hes : es = ps ++ qs)
    (hbefore : Before base begin_ ps) :
    (do
      let c ← scanTo pd (es.flatMap encode) begin_ ((es.flatMap encode).length + 1)
        (cursorAt base limit ps)
      collect pd (es.flatMap encode) ((es.flatMap encode).length + 1) c) =
      some ((shownFrom 0 base es).filter
        fun r => begin_ ≤ r.addr ∧ (limit = 0 ∨ r.addr < limit)) := by
  have hlength := length_le_flatMap_encode es
  have hsum := congrArg List.length hes
  rw [List.length_append] at hsum
  have hfuel : qs.length < (es.flatMap encode).length + 1 := by omega
  obtain ⟨ps', qs', hscan, hes', hbefore', hfirst⟩ := scanTo_eq limit hes hbefore hfuel
  have hsum' := congrArg List.length hes'
  rw [List.length_append] at hsum'
  have hfuel' : qs'.length < (es.flatMap encode).length + 1 := by omega
  rw [hscan, Option.bind_eq_bind, Option.bind_some, collect_eq hes' hfuel', ← filter_shownFrom]
  congr 1
  conv_rhs => rw [hes', shownFrom_append, List.filter_append]
  have hnone : (shownFrom 0 base ps').filter
      (fun r => begin_ ≤ r.addr ∧ (limit = 0 ∨ r.addr < limit)) = [] := by
    refine List.filter_eq_nil_iff.2 fun r hr => ?_
    have hle := (addr_mem_shownFrom hr).2
    rcases hbefore' with rfl | hlt
    · cases hr
    · rw [decide_eq_true_eq]
      omega
  rw [hnone, List.nil_append, Nat.zero_add]
  refine List.filter_congr fun r hr => ?_
  cases qs' with
  | nil => cases hr
  | cons e rest =>
    have hle : base + span (ps' ++ [e]) ≤ r.addr := by
      rw [span_concat]
      rcases List.mem_cons.1 hr with rfl | hr
      · simp only [shown]
        omega
      · have := (addr_mem_shownFrom hr).1
        omega
    have := hfirst e rest rfl
    rw [decide_eq_decide]
    omega

/-! ## The entries of the index -/

/-- A state of the iterator that is behind no record at `offset` or later. -/
def Checkpoint (es : List (RelocEntry pd)) (offset : Nat) (entry : IndexEntry) : Prop :=
  ∃ ps qs, es = ps ++ qs ∧ entry = ⟨span ps, (ps.flatMap encode).length⟩ ∧ span ps < offset

theorem Checkpoint.mono {offset offset' : Nat} {entry : IndexEntry}
    (hentry : Checkpoint es offset entry) (hle : offset ≤ offset') :
    Checkpoint es offset' entry := by
  obtain ⟨ps, qs, hes, heq, hlt⟩ := hentry
  exact ⟨ps, qs, hes, heq, Nat.lt_of_lt_of_le hlt hle⟩

/-- Each entry is for the card behind its own number. -/
def Checkpoints (es : List (RelocEntry pd)) (index : List IndexEntry) : Prop :=
  ∀ k entry, index[k]? = some entry → Checkpoint es (indexCardSize * (k + 1)) entry

theorem Checkpoints.append_replicate {index : List IndexEntry} {entry : IndexEntry}
    (hindex : Checkpoints es index)
    (hentry : Checkpoint es (indexCardSize * (index.length + 1)) entry) (m : Nat) :
    Checkpoints es (index ++ List.replicate m entry) := by
  intro k entry' hk
  by_cases hlt : k < index.length
  · rw [List.getElem?_append_left hlt] at hk
    exact hindex k entry' hk
  · rw [List.getElem?_append_right (Nat.not_lt.1 hlt)] at hk
    rw [List.eq_of_mem_replicate (List.mem_of_getElem? hk)]
    exact hentry.mono (Nat.mul_le_mul_left _ (by omega))

/-- The cards up to that of the record get the same entry. -/
theorem fillCards_eq (addr : Nat) (entry : IndexEntry) (index : List IndexEntry) :
    ∃ m, fillCards addr entry index (indexCardSize * (index.length + 1)) =
        (index ++ List.replicate m entry, indexCardSize * (index.length + m + 1)) ∧
      addr < indexCardSize * (index.length + m + 1) ∧
      (m = 0 ∨ indexCardSize * (index.length + m) ≤ addr) := by
  generalize hnext : indexCardSize * (index.length + 1) = nextCardAddr
  fun_induction fillCards addr entry index nextCardAddr with
  | case1 index nextCardAddr hle ih =>
    have hsucc : indexCardSize * ((index ++ [entry]).length + 1) =
        nextCardAddr + indexCardSize := by
      rw [← hnext, List.length_append, List.length_singleton]
      rfl
    obtain ⟨m, hfill, hlt, hge⟩ := ih hsucc
    rw [List.length_append, List.length_singleton, Nat.add_assoc index.length 1 m,
      Nat.add_comm 1 m] at hfill hlt hge
    refine ⟨m + 1, ?_, hlt, .inr ?_⟩
    · rw [hfill, List.append_assoc]
      rfl
    · rcases hge with rfl | hge
      · rw [hnext]
        exact hle
      · exact hge
  | case2 index nextCardAddr hlt =>
    refine ⟨0, by simp [hnext], ?_, .inl rfl⟩
    rw [Nat.add_zero, hnext]
    exact Nat.not_le.1 hlt

/-- The walk over the records writes the entries in front of them, for no more than `ncards`. -/
theorem indexLoop_eq (limit ncards : Nat) (hes : es = ps ++ qs) (index : List IndexEntry)
    (hspan : span ps < indexCardSize * (index.length + 1)) (hindex : Checkpoints es index)
    (hlength : index.length ≤ ncards)
    (hbelow : ∀ ps e qs, es = ps ++ e :: qs → (limit = 0 ∨ span (ps ++ [e]) < limit) →
      span (ps ++ [e]) < indexCardSize * max ncards 1)
    {fuel : Nat} (hfuel : qs.length < fuel) :
    ∃ index' entry, indexLoop pd (es.flatMap encode) fuel (cursorAt 0 limit ps) index
        (indexCardSize * (index.length + 1)) = some (index', entry) ∧ Checkpoints es index' ∧
      Checkpoint es (indexCardSize * (index'.length + 1)) entry ∧ index'.length ≤ ncards := by
  have hcheckpoint : Checkpoint es (indexCardSize * (index.length + 1))
      ⟨span ps, (ps.flatMap encode).length⟩ := ⟨ps, qs, hes, rfl, hspan⟩
  have hentry : (⟨(cursorAt 0 limit ps).addr, (cursorAt 0 limit ps).behind⟩ : IndexEntry) =
      ⟨span ps, (ps.flatMap encode).length⟩ := by simp [cursorAt]
  induction qs generalizing ps index fuel with
  | nil =>
    obtain ⟨fuel, rfl⟩ := Nat.exists_eq_add_one.2 hfuel
    obtain rfl : es = ps := by simpa using hes
    refine ⟨index, _, ?_, hindex, hcheckpoint, hlength⟩
    rw [indexLoop, next_end, hentry]
    rfl
  | cons e qs ih =>
    obtain ⟨fuel, rfl⟩ := Nat.exists_eq_add_one.2 (Nat.lt_of_le_of_lt (Nat.zero_le _) hfuel)
    rw [indexLoop, next_cons hes, hentry]
    by_cases hlimit : limit ≠ 0 ∧ limit ≤ 0 + span (ps ++ [e])
    · refine ⟨index, _, ?_, hindex, hcheckpoint, hlength⟩
      rw [if_pos hlimit]
      rfl
    · rw [if_neg hlimit]
      simp only [Option.bind_eq_bind, Option.bind_some]
      have haddr : (e.shown (ps.flatMap encode).length (0 + span ps)).addr =
          span (ps ++ [e]) := by
        rw [span_concat, Nat.zero_add]
        rfl
      rw [haddr]
      obtain ⟨m, hfill, hlt, hge⟩ := fillCards_eq (span (ps ++ [e]))
        ⟨span ps, (ps.flatMap encode).length⟩ index
      have hmax := hbelow ps e qs hes (by omega)
      have hlength' : (index ++ List.replicate m
          (⟨span ps, (ps.flatMap encode).length⟩ : IndexEntry)).length = index.length + m := by
        simp
      rw [hfill]
      dsimp only
      rw [← hlength'] at hlt hge ⊢
      refine ih (by simpa using hes) _ hlt (hindex.append_replicate hcheckpoint m) ?_
        (by simpa using hfuel) ⟨ps ++ [e], qs, by simpa using hes, rfl, hlt⟩ (by simp [cursorAt])
      rcases hge with rfl | hge
      · simpa using hlength
      · have hlt' := Nat.lt_of_mul_lt_mul_left (Nat.lt_of_le_of_lt hge hmax)
        omega

/-! ## The area of the records -/

theorem roundTo_eq {size alignment : Nat} (hpos : 0 < alignment) (hdvd : alignment ∣ size) :
    roundTo size alignment = size := by
  obtain ⟨n, rfl⟩ := hdvd
  rw [roundTo, Nat.mul_add_div hpos, Nat.div_eq_of_lt (by omega), Nat.add_zero, Nat.mul_comm]

theorem le_roundTo (size : Nat) {alignment : Nat} (hpos : 0 < alignment) :
    size ≤ roundTo size alignment := by
  have hdiv := Nat.div_add_mod (size + (alignment - 1)) alignment
  have hmod := Nat.mod_lt (size + (alignment - 1)) hpos
  rw [roundTo, Nat.mul_comm]
  omega

/-- What the index has in an area of the reserved size: room for the entries, and four bytes more
where a word has eight. -/
theorem indexSize_eq {oopSize : Nat} (codeSize : Nat) {n : Nat} (hoop : oopSize = 4 ∨ oopSize = 8)
    (hpadded : oopSize ∣ 2 * n) :
    let ncards := numCards (roundTo codeSize oopSize)
    locsAndIndexSize oopSize codeSize (2 * n) = 2 * n + indexEntrySize * ncards + 4 ∧
      ∃ slack < indexEntrySize, totalRelocationSize oopSize codeSize (2 * n) =
        2 * n + (indexEntrySize * ncards + slack) + 4 := by
  dsimp only
  generalize hcards : numCards (roundTo codeSize oopSize) = ncards
  have hreserved : locsAndIndexSize oopSize codeSize (2 * n) =
      2 * n + indexEntrySize * ncards + 4 := by
    rw [locsAndIndexSize, roundTo_eq (by omega) hpadded, hcards, Nat.mul_comm ncards]
  refine ⟨hreserved, ?_⟩
  rw [totalRelocationSize, hreserved]
  rcases hoop with rfl | rfl
  · refine ⟨0, by decide, ?_⟩
    rw [roundTo_eq (by decide) (by simp only [indexEntrySize]; omega)]
    rfl
  · refine ⟨4, by decide, ?_⟩
    simp only [roundTo, indexEntrySize]
    omega

/-- `create_index` writes one entry for each card, and none is behind the start of its card. -/
theorem createIndex_eq (es : List (RelocEntry pd)) {ncards slack codeSize : Nat}
    (hslack : slack < indexEntrySize)
    (hcards : codeSize ≤ indexCardSize * (ncards + 1))
    (hinside : ∀ r ∈ shownFrom 0 0 es, r.addr < codeSize) :
    ∃ index, createIndex pd (es.flatMap encode)
        (2 * (es.flatMap encode).length + (indexEntrySize * ncards + slack) + 4) =
          some ⟨es.flatMap encode, index, indexEntrySize * ncards + slack⟩ ∧
      index.length = ncards ∧ Checkpoints es index := by
  have hsize : 2 * (es.flatMap encode).length + (indexEntrySize * ncards + slack) + 4 -
      2 * (es.flatMap encode).length - 4 = indexEntrySize * ncards + slack := by omega
  have hdiv : (indexEntrySize * ncards + slack) / indexEntrySize = ncards := by
    simp only [indexEntrySize] at hslack ⊢
    omega
  unfold createIndex
  simp only [hsize, hdiv]
  split
  next hzero =>
    have : ncards = 0 := by simp only [indexEntrySize] at hzero; omega
    exact ⟨[], by rw [hzero]; rfl, this.symm, by simp [Checkpoints]⟩
  next hpos =>
    have hbelow : ∀ (ps : List (RelocEntry pd)) e qs, es = ps ++ e :: qs →
        (ncards * indexCardSize = 0 ∨ span (ps ++ [e]) < ncards * indexCardSize) →
        span (ps ++ [e]) < indexCardSize * max ncards 1 := by
      intro ps e qs hes hlimit
      have hmem : e.shown (0 + (ps.flatMap encode).length) (0 + span ps) ∈ shownFrom 0 0 es := by
        rw [hes, shownFrom_append]
        exact List.mem_append_right _ List.mem_cons_self
      have hlt := hinside _ hmem
      have haddr : (e.shown (0 + (ps.flatMap encode).length) (0 + span ps)).addr =
          span (ps ++ [e]) := by
        rw [span_concat]
        exact congrArg (· + e.offset) (Nat.zero_add (span ps))
      rw [haddr] at hlt
      simp only [indexCardSize] at hcards hlimit ⊢
      omega
    obtain ⟨index, entry, hloop, hindex, hentry, hlength⟩ :=
      indexLoop_eq (ncards * indexCardSize) ncards (List.nil_append es).symm []
        (Nat.zero_lt_succ _) (by simp [Checkpoints]) (Nat.zero_le _) hbelow
        (Nat.lt_succ_of_le (length_le_flatMap_encode es))
    have hstart : cursorAt 0 (ncards * indexCardSize) ([] : List (RelocEntry pd)) =
        ⟨0, 0, ncards * indexCardSize⟩ := rfl
    rw [hstart] at hloop
    refine ⟨index ++ List.replicate (ncards - index.length) entry, ?_, ?_,
      hindex.append_replicate hentry _⟩
    · have hloop : indexLoop pd (es.flatMap encode) ((es.flatMap encode).length + 1)
          ⟨0, 0, ncards * indexCardSize⟩ [] indexCardSize = some (index, entry) := hloop
      rw [hloop]
      rfl
    · rw [List.length_append, List.length_replicate]
      omega

/-- A lookup that does not skip ahead -/
theorem lookup_scan {begin_ indexSize : Nat} {index : List IndexEntry} (hne : begin_ ≠ 0)
    (hskip : ¬(0 < indexSize ∧ 0 < (begin_ - base) / indexCardSize)) :
    lookup pd ⟨es.flatMap encode, index, indexSize⟩ base begin_ limit =
      some ((shownFrom 0 base es).filter
        fun r => begin_ ≤ r.addr ∧ (limit = 0 ∨ r.addr < limit)) := by
  have hscan : lookup pd ⟨es.flatMap encode, index, indexSize⟩ base begin_ limit = (do
      let c ← scanTo pd (es.flatMap encode) begin_ ((es.flatMap encode).length + 1)
        (cursorAt base limit ([] : List (RelocEntry pd)))
      collect pd (es.flatMap encode) ((es.flatMap encode).length + 1) c) := by
    unfold lookup setLimits
    dsimp only
    rw [if_neg hne, if_neg hskip]
    rfl
  rw [hscan]
  exact scan_collect limit (List.nil_append es).symm (.inl rfl)

/-- A lookup through the index, for a position inside the code. -/
theorem lookup_eq (limit : Nat) {ncards : Nat} (slack : Nat) {begin_ : Nat}
    {index : List IndexEntry} (hlength : index.length = ncards) (hindex : Checkpoints es index)
    (hbase : 0 < base) (hbegin : base ≤ begin_)
    (hend : begin_ < base + indexCardSize * (ncards + 1)) :
    lookup pd ⟨es.flatMap encode, index, indexEntrySize * ncards + slack⟩ base begin_ limit =
      some ((shownFrom 0 base es).filter
        fun r => begin_ ≤ r.addr ∧ (limit = 0 ∨ r.addr < limit)) := by
  by_cases hskip : 0 < indexEntrySize * ncards + slack ∧ 0 < (begin_ - base) / indexCardSize
  · generalize hc : (begin_ - base) / indexCardSize = card at hskip
    have hle : indexCardSize * card ≤ begin_ - base := by rw [← hc]; exact Nat.mul_div_le _ _
    have hcards : card ≤ ncards := by simp only [indexCardSize] at hle hend; omega
    obtain ⟨entry, hentry⟩ : ∃ entry, index[card - 1]? = some entry :=
      ⟨_, List.getElem?_eq_getElem (by omega)⟩
    have hat : IndexedLocs.entryAt ⟨es.flatMap encode, index, indexEntrySize * ncards + slack⟩
        ((card - 1) * indexEntrySize) = some entry := by
      rw [IndexedLocs.entryAt, if_pos (Nat.mul_mod_left _ _),
        Nat.mul_div_cancel _ (by decide), hentry]
    obtain ⟨ps, qs, hes, rfl, hspan⟩ := hindex _ _ hentry
    have hbefore : Before base begin_ ps := by
      refine .inr ?_
      rw [Nat.sub_add_cancel hskip.2] at hspan
      omega
    have hpos : (card - 1) * indexEntrySize < indexEntrySize * ncards + slack := by
      simp only [indexEntrySize]
      omega
    have hcollect := scan_collect limit hes hbefore
    unfold lookup setLimits
    dsimp only
    rw [if_neg (by omega), hc, if_pos hskip, if_pos hpos, hat]
    simp only [Option.bind_eq_bind, Option.bind_some, cursorAt, Nat.zero_add] at hcollect ⊢
    exact hcollect
  · exact lookup_scan (by omega) hskip

/-- The records of an indexed blob are looked up as if they were scanned from the start. -/
theorem lookup_exact {oopSize codeSize begin_ : Nat} (hoop : oopSize = 4 ∨ oopSize = 8)
    (hpadded : oopSize ∣ 2 * (es.flatMap encode).length)
    (hinside : ∀ r ∈ shownFrom 0 0 es, r.addr < codeSize)
    (hbase : 0 < base) (hbegin : base ≤ begin_) (hend : begin_ < base + codeSize) :
    let locs := es.flatMap encode
    let ncards := numCards (roundTo codeSize oopSize)
    ∃ il, createIndex pd locs (totalRelocationSize oopSize codeSize (2 * locs.length)) = some il ∧
      il.index.length = ncards ∧
      2 * locs.length + indexEntrySize * ncards + 4 =
        locsAndIndexSize oopSize codeSize (2 * locs.length) ∧
      locsAndIndexSize oopSize codeSize (2 * locs.length) ≤
        totalRelocationSize oopSize codeSize (2 * locs.length) ∧
      ∃ shown, iterate pd locs base = some shown ∧
        lookup pd il base begin_ limit =
          some (shown.filter fun r => begin_ ≤ r.addr ∧ (limit = 0 ∨ r.addr < limit)) ∧
        lookup pd il base begin_ limit = lookup pd ⟨locs, [], 0⟩ base begin_ limit := by
  dsimp only
  obtain ⟨hreserved, slack, hslack, htotal⟩ := indexSize_eq codeSize hoop hpadded
  have hround := le_roundTo codeSize (show 0 < oopSize by omega)
  have hcards : roundTo codeSize oopSize ≤
      indexCardSize * (numCards (roundTo codeSize oopSize) + 1) := by
    simp only [numCards, indexCardSize]
    omega
  generalize numCards (roundTo codeSize oopSize) = ncards at *
  obtain ⟨index, hcreate, hlength, hindex⟩ := createIndex_eq es hslack
    (Nat.le_trans hround hcards) hinside
  have hlookup := lookup_eq limit slack hlength hindex hbase hbegin
    (by omega)
  refine ⟨_, by rw [htotal, hcreate], hlength, hreserved.symm, by omega, _, iterate_eq es base,
    hlookup, ?_⟩
  rw [hlookup, lookup_scan (by omega) (by simp)]

def callAfter (offset : Nat) (h : RelocInfo.Fits CodeSection.amd64 offset 0) :
    RelocEntry CodeSection.amd64 :=
  ⟨.runtimeCall, offset, 0, [], by decide, h, noData_lt⟩

/-- Calls in different cards, two of them in one, and nothing in some cards between. -/
def farCalls : List (RelocEntry CodeSection.amd64) :=
  [callAfter 5 ⟨by decide, by decide, by decide⟩, callAfter 600 ⟨by decide, by decide, by decide⟩,
    callAfter 20 ⟨by decide, by decide, by decide⟩, callAfter 300 ⟨by decide, by decide, by decide⟩]

/-- With oops of 8 bytes and a limit. -/
theorem lookup_exact_farCalls : ∃ il, createIndex CodeSection.amd64 (farCalls.flatMap encode)
      (totalRelocationSize 8 1000 8) = some il ∧ il.index.length = 7 ∧
    ∃ shown, iterate CodeSection.amd64 (farCalls.flatMap encode) 1000 = some shown ∧
      lookup CodeSection.amd64 il 1000 1300 1700 =
        some (shown.filter fun r => 1300 ≤ r.addr ∧ (1700 = 0 ∨ r.addr < 1700)) := by
  obtain ⟨il, hcreate, hlength, -, -, shown, hshown, hlookup, -⟩ :=
    @lookup_exact CodeSection.amd64 farCalls 1000 1700 8 1000 1300 (.inr rfl) (by decide)
      (by decide) (by decide) (by decide) (by decide)
  exact ⟨il, hcreate, hlength, shown, hshown, hlookup⟩

end RelocEntry
end HotSpot
