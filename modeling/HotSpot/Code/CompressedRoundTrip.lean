import Mathlib.Data.List.Basic
import Mathlib.Tactic.IntervalCases
import Mathlib.Tactic.Ring
import HotSpot.Code.CompressedStream

/-! # Round trip of the compressed stream

Every write appends the code of its value to the bytes written so far, whether
it takes the one-byte path, the multi-byte loop or a growth of the buffer, and
every read of that code returns the value and stops right behind it. The buffer
grows by doubling an `int`, and a code for which no doubling is large enough
cannot be written.
-/

namespace HotSpot.CompressedStream

open BiasedDigits

/-! ## Bit-level encodings -/

theorem sshiftRight_last (value : BitVec 32) :
    value.sshiftRight 31 = if value.msb then BitVec.allOnes 32 else 0#32 := by
  apply BitVec.eq_of_getLsbD_eq
  intro i hi
  cases hmsb : value.msb <;>
    simp [-BitVec.reduceAllOnes, BitVec.getLsbD_allOnes] <;>
    grind [BitVec.msb_eq_getLsbD_last]

theorem decodeSign_encodeSign (value : BitVec 32) : decodeSign (encodeSign value) = value := by
  have hmsb := BitVec.msb_eq_getLsbD_last value
  rw [decodeSign, encodeSign, sshiftRight_last]
  -- The low bit of the code is the sign, so the mask built from it undoes the folding.
  cases h : value.msb with
  | false =>
    have hlow : (value <<< 1 ^^^ 0#32) &&& 1 = 0#32 := by
      apply BitVec.eq_of_getLsbD_eq
      intro i hi
      simp; grind
    simp only [Bool.false_eq_true, if_false, hlow]
    apply BitVec.eq_of_getLsbD_eq
    intro i hi
    simp; grind
  | true =>
    have hlow : (value <<< 1 ^^^ BitVec.allOnes 32) &&& 1 = 1#32 := by
      apply BitVec.eq_of_getLsbD_eq
      intro i hi
      simp [-BitVec.reduceAllOnes]; grind
    have hneg : -(1#32) = BitVec.allOnes 32 := by decide
    simp only [if_true, hlow, hneg]
    apply BitVec.eq_of_getLsbD_eq
    intro i hi
    simp [-BitVec.reduceAllOnes]; grind

theorem reverseInt_getLsbD (i : BitVec 32) (k : Nat) (hk : k < 32) :
    (reverseInt i).getLsbD k = i.getLsbD (31 - k) := by
  interval_cases k <;> simp [reverseInt]

theorem reverseInt_reverseInt (i : BitVec 32) : reverseInt (reverseInt i) = i := by
  apply BitVec.eq_of_getLsbD_eq
  intro k hk
  rw [reverseInt_getLsbD _ k hk, reverseInt_getLsbD _ (31 - k) (by omega)]
  congr 1
  omega

theorem jlongFrom_high_low (value : BitVec 64) : jlongFrom (high value) (low value) = value := by
  apply BitVec.eq_of_getLsbD_eq
  intro i hi
  simp only [jlongFrom, high, low, BitVec.getLsbD_append, BitVec.getLsbD_extractLsb']
  grind

/-! ## The UNSIGNED5 code -/

/-- The bytes `write_int` emits for a value. -/
def unsigned5 (value : BitVec 32) : List UChar :=
  (encode L H maxI value.toNat).map (BitVec.ofNat 8)

/-- Five bytes are enough for any 32-bit value. -/
theorem toNat_lt_limit (value : BitVec 32) : value.toNat < limit L H maxI := by
  have hlimit : 2 ^ 32 ≤ limit L H maxI := by decide
  have := value.isLt
  omega

theorem L_eq : L = 192 := rfl

theorem H_eq : H = 64 := rfl

theorem limit_zero : limit L H 0 = 256 := rfl

theorem digit_lt {k n digit : Nat} (hn : n < limit L H k) (hmem : digit ∈ encode L H k n) :
    digit < 256 :=
  encode_lt L H (by decide) k n hn digit hmem

theorem next_lt_limit {k n : Nat} (hn : n < limit L H (k + 1)) (hL : ¬ n < L) :
    (n - L) / H < limit L H k := by
  rw [Nat.div_lt_iff_lt_mul (by decide), Nat.mul_comm]
  simp only [limit] at hn
  omega

theorem ofNat_setWidth_toNat {n : Nat} (hn : n < 256) :
    (BitVec.ofNat 8 n).setWidth 32 = BitVec.ofNat 32 n := by
  apply BitVec.eq_of_toNat_eq
  simp only [BitVec.toNat_setWidth, BitVec.toNat_ofNat]
  omega

/-! ## The writer appends -/

namespace WriteStream

/-- What every stream built by the constructor and the writes satisfies. -/
structure Inv (s : WriteStream) : Prop where
  length_eq : s.buffer.length = s.size
  position_le : s.position ≤ s.size
  size_pos : 1 ≤ s.size
  size_lt : s.size < 2 ^ 31

/-- The bytes written so far. -/
def contents (s : WriteStream) : List UChar := s.buffer.take s.position

theorem Inv.contents_length {s : WriteStream} (hs : s.Inv) : s.contents.length = s.position := by
  have := hs.length_eq
  have := hs.position_le
  simp only [contents, List.length_take]
  omega

/-- Some number of doublings makes room for `n` bytes before the size leaves `int`. -/
def Holds (s : WriteStream) (n : Nat) : Prop := ∃ k, n ≤ s.size * 2 ^ k ∧ s.size * 2 ^ k < 2 ^ 31

theorem Holds.mono {s : WriteStream} {n m : Nat} (h : s.Holds m) (hn : n ≤ m) : s.Holds n := by
  obtain ⟨k, hroom, hint⟩ := h
  exact ⟨k, hn.trans hroom, hint⟩

theorem Holds.of_doubled {s next : WriteStream} {k n : Nat} (hsize : next.size = s.size * 2 ^ k)
    (hnext : next.Inv) (h : s.Holds n) : next.Holds n := by
  obtain ⟨j, hroom, hint⟩ := h
  rcases Nat.le_total k j with hle | hle
  · obtain ⟨d, rfl⟩ := Nat.exists_eq_add_of_le hle
    rw [Nat.pow_add, ← Nat.mul_assoc, ← hsize] at hroom hint
    exact ⟨d, hroom, hint⟩
  · have hsmaller : s.size * 2 ^ j ≤ next.size := by
      rw [hsize]
      exact Nat.mul_le_mul_left _ (Nat.pow_le_pow_right (by decide) hle)
    exact ⟨0, by simpa using hroom.trans hsmaller, by simpa using hnext.size_lt⟩

/-- The result of writing `bytes`: either the invariant stays and the bytes
stand behind what was there, in a buffer that has been doubled as often as it
had to be, or no buffer of a size in `int` would have held them. -/
def Appends (result : Except String WriteStream) (s : WriteStream) (bytes : List UChar) : Prop :=
  match result with
  | .ok next =>
    next.Inv ∧ next.contents = s.contents ++ bytes ∧ ∃ k, next.size = s.size * 2 ^ k
  | .error _ => ¬ s.Holds (s.position + bytes.length)

theorem Appends.position {s next : WriteStream} {bytes : List UChar} (hs : s.Inv)
    (h : Appends (.ok next) s bytes) : next.position = s.position + bytes.length := by
  obtain ⟨hnext, hcontents, -⟩ := h
  rw [← hnext.contents_length, hcontents, List.length_append, hs.contents_length]

theorem Appends.trans {r : Except String WriteStream} {s : WriteStream} {first second : List UChar}
    {f : WriteStream → Except String WriteStream} (hs : s.Inv) (hr : Appends r s first)
    (hf : ∀ next : WriteStream, next.Inv → Appends (f next) next second) :
    Appends (r >>= f) s (first ++ second) := by
  cases r with
  | error e =>
    exact fun hholds => hr (hholds.mono (by simp))
  | ok middle =>
    have hposition := hr.position hs
    obtain ⟨hmiddle, hcontents, k, hsize⟩ := hr
    have htail := hf middle hmiddle
    change Appends (f middle) s (first ++ second)
    cases hlast : f middle with
    | error e =>
      rw [hlast] at htail
      intro hholds
      refine htail ?_
      rw [hposition, Nat.add_assoc, ← List.length_append]
      exact hholds.of_doubled hsize hmiddle
    | ok last =>
      rw [hlast] at htail
      obtain ⟨hinv, hmore, j, hlastSize⟩ := htail
      refine ⟨hinv, by rw [hmore, hcontents, List.append_assoc], k + j, ?_⟩
      rw [hlastSize, hsize, Nat.mul_assoc, ← Nat.pow_add]

variable (junk : Nat → Nat → UChar)

theorem create_inv {initialSize : Nat} (hsize : 1 ≤ initialSize) (hint : initialSize < 2 ^ 31) :
    (create junk initialSize).Inv :=
  ⟨by simp [create], Nat.zero_le _, hsize, hint⟩

theorem store_appends {s : WriteStream} (hs : s.Inv) (hroom : s.position < s.size) (b : UChar) :
    Appends (s.store b) s [b] := by
  have hlen := hs.length_eq
  simp only [store, hlen, hroom, if_true]
  refine ⟨⟨by simpa using hlen, hroom, hs.size_pos, hs.size_lt⟩, ?_, 0, by simp⟩
  simp only [contents]
  rw [List.take_set, List.take_add_one, List.set_append]
  simp [hlen, hroom, hs.position_le]

theorem grow_appends {s : WriteStream} (hs : s.Inv) (hfull : s.full) (b : UChar) :
    Appends (s.grow junk >>= fun s => s.store b) s [b] := by
  have hposition : s.position = s.size :=
    Nat.le_antisymm hs.position_le (by simpa [full] using hfull)
  have hpos := hs.size_pos
  have hlen := hs.length_eq
  unfold grow
  split
  next hint =>
    generalize hgrown : WriteStream.mk _ s.position (s.size * 2) = grown
    have hinv : grown.Inv := by
      subst hgrown
      refine ⟨?_, ?_, ?_, hint⟩
      · simp only [List.length_append, List.length_take, List.length_drop, List.length_map,
          List.length_range]
        omega
      · simp only; omega
      · simp only; omega
    have hcontents : grown.contents = s.contents := by
      have htake : (s.buffer.take s.position).length = s.position := hs.contents_length
      subst hgrown
      simp only [contents]
      rw [List.take_append_of_le_length (by omega), List.take_take, min_self]
    have hroom : grown.position < grown.size := by
      subst hgrown
      simp only
      omega
    have hsize : grown.size = s.size * 2 := by rw [← hgrown]
    have happ := store_appends hinv hroom b
    change Appends (grown.store b) s [b]
    cases hstore : grown.store b with
    | error e => simp [store, hinv.length_eq, hroom] at hstore
    | ok last =>
      rw [hstore] at happ
      obtain ⟨hlast, hmore, k, hlastSize⟩ := happ
      refine ⟨hlast, by rw [hmore, hcontents], k + 1, ?_⟩
      rw [hlastSize, hsize, Nat.pow_succ', Nat.mul_assoc]
  next hint =>
    -- The buffer is full, so one more byte asks for a doubling, and one is too many.
    rintro ⟨k, hroom, hk⟩
    rw [List.length_singleton, hposition] at hroom
    have hdoubled : 2 ≤ 2 ^ k := by
      rcases k with _ | k
      · omega
      · rw [Nat.pow_succ]
        exact Nat.le_mul_of_pos_left 2 (Nat.two_pow_pos k)
    have := Nat.mul_le_mul_left s.size hdoubled
    omega

theorem write_appends {s : WriteStream} (hs : s.Inv) (b : UChar) :
    Appends (s.write junk b) s [b] := by
  unfold write
  split
  next hfull => exact grow_appends junk hs hfull b
  next hfull =>
    refine store_appends hs ?_ b
    simpa [full] using hfull

theorem writeLast_appends {s : WriteStream} (hs : s.Inv) {sum : BitVec 32}
    (hsum : sum.toNat < 256) :
    Appends (writeIntMbLoop.writeLast junk sum s) s [BitVec.ofNat 8 sum.toNat] := by
  have hbyte : sum.setWidth 8 = BitVec.ofNat 8 sum.toNat := by
    apply BitVec.eq_of_toNat_eq
    simp
  have hvalid : sum = (sum.setWidth 8).setWidth 32 := by
    rw [hbyte, ofNat_setWidth_toNat hsum]
    simp
  rw [writeIntMbLoop.writeLast, if_pos hvalid, hbyte]
  exact write_appends junk hs _

theorem writeIntMbLoop_appends (k : Nat) {s : WriteStream} (hs : s.Inv) (sum : BitVec 32)
    (hsum : sum.toNat < limit L H k) :
    Appends (writeIntMbLoop junk k sum s) s ((encode L H k sum.toNat).map (BitVec.ofNat 8)) := by
  induction k generalizing s sum with
  | zero => exact writeLast_appends junk hs (by simpa [limit_zero] using hsum)
  | succ k ih =>
    unfold writeIntMbLoop encode
    split
    next hlow => exact writeLast_appends junk hs (by rw [L_eq] at hlow; omega)
    next hhigh =>
      have hbound := sum.isLt
      have hdigit : BitVec.setWidth 8
          (BitVec.ofNat 32 L + (sum - BitVec.ofNat 32 L) % BitVec.ofNat 32 H) =
            BitVec.ofNat 8 (L + (sum.toNat - L) % H) := by
        apply BitVec.eq_of_toNat_eq
        simp only [L_eq, H_eq] at hhigh ⊢
        simp only [BitVec.toNat_setWidth, BitVec.toNat_add, BitVec.toNat_umod,
          BitVec.toNat_sub, BitVec.toNat_ofNat, Nat.reducePow, Nat.reduceMod]
        omega
      have hrest : ((sum - BitVec.ofNat 32 L) >>> lgH).toNat = (sum.toNat - L) / H := by
        simp only [L_eq, H_eq, lgH] at hhigh ⊢
        simp only [BitVec.toNat_ushiftRight, BitVec.toNat_sub, BitVec.toNat_ofNat,
          Nat.shiftRight_eq_div_pow]
        omega
      have hwrite := write_appends junk hs (BitVec.ofNat 8 (L + (sum.toNat - L) % H))
      have happ := hwrite.trans hs (f := writeIntMbLoop junk k ((sum - BitVec.ofNat 32 L) >>> lgH))
        fun next hnext => ih hnext _ (by rw [hrest]; exact next_lt_limit hsum hhigh)
      rw [hrest] at happ
      simp only [hdigit]
      cases hnext : s.write junk (BitVec.ofNat 8 (L + (sum.toNat - L) % H)) with
      | error e => rw [hnext] at happ; exact happ
      | ok next => rw [hnext] at happ; exact happ

theorem writeInt_appends {s : WriteStream} (hs : s.Inv) (value : BitVec 32) :
    Appends (s.writeInt junk value) s (unsigned5 value) := by
  unfold writeInt
  split
  next hfast =>
    have hroom : s.position < s.size := by simpa [full] using hfast.2
    have hcode : unsigned5 value = [value.setWidth 8] := by
      simp only [unsigned5, maxI, encode, if_pos hfast.1, List.map_cons, List.map_nil]
      rw [← BitVec.ofNat_toNat]
    rw [hcode]
    exact store_appends hs hroom _
  next => exact writeIntMbLoop_appends junk maxI hs value (toNat_lt_limit value)

end WriteStream

/-! ## The reader consumes -/

namespace ReadStream

/-- The stream stands in front of `bytes`. -/
def Ahead (s : ReadStream) (bytes : List UChar) : Prop := bytes <+: s.buffer.drop s.position

/-- The stream after the next `n` bytes. -/
def skip (s : ReadStream) (n : Nat) : ReadStream := { s with position := s.position + n }

theorem skip_skip (s : ReadStream) (n m : Nat) : (s.skip n).skip m = s.skip (n + m) := by
  simp [skip, Nat.add_assoc]

theorem Ahead.left {s : ReadStream} {first second : List UChar} (h : s.Ahead (first ++ second)) :
    s.Ahead first :=
  (List.prefix_append first second).trans h

theorem Ahead.right {s : ReadStream} {first second : List UChar} (h : s.Ahead (first ++ second)) :
    (s.skip first.length).Ahead second := by
  obtain ⟨rest, hrest⟩ := h
  refine ⟨rest, ?_⟩
  rw [skip, ← List.drop_drop, ← hrest, List.append_assoc, List.drop_left]

theorem Ahead.tail {s : ReadStream} {b : UChar} {bytes : List UChar} (h : s.Ahead (b :: bytes)) :
    (s.skip 1).Ahead bytes := by
  have hsplit : s.Ahead ([b] ++ bytes) := h
  exact hsplit.right

theorem Ahead.getElem? {s : ReadStream} {b : UChar} {bytes : List UChar}
    (h : s.Ahead (b :: bytes)) : s.buffer[s.position]? = some b := by
  obtain ⟨rest, hrest⟩ := h
  have hhead : (s.buffer.drop s.position)[0]? = some b := by rw [← hrest]; rfl
  simpa using hhead

theorem read_of_ahead {s : ReadStream} {b : UChar} {bytes : List UChar}
    (h : s.Ahead (b :: bytes)) : s.read = some (b, s.skip 1) := by
  simp [read, h.getElem?, skip]

theorem ofNat_add_shiftLeft {n m b s : Nat} (h : n = b + H * m) :
    BitVec.ofNat 32 b <<< s + BitVec.ofNat 32 m <<< (s + lgH) = BitVec.ofNat 32 n <<< s := by
  apply BitVec.eq_of_toNat_eq
  simp only [BitVec.toNat_add, BitVec.toNat_shiftLeft, BitVec.toNat_ofNat, Nat.shiftLeft_eq,
    Nat.add_mod_mod, Nat.mod_add_mod, Nat.mod_mul_mod, h, lgH, H_eq, Nat.pow_add]
  congr 1
  ring

theorem readIntMbLoop_of_ahead (k n : Nat) (hn : n < limit L H k) (s : ReadStream)
    (hs : s.Ahead ((encode L H k n).map (BitVec.ofNat 8))) (sum : BitVec 32) (lgHi : Nat) :
    readIntMbLoop s.buffer k s.position sum lgHi =
      some (sum + BitVec.ofNat 32 n <<< lgHi, s.skip (encode L H k n).length) := by
  induction k generalizing n s sum lgHi with
  | zero =>
    have hbyte := ofNat_setWidth_toNat (n := n) (by simpa [limit_zero] using hn)
    simp only [encode, List.map_cons] at hs
    unfold readIntMbLoop
    rw [hs.getElem?]
    simp only [hbyte]
    rfl
  | succ k ih =>
    unfold encode at hs ⊢
    split at hs
    next hlow =>
      have hbyte := ofNat_setWidth_toNat (n := n) (by rw [L_eq] at hlow; omega)
      have htest : (BitVec.ofNat 8 n).toNat < L := by
        rw [L_eq] at hlow ⊢
        simp only [BitVec.toNat_ofNat]
        omega
      simp only [List.map_cons] at hs
      unfold readIntMbLoop
      rw [hs.getElem?]
      simp only [hbyte, htest, hlow, if_true]
      rfl
    next hhigh =>
      have hmod := Nat.mod_lt (n - L) (show 0 < H by decide)
      have hdigit : L + (n - L) % H < 256 := by
        rw [L_eq, H_eq] at hmod ⊢
        omega
      have htest : ¬ (BitVec.ofNat 8 (L + (n - L) % H)).toNat < L := by
        simp only [BitVec.toNat_ofNat]
        omega
      have hsum : n = L + (n - L) % H + H * ((n - L) / H) := by
        have := Nat.mod_add_div (n - L) H
        omega
      simp only [List.map_cons] at hs
      have htail := ih _ (next_lt_limit hn hhigh) (s.skip 1) hs.tail
        (sum + BitVec.ofNat 32 (L + (n - L) % H) <<< lgHi) (lgHi + lgH)
      unfold readIntMbLoop
      rw [hs.getElem?]
      simp only [ofNat_setWidth_toNat hdigit, htest, hhigh, if_false]
      refine htail.trans ?_
      rw [BitVec.add_assoc, ofNat_add_shiftLeft hsum, skip_skip, List.length_cons, Nat.add_comm 1]

theorem readInt_of_ahead {s : ReadStream} {value : BitVec 32} (hs : s.Ahead (unsigned5 value)) :
    s.readInt = some (value, s.skip (unsigned5 value).length) := by
  -- A code is a first byte followed, when that is a high code, by the code of the rest.
  have hloop := readIntMbLoop_of_ahead maxI value.toNat (toNat_lt_limit value) s hs 0#32 0
  simp only [unsigned5, List.length_map] at hs ⊢
  have hne := encode_ne_nil L H maxI value.toNat
  obtain ⟨b, rest, hcode⟩ := List.exists_cons_of_ne_nil hne
  have hb : b < 256 := digit_lt (toNat_lt_limit value) (hcode ▸ List.mem_cons_self)
  rw [hcode] at hs
  rw [List.map_cons] at hs
  unfold readIntMbLoop at hloop
  rw [hs.getElem?] at hloop
  simp only [readInt, read_of_ahead hs, Option.bind_eq_bind, Option.bind_some, readIntMb]
  simpa [maxI, skip, ofNat_setWidth_toNat hb] using hloop

theorem readSignedInt_of_ahead {s : ReadStream} {value : BitVec 32}
    (hs : s.Ahead (unsigned5 (encodeSign value))) :
    s.readSignedInt = some (value, s.skip (unsigned5 (encodeSign value)).length) := by
  simp [readSignedInt, readInt_of_ahead hs, decodeSign_encodeSign]

end ReadStream

/-! ## Typed items -/

/-- The bytes an item is filed out as. -/
def Item.bytes : Item → List UChar
  | .bool value => [value]
  | .byte value => [value]
  | .char value => unsigned5 (value.setWidth 32)
  | .short value => unsigned5 (encodeSign (value.signExtend 32))
  | .int value => unsigned5 value
  | .signedInt value => unsigned5 (encodeSign value)
  | .long value => unsigned5 (encodeSign (low value)) ++ unsigned5 (encodeSign (high value))
  | .float bits => unsigned5 (reverseInt bits)
  | .double bits => unsigned5 (reverseInt (high bits)) ++ unsigned5 (reverseInt (low bits))

open WriteStream in
theorem writeItem_appends (junk : Nat → Nat → UChar) {s : WriteStream} (hs : s.Inv) (item : Item) :
    Appends (s.writeItem junk item) s item.bytes := by
  cases item with
  | bool value => exact write_appends junk hs value
  | byte value => exact write_appends junk hs value
  | char value => exact writeInt_appends junk hs _
  | short value => exact writeInt_appends junk hs _
  | int value => exact writeInt_appends junk hs value
  | signedInt value => exact writeInt_appends junk hs _
  | long value =>
    exact (writeInt_appends junk hs _).trans hs fun next hnext => writeInt_appends junk hnext _
  | float bits =>
    simp only [writeItem, writeFloat, reverseInt_reverseInt, if_true]
    exact writeInt_appends junk hs _
  | double bits =>
    simp only [writeItem, writeDouble, reverseInt_reverseInt, and_self, if_true]
    exact (writeInt_appends junk hs _).trans hs fun next hnext => writeInt_appends junk hnext _

open ReadStream in
theorem readItem_of_ahead {s : ReadStream} (item : Item) (hs : s.Ahead item.bytes) :
    s.readItem item.kind = some (item, s.skip item.bytes.length) := by
  cases item with
  | bool value => simp [Item.kind, Item.bytes, readItem, readBool, read_of_ahead hs]
  | byte value => simp [Item.kind, Item.bytes, readItem, readByte, read_of_ahead hs]
  | char value =>
    simp [Item.kind, Item.bytes, readItem, readChar, readInt_of_ahead hs]
  | short value =>
    have hvalue : (value.signExtend 32).setWidth 16 = value := by
      apply BitVec.eq_of_getLsbD_eq
      intro i hi
      rw [BitVec.getLsbD_setWidth, BitVec.getLsbD_signExtend]
      simp only [hi, decide_true, Bool.true_and, if_true]
      simp only [show i < 32 by omega, decide_true, Bool.true_and]
    simp [Item.kind, Item.bytes, readItem, readShort, readSignedInt_of_ahead hs, hvalue]
  | int value => simp [Item.kind, Item.bytes, readItem, readInt_of_ahead hs]
  | signedInt value => simp [Item.kind, Item.bytes, readItem, readSignedInt_of_ahead hs]
  | long value =>
    have hlow := readSignedInt_of_ahead hs.left
    have hhigh := readSignedInt_of_ahead hs.right
    simp [Item.kind, Item.bytes, readItem, readLong, hlow, hhigh, skip_skip,
      jlongFrom_high_low]
  | float bits =>
    simp [Item.kind, Item.bytes, readItem, readFloat, readInt_of_ahead hs,
      reverseInt_reverseInt]
  | double bits =>
    have hhigh := readInt_of_ahead hs.left
    have hlow := readInt_of_ahead hs.right
    simp [Item.kind, Item.bytes, readItem, readDouble, hhigh, hlow, skip_skip,
      reverseInt_reverseInt, jlongFrom_high_low]

/-- The positions behind each of the items when the first is filed at `start`. -/
def positionsFrom (start : Nat) : List Item → List Nat
  | [] => []
  | item :: items => (start + item.bytes.length) ::
      positionsFrom (start + item.bytes.length) items

theorem positionsFrom_length (start : Nat) (items : List Item) :
    (positionsFrom start items).length = items.length := by
  induction items generalizing start with
  | nil => rfl
  | cons item items ih => simp [positionsFrom, ih]

theorem positionsFrom_getLastD (start : Nat) (items : List Item) :
    (positionsFrom start items).getLastD start = start + (items.flatMap Item.bytes).length := by
  induction items generalizing start with
  | nil => rfl
  | cons item items ih =>
    rw [positionsFrom, List.getLastD_cons, ih, List.flatMap_cons, List.length_append,
      Nat.add_assoc]

open WriteStream in
/-- The items are filed out one behind the other as long as an `int` can count
the bytes of the buffer; when it cannot, the writer stops. -/
theorem writeAll_appends (junk : Nat → Nat → UChar) (items : List Item) {s : WriteStream}
    (hs : s.Inv) :
    match s.writeAll junk items with
    | .ok (last, positions) =>
      Appends (.ok last) s (items.flatMap Item.bytes) ∧
        positions = positionsFrom s.position items
    | .error _ => ¬ s.Holds (s.position + (items.flatMap Item.bytes).length) := by
  induction items generalizing s with
  | nil => exact ⟨⟨hs, by simp, 0, by simp⟩, rfl⟩
  | cons item items ih =>
    have hitem := writeItem_appends junk hs item
    rw [WriteStream.writeAll, List.flatMap_cons]
    cases hnext : s.writeItem junk item with
    | error e =>
      rw [hnext] at hitem
      exact fun hholds => hitem (hholds.mono (by simp))
    | ok next =>
      rw [hnext] at hitem
      have hposition := hitem.position hs
      have htail := ih hitem.1
      have hall : Appends (next.writeAll junk items |>.map Prod.fst) s
          (item.bytes ++ items.flatMap Item.bytes) := by
        refine hitem.trans hs (f := fun next => (next.writeAll junk items).map Prod.fst) ?_
        intro middle hmiddle
        have hmiddleTail := @ih middle hmiddle
        cases hrun : middle.writeAll junk items with
        | error e => rw [hrun] at hmiddleTail; exact hmiddleTail
        | ok result => rw [hrun] at hmiddleTail; exact hmiddleTail.1
      cases hrun : next.writeAll junk items with
      | error e =>
        rw [hrun] at hall
        simp only [hrun]
        exact hall
      | ok result =>
        rw [hrun] at htail hall
        simp only [hrun]
        refine ⟨hall, ?_⟩
        rw [positionsFrom, htail.2, hposition]

theorem readAll_of_ahead (items : List Item) {s : ReadStream}
    (hs : s.Ahead (items.flatMap Item.bytes)) :
    s.readAll (items.map Item.kind) = some (items.zip (positionsFrom s.position items)) := by
  induction items generalizing s with
  | nil => rfl
  | cons item items ih =>
    rw [List.flatMap_cons] at hs
    have hitem := readItem_of_ahead item hs.left
    have htail := ih hs.right
    simp only [List.map_cons, ReadStream.readAll, hitem, htail, Option.map_some, positionsFrom,
      List.zip_cons_cons]
    rfl

/-- Filing out the items into a fresh stream succeeds, and filing in the same
types from the start of the buffer gives back the same items and, after each of
them, the position the writer was at. -/
def RoundTrips (junk : Nat → Nat → UChar) (initialSize : Nat) (items : List Item) : Prop :=
  ∃ last positions,
    (WriteStream.create junk initialSize).writeAll junk items = .ok (last, positions) ∧
    positions.length = items.length ∧ last.position = positions.getLastD 0 ∧
    ReadStream.readAll ⟨last.buffer, 0⟩ (items.map Item.kind) = some (items.zip positions)

/-- Whatever the writer files out is filed in again. -/
theorem roundTrips_of_ok (junk : Nat → Nat → UChar) {initialSize : Nat} (hsize : 1 ≤ initialSize)
    (hint : initialSize < 2 ^ 31) {items : List Item} {last : WriteStream} {positions : List Nat}
    (hok : (WriteStream.create junk initialSize).writeAll junk items = .ok (last, positions)) :
    RoundTrips junk initialSize items := by
  have hstart := WriteStream.create_inv junk hsize hint
  have hall := writeAll_appends junk items hstart
  rw [hok] at hall
  obtain ⟨happ, hpositions⟩ := hall
  have hposition := happ.position hstart
  obtain ⟨-, hcontents, -⟩ := happ
  have hnil : (WriteStream.create junk initialSize).contents = [] := rfl
  have hzero : (WriteStream.create junk initialSize).position = 0 := rfl
  rw [hnil, List.nil_append] at hcontents
  rw [hzero] at hpositions hposition
  have hahead : ReadStream.Ahead ⟨last.buffer, 0⟩ (items.flatMap Item.bytes) := by
    rw [← hcontents]
    exact List.take_prefix _ _
  refine ⟨last, positions, hok, ?_, ?_, ?_⟩
  · rw [hpositions, positionsFrom_length]
  · rw [hpositions, positionsFrom_getLastD, hposition]
  · rw [hpositions]
    exact readAll_of_ahead items hahead

/-- The writer gets through exactly when its buffer can be doubled to the length of the code. -/
theorem writeAll_ok_iff (junk : Nat → Nat → UChar) {initialSize : Nat} (hsize : 1 ≤ initialSize)
    (hint : initialSize < 2 ^ 31) (items : List Item) :
    (∃ result, (WriteStream.create junk initialSize).writeAll junk items = .ok result) ↔
      ∃ k, (items.flatMap Item.bytes).length ≤ initialSize * 2 ^ k ∧
        initialSize * 2 ^ k < 2 ^ 31 := by
  have hstart := WriteStream.create_inv junk hsize hint
  have hall := writeAll_appends junk items hstart
  have hzero : (WriteStream.create junk initialSize).position = 0 := rfl
  cases hrun : (WriteStream.create junk initialSize).writeAll junk items with
  | error e =>
    rw [hrun] at hall
    rw [hzero, Nat.zero_add] at hall
    exact iff_of_false (by simp) hall
  | ok result =>
    rw [hrun] at hall
    have hposition := hall.1.position hstart
    obtain ⟨⟨hinv, -, k, hlast⟩, -⟩ := hall
    have hbound := hinv.position_le
    have hlt := hinv.size_lt
    rw [hzero, Nat.zero_add] at hposition
    have hcreated : (WriteStream.create junk initialSize).size = initialSize := rfl
    rw [hcreated] at hlast
    exact iff_of_true ⟨result, rfl⟩ ⟨k, by omega, by omega⟩

/-- Items written into a stream of any positive initial size come back exactly
when some number of doublings of that size holds their code and is an `int`:
`grow` doubles `_size` without looking, and the size it asks for then is negative. -/
theorem readAll_writeAll_iff (junk : Nat → Nat → UChar) (initialSize : Nat)
    (hsize : 1 ≤ initialSize)
    (hint : initialSize < 2 ^ 31) (items : List Item) :
    RoundTrips junk initialSize items ↔
      ∃ k, (items.flatMap Item.bytes).length ≤ initialSize * 2 ^ k ∧
        initialSize * 2 ^ k < 2 ^ 31 := by
  rw [← writeAll_ok_iff junk hsize hint]
  constructor
  · rintro ⟨last, positions, hok, -⟩
    exact ⟨(last, positions), hok⟩
  · rintro ⟨result, hok⟩
    exact roundTrips_of_ok junk hsize hint hok

/-- A buffer of one byte has to grow for a five-byte code. -/
theorem readAll_writeAll_iff_grown :
    RoundTrips (fun _ _ => 0) 1 [.int 0xffffffff, .signedInt 5, .double 0x3ff0000000000000] ↔
      ∃ k, (List.flatMap Item.bytes
        [.int 0xffffffff, .signedInt 5, .double 0x3ff0000000000000]).length ≤ 1 * 2 ^ k ∧
        1 * 2 ^ k < 2 ^ 31 :=
  readAll_writeAll_iff _ 1 (by decide) (by decide) _

/-- Nothing holds a byte more than `2 ^ 30` when the buffer starts at that size. -/
theorem not_readAll_writeAll_doubled :
    ¬ RoundTrips (fun _ _ => 0) (2 ^ 30) (List.replicate (2 ^ 30 + 1) (.byte 0)) := by
  rintro ⟨last, positions, hok, -⟩
  obtain ⟨k, hroom, hint⟩ := (writeAll_ok_iff _ (by decide) (by decide) _).mp ⟨_, hok⟩
  have hlength (n : Nat) : (List.flatMap Item.bytes (List.replicate n (.byte 0))).length = n := by
    simp [Item.bytes]
  rw [hlength] at hroom
  have hk : 2 ^ k < 2 := by omega
  omega

end HotSpot.CompressedStream
