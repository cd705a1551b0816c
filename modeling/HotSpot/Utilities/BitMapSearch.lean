import Mathlib.Data.Nat.Find
import HotSpot.Utilities.BitMapBits

/-! # Searches in a bitmap

The searches, the iteration and the count go through the words of a bitmap; they agree
with going through its bits one by one.
-/

namespace HotSpot.BitMap

/-- The first index from `l` on that passes a test, or `r`. -/
def nextWhere (test : Nat → Bool) (l r : Nat) : Nat :=
  ((List.range' l (r - l)).find? test).getD r

theorem eq_nextWhere {test : Nat → Bool} {l r x : Nat} (hlx : l ≤ x) (hxr : x ≤ r)
    (htest : x < r → test x = true) (hbefore : ∀ j, l ≤ j → j < x → test j = false) :
    x = nextWhere test l r := by
  obtain ⟨n, rfl⟩ : ∃ n, r = l + n := ⟨r - l, by omega⟩
  rw [nextWhere, Nat.add_sub_cancel_left]
  induction n generalizing l with
  | zero =>
    simp only [List.range'_zero, List.find?_nil, Option.getD_none]
    omega
  | succ n ih =>
    rw [List.range'_succ, List.find?_cons]
    rcases Nat.eq_or_lt_of_le hlx with rfl | hlt
    · rw [htest (by omega)]
      rfl
    · rw [hbefore l (Nat.le_refl l) hlt]
      have := ih (l := l + 1) hlt (fun j hj => hbefore j (by omega)) (by omega)
        (fun h => htest (by omega))
      rw [this, show l + 1 + n = l + (n + 1) by omega]

/-! ## Within a word -/

theorem and_one_eq_zero_iff (w : BmWord) : w &&& 1#64 = 0#64 ↔ w.getLsbD 0 = false := by
  constructor
  · intro h
    have := congrArg (BitVec.getLsbD · 0) h
    simpa using this
  · intro h
    apply BitVec.eq_of_getLsbD_eq
    intro j hj
    rw [BitVec.getLsbD_and, BitVec.getLsbD_one, BitVec.getLsbD_zero]
    cases j with
    | zero => rw [h, Bool.false_and]
    | succ j => simp

theorem findOne_eq {fuel k : Nat} {res : BmWord} (hk : k < fuel) (hbit : res.getLsbD k = true)
    (hbefore : ∀ j < k, res.getLsbD j = false) (resOffset : Nat) :
    findOne fuel res resOffset = resOffset + k := by
  induction fuel generalizing k res resOffset with
  | zero => omega
  | succ fuel ih =>
    rw [findOne]
    cases k with
    | zero => rw [if_neg (by rw [and_one_eq_zero_iff, hbit]; decide), Nat.add_zero]
    | succ k =>
      rw [if_pos ((and_one_eq_zero_iff res).mpr (hbefore 0 (by omega))), ih (k := k) (by omega)]
      · omega
      · rw [BitVec.getLsbD_ushiftRight, Nat.add_comm]
        exact hbit
      · intro j hj
        rw [BitVec.getLsbD_ushiftRight, Nat.add_comm]
        exact hbefore (j + 1) (by omega)

theorem findZero_eq {fuel k : Nat} {res : BmWord} (hk : k < fuel) (hbit : res.getLsbD k = false)
    (hbefore : ∀ j < k, res.getLsbD j = true) (resOffset : Nat) :
    findZero fuel res resOffset = resOffset + k := by
  induction fuel generalizing k res resOffset with
  | zero => omega
  | succ fuel ih =>
    rw [findZero]
    cases k with
    | zero => rw [if_pos ((and_one_eq_zero_iff res).mpr hbit), Nat.add_zero]
    | succ k =>
      rw [if_neg (by rw [and_one_eq_zero_iff, hbefore 0 (by omega)]; decide),
        ih (k := k) (by omega)]
      · omega
      · rw [BitVec.getLsbD_ushiftRight, Nat.add_comm]
        exact hbit
      · intro j hj
        rw [BitVec.getLsbD_ushiftRight, Nat.add_comm]
        exact hbefore (j + 1) (by omega)

/-- What the searches for ones and for zeros share: `find` finds the first bit of the value
`value` in a word, which there is unless the word is `run`. -/
structure Finds (value : Bool) (run : BmWord) (find : Nat → BmWord → Nat → Nat) : Prop where
  run : ∀ j < 64, run.getLsbD j = !value
  find : ∀ {k : Nat} {res : BmWord}, k < 64 → res.getLsbD k = value →
    (∀ j < k, res.getLsbD j = !value) → ∀ resOffset, find 64 res resOffset = resOffset + k

theorem findsOne : Finds true noBits findOne where
  run _ _ := BitVec.getLsbD_zero
  find := findOne_eq

theorem findsZero : Finds false allBits findZero where
  run := by decide
  find := findZero_eq

namespace Finds

variable {value : Bool} {run : BmWord} {find : Nat → BmWord → Nat → Nat} {b : BitMap}

/-- A word other than `run` has a first bit of the value. -/
theorem exists_first (h : Finds value run find) {res : BmWord} (hne : res ≠ run) :
    ∃ k < 64, res.getLsbD k = value ∧ ∀ j < k, res.getLsbD j = !value := by
  have hexists : ∃ k, k < 64 ∧ res.getLsbD k = value := by
    by_contra hnone
    apply hne
    apply BitVec.eq_of_getLsbD_eq
    intro j hj
    rw [h.run j hj]
    have := fun hbit => hnone ⟨j, hj, hbit⟩
    cases hres : res.getLsbD j <;> cases value <;> simp_all
  classical
  refine ⟨Nat.find hexists, (Nat.find_spec hexists).1, (Nat.find_spec hexists).2, ?_⟩
  intro j hj
  have hmin := Nat.find_min hexists hj
  have hlt : j < 64 := lt_trans hj (Nat.find_spec hexists).1
  cases hres : res.getLsbD j <;> cases value <;> simp_all

/-- The search over whole words. -/
theorem findWord_spec (h : Finds value run find) (index count rOffset : Nat)
    (hr : rOffset ≤ (index + count) * 64) :
    let x := b.findWord run find rOffset index count
    x ≤ rOffset ∧ (index * 64 ≤ x ∨ x = rOffset) ∧ (x < rOffset → b.bit x = value) ∧
      ∀ j, index * 64 ≤ j → j < x → b.bit j = !value := by
  induction count generalizing index with
  | zero =>
    simp only [findWord]
    exact ⟨le_rfl, .inr trivial, by omega, by omega⟩
  | succ count ih =>
    rw [findWord]
    split
    next hne =>
      obtain ⟨k, hk, hbit, hbefore⟩ := h.exists_first hne
      rw [bitIndex_eq, show bitsPerWord = 64 from rfl, h.find hk hbit hbefore]
      dsimp only
      refine ⟨by omega, by omega, ?_, ?_⟩
      · intro hlt
        rw [show min (index * 64 + k) rOffset = index * 64 + k by omega, bit,
          show (index * 64 + k) / 64 = index by omega, show (index * 64 + k) % 64 = k by omega]
        exact hbit
      · intro j hle hlt
        rw [bit, show j / 64 = index by omega]
        exact hbefore _ (by omega)
    next heq =>
      obtain ⟨hle, hge, hvalue, hbefore⟩ := ih (index + 1) (by omega)
      refine ⟨hle, by omega, hvalue, ?_⟩
      intro j hj hlt
      by_cases hnext : (index + 1) * 64 ≤ j
      · exact hbefore j hnext hlt
      · rw [bit, show j / 64 = index by omega, not_not.mp heq]
        exact h.run _ (Nat.mod_lt _ (by decide))

/-- The search from an offset on, where `res` are the bits of its word from there on. -/
theorem next_eq (h : Finds value run find) {lOffset rOffset : Nat} {res : BmWord}
    (hlt : lOffset < rOffset)
    (hres : ∀ k < 64, res.getLsbD k =
      if k < 64 - lOffset % 64 then b.bit (lOffset + k) else !value) :
    (if res ≠ run then min (find bitsPerWord res lOffset) rOffset
      else b.findWord run find rOffset (lOffset / 64 + 1)
        ((rOffset - 1) / 64 + 1 - (lOffset / 64 + 1))) =
      nextWhere (fun i => b.bit i == value) lOffset rOffset := by
  split
  next hne =>
    obtain ⟨k, hk, hbit, hbefore⟩ := h.exists_first hne
    have hword : k < 64 - lOffset % 64 := by
      by_contra hge
      rw [hres k hk, if_neg hge] at hbit
      cases value <;> simp at hbit
    rw [show bitsPerWord = 64 from rfl, h.find hk hbit hbefore]
    apply eq_nextWhere (by omega) (by omega)
    · intro hmin
      rw [hres k hk, if_pos hword] at hbit
      rw [show min (lOffset + k) rOffset = lOffset + k by omega, hbit]
      simp
    · intro j hle hj
      have hclear := hbefore (j - lOffset) (by omega)
      rw [hres _ (by omega), if_pos (by omega), show lOffset + (j - lOffset) = j by omega] at hclear
      rw [hclear]
      cases value <;> rfl
  next heq =>
    have hrest : ∀ j, lOffset ≤ j → j < (lOffset / 64 + 1) * 64 → b.bit j = !value := by
      intro j hle hj
      have hclear := h.run (j - lOffset) (by omega)
      rw [← not_not.mp heq, hres _ (by omega), if_pos (by omega),
        show lOffset + (j - lOffset) = j by omega] at hclear
      exact hclear
    obtain ⟨hle, hge, hvalue, hbefore⟩ := h.findWord_spec (b := b) (lOffset / 64 + 1)
      ((rOffset - 1) / 64 + 1 - (lOffset / 64 + 1)) rOffset (by omega)
    apply eq_nextWhere (by omega) hle
    · intro hx
      rw [hvalue hx]
      simp
    · intro j hlo hj
      have hclear : b.bit j = !value := by
        by_cases hnext : (lOffset / 64 + 1) * 64 ≤ j
        · exact hbefore j hnext hj
        · exact hrest j hlo (by omega)
      rw [hclear]
      cases value <;> rfl

end Finds

theorem nextWhere_self (test : Nat → Bool) (l : Nat) : nextWhere test l l = l := by
  simp [nextWhere]

/-- The bits of a word from an offset on. -/
theorem getLsbD_word_shift (b : BitMap) (offset k : Nat) :
    (b.word (offset / 64) >>> (offset % 64)).getLsbD k =
      if k < 64 - offset % 64 then b.bit (offset + k) else false := by
  rw [BitVec.getLsbD_ushiftRight]
  split
  next hk =>
    rw [bit, show (offset + k) / 64 = offset / 64 by omega,
      show (offset + k) % 64 = offset % 64 + k by omega]
  next hk => exact BitVec.getLsbD_of_ge _ _ (by omega)

theorem getNextOneOffset_eq (b : BitMap) {lOffset rOffset : Nat} (hle : lOffset ≤ rOffset) :
    b.getNextOneOffset lOffset rOffset = nextWhere b.bit lOffset rOffset := by
  rw [getNextOneOffset]
  split
  next heq => rw [heq, nextWhere_self]
  next hne =>
    simp only [wordIndex_eq, bitInWord_eq]
    rw [findsOne.next_eq (by omega) fun k _ => b.getLsbD_word_shift lOffset k]
    simp

theorem findWordAligned_eq (b : BitMap) {rOffset : Nat} (index count : Nat)
    (hr : (index + count) * 64 ≤ rOffset) :
    b.findWordAligned rOffset index count = b.findWord noBits findOne rOffset index count := by
  induction count generalizing index with
  | zero => rfl
  | succ count ih =>
    rw [findWordAligned, findWord]
    split
    next hne =>
      obtain ⟨k, hk, hbit, hbefore⟩ := findsOne.exists_first hne
      rw [bitIndex_eq, show bitsPerWord = 64 from rfl, findsOne.find hk hbit hbefore,
        min_eq_left (by omega)]
    next heq => exact ih (index + 1) (by omega)

/-- At the end of a word the search needs no minimum. -/
theorem getNextOneOffsetAlignedRight_eq (b : BitMap) {lOffset rOffset : Nat}
    (hle : lOffset ≤ rOffset) (haligned : rOffset % 64 = 0) :
    b.getNextOneOffsetAlignedRight lOffset rOffset = nextWhere b.bit lOffset rOffset := by
  rw [← getNextOneOffset_eq b hle, getNextOneOffsetAlignedRight, getNextOneOffset]
  split
  next => rfl
  next hne =>
    simp only [wordIndex_eq, bitInWord_eq]
    rw [show (rOffset - 1) / 64 + 1 = rOffset / 64 by omega]
    split
    next hres =>
      obtain ⟨k, hk, hbit, hbefore⟩ := findsOne.exists_first hres
      rw [b.getLsbD_word_shift] at hbit
      have hword : k < 64 - lOffset % 64 := by
        by_contra hge
        rw [if_neg hge] at hbit
        cases hbit
      rw [show bitsPerWord = 64 from rfl, findsOne.find hk (by rwa [b.getLsbD_word_shift]) hbefore,
        min_eq_left (by omega)]
    next => exact b.findWordAligned_eq _ _ (by omega)

theorem getLsbD_rightNBits {n j : Nat} (hn : n < 64) :
    (rightNBits n).getLsbD j = decide (j < n) := by
  rw [rightNBits, nthBit, if_neg (by simp only [bitsPerWord]; omega), getLsbD_low hn]

theorem getLsbD_leftNBits {n j : Nat} (hn : n < 64) (hj : j < 64) :
    (leftNBits n).getLsbD j = decide (64 - n ≤ j) := by
  rw [leftNBits, if_neg (by simp only [bitsPerWord]; omega), BitVec.getLsbD_shiftLeft,
    getLsbD_rightNBits hn]
  simp only [bitsPerWord, hj, decide_true, Bool.true_and]
  by_cases hge : 64 - n ≤ j
  · simp [hge, show j - (64 - n) < n by omega, show ¬ j < 64 - n by omega]
  · simp [hge, show j < 64 - n by omega]

theorem getNextZeroOffset_eq (b : BitMap) {lOffset rOffset : Nat} (hle : lOffset ≤ rOffset) :
    b.getNextZeroOffset lOffset rOffset = nextWhere (fun i => !b.bit i) lOffset rOffset := by
  rw [getNextZeroOffset]
  split
  next heq => rw [heq, nextWhere_self]
  next hne =>
    have hpos : lOffset % 64 < 64 := Nat.mod_lt _ (by decide)
    simp only [wordIndex_eq, bitInWord_eq]
    rw [findsZero.next_eq (b := b) (by omega)]
    · simp
    · intro k hk
      rw [BitVec.getLsbD_or, getLsbD_word_shift, getLsbD_leftNBits hpos hk]
      split
      next hin => simp [show ¬ 64 - lOffset % 64 ≤ k by omega]
      next hout => simp [show 64 - lOffset % 64 ≤ k by omega]

/-! ## Full and empty maps -/

theorem eq_whole_iff {value : Bool} {whole w : BmWord}
    (hwhole : ∀ j < 64, whole.getLsbD j = value) :
    w = whole ↔ ∀ j < 64, w.getLsbD j = value := by
  constructor
  · rintro rfl
    exact hwhole
  · intro h
    apply BitVec.eq_of_getLsbD_eq
    intro j hj
    rw [h j hj, hwhole j hj]

/-- A map all of whose words pass has its bits of one value. -/
theorem testWords_iff (b : BitMap) (value : Bool) {whole : BmWord}
    {last : BmWord → Nat → BmWord} (hwhole : ∀ j < 64, whole.getLsbD j = value)
    (hlast : ∀ w rest j, rest < 64 → j < 64 →
      (last w rest).getLsbD j = if j < rest then w.getLsbD j else value) (index rest : Nat) :
    b.testWords whole last index rest = true ↔
      ∀ i, index * 64 ≤ i → i < index * 64 + rest → b.bit i = value := by
  rw [testWords]
  split
  next hge =>
    rw [bitsPerWord] at hge
    split
    next hne =>
      simp only [Bool.false_eq_true, false_iff]
      intro hall
      apply hne
      rw [eq_whole_iff hwhole]
      intro j hj
      have := hall (index * 64 + j) (by omega) (by omega)
      rwa [bit, show (index * 64 + j) / 64 = index by omega,
        show (index * 64 + j) % 64 = j by omega] at this
    next heq =>
      have hword := (eq_whole_iff hwhole).mp (not_not.mp heq)
      rw [testWords_iff b value hwhole hlast (index + 1) (rest - bitsPerWord), bitsPerWord]
      constructor
      · intro hall i hlo hhi
        by_cases hnext : (index + 1) * 64 ≤ i
        · exact hall i hnext (by omega)
        · rw [bit, show i / 64 = index by omega]
          exact hword _ (Nat.mod_lt _ (by decide))
      · intro hall i hlo hhi
        exact hall i (by omega) (by omega)
  next hlt =>
    rw [bitsPerWord, Nat.not_le] at hlt
    rw [Bool.or_eq_true, decide_eq_true_iff, beq_iff_eq, eq_whole_iff hwhole]
    constructor
    · rintro (rfl | hall) i hlo hhi
      · omega
      · have := hall (i % 64) (Nat.mod_lt _ (by decide))
        rw [hlast _ _ _ hlt (Nat.mod_lt _ (by decide)), if_pos (by omega)] at this
        rw [bit, show i / 64 = index by omega]
        exact this
    · intro hall
      right
      intro j hj
      rw [hlast _ _ _ hlt hj]
      split
      next hjr =>
        have := hall (index * 64 + j) (by omega) (by omega)
        rwa [bit, show (index * 64 + j) / 64 = index by omega,
          show (index * 64 + j) % 64 = j by omega] at this
      next => rfl
termination_by rest
decreasing_by simp only [bitsPerWord] at *; omega

theorem isFull_iff (b : BitMap) : b.isFull = true ↔ ∀ i < b.size, b.bit i = true := by
  rw [isFull, b.testWords_iff true (by decide)]
  · simp
  · intro w rest j hrest hj
    rw [BitVec.getLsbD_or, BitVec.getLsbD_not, getLsbD_rightNBits hrest]
    split
    next hlt => simp [hlt]
    next hge => simp [hge, hj]

theorem isEmpty_iff (b : BitMap) : b.isEmpty = true ↔ ∀ i < b.size, b.bit i = false := by
  rw [isEmpty, b.testWords_iff false (by decide)]
  · simp
  · intro w rest j hrest hj
    rw [BitVec.getLsbD_and, getLsbD_rightNBits hrest]
    split
    next hlt => simp [hlt]
    next hge => simp [hge]

/-! ## Iteration -/

section Iterate

variable {σ : Type} (doBit : σ → Nat → Bool × σ)

/-- Applies a closure to indices in order, until it returns false. -/
def iterateList : List Nat → σ → Bool × σ
  | [], s => (true, s)
  | i :: rest, s =>
    let (more, s) := doBit s i
    if more then iterateList rest s else (false, s)

theorem iterateList_append (l l' : List Nat) (s : σ) :
    iterateList doBit (l ++ l') s =
      if (iterateList doBit l s).1 then iterateList doBit l' (iterateList doBit l s).2
      else (false, (iterateList doBit l s).2) := by
  induction l generalizing s with
  | nil => rfl
  | cons i l ih =>
    rw [List.cons_append, iterateList, iterateList]
    dsimp only
    split
    next => exact ih _
    next => rfl

/-- The set indices of a range, in order. -/
def setIndices (b : BitMap) (l r : Nat) : List Nat := (List.range' l (r - l)).filter (b.bit ·)

theorem setIndices_of_le (b : BitMap) {l r : Nat} (h : r ≤ l) : b.setIndices l r = [] := by
  rw [setIndices, Nat.sub_eq_zero_of_le h]
  rfl

theorem setIndices_of_lt (b : BitMap) {l r : Nat} (h : l < r) :
    b.setIndices l r =
      if b.bit l then l :: b.setIndices (l + 1) r else b.setIndices (l + 1) r := by
  rw [setIndices, show r - l = (r - (l + 1)) + 1 by omega, List.range'_succ, List.filter_cons]
  rfl

theorem setIndices_append (b : BitMap) {l m r : Nat} (hlm : l ≤ m) (hmr : m ≤ r) :
    b.setIndices l m ++ b.setIndices m r = b.setIndices l r := by
  rw [setIndices, setIndices, setIndices, ← List.filter_append]
  congr 1
  have hrange := List.range'_append_1 (s := l) (m := m - l) (n := r - m)
  rwa [show l + (m - l) = m by omega, show m - l + (r - m) = r - l by omega] at hrange

theorem setIndices_eq_nil (b : BitMap) {l r : Nat}
    (h : ∀ i, l ≤ i → i < r → b.bit i = false) : b.setIndices l r = [] := by
  rw [setIndices, List.filter_eq_nil_iff]
  intro i hi
  rw [List.mem_range'_1] at hi
  simp [h i hi.1 (by omega)]

/-- The inner loop goes through the rest of a word; `rest` are its bits from `offset` on. -/
theorem iterateWord_eq (b : BitMap) {index offset count : Nat} {rest : BmWord}
    (hoffset : index * 64 ≤ offset)
    (hrest : ∀ k, rest.getLsbD k =
      if offset + k < (index + 1) * 64 then b.bit (offset + k) else false) (s : σ) :
    b.iterateWord doBit index count rest offset s =
      iterateList doBit (b.setIndices offset (min (offset + count) ((index + 1) * 64))) s := by
  induction count generalizing offset rest s with
  | zero =>
    rw [iterateWord, setIndices_of_le _ (by omega)]
    rfl
  | succ count ih =>
    rw [iterateWord]
    split
    next hzero =>
      rw [setIndices_eq_nil]
      · rfl
      · intro i hlo hhi
        have := hrest (i - offset)
        rw [hzero, if_pos (by omega), show offset + (i - offset) = i by omega] at this
        rw [← this]
        exact BitVec.getLsbD_zero
    next hne =>
      have hlt : offset < (index + 1) * 64 := by
        by_contra hge
        apply hne
        apply BitVec.eq_of_getLsbD_eq
        intro k _
        rw [hrest, if_neg (by omega)]
        exact BitVec.getLsbD_zero.symm
      have hlow := hrest 0
      rw [Nat.add_zero, if_pos hlt] at hlow
      rw [setIndices_of_lt _ (by omega)]
      split
      next hclear =>
        rw [and_one_eq_zero_iff, hlow] at hclear
        rw [if_neg (by simp [hclear]), ih (by omega)]
        · rw [show offset + 1 + count = offset + (count + 1) by omega]
        · intro k
          rw [BitVec.getLsbD_ushiftRight, hrest, show offset + (1 + k) = offset + 1 + k by omega]
      next hset =>
        rw [and_one_eq_zero_iff, hlow] at hset
        rw [if_pos (by simpa using hset), iterateList]
        dsimp only
        split
        next =>
          rw [ih (by omega)]
          · rw [show offset + 1 + count = offset + (count + 1) by omega]
          · intro k
            have hword : offset / 64 = index := by omega
            rw [BitVec.getLsbD_ushiftRight, bitInWord_eq, ← hword, getLsbD_word_shift,
              show offset + (1 + k) = offset + 1 + k by omega]
            split_ifs <;> first | rfl | omega
        next => rfl

theorem iterateWords_eq (b : BitMap) {rightOffset index offset count : Nat}
    (hoffset : offset / 64 = index) (s : σ) :
    b.iterateWords doBit rightOffset index count offset s =
      iterateList doBit (b.setIndices offset (min rightOffset ((index + count) * 64))) s := by
  induction count generalizing index offset s with
  | zero =>
    rw [iterateWords, setIndices_of_le _ (by omega)]
    rfl
  | succ count ih =>
    rw [iterateWords]
    split
    next hlt =>
      have hrest : ∀ k, (b.word index >>> bitInWord offset).getLsbD k =
          if offset + k < (index + 1) * 64 then b.bit (offset + k) else false := by
        intro k
        rw [← hoffset, bitInWord_eq, getLsbD_word_shift]
        split_ifs <;> first | rfl | omega
      have hword : b.iterateWord doBit index (rightOffset - offset) _ offset s = _ :=
        b.iterateWord_eq doBit (by omega) hrest s
      dsimp only
      rw [hword, bitIndex_eq, ih (by omega),
        show offset + (rightOffset - offset) = rightOffset by omega]
      have happend : b.setIndices offset (min rightOffset ((index + (count + 1)) * 64)) =
          b.setIndices offset (min rightOffset ((index + 1) * 64)) ++
            b.setIndices ((index + 1) * 64) (min rightOffset ((index + 1 + count) * 64)) := by
        rw [show index + (count + 1) = index + 1 + count by omega]
        by_cases hright : (index + 1) * 64 ≤ rightOffset
        · rw [show min rightOffset ((index + 1) * 64) = (index + 1) * 64 by omega,
            setIndices_append _ (by omega) (by omega)]
        · rw [setIndices_of_le b (l := (index + 1) * 64) (by omega), List.append_nil]
          congr 1
          omega
      rw [happend, iterateList_append]
    next hge =>
      rw [setIndices_of_le _ (by omega)]
      rfl

theorem iterate_eq (b : BitMap) {leftOffset rightOffset : Nat} (hle : leftOffset ≤ rightOffset)
    (hsize : rightOffset ≤ b.size) (s : σ) :
    b.iterate doBit leftOffset rightOffset s =
      iterateList doBit (b.setIndices leftOffset rightOffset) s := by
  rw [iterate, wordIndex_eq, wordIndex_eq, b.iterateWords_eq doBit rfl, sizeInWords_eq]
  congr 2
  omega

end Iterate

/-! ## Counting -/

/-- The number of set bits among the first `n` of a word. -/
def countBits (n : Nat) (w : BmWord) : Nat := (List.range n).countP (w.getLsbD ·)

theorem countBits_add (m n : Nat) (w : BmWord) :
    countBits (m + n) w = countBits m w + countBits n (w >>> m) := by
  rw [countBits, List.range_add, List.countP_append, List.countP_map, countBits, countBits]
  congr 2
  funext k
  simp [BitVec.getLsbD_ushiftRight]

theorem countBits_le (n : Nat) (w : BmWord) : countBits n w ≤ n := by
  have := List.countP_le_length (p := (w.getLsbD ·)) (l := List.range n)
  rwa [List.length_range] at this

theorem countBits_congr {n : Nat} {v w : BmWord} (h : ∀ k < n, v.getLsbD k = w.getLsbD k) :
    countBits n v = countBits n w := by
  rw [countBits, countBits]
  apply List.countP_congr
  intro k hk
  rw [h k (List.mem_range.mp hk)]

/-- The lowest bit and the others. -/
theorem countBits_step (w : BmWord) :
    countBits 64 w = (w.getLsbD 0).toNat + countBits 64 (w >>> 1) := by
  have hlow : countBits 1 w = (w.getLsbD 0).toNat := by
    rw [countBits, List.range_one, List.countP_singleton]
    cases w.getLsbD 0 <;> rfl
  have htop : countBits 64 (w >>> 1) = countBits 63 (w >>> 1) := by
    rw [countBits_add 63 1]
    simp [countBits, List.range_succ]
  rw [htop, ← hlow, ← countBits_add 1 63]

/-- The loop over zeros stops at the first set bit and does not lose any. -/
theorem skipZeroBits_spec {fuel k : Nat} {w : BmWord} (hk : k < fuel) (hbit : w.getLsbD k = true)
    (hbefore : ∀ j < k, w.getLsbD j = false) :
    (skipZeroBits fuel w).getLsbD 0 = true ∧
      countBits 64 (skipZeroBits fuel w) = countBits 64 w := by
  induction fuel generalizing k w with
  | zero => omega
  | succ fuel ih =>
    rw [skipZeroBits]
    cases k with
    | zero =>
      rw [if_neg (by rw [and_one_eq_zero_iff, hbit]; decide)]
      exact ⟨hbit, rfl⟩
    | succ k =>
      have hlow := hbefore 0 (by omega)
      rw [if_pos ((and_one_eq_zero_iff w).mpr hlow)]
      obtain ⟨hset, hcount⟩ := ih (k := k) (w := w >>> 1) (by omega)
        (by rw [BitVec.getLsbD_ushiftRight, Nat.add_comm]; exact hbit)
        (fun j hj => by
          rw [BitVec.getLsbD_ushiftRight, Nat.add_comm]
          exact hbefore (j + 1) (by omega))
      refine ⟨hset, ?_⟩
      rw [hcount, countBits_step w, hlow, Bool.toNat_false, Nat.zero_add]

theorem numSetBitsLoop_eq {fuel : Nat} {w : BmWord} (hfuel : countBits 64 w ≤ fuel) (bits : Nat) :
    numSetBitsLoop fuel w bits = bits + countBits 64 w := by
  induction fuel generalizing w bits with
  | zero =>
    rw [numSetBitsLoop]
    omega
  | succ fuel ih =>
    rw [numSetBitsLoop]
    split
    next hzero => simp [hzero, countBits]
    next hne =>
      obtain ⟨k, hk, hbit, hbefore⟩ := findsOne.exists_first hne
      obtain ⟨hset, hcount⟩ := skipZeroBits_spec hk hbit hbefore
      have hstep := countBits_step (skipZeroBits 64 w)
      rw [hset, hcount, Bool.toNat_true] at hstep
      rw [show bitsPerWord = 64 from rfl, ih (by omega)]
      omega

theorem numSetBits_eq (w : BmWord) : numSetBits w = countBits 64 w := by
  rw [numSetBits, show bitsPerWord = 64 from rfl, numSetBitsLoop_eq (countBits_le 64 w),
    Nat.zero_add]

theorem numSetBitsFromTable_eq (w : BmWord) :
    numSetBitsFromTable ((w &&& 255#64).setWidth 8) = countBits 8 w := by
  have hbyte : ∀ k, (w &&& 255#64).getLsbD k = if k < 8 then w.getLsbD k else false := by
    intro k
    rw [BitVec.getLsbD_and, show 255#64 = rightNBits 8 by decide, getLsbD_rightNBits (by decide)]
    split
    next hk => simp [hk]
    next hk => simp [hk]
  have hlow : countBits 8 (w &&& 255#64) = countBits 8 w := by
    apply countBits_congr
    intro k hk
    rw [hbyte, if_pos hk]
  have hhigh : countBits 56 ((w &&& 255#64) >>> 8) = 0 := by
    rw [countBits, List.countP_eq_zero]
    intro k _
    rw [BitVec.getLsbD_ushiftRight, hbyte, if_neg (by omega)]
    decide
  have hcount := countBits_add 8 56 (w &&& 255#64)
  rw [hlow, hhigh, Nat.add_zero, ← numSetBits_eq] at hcount
  -- the table is read at the value of the byte
  have hval : ((w &&& 255#64).setWidth 8).toNat = (w &&& 255#64).toNat := by
    rw [BitVec.toNat_setWidth, BitVec.toNat_and, show (255#64).toNat = 2 ^ 8 - 1 from rfl,
      Nat.and_two_pow_sub_one_eq_mod, Nat.mod_mod]
  have hlt : (w &&& 255#64).toNat < popCountTable.size := by
    rw [← hval, popCountTable, Array.size_ofFn]
    exact BitVec.isLt _
  rw [numSetBitsFromTable, hval, Array.getD_eq_getD_getElem?, Array.getElem?_eq_getElem hlt,
    Option.getD_some]
  simp only [popCountTable, Array.getElem_ofFn, BitVec.ofNat_toNat, BitVec.setWidth_eq]
  exact hcount

theorem countBytes_eq (count : Nat) (w : BmWord) (sum : Nat) :
    countBytes count w sum = sum + countBits (8 * count) w := by
  induction count generalizing w sum with
  | zero => rfl
  | succ count ih =>
    rw [countBytes, ih, numSetBitsFromTable_eq, Nat.mul_add, Nat.mul_one, Nat.add_comm (8 * count),
      countBits_add]
    omega

theorem length_setIndices_word (b : BitMap) (index : Nat) :
    (b.setIndices (index * 64) ((index + 1) * 64)).length = countBits 64 (b.word index) := by
  rw [setIndices, ← List.countP_eq_length_filter, show (index + 1) * 64 - index * 64 = 64 by omega,
    List.range'_eq_map_range, List.countP_map, countBits]
  apply List.countP_congr
  intro k hk
  rw [List.mem_range] at hk
  simp only [Function.comp, bit]
  rw [show (index * 64 + k) / 64 = index by omega, show (index * 64 + k) % 64 = k by omega]

theorem countWords_eq (b : BitMap) (index count sum : Nat) :
    countWords b index count sum =
      sum + (b.setIndices (index * 64) ((index + count) * 64)).length := by
  induction count generalizing index sum with
  | zero =>
    rw [countWords, setIndices_of_le _ (by omega)]
    rfl
  | succ count ih =>
    rw [countWords, countBytes_eq, ih, ← setIndices_append b (l := index * 64)
      (m := (index + 1) * 64) (by omega) (by omega), List.length_append, length_setIndices_word,
      show index + 1 + count = index + (count + 1) by omega, show 8 * 8 = 64 from rfl]
    omega

theorem countOneBits_eq {b : BitMap} (h : b.WellFormed) :
    b.countOneBits = (b.setIndices 0 b.size).length := by
  have hsize := b.sizeInWords_eq
  rw [countOneBits, countWords_eq, Nat.zero_add, Nat.zero_mul, Nat.zero_add,
    ← setIndices_append b (l := 0) (m := b.size) (by omega) (by omega),
    setIndices_eq_nil b fun i hi _ => h.clear i hi, List.append_nil]

end HotSpot.BitMap
