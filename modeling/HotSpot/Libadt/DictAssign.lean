import HotSpot.Libadt.DictRefines

/-! # Assignment and equality of dictionaries

Assignment counts the pairs of the source, and counts them again as it inserts them; it goes through
as many buckets as the target has. Equality compares the buckets of both tables.
-/

namespace HotSpot.Dict

variable {K V : Type} (ops : KeyOps K)

/-! ## Assignment -/

/-- The pairs of a bucket of the source, with those left. -/
def insertPairs (b : Bucket K V) : Nat → Nat → Dict K V → Option (Dict K V)
  | 0, _, d => some d
  | left + 1, j, d => do
      let keyval ← b.read j
      let (_, d) ← d.insert ops keyval.1 keyval.2 true
      insertPairs b left (j + 1) d

/-- The loop over the buckets of the target, with those of the source that are left. There is
nothing to be read behind them. -/
def assignFrom (source : Dict K V) : Nat → Nat → Dict K V → Option (Dict K V)
  | 0, i, d => if i < d.size then none else some d
  | left + 1, i, d =>
    if i < d.size then do
      let d ← insertPairs ops (source.bin i) (source.bin i).cnt 0 d
      assignFrom source left (i + 1) d
    else some d

/-- The target before the loop: as many buckets as the source at least, all empty. -/
def emptied (d source : Dict K V) : Dict K V :=
  let d := if d.size < source.size then
    { d with
      size := source.size
      bin := fun i => if i < d.size then d.bin i else .zero }
  else d
  { d.clear with cnt := source.cnt }

/-- `Dict::operator =`, of two different dictionaries -/
def assign (d source : Dict K V) : Option (Dict K V) :=
  assignFrom ops source source.size 0 (d.emptied source)

/-! ## Equality -/

/-- The pairs that `memcmp` compares. -/
def Bucket.pairs (b : Bucket K V) : Option (List (K × V)) := (List.range b.cnt).mapM b.read

section

variable [DecidableEq K] [DecidableEq V]

/-- The loop over the buckets, with those left. -/
def equalFrom (d d' : Dict K V) : Nat → Nat → Option Bool
  | 0, _ => some true
  | left + 1, i =>
    if d'.size ≤ i then none
    else if (d.bin i).cnt ≠ (d'.bin i).cnt then some false
    else do
      let pairs ← (d.bin i).pairs
      let pairs' ← (d'.bin i).pairs
      if pairs ≠ pairs' then some false else equalFrom d d' left (i + 1)

/-- `Dict::operator ==`, of dictionaries with the same functions -/
def equal (d d' : Dict K V) : Option Bool :=
  if d.cnt ≠ d'.cnt then some false else equalFrom d d' d.size 0

end

/-! ## Histories -/

/-- The dictionaries that operations and assignments lead to. -/
inductive Reached : Dict K V → Prop where
  | new (size : Nat) : Reached (.new size)
  | perform {d d' : Dict K V} {op : Operation K V} {prior : Option V} (h : Reached d)
      (hop : d.perform ops op = some (prior, d')) : Reached d'
  | assign {d d' source : Dict K V} (h : Reached d) (hsource : Reached source)
      (hassign : d.assign ops source = some d') : Reached d'

variable {ops} {d d' source : Dict K V} {L Ls : Nat → List (K × V)}

theorem Reached.run {l : List (Operation K V)} {priors : List (Option V)} (h : Reached ops d)
    (hrun : d.run ops l = some (priors, d')) : Reached ops d' := by
  induction l generalizing d priors with
  | nil =>
    obtain ⟨-, rfl⟩ := Prod.mk.inj (Option.some.inj hrun)
    exact h
  | cons op l ih =>
    unfold Dict.run at hrun
    simp only [Option.bind_eq_bind, Option.bind_eq_some_iff] at hrun
    obtain ⟨⟨prior, d₁⟩, hop, ⟨priors', d₂⟩, hrest, hend⟩ := hrun
    obtain ⟨-, rfl⟩ := Prod.mk.inj (Option.some.inj hend)
    exact ih (h.perform hop) hrest

/-! ## Buckets and counts -/

theorem Placed.insert (h : Placed ops d L) (key : K) (val : V) (replace : Bool) :
    ∃ prior d' L', d.insert ops key val replace = some (prior, d') ∧ Placed ops d' L' ∧
      d.cnt ≤ d'.cnt ∧ (L (d.binOf ops key) = [] → d'.cnt = d.cnt + 1) := by
  have hi := h.binOf_lt key
  have hholds := h.holds _ hi
  have hhome := h.home _ hi
  unfold Dict.insert
  rcases hholds.find ops key with ⟨front, keyval, back, hL, hkey, hfind⟩ | ⟨-, hfind⟩
  · simp only [hfind, Option.bind_eq_bind, Option.bind_some]
    cases replace with
    | false => exact ⟨_, d, L, rfl, h, Nat.le_refl _, fun hnil => by simp [hnil] at hL⟩
    | true =>
      rw [hL] at hholds hhome
      obtain ⟨b, hwrite, hb⟩ := hholds.write (key, val)
      refine ⟨_, _, _, by simp only [hwrite]; rfl, h.setBin hb fun other hother => ?_,
        Nat.le_refl _, fun hnil => by simp [hnil] at hL⟩
      rcases List.mem_append.mp hother with hother | hother
      · exact hhome other (List.mem_append_left _ hother)
      · rcases List.mem_cons.mp hother with rfl | hother
        · rfl
        · exact hhome other (List.mem_append_right _ (List.mem_cons_of_mem _ hother))
  · have hcounted : Placed ops { d with cnt := d.cnt + 1 } L := ⟨h.size, h.holds, h.home⟩
    obtain ⟨d', L', hgrown, hplaced, hcnt, -⟩ := hcounted.growIfFull
    obtain ⟨b, happend, hplaced'⟩ := hplaced.append key val
    refine ⟨none, d'.setBin (d'.binOf ops key) b, _, ?_, hplaced', ?_, fun _ => hcnt⟩
    · simp only [hfind, Option.bind_eq_bind, Option.bind_some, hgrown, happend]
      rfl
    · exact Nat.le_trans (Nat.le_succ _) (Nat.le_of_eq hcnt.symm)

theorem Placed.delete (h : Placed ops d L) (key : K) :
    ∃ prior d' L', d.delete ops key = some (prior, d') ∧ Placed ops d' L' := by
  have hi := h.binOf_lt key
  have hholds := h.holds _ hi
  have hhome := h.home _ hi
  unfold Dict.delete
  rcases hholds.find ops key with ⟨front, keyval, back, hL, -, hfind⟩ | ⟨-, hfind⟩
  · rw [hL] at hholds hhome
    obtain ⟨b, rest, hremove, hb, hperm, -⟩ := hholds.remove
    have hplaced := h.setBin (i := d.binOf ops key) hb fun other hother => hhome other <| by
      rcases List.mem_append.mp hother with hother | hother
      · exact List.mem_append_left _ hother
      · exact List.mem_append_right _ (List.mem_cons_of_mem _ (hperm.mem_iff.mp hother))
    refine ⟨some keyval.2, { d.setBin (d.binOf ops key) b with cnt := d.cnt - 1 }, _, ?_,
      ⟨hplaced.size, hplaced.holds, hplaced.home⟩⟩
    · simp only [hfind, Option.bind_eq_bind, Option.bind_some, hremove]
      rfl
  · refine ⟨none, d, L, ?_, h⟩
    simp only [hfind, Option.bind_eq_bind, Option.bind_some]
    rfl

theorem Placed.of_empty (hsize : ∃ p, d.size = 2 ^ p)
    (hholds : ∀ i < d.size, (d.bin i).Holds []) : Placed ops d fun _ => [] where
  size := hsize
  holds := hholds
  home _ _ _ hkeyval := absurd hkeyval List.not_mem_nil

theorem Placed.perform (h : Placed ops d L) (op : Operation K V) :
    ∃ prior d' L', d.perform ops op = some (prior, d') ∧ Placed ops d' L' := by
  cases op with
  | insert key val replace =>
    obtain ⟨prior, d', L', hinsert, hplaced, -⟩ := h.insert key val replace
    exact ⟨prior, d', L', hinsert, hplaced⟩
  | delete key => exact h.delete key
  | clear => exact ⟨_, _, _, rfl, .of_empty h.size fun i hi => (h.holds i hi).clear⟩
  | copy =>
    obtain ⟨d', hcopy, hplaced, -⟩ := h.copy
    refine ⟨none, d', L, ?_, hplaced⟩
    unfold Dict.perform
    simp only [hcopy]
    rfl

/-- The target as it is before the loop: it holds nothing, and has room for the source. -/
theorem Placed.emptied (h : Placed ops d L) (hsource : Placed ops source Ls) :
    Placed ops (d.emptied source) fun _ => [] := by
  unfold Dict.emptied
  split
  next =>
    refine .of_empty hsource.size fun i _ => ?_
    change Bucket.Holds { (if i < d.size then d.bin i else .zero) with cnt := 0 } []
    split
    next hi => exact (h.holds i hi).clear
    next => exact .null
  next => exact .of_empty h.size fun i hi => (h.holds i hi).clear

theorem emptied_size : (d.emptied source).size = max d.size source.size := by
  unfold Dict.emptied
  split
  next hlt => exact (Nat.max_eq_right (Nat.le_of_lt hlt)).symm
  next hge => exact (Nat.max_eq_left (Nat.le_of_not_lt hge)).symm

theorem Placed.insertPairs {b : Bucket K V} {before l : List (K × V)} (h : Placed ops d L)
    (hb : b.Holds (before ++ l)) :
    ∃ d' L', insertPairs ops b l.length before.length d = some d' ∧ Placed ops d' L' ∧
      d.cnt ≤ d'.cnt ∧ (l ≠ [] → (∀ i, L i = []) → d.cnt < d'.cnt) := by
  induction l generalizing before d L with
  | nil => exact ⟨d, L, rfl, h, Nat.le_refl _, fun hne => absurd rfl hne⟩
  | cons keyval l ih =>
    obtain ⟨prior, d₁, L₁, hinsert, h₁, hle, hnew⟩ := h.insert keyval.1 keyval.2 true
    obtain ⟨d', L', hrest, h', hle', -⟩ :=
      ih h₁ (show b.Holds ((before ++ [keyval]) ++ l) by simpa using hb)
    refine ⟨d', L', ?_, h', Nat.le_trans hle hle', fun _ hnil => ?_⟩
    · rw [List.length_append] at hrest
      unfold Dict.insertPairs
      simp only [List.length_cons, hb.read_append, Option.bind_eq_bind, Option.bind_some, hinsert]
      exact hrest
    · have hfirst := hnew (hnil _)
      omega

/-- The loop counts what it inserts on top of what the source counts. -/
theorem Placed.assignFrom (h : Placed ops d L) (hsource : Placed ops source Ls) {left i : Nat}
    (hi : i + left = source.size) (hrun : assignFrom ops source left i d = some d') :
    (∃ L', Placed ops d' L') ∧ d.cnt ≤ d'.cnt ∧
      (source.size ≤ d.size → (∀ j, L j = []) → (∃ k, i ≤ k ∧ k < source.size ∧ Ls k ≠ []) →
        d.cnt < d'.cnt) := by
  induction left generalizing i d L with
  | zero =>
    unfold Dict.assignFrom at hrun
    split at hrun
    next => cases hrun
    next =>
      obtain rfl := Option.some.inj hrun
      exact ⟨⟨L, h⟩, Nat.le_refl _, fun _ _ ⟨k, hik, hk, _⟩ => by omega⟩
  | succ left ih =>
    unfold Dict.assignFrom at hrun
    split at hrun
    next hlt =>
      have hholds := hsource.holds i (by omega)
      obtain ⟨d₁, L₁, hpairs, h₁, hle, hnew⟩ :=
        h.insertPairs ((List.nil_append (Ls i)).symm ▸ hholds)
      rw [hholds.cnt_eq] at hrun
      simp only [List.length_nil] at hpairs
      simp only [hpairs, Option.bind_eq_bind, Option.bind_some] at hrun
      obtain ⟨hplaced, hle', hlater⟩ := ih h₁ (by omega) hrun
      refine ⟨hplaced, Nat.le_trans hle hle', fun hsize hnil hk => ?_⟩
      cases hbucket : Ls i with
      | nil =>
        -- Nothing was inserted for this bucket.
        obtain ⟨k, hik, hk, hne⟩ := hk
        rw [hbucket] at hpairs
        obtain rfl := Option.some.inj hpairs
        have hki : i ≠ k := fun heq => hne (heq ▸ hbucket)
        have hcnt := (ih h (by omega) hrun).2.2 hsize hnil ⟨k, by omega, hk, hne⟩
        exact hcnt
      | cons keyval l =>
        have hfirst := hnew (by simp [hbucket]) hnil
        omega
    next hge =>
      obtain rfl := Option.some.inj hrun
      exact ⟨⟨L, h⟩, Nat.le_refl _, fun hsize _ ⟨k, hik, hk, _⟩ => by omega⟩

theorem Reached.placed (h : Reached ops d) : ∃ L, Placed ops d L := by
  induction h with
  | new size => exact ⟨_, (Layout.new ops size).toPlaced⟩
  | perform _ hop ih =>
    obtain ⟨L, hplaced⟩ := ih
    obtain ⟨_, d', L', hop', hplaced'⟩ := hplaced.perform _
    rw [hop] at hop'
    obtain ⟨-, rfl⟩ := Prod.mk.inj (Option.some.inj hop')
    exact ⟨L', hplaced'⟩
  | assign _ _ hassign ih ih' =>
    obtain ⟨L, hplaced⟩ := ih
    obtain ⟨Ls, hsource⟩ := ih'
    exact ((hplaced.emptied hsource).assignFrom hsource (Nat.zero_add _) hassign).1

/-! ## When they are the operations of the map -/

/-- No bucket has pairs. -/
def IsEmpty (d : Dict K V) : Prop := ∀ i < d.size, (d.bin i).cnt = 0

/-- The target gets the map of the source and its size. -/
def AssignCopies (ops : KeyOps K) (d source : Dict K V) : Prop :=
  ∃ d', d.assign ops source = some d' ∧
    (∀ key, d'.get ops key = source.get ops key) ∧ d'.cnt = source.cnt

/-- Dictionaries are equal when they have the same keys with the same values. -/
def EqualsExact [DecidableEq K] [DecidableEq V] (ops : KeyOps K) (d d' : Dict K V) : Prop :=
  ∃ same, d.equal d' = some same ∧ (same = true ↔ ∀ key, d.get ops key = d'.get ops key)

theorem Placed.isEmpty_iff (h : Placed ops d L) : d.IsEmpty ↔ ∀ i < d.size, L i = [] := by
  refine forall₂_congr fun i hi => ?_
  rw [(h.holds i hi).cnt_eq, List.length_eq_zero_iff]

/-- A dictionary has no pairs exactly when it finds none. -/
theorem Placed.isEmpty_iff_get (h : Placed ops d L) :
    d.IsEmpty ↔ ∀ key, d.get ops key = some none := by
  rw [h.isEmpty_iff]
  constructor
  · intro hnil key
    have hi := h.binOf_lt key
    unfold Dict.get
    rcases (h.holds _ hi).find ops key with ⟨front, keyval, back, hL, -⟩ | ⟨-, hfind⟩
    · rw [hnil _ hi] at hL
      simp at hL
    · simp only [hfind]
      rfl
  · intro hget i hi
    cases hL : L i with
    | nil => rfl
    | cons keyval l =>
      have hhome := h.home i hi keyval (by simp [hL])
      have hnone := hget keyval.1
      unfold Dict.get at hnone
      rcases (h.holds _ (h.binOf_lt keyval.1)).find ops keyval.1 with
        ⟨_, _, _, -, -, hfind⟩ | ⟨hne, -⟩
      · simp only [hfind] at hnone
        cases hnone
      · rw [hhome, hL] at hne
        exact absurd (ops.refl _) (hne keyval (by simp))

theorem Placed.get_eq_iff {L' : Nat → List (K × V)} (h : Placed ops d L) (h' : Placed ops d' L')
    (hempty : d'.IsEmpty) : (∀ key, d.get ops key = d'.get ops key) ↔ d.IsEmpty := by
  have hnone := h'.isEmpty_iff_get.mp hempty
  rw [h.isEmpty_iff_get]
  exact forall_congr' fun key => by rw [hnone]

/-- The search only depends on the pairs of the bucket. -/
theorem find_congr {b b' : Bucket K V} {l : List (K × V)} (h : b.Holds l) (h' : b'.Holds l)
    (key : K) {left j : Nat} (hj : j + left = l.length) :
    b.find ops key left j = b'.find ops key left j := by
  induction left generalizing j with
  | zero => rfl
  | succ left ih =>
    unfold Bucket.find
    rw [h.read (by omega), h'.read (by omega), ih (by omega)]

theorem Placed.get_congr {L' : Nat → List (K × V)} (h : Placed ops d L) (h' : Placed ops d' L')
    (hsize : d.size = d'.size) (hL : ∀ i < d.size, L i = L' i) (key : K) :
    d.get ops key = d'.get ops key := by
  have hi := h.binOf_lt key
  have hbin : d.binOf ops key = d'.binOf ops key := by rw [binOf, binOf, hsize]
  have hholds := h.holds _ hi
  have hholds' := h'.holds _ (hsize ▸ hi)
  rw [← hL _ hi] at hholds'
  unfold Dict.get
  simp only [← hbin, hholds.cnt_eq, hholds'.cnt_eq, find_congr hholds hholds' key (Nat.zero_add _)]

theorem Bucket.Holds.pairs {b : Bucket K V} {l : List (K × V)} (h : b.Holds l) :
    b.pairs = some l := by
  have hread : (List.range l.length).map b.read = l.map some := by
    refine List.ext_getElem (by simp) fun j hj hj' => ?_
    rw [List.getElem_map, List.getElem_map, List.getElem_range]
    exact h.read (by simpa using hj')
  have hmapM : ∀ {js : List Nat} {l : List (K × V)}, js.map b.read = l.map some →
      js.mapM b.read = some l := by
    intro js
    induction js with
    | nil =>
      intro l hl
      rw [List.map_eq_nil_iff.mp hl.symm]
      rfl
    | cons j js ih =>
      intro l hl
      obtain ⟨keyval, l, rfl, hj, hjs⟩ := List.map_eq_cons_iff.mp hl.symm
      rw [List.mapM_cons, ← hj, ih hjs.symm]
      rfl
  rw [Bucket.pairs, h.cnt_eq, hmapM hread]

/-- Equality goes through the buckets until there are other pairs in one. -/
theorem Placed.equalFrom [DecidableEq K] [DecidableEq V] {L' : Nat → List (K × V)}
    (h : Placed ops d L) (h' : Placed ops d' L') (hsize : d.size = d'.size) {left i : Nat}
    (hi : i + left = d.size) :
    ∃ same, d.equalFrom d' left i = some same ∧
      (same = true ↔ ∀ j, i ≤ j → j < d.size → L j = L' j) := by
  induction left generalizing i with
  | zero => exact ⟨true, rfl, fun _ j hij hj => by omega, fun _ => rfl⟩
  | succ left ih =>
    have hlt : i < d.size := by omega
    have hholds := h.holds i hlt
    have hholds' := h'.holds i (hsize ▸ hlt)
    have hother : L i ≠ L' i → ∃ same, some false = some same ∧
        (same = true ↔ ∀ j, i ≤ j → j < d.size → L j = L' j) := fun hne =>
      ⟨false, rfl, nofun, fun hall => absurd (hall i (Nat.le_refl i) hlt) hne⟩
    unfold Dict.equalFrom
    rw [if_neg (by omega), hholds.cnt_eq, hholds'.cnt_eq]
    split
    next hne => exact hother fun heq => hne (by rw [heq])
    next =>
      simp only [hholds.pairs, hholds'.pairs, Option.bind_eq_bind, Option.bind_some]
      split
      next hne => exact hother hne
      next heq =>
        obtain ⟨same, hrest, hsame⟩ := ih (i := i + 1) (by omega)
        refine ⟨same, hrest, hsame.trans ⟨fun hall j hij hj => ?_,
          fun hall j hij hj => hall j (Nat.le_of_succ_le hij) hj⟩⟩
        rcases Nat.eq_or_lt_of_le hij with rfl | hlt
        · exact not_not.mp heq
        · exact hall j hlt hj

/-- Without pairs the loop of an assignment only looks for the end of the source. -/
theorem assignFrom_of_empty (hempty : source.IsEmpty) {left i : Nat}
    (hi : i + left = source.size) :
    assignFrom ops source left i d = if source.size < d.size then none else some d := by
  induction left generalizing i with
  | zero =>
    unfold assignFrom
    rw [show i = source.size from hi]
  | succ left ih =>
    unfold assignFrom
    rw [hempty i (by omega)]
    split
    next => exact ih (by omega)
    next => rw [if_neg (by omega)]

/-- Equality with a dictionary without pairs looks for a bucket that has some. -/
theorem equalFrom_of_empty [DecidableEq K] [DecidableEq V] (hempty : d'.IsEmpty)
    (hsize : d.size ≤ d'.size) {left i : Nat} (hi : i + left = d.size) :
    ∃ same, d.equalFrom d' left i = some same ∧
      (same = true ↔ ∀ j, i ≤ j → j < d.size → (d.bin j).cnt = 0) := by
  induction left generalizing i with
  | zero => exact ⟨true, rfl, fun _ j hij hj => by omega, fun _ => rfl⟩
  | succ left ih =>
    unfold equalFrom
    rw [if_neg (by omega), hempty i (by omega)]
    split
    next hne =>
      refine ⟨false, rfl, nofun, fun hall => ?_⟩
      exact absurd (hall i (Nat.le_refl i) (by omega)) hne
    next heq =>
      have hcnt : (d.bin i).cnt = 0 := not_not.mp heq
      have hpairs : ∀ b : Bucket K V, b.cnt = 0 → b.pairs = some [] := by
        intro b hb
        unfold Bucket.pairs
        rw [hb]
        rfl
      obtain ⟨same, hrest, hsame⟩ := ih (i := i + 1) (by omega)
      refine ⟨same, ?_, hsame.trans ?_⟩
      · simp only [hpairs _ hcnt, hpairs _ (hempty i (by omega)), Option.bind_eq_bind,
          Option.bind_some]
        exact hrest
      · constructor
        · intro hall j hij hj
          rcases Nat.eq_or_lt_of_le hij with rfl | hlt
          · exact hcnt
          · exact hall j hlt hj
        · exact fun hall j hij hj => hall j (Nat.le_of_succ_le hij) hj

/-- An assignment counts the pairs of the source twice: it gives the size of the source only when
there are none. -/
theorem Placed.assignCopies_iff (h : Placed ops d L) (hsource : Placed ops source Ls) :
    AssignCopies ops d source ↔ source.IsEmpty ∧ d.size ≤ source.size := by
  have hemptied := h.emptied hsource
  have hroom : source.size ≤ (d.emptied source).size := emptied_size ▸ Nat.le_max_right _ _
  constructor
  · rintro ⟨d', hassign, -, hcnt⟩
    have hempty : source.IsEmpty := by
      rw [hsource.isEmpty_iff]
      by_contra hsome
      push Not at hsome
      obtain ⟨k, hk, hne⟩ := hsome
      have hcounted := (hemptied.assignFrom hsource (Nat.zero_add _) hassign).2.2 hroom
        (fun _ => rfl) ⟨k, Nat.zero_le k, hk, hne⟩
      rw [hcnt] at hcounted
      exact Nat.lt_irrefl _ hcounted
    refine ⟨hempty, Nat.le_of_not_lt fun hlt => ?_⟩
    unfold Dict.assign at hassign
    rw [assignFrom_of_empty hempty (Nat.zero_add _), emptied_size, if_pos (by omega)] at hassign
    cases hassign
  · rintro ⟨hempty, hsize⟩
    refine ⟨d.emptied source, ?_, ?_, rfl⟩
    · unfold Dict.assign
      rw [assignFrom_of_empty hempty (Nat.zero_add _), emptied_size, if_neg (by omega)]
    · exact (hemptied.get_eq_iff hsource hempty).mpr
        (hemptied.isEmpty_iff.mpr fun _ _ => rfl)

theorem Placed.equalsExact_iff [DecidableEq K] [DecidableEq V] {L' : Nat → List (K × V)}
    (h : Placed ops d L) (h' : Placed ops d' L') (hempty : d'.IsEmpty) (hsize : d.size ≤ d'.size) :
    EqualsExact ops d d' ↔ (d.IsEmpty → d.cnt = d'.cnt) := by
  unfold EqualsExact
  rw [h.get_eq_iff h' hempty]
  unfold Dict.equal
  split
  next hne =>
    constructor
    · rintro ⟨same, hfalse, hsame⟩ hd
      obtain rfl := Option.some.inj hfalse
      exact nomatch hsame.mpr hd
    · exact fun hcnt => ⟨false, rfl, nofun, fun hd => absurd (hcnt hd) hne⟩
  next heq =>
    obtain ⟨same, hrun, hsame⟩ := equalFrom_of_empty hempty hsize (Nat.zero_add d.size)
    refine ⟨fun _ _ => not_not.mp heq, fun _ => ⟨same, hrun, hsame.trans ?_⟩⟩
    exact forall_congr' fun j => ⟨fun hall => hall (Nat.zero_le j), fun hall _ => hall⟩

/-- Assignment and equality are the operations of the map exactly for a source without pairs, with
as many buckets as the target at least. -/
theorem assign_and_equal_iff [DecidableEq K] [DecidableEq V] (h : Reached ops d)
    (h' : Reached ops d') :
    AssignCopies ops d d' ∧ EqualsExact ops d d' ↔
      d'.IsEmpty ∧ d.size ≤ d'.size ∧ (d.IsEmpty → d.cnt = d'.cnt) := by
  obtain ⟨L, hplaced⟩ := h.placed
  obtain ⟨L', hplaced'⟩ := h'.placed
  rw [hplaced.assignCopies_iff hplaced', and_assoc]
  exact and_congr_right fun hempty => and_congr_right fun hsize =>
    hplaced.equalsExact_iff hplaced' hempty hsize

/-- The buckets of both hold the same pairs in the same order. -/
def SamePairs (d d' : Dict K V) : Prop := ∀ i < d.size, (d.bin i).pairs = (d'.bin i).pairs

/-- Of dictionaries of one size, pairs or not, equality is right exactly when those that have the
same keys with the same values count them alike and have them in the same order. -/
theorem equal_iff_samePairs [DecidableEq K] [DecidableEq V] (h : Reached ops d)
    (h' : Reached ops d') (hsize : d.size = d'.size) :
    EqualsExact ops d d' ↔
      ((∀ key, d.get ops key = d'.get ops key) → d.cnt = d'.cnt ∧ SamePairs d d') := by
  obtain ⟨L, hplaced⟩ := h.placed
  obtain ⟨L', hplaced'⟩ := h'.placed
  have hpairs : SamePairs d d' ↔ ∀ i < d.size, L i = L' i := by
    refine forall₂_congr fun i hi => ?_
    rw [(hplaced.holds i hi).pairs, (hplaced'.holds i (hsize ▸ hi)).pairs, Option.some.injEq]
  obtain ⟨same, hrun, hsame⟩ := hplaced.equalFrom hplaced' hsize (Nat.zero_add d.size)
  have hsame' : same = true ↔ SamePairs d d' := by
    rw [hsame, hpairs]
    exact forall_congr' fun j => ⟨fun hall => hall (Nat.zero_le j), fun hall _ => hall⟩
  unfold EqualsExact Dict.equal
  split
  next hne =>
    refine ⟨?_, fun hcnt => ⟨false, rfl, nofun, fun hmap => absurd (hcnt hmap).1 hne⟩⟩
    rintro ⟨same, hfalse, hmap⟩ hget
    obtain rfl := Option.some.inj hfalse
    exact nomatch hmap.mpr hget
  next heq =>
    have hcnt : d.cnt = d'.cnt := not_not.mp heq
    constructor
    · rintro ⟨same', hrun', hmap⟩ hget
      obtain rfl := Option.some.inj (hrun.symm.trans hrun')
      exact ⟨hcnt, hsame'.mp (hmap.mpr hget)⟩
    · exact fun hget => ⟨same, hrun,
        fun htrue => hplaced.get_congr hplaced' hsize (hpairs.mp (hsame'.mp htrue)),
        fun hmap => hsame'.mpr (hget hmap).2⟩

/-- A dictionary of two pairs, put in one after the other. -/
def twoPairs (a b : Nat) : List (Operation Nat Nat) := [.insert a 1 true, .insert b 1 true]

/-- A dictionary that has lost its only pair is assigned to one with two pairs. -/
theorem assign_and_equal_deleted :
    ∃ d d' : Dict Nat Nat, Reached hundreds d ∧ Reached hundreds d' ∧ d.cnt = 2 ∧
      AssignCopies hundreds d d' ∧ EqualsExact hundreds d d' := by
  obtain ⟨d, L, hrun, -⟩ := (Layout.new (V := Nat) hundreds 16).run (twoPairs 5 9)
  obtain ⟨d', L', hrun', -⟩ :=
    (Layout.new (V := Nat) hundreds 16).run [.insert 7 1 true, .delete 7]
  have hfacts : (do
      let d ← (Dict.new 16 : Dict Nat Nat).run hundreds (twoPairs 5 9)
      let d' ← (Dict.new 16 : Dict Nat Nat).run hundreds [.insert 7 1 true, .delete 7]
      return (d.2.cnt, d.2.size, d'.2.size, decide (∀ i < d.2.size, (d.2.bin i).cnt = 0),
        decide (∀ i < d'.2.size, (d'.2.bin i).cnt = 0))) = some (2, 16, 16, false, true) := by
    decide
  simp only [hrun, hrun', Option.bind_eq_bind, Option.bind_some] at hfacts
  simp only [Option.pure_def, Option.some.injEq, Prod.mk.injEq, decide_eq_false_iff_not,
    decide_eq_true_eq] at hfacts
  obtain ⟨hcnt, hsize, hsize', hpairs, hempty⟩ := hfacts
  exact ⟨d, d', (Reached.new 16).run hrun, (Reached.new 16).run hrun', hcnt,
    (assign_and_equal_iff ((Reached.new 16).run hrun) ((Reached.new 16).run hrun')).mpr
      ⟨hempty, Nat.le_of_eq (hsize.trans hsize'.symm), fun hd => absurd hd hpairs⟩⟩

/-- The same two pairs in another order are not equal, and there are four after the assignment. -/
theorem not_assign_and_equal_otherOrder :
    ∃ d d' : Dict Nat Nat, Reached hundreds d ∧ Reached hundreds d' ∧ ¬ AssignCopies hundreds d d' ∧
      ¬ EqualsExact hundreds d d' := by
  obtain ⟨d, L, hrun, hlayout⟩ := (Layout.new (V := Nat) hundreds 16).run (twoPairs 5 9)
  obtain ⟨d', L', hrun', hlayout'⟩ := (Layout.new (V := Nat) hundreds 16).run (twoPairs 9 5)
  have hmaps : (KeyMap.run (∅ : KeyMap hundreds Nat) (twoPairs 5 9)).2 =
      (KeyMap.run (∅ : KeyMap hundreds Nat) (twoPairs 9 5)).2 := by
    decide
  have hcounts : (do
      let d ← (Dict.new 16 : Dict Nat Nat).run hundreds (twoPairs 5 9)
      let d' ← (Dict.new 16 : Dict Nat Nat).run hundreds (twoPairs 9 5)
      let d'' ← d.2.assign hundreds d'.2
      return (d''.cnt, d'.2.cnt)) = some (4, 2) := by
    decide
  have hequals : (do
      let d ← (Dict.new 16 : Dict Nat Nat).run hundreds (twoPairs 5 9)
      let d' ← (Dict.new 16 : Dict Nat Nat).run hundreds (twoPairs 9 5)
      d.2.equal d'.2) = some false := by
    decide
  simp only [hrun, hrun', Option.bind_eq_bind, Option.bind_some] at hcounts hequals
  refine ⟨d, d', (Reached.new 16).run hrun, (Reached.new 16).run hrun', ?_, ?_⟩
  · rintro ⟨d'', hassign, -, hcnt⟩
    simp only [hassign, Option.bind_some, hcnt] at hcounts
    obtain ⟨htwo, hfour⟩ := Prod.mk.inj (Option.some.inj hcounts)
    omega
  · rintro ⟨same, hequal, hsame⟩
    obtain rfl := Option.some.inj (hequals.symm.trans hequal)
    exact nomatch hsame.mpr fun key => by rw [hlayout.get, hlayout'.get, hmaps]

end HotSpot.Dict
