import HotSpot.Memory.CodeHeapRuns

/-! # Failed expansions of the code heap

`expand_by` grows the memory, raises the number of committed segments, and then grows the
segment map. It may fail before the first of these and after the second.
-/

namespace HotSpot.CodeHeap

variable {h h' : CodeHeap} {globals : Globals} {os : OS}

/-- The committed part of the segment map covers the committed segments, and no more pages
than that. -/
structure MapCovers (os : OS) (h : CodeHeap) : Prop where
  covers : h.numberOfCommittedSegments ≤ h.segmapSpace.committedSize
  aligned : h.segmapSpace.committedSize = os.alignToPageSize h.numberOfCommittedSegments

/-- A call to the heap. -/
inductive Call where
  | allocate (size : Nat)
  | deallocate (p : Nat)
  | expandBy (size : Nat) (commits mapCommits : Bool)
  | findStart (p : Nat)

/-- What `allocate` and `find_start` return in the course of the calls; the list ends where
a call does not return. -/
def answers (globals : Globals) (os : OS) (h : CodeHeap) : List Call → List (Option (Option Nat))
  | [] => []
  | .allocate size :: calls =>
    match h.allocate globals size with
    | none => [none]
    | some (p, h) => some p :: answers globals os h calls
  | .deallocate p :: calls =>
    match h.deallocate p with
    | none => [none]
    | some h => answers globals os h calls
  | .expandBy size commits mapCommits :: calls =>
    answers globals os (h.expandBy os size commits mapCommits).2 calls
  | .findStart p :: calls => h.findStart p :: answers globals os h calls

/-- What is promised of the state `h'` that a failed expansion of `h` leaves. -/
structure FailureAtomic (os : OS) (h h' : CodeHeap) : Prop where
  covers : h'.numberOfCommittedSegments ≤ h'.segmapSpace.committedSize
  answers : ∀ globals calls, h'.answers globals os calls = h.answers globals os calls

/-- The memory grows, and then the segment map has to grow too and does not. -/
def MapRefuses (os : OS) (h : CodeHeap) (size : Nat) (commits mapCommits : Bool) : Prop :=
  let dm := os.alignToPageSize (h.memory.committedSize + size) - h.memory.committedSize
  dm ≠ 0 ∧ ∃ memory, h.memory.expandBy dm commits = some memory ∧
    let ds := os.alignToPageSize (h.numberOfSegments memory.committedSize) -
      h.segmapSpace.committedSize
    ds ≠ 0 ∧ h.segmapSpace.expandBy ds mapCommits = none

/-! ## The segment map over a run -/

section Frame

variable (i : Nat)

@[simp] theorem segmapSpace_setLength (n : Nat) :
    (h.setLength i n).segmapSpace = h.segmapSpace := rfl

@[simp] theorem segmapSpace_setUsed (used : Bool) :
    (h.setUsed i used).segmapSpace = h.segmapSpace := rfl

@[simp] theorem segmapSpace_setLink (link : Option Nat) :
    (h.setLink i link).segmapSpace = h.segmapSpace := rfl

@[simp] theorem segmapSpace_release : (h.release i).segmapSpace = h.segmapSpace := rfl

theorem segmapSpace_mergeRight : (h.mergeRight i).segmapSpace = h.segmapSpace := by
  unfold mergeRight
  split
  next => rfl
  next => split <;> rfl

theorem segmapSpace_addToFreelist (hadd : h.addToFreelist i = some h') :
    h'.segmapSpace = h.segmapSpace := by
  rw [addToFreelist_eq] at hadd
  split at hadd
  next =>
    obtain rfl := Option.some.inj hadd
    rfl
  next =>
    split at hadd
    next => simp at hadd
    next =>
      obtain rfl := Option.some.inj hadd
      rw [segmapSpace_mergeRight]
      rfl
    next =>
      obtain rfl := Option.some.inj hadd
      rw [insertAfter, segmapSpace_mergeRight, segmapSpace_mergeRight]
      rfl

theorem segmapSpace_searchFreelist {n : Nat} {b : Option Nat}
    (hsearch : h.searchFreelist globals n = some (b, h')) : h'.segmapSpace = h.segmapSpace := by
  unfold searchFreelist at hsearch
  split at hsearch
  next => simp at hsearch
  next =>
    obtain rfl := (Prod.mk.inj (Option.some.inj hsearch)).2
    rfl
  next best _ =>
    dsimp only at hsearch
    split at hsearch
    next =>
      obtain rfl := (Prod.mk.inj (Option.some.inj hsearch)).2
      unfold unlink
      cases best.prev <;> rfl
    next =>
      obtain rfl := (Prod.mk.inj (Option.some.inj hsearch)).2
      rfl

theorem segmapSpace_allocate {size : Nat} {p : Option Nat}
    (hallocate : h.allocate globals size = some (p, h')) : h'.segmapSpace = h.segmapSpace := by
  unfold allocate at hallocate
  dsimp only at hallocate
  split at hallocate
  next => simp at hallocate
  next hsearch =>
    obtain rfl := (Prod.mk.inj (Option.some.inj hallocate)).2
    exact segmapSpace_searchFreelist hsearch
  next hsearch =>
    have hsame := segmapSpace_searchFreelist hsearch
    split_ifs at hallocate
    all_goals
      obtain rfl := (Prod.mk.inj (Option.some.inj hallocate)).2
      exact hsame

end Frame

theorem MapCovers.of_eq (hmap : MapCovers os h)
    (hcount : h'.numberOfCommittedSegments = h.numberOfCommittedSegments)
    (hspace : h'.segmapSpace = h.segmapSpace) : MapCovers os h' := by
  obtain ⟨hcovers, haligned⟩ := hmap
  exact ⟨by rwa [hcount, hspace], by rwa [hcount, hspace]⟩

theorem le_alignSizeUp {alignment : Nat} (hpos : 0 < alignment) (size : Nat) :
    size ≤ alignSizeUp size alignment := by
  have hdiv := Nat.div_add_mod (size + alignment - 1) alignment
  have hmod := Nat.mod_lt (size + alignment - 1) hpos
  rw [alignSizeUp, Nat.mul_comm]
  omega

theorem alignSizeUp_mono {m n : Nat} (hle : m ≤ n) (alignment : Nat) :
    alignSizeUp m alignment ≤ alignSizeUp n alignment :=
  Nat.mul_le_mul_right _ (Nat.div_le_div_right (by omega))

theorem alignSizeUp_le {m n alignment : Nat} (hle : m ≤ n) (hdvd : alignment ∣ n) :
    alignSizeUp m alignment ≤ n := by
  rcases Nat.eq_zero_or_pos alignment with rfl | hpos
  · exact (Nat.mul_zero _).trans_le (Nat.zero_le n)
  · obtain ⟨k, rfl⟩ := hdvd
    rw [alignSizeUp, Nat.mul_comm alignment k]
    refine Nat.mul_le_mul_right _ (Nat.le_of_lt_succ ((Nat.div_lt_iff_lt_mul hpos).mpr ?_))
    rw [Nat.succ_mul, Nat.mul_comm k]
    omega

/-- Nothing is committed in units of nothing. -/
theorem alignSizeUp_zero (size : Nat) : alignSizeUp size 0 = 0 := Nat.mul_zero _

theorem numberOfSegments_zero (hsegment : h.segmentSize = 2 ^ h.log2SegmentSize) :
    h.numberOfSegments 0 = 0 := by
  have hpos : 0 < h.segmentSize := hsegment ▸ Nat.two_pow_pos _
  rw [numberOfSegments, Nat.shiftRight_eq_div_pow, ← hsegment]
  exact Nat.div_eq_of_lt (by omega)

theorem mapCovers_reserve {s : Session} (hreserved : Reserved os s) : MapCovers os s.heap := by
  obtain ⟨-, -, ⟨k, rfl⟩, -, hreserve⟩ := hreserved
  simp only [reserve, Option.bind_eq_bind, Option.bind_eq_some_iff, Option.some.injEq] at hreserve
  obtain ⟨memory, hmemory, segmapSpace, hsegmap, rfl⟩ := hreserve
  have hmap := committedSize_initializeAt hsegmap
  refine ⟨?_, hmap⟩
  rcases Nat.eq_zero_or_pos os.vmPageSize with hzero | hpos
  · have hpage : os.pageSize = 0 := Nat.eq_zero_of_zero_dvd (hzero ▸ os.vmPageSize_dvd)
    have hnone : memory.committedSize = 0 := by
      rw [committedSize_initializeAt hmemory, hpage, alignSizeUp_zero]
    change numberOfSegments _ memory.committedSize ≤ _
    rw [hnone, numberOfSegments_zero (Nat.log2_two_pow ▸ rfl)]
    exact Nat.zero_le _
  · change numberOfSegments _ _ ≤ segmapSpace.committedSize
    rw [hmap]
    exact le_alignSizeUp hpos _

/-- What a successful `expand_by` of a space does. -/
theorem committedSize_expandBy {space space' : VirtualSpace} {bytes : Nat}
    {commits : Bool} (hexpand : space.expandBy bytes commits = some space') :
    space'.committedSize = space.committedSize + bytes := by
  unfold VirtualSpace.expandBy at hexpand
  split at hexpand
  next => simp at hexpand
  next =>
    split at hexpand
    next =>
      obtain rfl := Option.some.inj hexpand
      rfl
    next => simp at hexpand

/-- A larger memory has more segments. -/
theorem committedSegments_le (hgeometry : Geometry os h) {bytes : Nat}
    (hle : h.memory.committedSize ≤ bytes) :
    h.numberOfCommittedSegments ≤ h.numberOfSegments bytes := by
  have hpos : 0 < h.segmentSize := hgeometry.segment ▸ Nat.two_pow_pos _
  rw [numberOfSegments, Nat.shiftRight_eq_div_pow, ← hgeometry.segment,
    Nat.le_div_iff_mul_le hpos, hgeometry.committed]
  omega

theorem mapCovers_expandBy {size : Nat} {commits mapCommits : Bool}
    (hgeometry : Geometry os h) (hmap : MapCovers os h)
    (hexpand : h.expandBy os size commits mapCommits = (true, h')) : MapCovers os h' := by
  unfold expandBy at hexpand
  dsimp only at hexpand
  split at hexpand
  next =>
    obtain rfl := (Prod.mk.inj hexpand).2
    exact hmap
  next hdm =>
    have hpos : 0 < os.vmPageSize := by
      rcases Nat.eq_zero_or_pos os.vmPageSize with hzero | hpos
      · rw [OS.alignToPageSize, hzero, alignSizeUp_zero] at hdm
        exact absurd (Nat.zero_sub _) hdm
      · exact hpos
    split at hexpand
    next => simp at hexpand
    next memory hmemory =>
      have hgrown := committedSize_expandBy hmemory
      have hle : os.alignToPageSize h.numberOfCommittedSegments ≤
          os.alignToPageSize (h.numberOfSegments memory.committedSize) :=
        alignSizeUp_mono (committedSegments_le hgeometry (by omega)) _
      have hcover : h.numberOfSegments memory.committedSize ≤
          os.alignToPageSize (h.numberOfSegments memory.committedSize) :=
        le_alignSizeUp hpos _
      have haligned := hmap.aligned
      change (if os.alignToPageSize (h.numberOfSegments memory.committedSize) -
        h.segmapSpace.committedSize = 0 then _ else _) = _ at hexpand
      split at hexpand
      next hds =>
        obtain rfl := (Prod.mk.inj hexpand).2
        have hsame : h.segmapSpace.committedSize =
            os.alignToPageSize (h.numberOfSegments memory.committedSize) := by omega
        exact ⟨hsame ▸ hcover, hsame⟩
      next hds =>
        split at hexpand
        next => simp at hexpand
        next segmapSpace hsegmap =>
          obtain rfl := (Prod.mk.inj hexpand).2
          have hmapped : segmapSpace.committedSize = h.segmapSpace.committedSize +
              (os.alignToPageSize (h.numberOfSegments memory.committedSize) -
                h.segmapSpace.committedSize) := committedSize_expandBy hsegmap
          have hsame : segmapSpace.committedSize =
              os.alignToPageSize (h.numberOfSegments memory.committedSize) := by omega
          exact ⟨hsame ▸ hcover, hsame⟩

theorem Step.mapCovers {s s' : Session} (hwf : ∃ tiles, WellFormed os s tiles)
    (hmap : MapCovers os s.heap) (hstep : Step globals os s s') : MapCovers os s'.heap := by
  obtain ⟨tiles, hwf⟩ := hwf
  cases hstep with
  | @allocate h h' live size p hallocate =>
    refine hmap.of_eq ?_ (segmapSpace_allocate hallocate)
    rcases allocate_represents globals hwf.represents hwf.merged hwf.geometry.segment size with
      hnone | ⟨b, h'', hsome, hextent, -⟩
    · simp [hnone] at hallocate
    · rw [hsome] at hallocate
      obtain rfl := (Prod.mk.inj (Option.some.inj hallocate)).2
      rw [show h''.numberOfCommittedSegments = h''.extent.numberOfCommittedSegments from rfl,
        hextent]
      rfl
  | @allocateFull h h' live size hallocate =>
    rcases allocate_wellFormed globals hwf size with hnone | ⟨_, _, _, _, hsome, -⟩
    · obtain rfl : h = h' := by simpa [hnone] using hallocate
      exact hmap
    · simp [hsome] at hallocate
  | deallocate hlive hdeallocate =>
    have hextent := extent_addToFreelist hdeallocate
    exact hmap.of_eq (congrArg Extent.numberOfCommittedSegments hextent)
      (segmapSpace_addToFreelist _ hdeallocate)
  | expandBy hexpand => exact mapCovers_expandBy hwf.geometry hmap hexpand
  | write hlive hheader houtside => exact hmap.of_eq rfl rfl

/-- The map covers the committed segments in every state of every run in which no expansion
has failed. -/
theorem reachable_mapCovers {s : Session} (hs : (system globals os).Reachable s) :
    MapCovers os s.heap := by
  have hboth : (∃ tiles, WellFormed os s tiles) ∧ MapCovers os s.heap := by
    refine hs.invariant (P := fun s => (∃ tiles, WellFormed os s tiles) ∧ MapCovers os s.heap) ?_ ?_
    · exact fun _ hinit => ⟨⟨[], wellFormed_reserve hinit⟩, mapCovers_reserve hinit⟩
    · exact fun _ _ hinv hstep =>
        ⟨Step.wellFormed hinv.1 hstep, Step.mapCovers hinv.1 hinv.2 hstep⟩
  exact hboth.2

/-! ## Failed expansions -/

/-- An expansion whose memory refuses to grow changes nothing. -/
theorem expandBy_eq_of_not_mapRefuses {size : Nat} {commits mapCommits : Bool}
    (hfails : (h.expandBy os size commits mapCommits).1 = false)
    (hmap : ¬ MapRefuses os h size commits mapCommits) :
    (h.expandBy os size commits mapCommits).2 = h := by
  unfold expandBy at hfails ⊢
  dsimp only at hfails ⊢
  split at hfails
  next => simp at hfails
  next hdm =>
    rw [if_neg hdm]
    split at hfails
    next => rfl
    next memory hmemory =>
      split at hfails
      next => simp at hfails
      next hds =>
        split at hfails
        next hsegmap => exact absurd ⟨hdm, memory, hmemory, hds, hsegmap⟩ hmap
        next => simp at hfails

/-- An expansion whose segment map refuses to grow has raised the number of committed
segments before. -/
theorem lt_of_mapRefuses {size : Nat} {commits mapCommits : Bool} (hcovers : MapCovers os h)
    (hmap : MapRefuses os h size commits mapCommits) :
    (h.expandBy os size commits mapCommits).1 = false ∧
      (h.expandBy os size commits mapCommits).2.segmapSpace.committedSize <
        (h.expandBy os size commits mapCommits).2.numberOfCommittedSegments := by
  obtain ⟨hdm, memory, hmemory, hds, hsegmap⟩ := hmap
  have hresult : h.expandBy os size commits mapCommits = (false, { h with
      memory
      numberOfCommittedSegments := h.numberOfSegments memory.committedSize }) := by
    unfold expandBy
    simp only [if_neg hdm, hmemory, numberOfSegments] at hds hsegmap ⊢
    simp only [if_neg hds, hsegmap]
  rw [hresult]
  refine ⟨rfl, ?_⟩
  change h.segmapSpace.committedSize < h.numberOfSegments memory.committedSize
  by_contra hle
  -- The map is a whole number of pages: what it covers, it covers when rounded up.
  apply hds
  have hround : os.alignToPageSize (h.numberOfSegments memory.committedSize) ≤
      h.segmapSpace.committedSize := by
    refine alignSizeUp_le (not_lt.mp hle) ?_
    rw [hcovers.aligned]
    exact dvd_alignSizeUp _ _
  omega

/-- In every state that a run reaches, a failing expansion keeps the segment map large enough
and the heap unchanged to its callers exactly if it is not the segment map that refuses to
grow. -/
theorem expandBy_failureAtomic_iff {s : Session} (hs : (system globals os).Reachable s)
    (size : Nat) (commits mapCommits : Bool) :
    ((s.heap.expandBy os size commits mapCommits).1 = false →
      FailureAtomic os s.heap (s.heap.expandBy os size commits mapCommits).2) ↔
    ¬ MapRefuses os s.heap size commits mapCommits := by
  have hcovers := reachable_mapCovers hs
  constructor
  · intro hatomic hmap
    obtain ⟨hfails, hlt⟩ := lt_of_mapRefuses hcovers hmap
    exact absurd (hatomic hfails).covers (not_le.mpr hlt)
  · intro hmap hfails
    rw [expandBy_eq_of_not_mapRefuses hfails hmap]
    exact ⟨hcovers.covers, fun _ _ => rfl⟩
/-- A heap of two committed segments out of 256. -/
def growingHeap : CodeHeap :=
  ((new (fun _ => 0) fun _ => ⟨0, false, none⟩).reserve smallPages 16384 128 64 0 0 true
    true).get rfl

theorem growingHeap_reachable :
    (system ⟨1, by decide⟩ smallPages).Reachable ⟨growingHeap, ∅⟩ :=
  .of_init (.intro (by decide) (by decide) ⟨6, rfl⟩ (by decide) (Option.some_get _).symm)

/-- The system commits no more memory. -/
theorem expandBy_failureAtomic_iff_growingHeap :
    ((growingHeap.expandBy smallPages 6400 false true).1 = false →
      FailureAtomic smallPages growingHeap (growingHeap.expandBy smallPages 6400 false true).2) ↔
    ¬ MapRefuses smallPages growingHeap 6400 false true :=
  expandBy_failureAtomic_iff growingHeap_reachable 6400 false true

/-- The system commits a hundred segments and then no page for their bytes in the map. The
next `allocate` hands out segments that have none. -/
theorem expandBy_not_failureAtomic :
    (system ⟨1, by decide⟩ smallPages).Reachable ⟨growingHeap, ∅⟩ ∧
    (growingHeap.expandBy smallPages 6400 true false).1 = false ∧
    (growingHeap.expandBy smallPages 6400 true false).2.segmapSpace.committedSize = 64 ∧
    (growingHeap.expandBy smallPages 6400 true false).2.numberOfCommittedSegments = 102 ∧
    growingHeap.answers ⟨1, by decide⟩ smallPages [.allocate 5000] = [some none] ∧
    (growingHeap.expandBy smallPages 6400 true false).2.answers ⟨1, by decide⟩ smallPages
      [.allocate 5000] = [some (some 16)] :=
  ⟨growingHeap_reachable, rfl, rfl, rfl, rfl, rfl⟩

end HotSpot.CodeHeap
