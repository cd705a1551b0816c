import HotSpot.Prims.MergeFloats

/-! # A merge that does not cut its indices

The entries of a pool have two bytes for each index that they refer to, and the indices of a
merge are packed without a check. A merge into entries for indices of any size does the same as
long as what it packs fits, so that what holds of it can be said of the other.
-/

namespace HotSpot.PoolMerge

/-- An index is packed that has more than two bytes. -/
def Cut (m : Merge) : Prop := ∃ i ∈ m.packed, 2 ^ 16 ≤ i

namespace Wide

def appendPair (appendEntry : Nat → Merge → Except Stop Merge) (scratch : Entries) (i : Nat)
    (entry : Nat × Nat → CpEntry) (first second : Nat) (m : Merge) : Except Stop Merge := do
  let (newFirst, m) ← locate appendEntry scratch first m
  let (newSecond, m) ← locate appendEntry scratch second m
  { m with packed := newFirst :: newSecond :: m.packed }.append i [entry (newFirst, newSecond)]

def appendEntry (scratch : Entries) : Nat → Nat → Merge → Except Stop Merge
  | 0, _, _ => .error .unfinished
  | fuel + 1, i, m =>
    match entryAt scratch i with
    | .klass name => m.append i [.unresolvedKlass name]
    | .double d => m.append i [.double d, .invalid]
    | .long l => m.append i [.long l, .invalid]
    | .float f => m.append i [.float f]
    | .int n => m.append i [.int n]
    | .utf8 s => m.append i [.utf8 s]
    | .string s => m.append i [.string s]
    | .unresolvedKlass name => m.append i [.unresolvedKlass name]
    | .unresolvedString s => m.append i [.unresolvedString s]
    | .nameAndType name signature =>
      appendPair (appendEntry scratch fuel) scratch i (fun p => .nameAndType p.1 p.2)
        name signature m
    | .field klass nameAndType =>
      appendPair (appendEntry scratch fuel) scratch i (fun p => .field p.1 p.2)
        klass nameAndType m
    | .method klass nameAndType =>
      appendPair (appendEntry scratch fuel) scratch i (fun p => .method p.1 p.2)
        klass nameAndType m
    | .interfaceMethod klass nameAndType =>
      appendPair (appendEntry scratch fuel) scratch i (fun p => .interfaceMethod p.1 p.2)
        klass nameAndType m
    | .invalid | .unresolvedKlassInError _ => .error .shouldNotReachHere

def findOrAppend (scratch : Entries) (i : Nat) (sameIndex : Bool) (m : Merge) :
    Except Stop Merge := do
  let found ← m.findMatchingEntry scratch i
  if found ≠ 0 then
    if sameIndex ∧ found = i then .error .guarantee else return m.mapIndex i found
  else appendEntry scratch depth i m

def turnCommon (scratch : Entries) (i : Nat) (m : Merge) : Except Stop Merge := do
  if ← compareEntryTo depth scratch i m.entries i then return m
  else if isUnresolvedClassMismatch (entryAt scratch i) (entryAt m.entries i) ∨
      isUnresolvedStringMismatch (entryAt scratch i) (entryAt m.entries i) then return m
  else findOrAppend scratch i true m

def turnBeyond (scratch : Entries) (i : Nat) (m : Merge) : Except Stop Merge :=
  findOrAppend scratch i false m

def mergeConstantPools (old scratch : ConstantPool) : Except Stop Merge := do
  let copy ← copyOld (old.entries.drop 1)
  let m : Merge :=
    { entries := .invalid :: copy
      length := old.entries.length + scratch.entries.length
      map := .empty scratch.entries.length
      packed := [] }
  let (i, m) ← pass scratch.entries (turnCommon scratch.entries)
    (min old.entries.length scratch.entries.length) scratch.entries.length 1 m
  let (_, m) ← pass scratch.entries (turnBeyond scratch.entries) scratch.entries.length
    scratch.entries.length i m
  return m

end Wide

/-! ## The two merges -/

section Comparing

variable {scratch : Entries} {i : Nat} {m : Merge} {app app' : Nat → Merge → Except Stop Merge}

theorem pack_eq {x y : Nat} (hx : x < 2 ^ 16) (hy : y < 2 ^ 16) : pack x y = (x, y) := by
  unfold pack
  rw [Nat.div_eq_of_lt hx, Nat.or_zero, Nat.mod_eq_of_lt hx, Nat.mod_eq_of_lt hy]

theorem Merge.append_packed (m : Merge) (i : Nat) (new : Entries) :
    Concludes (fun _ => True) (m.append i new) fun m' => m'.packed = m.packed := by
  unfold Merge.append Merge.put
  split
  · rw [bind_ok]
    split <;> exact Concludes.ok rfl
  · exact Concludes.error trivial

theorem append_lost (i : Nat) (new : Entries) (h : Cut m) : Lost Cut (m.append i new) :=
  (m.append_packed i new).weaken (fun _ => id) fun m' hm' => by rwa [Cut, hm']

theorem append_follows (i : Nat) (new : Entries) :
    Follows Cut id m (m.append i new) (m.append i new) := .refl (append_lost i new)

theorem locate_follows (happ : ∀ m, Follows Cut id m (app i m) (app' i m)) :
    Follows Cut Prod.snd m (locate app scratch i m) (locate app' scratch i m) := by
  unfold locate
  refine Follows.bind (.read _) fun same => ?_
  split
  next => exact .ok id
  next =>
    refine Follows.bind (.read _) fun found => ?_
    split
    next =>
      split
      next => exact .error
      next => exact .ok id
    next => exact (happ m).bind fun m' => .ok id

theorem appendPair_follows {first second : Nat} {entry : Nat × Nat → CpEntry}
    (hfirst : ∀ m, Follows Cut id m (app first m) (app' first m))
    (hsecond : ∀ m, Follows Cut id m (app second m) (app' second m)) :
    Follows Cut id m (appendPair app scratch i entry first second m)
      (Wide.appendPair app' scratch i entry first second m) := by
  refine (locate_follows hfirst).bind fun p => (locate_follows hsecond).bind fun q => ?_
  obtain ⟨x, m₁⟩ := p
  obtain ⟨y, m₂⟩ := q
  by_cases hfits : x < 2 ^ 16 ∧ y < 2 ^ 16
  · dsimp only
    rw [pack_eq hfits.1 hfits.2]
    exact .refl fun hcut => append_lost i _ (hcut.imp fun j hj =>
      ⟨List.mem_cons_of_mem _ (List.mem_cons_of_mem _ hj.1), hj.2⟩)
  · have hcut : Cut { m₂ with packed := x :: y :: m₂.packed } := by
      rw [not_and_or, not_lt, not_lt] at hfits
      rcases hfits with hx | hy
      · exact ⟨x, List.mem_cons_self, hx⟩
      · exact ⟨y, List.mem_cons_of_mem _ List.mem_cons_self, hy⟩
    exact .lost (append_lost i _ hcut) (append_lost i _ hcut)

theorem appendEntry_follows (fuel i : Nat) (m : Merge) :
    Follows Cut id m (appendEntry scratch fuel i m) (Wide.appendEntry scratch fuel i m) := by
  induction fuel generalizing i m with
  | zero => exact .error
  | succ fuel ih =>
    unfold appendEntry Wide.appendEntry
    cases entryAt scratch i <;> first
      | exact append_follows i _
      | exact appendPair_follows (ih _) (ih _)
      | exact .error

theorem findOrAppend_follows (i : Nat) (same : Bool) (m : Merge) :
    Follows Cut id m (findOrAppend scratch i same m) (Wide.findOrAppend scratch i same m) := by
  unfold findOrAppend Wide.findOrAppend
  refine Follows.bind (.read _) fun found => ?_
  split
  next =>
    split
    next => exact .error
    next => exact .ok id
  next => exact appendEntry_follows depth i m

theorem turnCommon_follows (i : Nat) (m : Merge) :
    Follows Cut id m (turnCommon scratch i m) (Wide.turnCommon scratch i m) := by
  unfold turnCommon Wide.turnCommon
  refine Follows.bind (.read _) fun same => ?_
  split
  next => exact .ok id
  next =>
    split
    next => exact .ok id
    next => exact findOrAppend_follows i true m

theorem pass_follows {turn turn' : Nat → Merge → Except Stop Merge}
    (hturn : ∀ i m, Follows Cut id m (turn i m) (turn' i m)) (limit fuel i : Nat) (m : Merge) :
    Follows Cut Prod.snd m (pass scratch turn limit fuel i m)
      (pass scratch turn' limit fuel i m) := by
  induction fuel generalizing i m with
  | zero => exact .ok id
  | succ fuel ih =>
    unfold pass
    split
    next => exact (hturn i m).bind fun m' => ih _ m'
    next => exact .ok id

/-- The merge of the code does what the other does, or both pack an index that is cut. -/
theorem mergeConstantPools_agrees (old scratch : ConstantPool) :
    AgreesUnlessLost Cut (mergeConstantPools old scratch)
      (Wide.mergeConstantPools old scratch) := by
  unfold mergeConstantPools Wide.mergeConstantPools
  cases copyOld (old.entries.drop 1) with
  | error stop => exact Or.inl rfl
  | ok copy =>
    refine (?_ : Follows Cut id ⟨.invalid :: copy, old.entries.length + scratch.entries.length,
      .empty scratch.entries.length, []⟩ _ _).agrees
    refine (pass_follows turnCommon_follows _ _ _ _).bind fun p => ?_
    exact (pass_follows (fun i m => findOrAppend_follows i false m) _ _ _ _).bind fun q => .ok id

end Comparing

end HotSpot.PoolMerge
