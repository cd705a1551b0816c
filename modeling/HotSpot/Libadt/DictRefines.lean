import Mathlib.Algebra.BigOperators.Group.Finset.Basic
import Mathlib.Algebra.BigOperators.Group.Multiset.Basic
import HotSpot.Libadt.Dict

/-! # A dictionary is a finite map

Each bucket holds a list of pairs in the front of what is allocated for it. The pairs of
all buckets together are those of the map, and a pair is in the bucket that the hash of
its key selects.
-/

namespace HotSpot.Dict

variable {K V : Type} {ops : KeyOps K}

namespace Bucket

variable {b nb : Bucket K V} {l before after : List (K × V)} {keyval old : K × V}

/-- A bucket that holds a list of pairs, in what is allocated for `_max` of them. -/
inductive Holds : Bucket K V → List (K × V) → Prop where
  | null : Holds ⟨0, 0, none⟩ []
  | alloc {max : Nat} {rest : List (Option (K × V))} (l : List (K × V)) (hmax : 0 < max)
      (hlength : l.length + rest.length = max) :
      Holds ⟨l.length, max, some (l.map some ++ rest)⟩ l

theorem Holds.cnt_eq (h : Holds b l) : b.cnt = l.length := by
  cases h <;> rfl

theorem Holds.nil_of_isNone (h : Holds b l) (hnull : b.keyvals.isNone = true) : l = [] := by
  cases h with
  | null => rfl
  | alloc => cases hnull

theorem Holds.read {j : Nat} (h : Holds b l) (hj : j < l.length) : b.read j = some l[j] := by
  cases h with
  | null => exact absurd hj (Nat.not_lt_zero _)
  | alloc l hmax hlength =>
    unfold Bucket.read
    simp only [Option.bind_eq_bind, Option.bind_some]
    rw [List.getElem?_append_left (by simpa using hj), List.getElem?_map,
      List.getElem?_eq_getElem hj]
    rfl

theorem Holds.read_append (h : Holds b (before ++ keyval :: after)) :
    b.read before.length = some keyval := by
  rw [h.read (by simp)]
  simp

/-- The search finds the first pair with an equal key. -/
theorem Holds.find_from (ops : KeyOps K) (key : K) (h : Holds b (before ++ l)) :
    (∃ front keyval back, l = front ++ keyval :: back ∧ ops.cmp key keyval.1 = 0 ∧
      b.find ops key l.length before.length =
        some (some (before.length + front.length, keyval))) ∨
    (∀ keyval ∈ l, ops.cmp key keyval.1 ≠ 0) ∧
      b.find ops key l.length before.length = some none := by
  induction l generalizing before with
  | nil => exact Or.inr ⟨by simp, rfl⟩
  | cons keyval l ih =>
    have hfind : b.find ops key (l.length + 1) before.length =
        if ops.cmp key keyval.1 = 0 then some (some (before.length, keyval))
        else b.find ops key l.length (before.length + 1) := by
      rw [find, h.read_append]
      rfl
    rw [List.length_cons, hfind]
    by_cases hkey : ops.cmp key keyval.1 = 0
    · exact Or.inl ⟨[], keyval, l, rfl, hkey, by rw [if_pos hkey]; rfl⟩
    · rw [if_neg hkey]
      have h' : Holds b ((before ++ [keyval]) ++ l) := by
        rwa [List.append_assoc, List.singleton_append]
      have hstep := ih h'
      rw [List.length_append, List.length_singleton] at hstep
      rcases hstep with ⟨front, found, back, rfl, hfound, hrun⟩ | ⟨hnone, hrun⟩
      · refine Or.inl ⟨keyval :: front, found, back, rfl, hfound, ?_⟩
        rw [hrun, List.length_cons, Nat.add_assoc, Nat.add_comm 1]
      · refine Or.inr ⟨fun other hother => ?_, hrun⟩
        rcases List.mem_cons.mp hother with rfl | hother
        · exact hkey
        · exact hnone other hother

theorem Holds.find (ops : KeyOps K) (key : K) (h : Holds b l) :
    (∃ front keyval back, l = front ++ keyval :: back ∧ ops.cmp key keyval.1 = 0 ∧
      b.find ops key b.cnt 0 = some (some (front.length, keyval))) ∨
    (∀ keyval ∈ l, ops.cmp key keyval.1 ≠ 0) ∧ b.find ops key b.cnt 0 = some none := by
  have hfind := Holds.find_from ops key (show Holds b ([] ++ l) from h)
  rw [← h.cnt_eq] at hfind
  simpa using hfind

/-- Writing over a pair. -/
theorem Holds.write (h : Holds b (before ++ old :: after)) (keyval : K × V) :
    ∃ b', b.write before.length keyval = some b' ∧ Holds b' (before ++ keyval :: after) := by
  generalize hl : before ++ old :: after = l at h
  cases h with
  | null => simp at hl
  | alloc l hmax hlength =>
    subst hl
    rename_i max rest
    have hlength' : (before ++ keyval :: after).length + rest.length = max := by
      rw [← hlength]
      simp
    refine ⟨_, ?_, .alloc (before ++ keyval :: after) hmax hlength'⟩
    unfold Bucket.write
    simp only [Option.bind_eq_bind, Option.bind_some]
    rw [if_pos (by simp)]
    simp

/-- Writing behind the last pair, where there is room. -/
theorem Holds.append {cells : List (Option (K × V))} (h : Holds b l)
    (hcells : b.keyvals = some cells) (hroom : l.length < b.max) (keyval : K × V) :
    ∃ b', b.append keyval = some b' ∧ Holds b' (l ++ [keyval]) ∧ b'.max = b.max ∧
      b'.keyvals.isSome := by
  cases h with
  | null => cases hcells
  | alloc l hmax hlength =>
    rename_i max rest
    cases rest with
    | nil =>
      rw [List.length_nil, Nat.add_zero] at hlength
      exact absurd hroom (by simp [hlength])
    | cons cell rest =>
      have hlength' : (l ++ [keyval]).length + rest.length = max := by
        rw [← hlength]
        simp
        omega
      refine ⟨_, ?_, .alloc (l ++ [keyval]) hmax hlength', rfl, rfl⟩
      unfold Bucket.append Bucket.write
      simp only [Option.bind_eq_bind, Option.bind_some]
      rw [if_pos (by simp)]
      simp

/-- The last pair is put in the place of the one that is removed. -/
theorem Holds.remove (h : Holds b (before ++ old :: after)) :
    ∃ b' rest, b.remove before.length = some b' ∧ Holds b' (before ++ rest) ∧
      rest.Perm after ∧ b'.keyvals.isSome := by
  generalize hl : before ++ old :: after = l at h
  cases h with
  | null => simp at hl
  | alloc l hmax hlength =>
    subst hl
    rename_i max cells
    rcases List.eq_nil_or_concat' after with rfl | ⟨init, last, rfl⟩
    · have hlength' : before.length + (some old :: cells).length = max := by
        rw [← hlength]
        simp
        omega
      have hholds := Holds.alloc before hmax hlength'
      rw [← List.append_nil before] at hholds
      refine ⟨_, [], ?_, hholds, List.Perm.refl _, rfl⟩
      unfold Bucket.remove Bucket.read Bucket.write
      simp
    · have hlength' : (before ++ last :: init).length + (some last :: cells).length = max := by
        rw [← hlength]
        simp
        omega
      refine ⟨_, last :: init, ?_, .alloc (before ++ last :: init) hmax hlength',
        (List.perm_append_singleton last init).symm, rfl⟩
      have hlast : (before ++ old :: (init ++ [last])).length - 1 =
          before.length + (init.length + 1) := by simp
      unfold Bucket.remove Bucket.read Bucket.write
      simp only [hlast, Option.bind_eq_bind, Option.bind_some]
      rw [List.getElem?_append_left (by simp)]
      simp

/-- A full bucket gets twice the room. -/
theorem Holds.grow (h : Holds b l) :
    Holds b.grow l ∧ l.length < b.grow.max ∧ b.grow.keyvals.isSome := by
  cases h with
  | null => exact ⟨.alloc [] (Nat.zero_lt_succ 1) rfl, Nat.zero_lt_succ 1, rfl⟩
  | alloc l hmax hlength =>
    rename_i max rest
    unfold Bucket.grow
    by_cases hfull : l.length = max
    · obtain rfl : rest = [] := List.length_eq_zero_iff.mp (by omega)
      simp only [hfull, if_true, List.append_nil, List.length_map]
      refine ⟨?_, by omega, rfl⟩
      have hlength' : l.length +
          (List.replicate (max * 2 - max) (none : Option (K × V))).length = max * 2 := by
        rw [List.length_replicate]
        omega
      have hholds := Holds.alloc l (by omega) hlength'
      rwa [hfull] at hholds
    · simp only [hfull, if_false]
      exact ⟨.alloc l hmax hlength, by omega, rfl⟩

theorem Holds.copy (h : Holds b l) : ∃ b', b.copy = some b' ∧ Holds b' l := by
  cases h with
  | null => exact ⟨_, rfl, .null⟩
  | alloc l hmax hlength =>
    rename_i max rest
    have hlength' : l.length +
        (List.replicate (max - l.length) (none : Option (K × V))).length = max := by
      rw [List.length_replicate]
      omega
    refine ⟨_, ?_, .alloc l hmax hlength'⟩
    unfold Bucket.copy
    simp only
    rw [if_pos (by omega), List.take_append_of_le_length (by simp),
      List.take_of_length_le (by simp)]

theorem Holds.clear (h : Holds b l) : Holds { b with cnt := 0 } [] := by
  cases h with
  | null => exact .null
  | alloc l hmax hlength =>
    rename_i max rest
    exact .alloc [] hmax (by simpa using hlength)

/-! ## Splitting a bucket -/

theorem le_trim {cnt fuel j : Nat} (hcnt : cnt ≤ j * 2) : cnt ≤ trim cnt fuel j * 2 := by
  induction fuel generalizing j with
  | zero => exact hcnt
  | succ fuel ih =>
    unfold trim
    split
    · exact ih (by omega)
    · exact hcnt

/-- The new bucket has room for all pairs of the old one. -/
theorem Holds.newBucket (h : Holds b l) :
    Holds (b.alloc zero) [] ∧ l.length ≤ (b.alloc zero).max ∧
      (b.alloc (zero : Bucket K V)).keyvals.isSome := by
  have hcnt : l.length ≤ b.max * 2 := by
    cases h with
    | null => exact Nat.le_refl _
    | alloc l hmax hlength =>
      simp only
      omega
  have htrim : l.length ≤ trim b.cnt b.max b.max * 2 := h.cnt_eq ▸ le_trim (h.cnt_eq ▸ hcnt)
  unfold Bucket.alloc
  by_cases hzero : trim b.cnt b.max b.max = 0
  · simp only [hzero, if_true]
    exact ⟨.alloc [] (by decide) (by simp), by omega, rfl⟩
  · simp only [hzero, if_false]
    exact ⟨.alloc [] (by omega) (by simp), htrim, rfl⟩

/-- The pairs that stay are left in the bucket, and the others are moved to the new one. -/
theorem Holds.rehash (ops : KeyOps K) (size i : Nat) {moved : List (K × V)}
    (h : Holds b (before ++ l))
    (hnb : Holds nb moved) (halloc : nb.keyvals.isSome) (hroom : moved.length + l.length ≤ nb.max)
    (hstays : ∀ keyval ∈ before, ops.hash keyval.1 &&& (size - 1) = i)
    (hmoves : ∀ keyval ∈ moved, ops.hash keyval.1 &&& (size - 1) ≠ i) :
    ∃ b' nb' lo hi, b.rehash ops size i l.length before.length nb = some (b', nb') ∧
      Holds b' lo ∧ Holds nb' hi ∧ (lo ++ hi).Perm (before ++ l ++ moved) ∧
      (∀ keyval ∈ lo, ops.hash keyval.1 &&& (size - 1) = i) ∧
      ∀ keyval ∈ hi, ops.hash keyval.1 &&& (size - 1) ≠ i := by
  induction hn : l.length generalizing b nb before l moved with
  | zero =>
    obtain rfl := List.length_eq_zero_iff.mp hn
    rw [List.append_nil] at h
    exact ⟨b, nb, before, moved, rfl, h, hnb, by simp, hstays, hmoves⟩
  | succ n ih =>
    obtain ⟨keyval, l, rfl⟩ := List.exists_cons_of_length_eq_add_one hn
    have hn' : l.length = n := by simpa using hn
    rw [List.length_cons] at hroom
    have hstep : b.rehash ops size i (n + 1) before.length nb =
        if ops.hash keyval.1 &&& (size - 1) ≠ i then
          (nb.append keyval).bind fun nb => (b.remove before.length).bind fun b =>
            b.rehash ops size i n before.length nb
        else b.rehash ops size i n (before.length + 1) nb := by
      rw [Bucket.rehash, h.read_append]
      rfl
    rw [hstep]
    split
    next hmove =>
      obtain ⟨cells, hcells⟩ := Option.isSome_iff_exists.mp halloc
      obtain ⟨nb', happend, hnb', hmax, halloc'⟩ := hnb.append hcells (by omega) keyval
      obtain ⟨b', rest, hremove, h', hperm, -⟩ := h.remove
      have hrest : rest.length = n := hperm.length_eq.trans hn'
      obtain ⟨b'', nb'', lo, hi, hrun, hlo, hhi, hall, hlo', hhi'⟩ := ih h' hnb' halloc'
        (by rw [hmax, List.length_append, List.length_singleton]; omega) hstays
        (fun other hother => by
          rcases List.mem_append.mp hother with hother | hother
          · exact hmoves other hother
          · rwa [List.mem_singleton.mp hother]) hrest
      refine ⟨b'', nb'', lo, hi, ?_, hlo, hhi, hall.trans ?_, hlo', hhi'⟩
      · rw [happend, Option.bind_some, hremove, Option.bind_some, hrun]
      · calc before ++ rest ++ (moved ++ [keyval])
            _ = before ++ (rest ++ moved ++ [keyval]) := by simp
            List.Perm _ (before ++ (keyval :: (rest ++ moved))) :=
              (List.perm_append_singleton keyval (rest ++ moved)).append_left before
            List.Perm _ (before ++ (keyval :: (l ++ moved))) :=
              ((hperm.append_right moved).cons keyval).append_left before
            _ = before ++ keyval :: l ++ moved := by simp
    next hstay =>
      have h' : Holds b ((before ++ [keyval]) ++ l) := by
        rwa [List.append_assoc, List.singleton_append]
      have hstays' : ∀ other ∈ before ++ [keyval], ops.hash other.1 &&& (size - 1) = i := by
        intro other hother
        rcases List.mem_append.mp hother with hother | hother
        · exact hstays other hother
        · rw [List.mem_singleton.mp hother]
          exact not_not.mp hstay
      have hrun := ih h' hnb halloc (by omega) hstays' hmoves hn'
      rw [List.length_append, List.length_singleton, List.append_assoc before [keyval] l,
        List.singleton_append] at hrun
      exact hrun

end Bucket

/-! ## Pairs and entries -/

/-- The pairs in the buckets. -/
def pairs (size : Nat) (L : Nat → List (K × V)) : Multiset (K × V) :=
  ∑ i ∈ Finset.range size, (L i : Multiset (K × V))

/-- The pairs in the buckets other than one. -/
def others (size : Nat) (L : Nat → List (K × V)) (i : Nat) : Multiset (K × V) :=
  ∑ j ∈ (Finset.range size).erase i, (L j : Multiset (K × V))

section Pairs

variable {size i : Nat} {L : Nat → List (K × V)}

theorem pairs_eq (hi : i < size) : pairs size L = (L i : Multiset (K × V)) + others size L i :=
  (Finset.add_sum_erase _ _ (Finset.mem_range.mpr hi)).symm

theorem others_update (l : List (K × V)) :
    others size (Function.update L i l) i = others size L i :=
  Finset.sum_congr rfl fun j hj => by rw [Function.update_of_ne (Finset.ne_of_mem_erase hj)]

theorem pairs_update (hi : i < size) (l : List (K × V)) :
    pairs size (Function.update L i l) = (l : Multiset (K × V)) + others size L i := by
  rw [pairs_eq hi, Function.update_self, others_update]

theorem mem_pairs {keyval : K × V} : keyval ∈ pairs size L ↔ ∃ i < size, keyval ∈ L i := by
  unfold pairs
  simp [Multiset.mem_sum]

end Pairs

def toEntry (ops : KeyOps K) (keyval : K × V) : Sigma fun _ : ops.Key => V :=
  ⟨ops.key keyval.1, keyval.2⟩

section Entries

variable {m : KeyMap ops V} {k : ops.Key} {v : V} {rest : Multiset (Sigma fun _ : ops.Key => V)}

theorem lookup_eq_some_iff : m.lookup k = some v ↔ (⟨k, v⟩ : Sigma _) ∈ m.entries := by
  induction m using Finmap.induction_on with
  | H a => exact AList.mem_lookup_iff

theorem insert_erase (h : m.lookup k = some v) : Finmap.insert k v (m.erase k) = m := by
  refine Finmap.ext_lookup fun k' => ?_
  by_cases hk : k' = k
  · rw [hk, Finmap.lookup_insert, h]
  · rw [Finmap.lookup_insert_of_ne _ hk, Finmap.lookup_erase_ne hk]

theorem insert_eq (v : V) : Finmap.insert k v (m.erase k) = Finmap.insert k v m := by
  refine Finmap.ext_lookup fun k' => ?_
  by_cases hk : k' = k
  · rw [hk, Finmap.lookup_insert, Finmap.lookup_insert]
  · rw [Finmap.lookup_insert_of_ne _ hk, Finmap.lookup_insert_of_ne _ hk,
      Finmap.lookup_erase_ne hk]

theorem entries_erase (h : m.entries = (⟨k, v⟩ : Sigma _) ::ₘ rest) :
    (m.erase k).entries = rest := by
  have hlookup : m.lookup k = some v :=
    lookup_eq_some_iff.mpr (by rw [h]; exact Multiset.mem_cons_self _ _)
  have hentries :=
    Finmap.entries_insert_of_notMem (b := v) (Finmap.notMem_erase_self (a := k) (s := m))
  rw [insert_erase hlookup, h] at hentries
  exact ((Multiset.cons_inj_right _).mp hentries).symm

theorem entries_insert (h : m.entries = (⟨k, v⟩ : Sigma _) ::ₘ rest) (v' : V) :
    (Finmap.insert k v' m).entries = (⟨k, v'⟩ : Sigma _) ::ₘ rest := by
  rw [← insert_eq, Finmap.entries_insert_of_notMem Finmap.notMem_erase_self, entries_erase h]

end Entries

/-! ## The layout -/

/-- Each bucket holds its list, and each pair is in the bucket of its key. -/
structure Placed (ops : KeyOps K) (d : Dict K V) (L : Nat → List (K × V)) : Prop where
  size : ∃ p, d.size = 2 ^ p
  holds : ∀ i < d.size, (d.bin i).Holds (L i)
  home : ∀ i < d.size, ∀ keyval ∈ L i, d.binOf ops keyval.1 = i

/-- A dictionary with the entries of a map, which it counts. -/
structure Layout (ops : KeyOps K) (d : Dict K V) (L : Nat → List (K × V)) (m : KeyMap ops V) : Prop
    extends Placed ops d L where
  cnt : d.cnt = (pairs d.size L).card
  entries : m.entries = (pairs d.size L).map (toEntry ops)

variable {d : Dict K V} {L : Nat → List (K × V)} {m : KeyMap ops V}

theorem Placed.binOf_lt (h : Placed ops d L) (key : K) : d.binOf ops key < d.size := by
  obtain ⟨p, hp⟩ := h.size
  have hle : ops.hash key &&& (d.size - 1) ≤ d.size - 1 := Nat.and_le_right
  have hpos : 0 < d.size := hp ▸ Nat.two_pow_pos p
  unfold binOf
  omega

theorem binOf_eq {a b : K} (hab : ops.cmp a b = 0) : d.binOf ops a = d.binOf ops b := by
  unfold binOf
  rw [ops.hash_eq a b hab]

/-- The search in the bucket of a key finds the value that the map has for it. -/
theorem Layout.find (h : Layout ops d L m) (key : K) :
    (∃ front keyval back, L (d.binOf ops key) = front ++ keyval :: back ∧
      ops.key keyval.1 = ops.key key ∧ m.lookup (ops.key key) = some keyval.2 ∧
      (d.bin (d.binOf ops key)).find ops key (d.bin (d.binOf ops key)).cnt 0 =
        some (some (front.length, keyval))) ∨
    m.lookup (ops.key key) = none ∧
      (d.bin (d.binOf ops key)).find ops key (d.bin (d.binOf ops key)).cnt 0 = some none := by
  have hi := h.binOf_lt key
  rcases (h.holds _ hi).find ops key with
    ⟨front, keyval, back, hL, hkey, hfind⟩ | ⟨hnone, hfind⟩
  · have hkey' : ops.key keyval.1 = ops.key key := (ops.key_eq_iff.mpr hkey).symm
    refine Or.inl ⟨front, keyval, back, hL, hkey', lookup_eq_some_iff.mpr ?_, hfind⟩
    rw [h.entries, ← hkey']
    exact Multiset.mem_map_of_mem (toEntry ops) (mem_pairs.mpr ⟨_, hi, by rw [hL]; simp⟩)
  · refine Or.inr ⟨?_, hfind⟩
    cases hlookup : m.lookup (ops.key key) with
    | none => rfl
    | some v =>
      have hmem := lookup_eq_some_iff.mp hlookup
      rw [h.entries, Multiset.mem_map] at hmem
      obtain ⟨keyval, hkeyval, hentry⟩ := hmem
      obtain ⟨i, hlt, hmem⟩ := mem_pairs.mp hkeyval
      have hcmp : ops.cmp key keyval.1 = 0 :=
        ops.key_eq_iff.mp (Sigma.mk.inj hentry).1.symm
      rw [binOf_eq hcmp, h.home i hlt keyval hmem] at hnone
      exact absurd hcmp (hnone keyval hmem)

theorem Layout.get (h : Layout ops d L m) (key : K) :
    d.get ops key = some (m.lookup (ops.key key)) := by
  unfold Dict.get
  rcases h.find key with ⟨front, keyval, back, -, -, hlookup, hfind⟩ | ⟨hlookup, hfind⟩
  · simp only [hfind, hlookup]
    rfl
  · simp only [hfind, hlookup]
    rfl

/-- The entries, with those of one bucket in front. -/
theorem Layout.entries_bucket (h : Layout ops d L m) {i : Nat} (hi : i < d.size)
    {front back : List (K × V)} {keyval : K × V} (hL : L i = front ++ keyval :: back) :
    m.entries = toEntry ops keyval ::ₘ
      (((front ++ back : List (K × V)) : Multiset (K × V)) +
        others d.size L i).map (toEntry ops) := by
  have hperm :
      (L i : Multiset (K × V)) = keyval ::ₘ ((front ++ back : List (K × V)) : Multiset _) := by
    rw [hL]
    exact Multiset.coe_eq_coe.mpr List.perm_middle
  rw [h.entries, pairs_eq hi, hperm, Multiset.cons_add, Multiset.map_cons]

/-- Another list in one bucket. -/
theorem Placed.setBin (h : Placed ops d L) {i : Nat} {b : Bucket K V} {l : List (K × V)}
    (hb : b.Holds l) (hl : ∀ keyval ∈ l, d.binOf ops keyval.1 = i) :
    Placed ops (d.setBin i b) (Function.update L i l) where
  size := h.size
  holds j hj := by
    change (Function.update d.bin i b j).Holds _
    by_cases hji : j = i
    · rw [hji, Function.update_self, Function.update_self]
      exact hb
    · rw [Function.update_of_ne hji, Function.update_of_ne hji]
      exact h.holds j hj
  home j hj keyval hkeyval := by
    by_cases hji : j = i
    · rw [hji, Function.update_self] at hkeyval
      exact (hl keyval hkeyval).trans hji.symm
    · rw [Function.update_of_ne hji] at hkeyval
      exact h.home j hj keyval hkeyval

theorem Layout.write (h : Layout ops d L m) {key : K} {front back : List (K × V)}
    {keyval : K × V} (hL : L (d.binOf ops key) = front ++ keyval :: back)
    (hkey : ops.key keyval.1 = ops.key key) (val : V) :
    ∃ b, (d.bin (d.binOf ops key)).write front.length (key, val) = some b ∧
      Layout ops (d.setBin (d.binOf ops key) b)
        (Function.update L (d.binOf ops key) (front ++ (key, val) :: back))
        (Finmap.insert (ops.key key) val m) := by
  have hi := h.binOf_lt key
  have hholds := h.holds _ hi
  have hhome := h.home _ hi
  have hentries := h.entries_bucket hi hL
  rw [hL] at hholds hhome
  obtain ⟨b, hwrite, hb⟩ := hholds.write (key, val)
  refine ⟨b, hwrite, ⟨h.setBin hb fun other hother => ?_, ?_, ?_⟩⟩
  · rcases List.mem_append.mp hother with hother | hother
    · exact hhome other (List.mem_append_left _ hother)
    · rcases List.mem_cons.mp hother with rfl | hother
      · rfl
      · exact hhome other (List.mem_append_right _ (List.mem_cons_of_mem _ hother))
  · change d.cnt = (pairs d.size _).card
    rw [h.cnt, pairs_eq hi, pairs_update hi, hL]
    simp
  · change _ = (pairs d.size _).map _
    have hperm : ((front ++ (key, val) :: back : List (K × V)) : Multiset (K × V)) =
        (key, val) ::ₘ ((front ++ back : List (K × V)) : Multiset _) :=
      Multiset.coe_eq_coe.mpr List.perm_middle
    rw [pairs_update hi, hperm, Multiset.cons_add, Multiset.map_cons]
    unfold toEntry at hentries ⊢
    rw [hkey] at hentries
    exact entries_insert hentries val

theorem Layout.delete (h : Layout ops d L m) (key : K) :
    ∃ d' L', d.delete ops key = some (m.lookup (ops.key key), d') ∧
      Layout ops d' L' (m.erase (ops.key key)) := by
  have hi := h.binOf_lt key
  rcases h.find key with ⟨front, keyval, back, hL, hkey, hlookup, hfind⟩ | ⟨hlookup, hfind⟩
  · have hholds := h.holds _ hi
    have hhome := h.home _ hi
    have hentries := h.entries_bucket hi hL
    rw [hL] at hholds hhome
    obtain ⟨b, rest, hremove, hb, hperm, -⟩ := hholds.remove
    have hrest : ((front ++ rest : List (K × V)) : Multiset (K × V)) =
        ((front ++ back : List (K × V)) : Multiset (K × V)) :=
      Multiset.coe_eq_coe.mpr (hperm.append_left front)
    have hplaced : Placed ops (d.setBin (d.binOf ops key) b)
        (Function.update L (d.binOf ops key) (front ++ rest)) := by
      refine h.setBin hb fun other hother => hhome other ?_
      rcases List.mem_append.mp hother with hother | hother
      · exact List.mem_append_left _ hother
      · exact List.mem_append_right _ (List.mem_cons_of_mem _ (hperm.mem_iff.mp hother))
    refine ⟨{ d.setBin (d.binOf ops key) b with cnt := d.cnt - 1 }, _, ?_,
      ⟨⟨hplaced.size, hplaced.holds, hplaced.home⟩, ?_, ?_⟩⟩
    · unfold Dict.delete
      simp only [hfind, hlookup, Option.bind_eq_bind, Option.bind_some, hremove]
      rfl
    · change d.cnt - 1 = (pairs d.size _).card
      rw [h.cnt, pairs_eq hi, pairs_update hi, hrest, hL]
      simp only [Multiset.card_add, Multiset.coe_card, List.length_append, List.length_cons]
      omega
    · change _ = (pairs d.size _).map _
      rw [pairs_update hi, hrest]
      unfold toEntry at hentries ⊢
      rw [hkey] at hentries
      exact entries_erase hentries
  · refine ⟨d, L, ?_, ?_⟩
    · unfold Dict.delete
      simp only [hfind, hlookup, Option.bind_eq_bind, Option.bind_some]
      rfl
    · have herase : m.erase (ops.key key) = m := by
        refine Finmap.ext_lookup fun k => ?_
        by_cases hk : k = ops.key key
        · rw [hk, Finmap.lookup_erase, hlookup]
        · rw [Finmap.lookup_erase_ne hk]
      rw [herase]
      exact h

theorem Layout.clear (h : Layout ops d L m) :
    Layout ops d.clear (fun _ => []) (∅ : KeyMap ops V) where
  size := h.size
  holds i hi := (h.holds i hi).clear
  home _ _ _ hkeyval := absurd hkeyval List.not_mem_nil
  cnt := by simp [Dict.clear, pairs]
  entries := by
    unfold pairs
    simp only [Multiset.coe_nil, Finset.sum_const_zero, Multiset.map_zero]
    rfl

/-- A copy has the same lists in buckets of its own. -/
theorem Placed.copy (h : Placed ops d L) :
    ∃ d', d.copy = some d' ∧ Placed ops d' L ∧ d'.size = d.size ∧ d'.cnt = d.cnt := by
  have hrun : ∀ k ≤ d.size, ∃ d', (List.range k).foldlM
      (fun d i => (d.bin i).copy.map (d.setBin i)) d = some d' ∧
      d'.size = d.size ∧ d'.cnt = d.cnt ∧ ∀ i < d.size, (d'.bin i).Holds (L i) := by
    intro k hk
    induction k with
    | zero => exact ⟨d, rfl, rfl, rfl, h.holds⟩
    | succ k ih =>
      obtain ⟨d', hrun, hsize, hcnt, hholds⟩ := ih (by omega)
      obtain ⟨b, hcopy, hb⟩ := (hholds k hk).copy
      refine ⟨d'.setBin k b, ?_, hsize, hcnt, fun i hi => ?_⟩
      · rw [List.range_succ, List.foldlM_append, hrun]
        simp [hcopy]
      · change (Function.update d'.bin k b i).Holds _
        by_cases hik : i = k
        · rw [hik, Function.update_self]
          exact hb
        · rw [Function.update_of_ne hik]
          exact hholds i hi
  obtain ⟨d', hrun, hsize, hcnt, hholds⟩ := hrun d.size (Nat.le_refl _)
  refine ⟨d', hrun, ⟨hsize ▸ h.size, fun i hi => hholds i (hsize ▸ hi),
    fun i hi keyval hkeyval => ?_⟩, hsize, hcnt⟩
  have hhome := h.home i (hsize ▸ hi) keyval hkeyval
  unfold binOf at hhome ⊢
  rw [hsize]
  exact hhome

theorem Layout.copy (h : Layout ops d L m) : ∃ d', d.copy = some d' ∧ Layout ops d' L m := by
  obtain ⟨d', hcopy, hplaced, hsize, hcnt⟩ := h.toPlaced.copy
  refine ⟨d', hcopy, ⟨hplaced, ?_, ?_⟩⟩
  · rw [hcnt, hsize]
    exact h.cnt
  · rw [hsize]
    exact h.entries

/-! ## Doubling -/

/-- Doubling exposes one more bit of the hash. -/
theorem and_double (x p : Nat) : x &&& (2 ^ p * 2 - 1) = x &&& (2 ^ p - 1) ∨
    x &&& (2 ^ p * 2 - 1) = (x &&& (2 ^ p - 1)) + 2 ^ p := by
  have hmod : x % (2 ^ p * 2) = x % 2 ^ p + 2 ^ p * (x / 2 ^ p % 2) := Nat.mod_mul
  rw [Nat.and_two_pow_sub_one_eq_mod, ← pow_succ, Nat.and_two_pow_sub_one_eq_mod, pow_succ, hmod]
  rcases Nat.mod_two_eq_zero_or_one (x / 2 ^ p) with hbit | hbit
  · exact Or.inl (by rw [hbit, Nat.mul_zero, Nat.add_zero])
  · exact Or.inr (by rw [hbit, Nat.mul_one])

/-- The old buckets below an index have been split. -/
structure Splitting (ops : KeyOps K) (d₀ : Dict K V) (L₀ : Nat → List (K × V)) (k : Nat)
    (d : Dict K V) (L : Nat → List (K × V)) : Prop where
  size : d.size = d₀.size * 2
  cnt : d.cnt = d₀.cnt
  holds : ∀ i < d₀.size * 2, (d.bin i).Holds (L i)
  lower : ∀ i, k ≤ i → i < d₀.size → ∀ keyval ∈ L i, d₀.binOf ops keyval.1 = i
  upper : ∀ i, k ≤ i → i < d₀.size → d.bin (i + d₀.size) = .zero ∧ L (i + d₀.size) = []
  home : ∀ i < k, (∀ keyval ∈ L i, d.binOf ops keyval.1 = i) ∧
    ∀ keyval ∈ L (i + d₀.size), d.binOf ops keyval.1 = i + d₀.size
  pairs : pairs (d₀.size * 2) L = Dict.pairs d₀.size L₀

variable {d₀ : Dict K V} {L₀ : Nat → List (K × V)} {k : Nat}

theorem Splitting.next (h : Splitting ops d₀ L₀ k d L) (hk : k < d₀.size)
    (hpow : ∃ p, d₀.size = 2 ^ p) :
    ∃ d' L', d.split ops d₀.size k = some d' ∧ Splitting ops d₀ L₀ (k + 1) d' L' := by
  obtain ⟨p, hp⟩ := hpow
  obtain ⟨hzero, hnil⟩ := h.upper k (Nat.le_refl _) hk
  have hholds := h.holds k (by omega)
  have hlower := h.lower k (Nat.le_refl _) hk
  unfold split
  cases halloc : (d.bin k).keyvals.isNone with
  | true =>
    have hempty := hholds.nil_of_isNone halloc
    refine ⟨d, L, by simp, ⟨h.size, h.cnt, h.holds, fun i hi => h.lower i (by omega),
      fun i hi => h.upper i (by omega), fun i hi => ?_, h.pairs⟩⟩
    rcases Nat.eq_or_lt_of_le (Nat.le_of_lt_succ hi) with rfl | hi
    · rw [hempty, hnil]
      simp
    · exact h.home i hi
  | false =>
    obtain ⟨hnew, hroom, hnewalloc⟩ := hholds.newBucket
    obtain ⟨b, nb, lo, hi, hrun, hlo, hhi, hperm, hstays, hmoves⟩ :=
      Bucket.Holds.rehash ops d.size k (show Bucket.Holds (d.bin k) ([] ++ L k) from hholds) hnew
        hnewalloc (by simpa using hroom) (by simp) (by simp)
    have hne : k + d₀.size ≠ k := by omega
    have hmem : ∀ keyval, keyval ∈ lo ∨ keyval ∈ hi → keyval ∈ L k := by
      intro keyval hkeyval
      have hmem := hperm.mem_iff.mp (List.mem_append.mpr hkeyval)
      simpa using hmem
    have hbin : ∀ keyval : K × V, d.binOf ops keyval.1 =
        ops.hash keyval.1 &&& (d.size - 1) := fun _ => rfl
    -- The bit that is exposed tells the two buckets apart.
    have hupper : ∀ keyval ∈ hi, d.binOf ops keyval.1 = k + d₀.size := by
      intro keyval hkeyval
      have hold : ops.hash keyval.1 &&& (2 ^ p - 1) = k := by
        rw [← hp]
        exact hlower keyval (hmem keyval (Or.inr hkeyval))
      have hmove := hmoves keyval hkeyval
      rw [hbin, h.size, hp]
      rw [h.size, hp] at hmove
      rcases and_double (ops.hash keyval.1) p with hsame | hexposed
      · exact absurd (hsame.trans hold) hmove
      · rw [hexposed, hold]
    refine ⟨(d.setBin k b).setBin (k + d₀.size) nb,
      Function.update (Function.update L k lo) (k + d₀.size) hi, ?_, ⟨h.size, h.cnt, ?_, ?_, ?_,
      ?_, ?_⟩⟩
    · rw [hzero, hholds.cnt_eq]
      simp only [Bool.false_eq_true, if_false, Option.bind_eq_bind]
      have hrun' : (d.bin k).rehash ops d.size k (L k).length 0 ((d.bin k).alloc .zero) =
          some (b, nb) := hrun
      rw [hrun']
      rfl
    · intro i hi'
      change (Function.update (Function.update d.bin k b) (k + d₀.size) nb i).Holds _
      by_cases hik : i = k + d₀.size
      · rw [hik, Function.update_self, Function.update_self]
        exact hhi
      · rw [Function.update_of_ne hik, Function.update_of_ne hik]
        by_cases hik' : i = k
        · rw [hik', Function.update_self, Function.update_self]
          exact hlo
        · rw [Function.update_of_ne hik', Function.update_of_ne hik']
          exact h.holds i hi'
    · intro i hki hi'
      rw [Function.update_of_ne (by omega), Function.update_of_ne (by omega)]
      exact h.lower i (by omega) hi'
    · intro i hki hi'
      change Function.update (Function.update d.bin k b) (k + d₀.size) nb (i + d₀.size) = _ ∧ _
      rw [Function.update_of_ne (by omega), Function.update_of_ne (by omega),
        Function.update_of_ne (by omega), Function.update_of_ne (by omega)]
      exact h.upper i (by omega) hi'
    · intro i hki
      change (∀ keyval : K × V, keyval ∈ _ → d.binOf ops keyval.1 = i) ∧
        ∀ keyval : K × V, keyval ∈ _ → d.binOf ops keyval.1 = i + d₀.size
      rcases Nat.eq_or_lt_of_le (Nat.le_of_lt_succ hki) with rfl | hki
      · rw [Function.update_of_ne hne.symm, Function.update_self, Function.update_self]
        exact ⟨hstays, hupper⟩
      · rw [Function.update_of_ne (by omega), Function.update_of_ne (by omega),
          Function.update_of_ne (by omega), Function.update_of_ne (by omega)]
        exact h.home i hki
    · have hhigh : k + d₀.size < d₀.size * 2 := by omega
      have hsum : (lo : Multiset (K × V)) + (hi : Multiset (K × V)) = (L k : Multiset (K × V)) := by
        rw [Multiset.coe_add]
        exact Multiset.coe_eq_coe.mpr (by simpa using hperm)
      have hothers : others (d₀.size * 2) (Function.update L k lo) (k + d₀.size) =
          Dict.pairs (d₀.size * 2) (Function.update L k lo) := by
        rw [pairs_eq hhigh, Function.update_of_ne hne, hnil, Multiset.coe_nil, zero_add]
      rw [pairs_update hhigh, hothers, pairs_update (by omega), ← h.pairs,
        pairs_eq (show k < d₀.size * 2 by omega), ← hsum, ← add_assoc,
        add_comm (hi : Multiset (K × V))]

theorem Placed.doubhash (h : Placed ops d L) :
    ∃ d' L', d.doubhash ops = some d' ∧ Placed ops d' L' ∧ d'.cnt = d.cnt ∧
      pairs d'.size L' = pairs d.size L := by
  have hrun : ∀ k ≤ d.size, ∃ d' L', (List.range k).foldlM (split ops d.size)
      { d with size := d.size * 2, bin := fun i => if i < d.size then d.bin i else .zero } =
        some d' ∧ Splitting ops d L k d' L' := by
    intro k hk
    induction k with
    | zero =>
      refine ⟨_, fun i => if i < d.size then L i else [], rfl, ⟨rfl, rfl, fun i _ => ?_,
        fun i _ hi => ?_, fun i _ hi => ?_, fun i hi => absurd hi (Nat.not_lt_zero _), ?_⟩⟩
      · simp only
        split
        next hi => exact h.holds i hi
        next => exact .null
      · rw [if_pos hi]
        exact h.home i hi
      · rw [if_neg (by omega)]
        exact ⟨if_neg (by omega), rfl⟩
      · unfold pairs
        rw [Nat.mul_two, Finset.sum_range_add]
        have hhigh : ∑ i ∈ Finset.range d.size,
            ((if d.size + i < d.size then L (d.size + i) else [] : List (K × V)) :
              Multiset (K × V)) = 0 :=
          Finset.sum_eq_zero fun i _ => by rw [if_neg (by omega)]; rfl
        rw [hhigh, add_zero]
        exact Finset.sum_congr rfl fun i hi =>
          congrArg _ (if_pos (Finset.mem_range.mp hi))
    | succ k ih =>
      obtain ⟨d', L', hrun, hsplitting⟩ := ih (by omega)
      obtain ⟨d'', L'', hstep, hsplitting'⟩ := hsplitting.next hk h.size
      refine ⟨d'', L'', ?_, hsplitting'⟩
      rw [List.range_succ, List.foldlM_append, hrun]
      simp [hstep]
  obtain ⟨d', L', hrun, hsplit⟩ := hrun d.size (Nat.le_refl _)
  obtain ⟨p, hp⟩ := h.size
  refine ⟨d', L', hrun, ⟨⟨p + 1, by rw [hsplit.size, hp, pow_succ]⟩,
    fun i hi => hsplit.holds i (hsplit.size ▸ hi), fun i hi => ?_⟩, hsplit.cnt, ?_⟩
  · rw [hsplit.size] at hi
    rcases Nat.lt_or_ge i d.size with hlt | hge
    · exact (hsplit.home i hlt).1
    · obtain ⟨j, rfl⟩ := Nat.exists_eq_add_of_le' hge
      exact (hsplit.home j (by omega)).2
  · rw [hsplit.size]
    exact hsplit.pairs

/-! ## Inserting -/

theorem Placed.growIfFull (h : Placed ops d L) :
    ∃ d' L', d.growIfFull ops = some d' ∧ Placed ops d' L' ∧ d'.cnt = d.cnt ∧
      pairs d'.size L' = pairs d.size L := by
  unfold Dict.growIfFull
  split
  next => exact h.doubhash
  next => exact ⟨_, L, rfl, h, rfl, rfl⟩

/-- A pair with a new key, put behind the others of its bucket. -/
theorem Placed.append (h : Placed ops d L) (key : K) (val : V) :
    ∃ b, (d.bin (d.binOf ops key)).grow.append (key, val) = some b ∧
      Placed ops (d.setBin (d.binOf ops key) b)
        (Function.update L (d.binOf ops key) (L (d.binOf ops key) ++ [(key, val)])) := by
  have hi := h.binOf_lt key
  obtain ⟨hgrow, hroom, halloc⟩ := (h.holds _ hi).grow
  obtain ⟨cells, hcells⟩ := Option.isSome_iff_exists.mp halloc
  obtain ⟨b, happend, hb, -⟩ := hgrow.append hcells hroom (key, val)
  refine ⟨b, happend, h.setBin hb fun other hother => ?_⟩
  rcases List.mem_append.mp hother with hother | hother
  · exact h.home _ hi other hother
  · rw [List.mem_singleton.mp hother]

theorem pairs_append {size i : Nat} (hi : i < size) (keyval : K × V) :
    pairs size (Function.update L i (L i ++ [keyval])) = keyval ::ₘ pairs size L := by
  have hperm : ((L i ++ [keyval] : List (K × V)) : Multiset (K × V)) =
      keyval ::ₘ (L i : Multiset (K × V)) :=
    Multiset.coe_eq_coe.mpr (List.perm_append_singleton keyval (L i))
  rw [pairs_update hi, pairs_eq hi, hperm, Multiset.cons_add]

theorem Layout.insert (h : Layout ops d L m) (key : K) (val : V) (replace : Bool) :
    ∃ d' L', d.insert ops key val replace = some (m.lookup (ops.key key), d') ∧
      Layout ops d' L' (if replace ∨ m.lookup (ops.key key) = none then
        Finmap.insert (ops.key key) val m else m) := by
  rcases h.find key with ⟨front, keyval, back, hL, hkey, hlookup, hfind⟩ | ⟨hlookup, hfind⟩
  · cases replace with
    | false =>
      refine ⟨d, L, ?_, by simpa [hlookup] using h⟩
      unfold Dict.insert
      simp only [hfind, hlookup, Option.bind_eq_bind, Option.bind_some]
      rfl
    | true =>
      obtain ⟨b, hwrite, hlayout⟩ := h.write hL hkey val
      refine ⟨_, _, ?_, by simpa using hlayout⟩
      unfold Dict.insert
      simp only [hfind, hlookup, Option.bind_eq_bind, Option.bind_some, hwrite]
      rfl
  · -- The table that the pair goes into, doubled if it is full.
    have hcounted : Placed ops { d with cnt := d.cnt + 1 } L := ⟨h.size, h.holds, h.home⟩
    obtain ⟨d', L', hgrown, hplaced, hcnt, hpairs⟩ := hcounted.growIfFull
    obtain ⟨b, happend, hplaced'⟩ := hplaced.append key val
    have hi := hplaced.binOf_lt key
    refine ⟨d'.setBin (d'.binOf ops key) b, _, ?_, ⟨hplaced', ?_, ?_⟩⟩
    · unfold Dict.insert
      simp only [hfind, hlookup, Option.bind_eq_bind, Option.bind_some, hgrown, happend]
      rfl
    · change d'.cnt = (pairs d'.size _).card
      rw [pairs_append hi, hpairs, Multiset.card_cons, hcnt, h.cnt]
    · change _ = (pairs d'.size _).map _
      rw [pairs_append hi, hpairs, Multiset.map_cons, ← h.entries, if_pos (Or.inr hlookup)]
      exact Finmap.entries_insert_of_notMem (Finmap.lookup_eq_none.mp hlookup)

theorem initialSize_eq (size fuel p : Nat) : ∃ q, initialSize size fuel (2 ^ p) = 2 ^ q := by
  induction fuel generalizing p with
  | zero => exact ⟨p, rfl⟩
  | succ fuel ih =>
    unfold initialSize
    split
    · rw [← pow_succ]
      exact ih (p + 1)
    · exact ⟨p, rfl⟩

theorem Layout.new (ops : KeyOps K) (size : Nat) :
    Layout ops (Dict.new size : Dict K V) (fun _ => []) ∅ where
  size := initialSize_eq size size 4
  holds _ _ := .null
  home _ _ _ hkeyval := absurd hkeyval List.not_mem_nil
  cnt := by simp [Dict.new, pairs]
  entries := by
    unfold pairs
    simp only [Multiset.coe_nil, Finset.sum_const_zero, Multiset.map_zero]
    rfl

theorem Layout.perform (h : Layout ops d L m) (op : Operation K V) :
    ∃ d' L', d.perform ops op = some ((KeyMap.perform m op).1, d') ∧
      Layout ops d' L' (KeyMap.perform m op).2 := by
  cases op with
  | insert key val replace => exact h.insert key val replace
  | delete key => exact h.delete key
  | clear => exact ⟨_, _, rfl, h.clear⟩
  | copy =>
    obtain ⟨d', hcopy, hlayout⟩ := h.copy
    refine ⟨d', L, ?_, hlayout⟩
    unfold Dict.perform
    simp only [hcopy]
    rfl

theorem Layout.run (h : Layout ops d L m) (l : List (Operation K V)) :
    ∃ d' L', d.run ops l = some ((KeyMap.run m l).1, d') ∧ Layout ops d' L' (KeyMap.run m l).2 := by
  induction l generalizing d L m with
  | nil => exact ⟨d, L, rfl, h⟩
  | cons op l ih =>
    obtain ⟨d', L', hop, h'⟩ := h.perform op
    obtain ⟨d'', L'', hrun, h''⟩ := ih h'
    refine ⟨d'', L'', ?_, h''⟩
    unfold Dict.run
    simp only [hop, hrun, Option.bind_eq_bind, Option.bind_some]
    rfl

end HotSpot.Dict

namespace HotSpot.DictI

open Dict

variable {K V : Type} {d : Dict K V} {L : Nat → List (K × V)}

/-- The pairs of the buckets from one on, each bucket from its end. -/
def pairsFrom (d : Dict K V) (L : Nat → List (K × V)) (i : Nat) : List (K × V) :=
  (List.range' i (d.size - i)).flatMap fun i => (L i).reverse

/-- What the iterator has in front of it, with the pair it is at. -/
inductive Ahead (d : Dict K V) (L : Nat → List (K × V)) : DictI K V → List (K × V) → Prop where
  | done {j : Nat} : Ahead d L ⟨d.size, j, none⟩ []
  | inside {i : Nat} {front back : List (K × V)} {keyval : K × V} (hi : i < d.size)
      (hL : L i = front ++ keyval :: back) :
      Ahead d L ⟨i, front.length, some keyval⟩ (keyval :: (front.reverse ++ pairsFrom d L (i + 1)))

theorem pairsFrom_of_lt {i : Nat} (hi : i < d.size) :
    pairsFrom d L i = (L i).reverse ++ pairsFrom d L (i + 1) := by
  obtain ⟨n, hn⟩ := Nat.exists_eq_add_of_lt hi
  unfold pairsFrom
  rw [show d.size - i = n + 1 by omega, show d.size - (i + 1) = n by omega, List.range'_succ,
    List.flatMap_cons]

theorem scan_ahead (hholds : ∀ i < d.size, (d.bin i).Holds (L i)) {left i : Nat}
    (hleft : i + left = d.size) (j : Nat) :
    ∃ it, scan d left ((i : Int) - 1) j = some it ∧ Ahead d L it (pairsFrom d L i) := by
  induction left generalizing i j with
  | zero =>
    rw [Nat.add_zero] at hleft
    refine ⟨_, rfl, ?_⟩
    have hnil : pairsFrom d L i = [] := by
      unfold pairsFrom
      rw [hleft, Nat.sub_self]
      rfl
    rw [hnil, Int.sub_add_cancel, hleft]
    exact .done
  | succ left ih =>
    have hi : i < d.size := by omega
    have hcnt := (hholds i hi).cnt_eq
    have hi' : ((i : Int) - 1 + 1).toNat = i := by omega
    unfold scan
    simp only [hi', hcnt]
    rw [pairsFrom_of_lt hi]
    rcases List.eq_nil_or_concat' (L i) with hL | ⟨front, keyval, hL⟩
    · rw [if_pos (by rw [hL]; rfl), hL]
      have hnext := ih (i := i + 1) (by omega) (L i).length
      rwa [hL, show ((i + 1 : Nat) : Int) - 1 = (i : Int) - 1 + 1 by omega] at hnext
    · have hread := (hholds i hi).read (j := (L i).length - 1) (by rw [hL]; simp)
      rw [if_neg (by rw [hL]; simp), hread]
      have hbound : (L i).length - 1 < (L i).length := by rw [hL]; simp
      have hlast : (L i)[(L i).length - 1] = keyval := by simp [hL]
      refine ⟨_, rfl, ?_⟩
      rw [hlast, Int.sub_add_cancel, hL]
      have hahead : Ahead d L _ _ := .inside hi hL
      simpa using hahead

theorem next_ahead (hholds : ∀ i < d.size, (d.bin i).Holds (L i)) {it : DictI K V}
    {keyval : K × V} {l : List (K × V)} (h : Ahead d L it (keyval :: l)) :
    ∃ it', it.next d = some it' ∧ Ahead d L it' l := by
  cases h with
  | @inside i front back keyval hi hL =>
    rcases List.eq_nil_or_concat' front with rfl | ⟨front, keyval', rfl⟩
    · unfold next
      obtain ⟨it', hscan, hahead⟩ := scan_ahead (i := i + 1) hholds
        (show i + 1 + (d.size - (i + 1)) = d.size by omega) (2 ^ 32 - 1)
      refine ⟨it', ?_, hahead⟩
      rw [show ((i + 1 : Nat) : Int) - 1 = i by omega] at hscan
      exact hscan
    · have hread := (hholds i hi).read (j := front.length) (by rw [hL]; simp)
      have hbound : front.length < (L i).length := by rw [hL]; simp
      have hget : (L i)[front.length] = keyval' := by simp [hL]
      refine ⟨⟨i, front.length, some keyval'⟩, ?_, ?_⟩
      · unfold next
        simp [hread, hget]
      · have hL' : L i = front ++ keyval' :: (keyval :: back) := by rw [hL]; simp
        have hahead := Ahead.inside hi hL'
        simpa using hahead

theorem enumerate_ahead (hholds : ∀ i < d.size, (d.bin i).Holds (L i)) {it : DictI K V}
    {l : List (K × V)} (h : Ahead d L it l) : enumerate d (l.length + 1) it = some l := by
  induction l generalizing it with
  | nil =>
    cases h
    unfold enumerate test
    simp
  | cons keyval l ih =>
    obtain ⟨it', hnext, h'⟩ := next_ahead hholds h
    have htest : it.test d = true ∧ it.keyval = some keyval := by
      cases h with
      | inside hi hL => exact ⟨by simpa [test] using hi, rfl⟩
    unfold enumerate
    simp only [htest.1, if_true, htest.2, hnext, Option.bind_eq_bind, Option.bind_some,
      List.length_cons, ih h']
    rfl

theorem coe_pairsFrom : (pairsFrom d L 0 : Multiset (K × V)) = pairs d.size L := by
  unfold pairsFrom pairs
  rw [Nat.sub_zero, ← List.range_eq_range']
  induction d.size with
  | zero => rfl
  | succ size ih =>
    rw [List.range_succ, List.flatMap_append, ← Multiset.coe_add, ih, Finset.sum_range_succ]
    simp

/-- The iteration goes over all pairs. -/
theorem enumerate_reset (hholds : ∀ i < d.size, (d.bin i).Holds (L i)) :
    ∃ it l, reset d = some it ∧ enumerate d (l.length + 1) it = some l ∧
      (l : Multiset (K × V)) = pairs d.size L := by
  obtain ⟨it, hscan, hahead⟩ := scan_ahead (i := 0) hholds (Nat.zero_add d.size) (2 ^ 32 - 1)
  exact ⟨it, _, hscan, enumerate_ahead hholds hahead, coe_pairsFrom⟩

end HotSpot.DictI

namespace HotSpot.Dict

variable {K V : Type} {ops : KeyOps K}

/-- What a dictionary answers when it has the entries of a map. -/
structure Represents (ops : KeyOps K) (d : Dict K V) (m : KeyMap ops V) : Prop where
  get : ∀ key, d.get ops key = some (m.lookup (ops.key key))
  size : d.cnt = m.keys.card
  enumerate : ∃ it l, DictI.reset d = some it ∧ DictI.enumerate d (l.length + 1) it = some l ∧
    ((l.map (toEntry ops) : List _) : Multiset _) = m.entries

/-- A dictionary refines a finite map: no operation goes beyond what is allocated, each
returns the prior value, and the dictionary answers as the map does. -/
theorem run_representsMap (ops : KeyOps K) (size : Nat) (l : List (Operation K V)) :
    ∃ d, (Dict.new size).run ops l = some ((KeyMap.run (∅ : KeyMap ops V) l).1, d) ∧
      Represents ops d (KeyMap.run (∅ : KeyMap ops V) l).2 := by
  obtain ⟨d, L, hrun, h⟩ := (Layout.new (V := V) ops size).run l
  refine ⟨d, hrun, h.get, ?_, ?_⟩
  · rw [h.cnt, ← Multiset.card_map (toEntry ops), ← h.entries]
    exact (Multiset.card_map _ _).symm
  · obtain ⟨it, pairs, hreset, henumerate, hpairs⟩ := DictI.enumerate_reset h.holds
    refine ⟨it, pairs, hreset, henumerate, ?_⟩
    rw [h.entries, ← hpairs, Multiset.map_coe]

/-- Numbers that are equal modulo 100, in buckets by their last two bits. -/
def hundreds : KeyOps Nat where
  hash k := k % 100 % 4
  cmp a b := (a % 100 : Nat) - (b % 100 : Nat)
  refl _ := Int.sub_self _
  symm _ _ h := by omega
  trans _ _ _ h h' := by omega
  hash_eq _ _ h := by omega

example : ((Dict.new 16).run hundreds [.insert 5 1 true, .insert 105 2 true, .insert 205 3 false,
    .delete 5, .delete 5]).map Prod.fst = some [none, some 1, some 2, some 2, none] := by
  decide

end HotSpot.Dict
