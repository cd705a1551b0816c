import HotSpot.ConcurrentMarkSweep.DictionaryInvariant

/-! # The largest chunk

The walk for the highest address in the list of the largest size stops at the last chunk before
comparing it.
-/

namespace HotSpot.BinaryTreeDictionary

variable {d : BinaryTreeDictionary} {t : BinaryTree Nat} {rest : Nat → List Nat} {fuel : Nat}

/-- The chunks of a list that may be handed out. -/
def available (a : Nat) (others : List Nat) : List Nat :=
  if others = [] then [a] else others

/-- The last chunk to hand out is not the one with the highest address among several. -/
def HighestBeforeLast (others : List Nat) : Prop :=
  others.length ≤ 1 ∨ ∃ x ∈ others.dropLast, ∃ y, others.getLast? = some y ∧ y < x

/-- The walk down right branches ends at the last node. -/
theorem rightmost_eq {a : Nat} {l r : BinaryTree Nat} {p q : Option Nat}
    (ht : LinkedTree d.links (.node a l r) p q) (hfuel : (inorder r).length < fuel) :
    d.rightmost fuel a = (inorder (.node a l r)).getLast? := by
  induction r generalizing a l p q fuel with
  | nil =>
    obtain ⟨fuel, rfl⟩ := Nat.exists_eq_add_one.mpr (Nat.zero_lt_of_lt hfuel)
    have hright : d.links.right a = none := ht.2.2.2
    rw [rightmost, hright]
    simp
  | node b l' r' ihl ihr =>
    obtain ⟨fuel, rfl⟩ := Nat.exists_eq_add_one.mpr (Nat.zero_lt_of_lt hfuel)
    have hright : d.links.right a = some b := ht.2.2.2.1
    rw [inorder_node, List.length_append, List.length_cons] at hfuel
    have hless : (inorder r').length < fuel := by omega
    have hlast := ihr ht.2.2.2 hless
    rw [rightmost, hright]
    simp only
    rw [hlast]
    simp [List.getLast?_append, List.getLast?_cons]

/-- The walk takes the maximum of all chunks but the last. -/
theorem largestFrom_eq {last fc : Nat} {cs : List Nat}
    (hlist : LinkedSegment d.next (some fc) (fc :: cs) none) (hfuel : cs.length < fuel) :
    d.largestFrom fuel last fc = some ((fc :: cs).dropLast.foldl max last) := by
  induction cs generalizing last fc fuel with
  | nil =>
    obtain ⟨fuel, rfl⟩ := Nat.exists_eq_add_one.mpr (Nat.zero_lt_of_lt hfuel)
    have hnext : d.next fc = none := hlist.2
    rw [largestFrom, hnext]
    rfl
  | cons c cs ih =>
    obtain ⟨fuel, rfl⟩ := Nat.exists_eq_add_one.mpr (Nat.zero_lt_of_lt hfuel)
    have hnext : d.next fc = some c := hlist.2.1
    have htail : LinkedSegment d.next (some c) (c :: cs) none := hnext ▸ hlist.2
    have hmax : (if last < fc then fc else last) = max last fc := by split <;> omega
    rw [largestFrom, hnext]
    simp only
    rw [ih htail (Nat.lt_of_succ_lt_succ hfuel), hmax]
    rfl

theorem largestAddress_eq {a : Nat} {others : List Nat} (h : ListOf d a others)
    (hfuel : others.length ≤ fuel) :
    d.largestAddress a fuel = some (others.dropLast.foldl max (others.headD a)) := by
  obtain ⟨-, hnext⟩ := h.forward
  cases others with
  | nil =>
    have hnone : d.next a = none := hnext
    simp [largestAddress, h.head, hnone]
  | cons c cs =>
    have hsome : d.next a = some c := hnext.1
    simp only [largestAddress, h.head, hsome, Option.bind_eq_bind, Option.bind_some]
    rw [largestFrom_eq (hsome ▸ hnext) hfuel]
    rfl

/-- A maximum over a list is one of its members or the start. -/
theorem foldl_max_spec (start : Nat) (cs : List Nat) :
    (cs.foldl max start = start ∨ cs.foldl max start ∈ cs) ∧ start ≤ cs.foldl max start ∧
      ∀ x ∈ cs, x ≤ cs.foldl max start := by
  induction cs generalizing start with
  | nil => simp
  | cons c cs ih =>
    obtain ⟨hmem, hle, hall⟩ := ih (max start c)
    rw [List.foldl_cons]
    refine ⟨?_, by omega, List.forall_mem_cons.mpr ⟨by omega, hall⟩⟩
    rcases hmem with heq | hmem
    · rw [heq]
      rcases Nat.le_total start c with hsc | hsc
      · exact .inr (by simp [Nat.max_eq_right hsc])
      · exact .inl (Nat.max_eq_left hsc)
    · exact .inr (List.mem_cons_of_mem _ hmem)

/-- When the walk ends with the highest address of the chunks that may be handed out. -/
theorem highest_iff {a : Nat} {others : List Nat} (hnodup : (a :: others).Nodup) :
    (∀ x ∈ available a others, x ≤ others.dropLast.foldl max (others.headD a)) ↔
      HighestBeforeLast others := by
  rcases List.eq_nil_or_concat' others with rfl | ⟨front, last, rfl⟩
  · simp [available, HighestBeforeLast]
  · cases front with
    | nil => simp [available, HighestBeforeLast]
    | cons c cs =>
      have hlast : last ∉ c :: cs := by
        have hnodup' := (List.nodup_cons.mp hnodup).2
        rw [List.nodup_append'] at hnodup'
        exact fun hmem => hnodup'.2.2 hmem List.mem_cons_self
      have hdrop : (c :: cs ++ [last]).dropLast = c :: cs := List.dropLast_concat
      have hhead : (c :: cs ++ [last]).headD a = c := rfl
      have hgetLast : (c :: cs ++ [last]).getLast? = some last := List.getLast?_concat
      have havailable : available a (c :: cs ++ [last]) = c :: cs ++ [last] := by
        simp [available]
      rw [havailable, hdrop, hhead, List.foldl_cons, Nat.max_self]
      obtain ⟨hmem, hle, hall⟩ := foldl_max_spec c cs
      have hmem' : cs.foldl max c ∈ c :: cs := by
        rcases hmem with heq | hmem
        · rw [heq]
          exact List.mem_cons_self
        · exact List.mem_cons_of_mem _ hmem
      constructor
      · intro hhighest
        refine .inr ⟨cs.foldl max c, by rwa [hdrop], last, hgetLast, ?_⟩
        have hless := hhighest last (by simp)
        have hne : last ≠ cs.foldl max c := fun heq => hlast (heq ▸ hmem')
        omega
      · rintro (hlength | ⟨x, hx, y, hy, hlt⟩) z hz
        · simp at hlength
        · rw [hdrop] at hx
          have hxle : x ≤ cs.foldl max c := by
            rcases List.mem_cons.mp hx with rfl | hx
            · exact hle
            · exact hall x hx
          have hylast : last = y := Option.some.inj (hgetLast.symm.trans hy)
          rcases List.mem_append.mp hz with hz | hz
          · rcases List.mem_cons.mp hz with rfl | hz
            · exact hle
            · exact hall z hz
          · obtain rfl := List.mem_singleton.mp hz
            omega

/-- The chunk found is of the largest size, and it has the highest address of those that may be
handed out exactly when the last of several does not. -/
theorem findLargestDict_exact {a : Nat} (h : Represents d t rest) (ha : a ∈ inorder t)
    (hlargest : ∀ b ∈ inorder t, (d.embeddedList b).size ≤ (d.embeddedList a).size)
    (hfuel : d.totalFreeBlocks ≤ fuel) :
    (∃ c, d.findLargestDict fuel = some (some c) ∧
      (∀ x ∈ chunks (inorder t) rest, d.size x ≤ d.size c) ∧
      c ∈ available a (rest a) ∧ ∀ x ∈ available a (rest a), x ≤ c) ↔
    HighestBeforeLast (rest a) := by
  have hnodes := length_le_chunks (inorder t) rest
  rw [h.lists.length_chunks] at hnodes
  obtain ⟨pre, post, hsplit⟩ := List.append_of_mem ha
  have hlists := h.lists
  rw [hsplit] at hlists
  -- the node of the largest size is the last
  have hpost : post = [] := by
    refine List.eq_nil_iff_forall_not_mem.mpr fun b hb => ?_
    have hsorted := hlists.sorted
    rw [List.pairwise_map, List.pairwise_append, List.pairwise_cons] at hsorted
    have hlt := hsorted.2.1.1 b hb
    have hle := hlargest b (by simp [hsplit, hb])
    omega
  have hlast : (inorder t).getLast? = some a := by rw [hsplit, hpost, List.getLast?_concat]
  obtain ⟨others, hperm⟩ := exists_chunks_perm ha rest
  have hlength : (rest a).length ≤ fuel := by
    have hall := h.lists.length_chunks
    rw [hperm.length_eq, List.length_append, List.length_cons] at hall
    omega
  have hfind : d.findLargestDict fuel =
      some (some ((rest a).dropLast.foldl max ((rest a).headD a))) := by
    cases t with
    | nil => simp at ha
    | node b l r =>
      have hroot : d.links.root = some b := h.tree.1.1
      rw [inorder_node, List.length_append, List.length_cons] at hnodes
      have hless : (inorder r).length < fuel := by omega
      rw [findLargestDict, hroot]
      simp only [Option.bind_eq_bind]
      rw [rightmost_eq h.tree.1 hless, hlast, Option.bind_some,
        largestAddress_eq (h.lists.listOf a ha) hlength, Option.bind_some]
  have hnodup : (a :: rest a).Nodup := by
    have hall := h.lists.nodup
    rw [hperm.nodup_iff, List.nodup_append'] at hall
    exact hall.1
  have hmem : (rest a).dropLast.foldl max ((rest a).headD a) ∈ available a (rest a) := by
    cases hrest : rest a with
    | nil => simp [available]
    | cons c cs =>
      obtain ⟨heq | hmem, -⟩ := foldl_max_spec c (c :: cs).dropLast
      · simp [available, heq]
      · simp only [available, reduceCtorEq, if_false, List.headD_cons]
        exact List.dropLast_subset _ hmem
  have hchunk : ∀ x ∈ available a (rest a), d.size x = (d.embeddedList a).size := by
    intro x hx
    refine (h.lists.listOf a ha).size x ?_
    unfold available at hx
    split at hx
    · exact List.mem_singleton.mp hx ▸ List.mem_cons_self
    · exact List.mem_cons_of_mem _ hx
  rw [← highest_iff hnodup]
  constructor
  · rintro ⟨c, hc, -, -, hhighest⟩
    rw [hfind] at hc
    rwa [Option.some.inj (Option.some.inj hc)]
  · intro hhighest
    refine ⟨_, hfind, fun x hx => ?_, hmem, hhighest⟩
    obtain ⟨b, hb, hxb⟩ := mem_chunks.mp hx
    rw [hchunk _ hmem, (h.lists.listOf b hb).size x hxb]
    exact hlargest b hb

/-- A dictionary of three chunks of sixteen words, in the order of their addresses. -/
def threeChunks : BinaryTreeDictionary where
  size := fun _ => 16
  prev := fun c => if c = 512 then some 256 else if c = 768 then some 512 else none
  next := fun c => if c = 256 then some 512 else if c = 512 then some 768 else none
  list := fun _ => some 256
  embeddedList := fun _ => ⟨some 256, some 768, 16, 3, 0, 0⟩
  links := ⟨some 256, fun _ => none, fun _ => none, fun _ => none⟩
  totalSize := 48
  totalFreeBlocks := 3

theorem threeChunks_represents :
    Represents threeChunks (.node 256 .nil .nil) fun _ => [512, 768] where
  tree := ⟨⟨rfl, rfl, rfl, rfl⟩, List.nodup_singleton _⟩
  lists := by
    refine ⟨?_, by decide, List.pairwise_singleton _ _, rfl, rfl⟩
    intro a ha
    obtain rfl := List.mem_singleton.mp ha
    exact ⟨rfl, rfl, rfl, ⟨rfl, rfl, rfl, rfl⟩, ⟨rfl, rfl, rfl, rfl⟩,
      fun _ _ => rfl, fun _ _ => rfl⟩

/-- The last of the three chunks is not compared. -/
theorem findLargestDict_not_highest :
    Represents threeChunks (.node 256 .nil .nil) (fun _ => [512, 768]) ∧
      threeChunks.findLargestDict 3 = some (some 512) ∧
      768 ∈ available 256 [512, 768] ∧ ¬ 768 ≤ 512 :=
  ⟨threeChunks_represents, rfl, by decide, by decide⟩

theorem findLargestDict_exact_threeChunks :
    ¬ ∃ c, threeChunks.findLargestDict 3 = some (some c) ∧
      (∀ x ∈ chunks (inorder (.node 256 .nil .nil)) fun _ => [512, 768],
        threeChunks.size x ≤ threeChunks.size c) ∧
      c ∈ available 256 [512, 768] ∧ ∀ x ∈ available 256 [512, 768], x ≤ c := by
  refine (findLargestDict_exact threeChunks_represents (a := 256) (by decide) ?_
    (Nat.le_refl 3)).not.mpr ?_
  · intro b _
    exact Nat.le_refl 16
  · rintro (hlength | ⟨x, hx, y, hy, hlt⟩)
    · simp at hlength
    · obtain rfl : x = 512 := by simpa using hx
      obtain rfl : 768 = y := by simpa using hy
      omega

end HotSpot.BinaryTreeDictionary
