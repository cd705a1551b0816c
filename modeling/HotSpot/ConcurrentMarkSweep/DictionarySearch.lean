import HotSpot.ConcurrentMarkSweep.DictionaryInvariant

/-! # Searching the dictionary

The walk down the tree for a size, the walk back up from where it ends, and the walk along the
hints.
-/

namespace HotSpot.BinaryTreeDictionary

variable {d : BinaryTreeDictionary} {t : BinaryTree Nat} {rest : Nat → List Nat}
  {size fuel : Nat}

/-- Where the walk down the tree `t` ends. -/
inductive Searched (d : BinaryTreeDictionary) (t : BinaryTree Nat) (size : Nat) :
    Option Nat → Option Nat → Prop
  | found {frames : List (TreeFrame Nat)} {a : Nat} {l r : BinaryTree Nat} {prevTL : Option Nat}
      (htree : plugAll frames (.node a l r) = t) (hsize : (d.embeddedList a).size = size) :
      Searched d t size prevTL (some a)
  | missing {frames : List (TreeFrame Nat)} {q : Option Nat} (htree : plugAll frames .nil = t)
      (hframes : LinkedFrames d.links frames none q)
      (hbefore : ∀ x ∈ nodesBefore frames, (d.embeddedList x).size < size)
      (hafter : ∀ x ∈ nodesAfter frames, size < (d.embeddedList x).size) :
      Searched d t size q none

theorem searchTree_spec {frames : List (TreeFrame Nat)} {p q prevTL : Option Nat}
    (hframes : LinkedFrames d.links frames p q) (ht : LinkedTree d.links t p q)
    (hsorted : ((inorder (plugAll frames t)).map fun a => (d.embeddedList a).size).Pairwise (· < ·))
    (hprev : p = none → prevTL = q)
    (hbefore : ∀ x ∈ nodesBefore frames, (d.embeddedList x).size < size)
    (hafter : ∀ x ∈ nodesAfter frames, size < (d.embeddedList x).size)
    (hfuel : (inorder t).length ≤ fuel) : ∃ prevTL' curTL',
      d.searchTree size fuel prevTL p = some (prevTL', curTL') ∧
        Searched d (plugAll frames t) size prevTL' curTL' := by
  induction t generalizing frames p q prevTL fuel with
  | nil =>
    obtain rfl : p = none := ht
    refine ⟨prevTL, none, by cases fuel <;> rfl, ?_⟩
    rw [hprev rfl]
    exact .missing rfl hframes hbefore hafter
  | node a l r ihl ihr =>
    obtain ⟨rfl, hparent, hl, hr⟩ := ht
    rw [inorder_node, List.length_append, List.length_cons] at hfuel
    obtain ⟨fuel, rfl⟩ : ∃ n, fuel = n + 1 := ⟨fuel - 1, by omega⟩
    have hnode : (∀ x ∈ inorder l, (d.embeddedList x).size < (d.embeddedList a).size) ∧
        ∀ x ∈ inorder r, (d.embeddedList a).size < (d.embeddedList x).size := by
      rw [inorder_plugAll, List.pairwise_map, inorder_node, List.append_assoc,
        List.pairwise_append, List.append_assoc, List.pairwise_append, List.cons_append,
        List.pairwise_cons] at hsorted
      obtain ⟨-, ⟨-, ⟨hright, -⟩, hleft⟩, -⟩ := hsorted
      exact ⟨fun x hx => hleft x hx a List.mem_cons_self,
        fun x hx => hright x (List.mem_append_left _ hx)⟩
    rw [searchTree]
    split
    next hsize => exact ⟨prevTL, some a, rfl, .found rfl hsize⟩
    next hsize =>
      split
      next hlt =>
        have hframes' : LinkedFrames d.links (.right a l :: frames) (d.links.right a) (some a) :=
          ⟨rfl, rfl, hl, hparent ▸ hframes⟩
        refine ihr hframes' hr hsorted (fun _ => rfl) ?_ hafter (by omega)
        intro x hx
        simp only [nodesBefore, List.mem_append, List.mem_singleton] at hx
        rcases hx with hx | hx | rfl
        · exact hbefore x hx
        · exact Nat.lt_trans (hnode.1 x hx) hlt
        · exact hlt
      next hlt =>
        have hgt : size < (d.embeddedList a).size := by omega
        have hframes' : LinkedFrames d.links (.left a r :: frames) (d.links.left a) (some a) :=
          ⟨rfl, rfl, hr, hparent ▸ hframes⟩
        refine ihl hframes' hl hsorted (fun _ => rfl) hbefore ?_ (by omega)
        intro x hx
        simp only [nodesAfter, List.cons_append, List.mem_cons, List.mem_append] at hx
        rcases hx with rfl | hx | hx
        · exact hgt
        · exact Nat.lt_trans hgt (hnode.2 x hx)
        · exact hafter x hx

/-- The walk from the root. -/
theorem Represents.searchTree (h : Represents d t rest) (hfuel : d.totalFreeBlocks ≤ fuel)
    (size : Nat) : ∃ prevTL curTL,
      d.searchTree size fuel d.links.root d.links.root = some (prevTL, curTL) ∧
        Searched d t size prevTL curTL := by
  have hlength := length_le_chunks (inorder t) rest
  rw [h.lists.length_chunks] at hlength
  have hroot : LinkedFrames d.links [] d.links.root none := ⟨rfl, rfl⟩
  refine searchTree_spec hroot h.tree.1 h.lists.sorted (fun hnil => hnil) ?_ ?_
    (Nat.le_trans hlength hfuel)
  · simp [nodesBefore]
  · simp [nodesAfter]

/-- A list of the given size is found when there is one. -/
theorem Represents.findList (h : Represents d t rest) (hfuel : d.totalFreeBlocks ≤ fuel)
    (size : Nat) : ∃ found, d.findList size fuel = some found ∧
      ∀ a, found = some a → a ∈ inorder t ∧ (d.embeddedList a).size = size := by
  obtain ⟨prevTL, curTL, hsearch, hwhere⟩ := h.searchTree hfuel size
  refine ⟨curTL, by simp [BinaryTreeDictionary.findList, hsearch], ?_⟩
  rintro a rfl
  cases hwhere with
  | found htree hsize =>
    refine ⟨?_, hsize⟩
    rw [← htree, (inorder_plugAll_perm _ _).mem_iff]
    simp

/-- The walk back up ends at the next node, if any. -/
theorem nextLarger_eq {frames : List (TreeFrame Nat)} {p q : Option Nat}
    (hframes : LinkedFrames d.links frames p q)
    (hbefore : ∀ x ∈ nodesBefore frames, (d.embeddedList x).size < size)
    (hafter : ∀ x ∈ nodesAfter frames, size < (d.embeddedList x).size)
    (hfuel : (nodesOutside frames).length ≤ fuel) :
    d.nextLarger size fuel q = some (nodesAfter frames).head? := by
  induction frames generalizing p q fuel with
  | nil =>
    obtain ⟨-, rfl⟩ := hframes
    cases fuel <;> rfl
  | cons frame frames ih =>
    rw [(nodesOutside_cons frame frames).length_eq, List.length_cons, List.length_append] at hfuel
    obtain ⟨fuel, rfl⟩ : ∃ n, fuel = n + 1 := ⟨fuel - 1, by omega⟩
    cases frame with
    | left a r =>
      obtain ⟨rfl, -⟩ := hframes
      have hle : size ≤ (d.embeddedList a).size :=
        Nat.le_of_lt (hafter a (by simp [nodesAfter]))
      rw [nextLarger, if_pos hle]
      rfl
    | right a l =>
      obtain ⟨rfl, -, -, hframes⟩ := hframes
      have hlt : (d.embeddedList a).size < size := hbefore a (by simp [nodesBefore])
      rw [nextLarger, if_neg (Nat.not_le.mpr hlt)]
      refine ih hframes (fun x hx => hbefore x ?_) hafter (by omega)
      exact List.mem_append_left _ hx

/-- The node `cand`, if any, has the least size that is at least `size`. -/
def LeastAbove (d : BinaryTreeDictionary) (nodes : List Nat) (size : Nat) (cand : Option Nat) :
    Prop :=
  (cand = none → ∀ x ∈ nodes, (d.embeddedList x).size < size) ∧
    ∀ a, cand = some a → a ∈ nodes ∧ size ≤ (d.embeddedList a).size ∧
      ∀ x ∈ nodes, size ≤ (d.embeddedList x).size →
        (d.embeddedList a).size ≤ (d.embeddedList x).size

/-- The walk down and back up finds the best fit. -/
theorem Represents.closestList (h : Represents d t rest) (hfuel : d.totalFreeBlocks ≤ fuel)
    (size : Nat) : ∃ cand, d.closestList size fuel = some cand ∧
      LeastAbove d (inorder t) size cand := by
  obtain ⟨prevTL, curTL, hsearch, hwhere⟩ := h.searchTree hfuel size
  have hlength := length_le_chunks (inorder t) rest
  rw [h.lists.length_chunks] at hlength
  cases hwhere with
  | @found frames a l r _ htree hsize =>
    refine ⟨some a, by simp [BinaryTreeDictionary.closestList, hsearch], nofun, ?_⟩
    intro b hb
    obtain rfl := Option.some.inj hb
    refine ⟨?_, Nat.le_of_eq hsize.symm, fun x _ hx => ?_⟩
    · rw [← htree, (inorder_plugAll_perm _ _).mem_iff]
      simp
    · rwa [hsize]
  | @missing frames q htree hframes hbefore hafter =>
    have hnodes : inorder t = nodesBefore frames ++ nodesAfter frames := by
      rw [← htree, inorder_plugAll]
      simp
    have houtside : (nodesOutside frames).length ≤ fuel := by
      rw [hnodes] at hlength
      exact Nat.le_trans hlength hfuel
    have hnext := nextLarger_eq hframes hbefore hafter houtside
    refine ⟨(nodesAfter frames).head?, ?_, ?_, ?_⟩
    · simp [BinaryTreeDictionary.closestList, hsearch, hnext]
    · intro hnil x hx
      rw [List.head?_eq_none_iff] at hnil
      rw [hnodes, hnil, List.append_nil] at hx
      exact hbefore x hx
    · intro a ha
      obtain ⟨tail, htail⟩ := List.head?_eq_some_iff.mp ha
      have hmem : a ∈ nodesAfter frames := by simp [htail]
      refine ⟨hnodes ▸ List.mem_append_right _ hmem, Nat.le_of_lt (hafter a hmem), ?_⟩
      intro x hx hsize
      rw [hnodes] at hx
      rcases List.mem_append.mp hx with hx | hx
      · exact absurd (hbefore x hx) (Nat.not_lt.mpr hsize)
      · have hsorted := h.lists.sorted
        rw [hnodes, List.pairwise_map, List.pairwise_append, htail, List.pairwise_cons]
          at hsorted
        rw [htail] at hx
        rcases List.mem_cons.mp hx with rfl | hx
        · exact Nat.le_refl _
        · exact Nat.le_of_lt (hsorted.2.1.1 x hx)

/-! ## The hints -/

theorem Represents.setHint (h : Represents d t rest) (tl hint : Nat) :
    Represents (d.setHint tl hint) t rest := by
  refine h.congr h.tree rfl rfl (fun c _ => ⟨rfl, rfl, rfl, rfl⟩) fun a _ => ?_
  by_cases ha : a = tl
  · subst ha
    simp [BinaryTreeDictionary.setHint, modifyList]
  · simp [BinaryTreeDictionary.setHint, modifyList, ha]

/-- The hints lead to larger and larger sizes, so that following them ends. -/
theorem followHints_spec {steps curTL hintTL : Nat} {pre post : List Nat}
    (h : Represents d t rest) (hfuel : d.totalFreeBlocks ≤ fuel) (hhints : HintsUp d (inorder t))
    (hcur : curTL ∈ inorder t) (hnodes : inorder t = pre ++ hintTL :: post)
    (hle : (d.embeddedList curTL).size ≤ (d.embeddedList hintTL).size)
    (hsteps : post.length < steps) : ∃ a d', d.followHints curTL fuel steps hintTL = some (a, d') ∧
      a ∈ inorder t ∧ (d.embeddedList curTL).size ≤ (d.embeddedList a).size ∧
      (d' = d ∨ ∃ hint, d' = d.setHint curTL hint ∧
        (hint = 0 ∨ (d.embeddedList curTL).size < hint)) := by
  induction steps generalizing hintTL pre post with
  | zero => exact absurd hsteps (Nat.not_lt_zero _)
  | succ steps ih =>
    rw [followHints]
    split
    next => exact ⟨curTL, d, rfl, hcur, Nat.le_refl _, .inl rfl⟩
    next hzero =>
      have hmem : hintTL ∈ inorder t := by simp [hnodes]
      have hup := (hhints hintTL hmem).resolve_left hzero
      obtain ⟨found, hfound, hspec⟩ := h.findList hfuel (d.embeddedList hintTL).hint
      simp only [hfound, Option.bind_eq_bind, Option.bind_some]
      cases found with
      | none => exact ⟨curTL, _, rfl, hcur, Nat.le_refl _, .inr ⟨0, rfl, .inl rfl⟩⟩
      | some next =>
        obtain ⟨hnext, hsize⟩ := hspec next rfl
        simp only
        split
        next => exact ⟨curTL, _, rfl, hcur, Nat.le_refl _, .inr ⟨0, rfl, .inl rfl⟩⟩
        next =>
          split
          next =>
            exact ⟨next, _, rfl, hnext, by omega, .inr ⟨_, rfl, .inr (by omega)⟩⟩
          next =>
            -- the next list lies further to the right
            have hsorted := h.lists.sorted
            rw [hnodes, List.pairwise_map, List.pairwise_append] at hsorted
            have hpost : next ∈ post := by
              rw [hnodes] at hnext
              rcases List.mem_append.mp hnext with hpre | hnext
              · have := hsorted.2.2 next hpre hintTL List.mem_cons_self
                omega
              · rcases List.mem_cons.mp hnext with rfl | hnext
                · omega
                · exact hnext
            obtain ⟨first, second, rfl⟩ := List.append_of_mem hpost
            have hnodes' : inorder t = (pre ++ hintTL :: first) ++ next :: second := by
              simp [hnodes]
            refine ih hnodes' (by omega) ?_
            rw [List.length_append, List.length_cons] at hsteps
            omega

end HotSpot.BinaryTreeDictionary
