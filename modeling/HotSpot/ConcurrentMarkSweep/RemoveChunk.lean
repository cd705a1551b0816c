import HotSpot.ConcurrentMarkSweep.DictionaryInvariant

/-! # Removing a chunk

A chunk leaves its list, and its node moves to the next chunk or leaves the tree when the chunk
is the first. What is left represents the other chunks.
-/

namespace HotSpot.BinaryTreeDictionary

variable {d d' : BinaryTreeDictionary} {a c : Nat} {rest : List Nat}

/-- A change of the chunks `cs` and of the lists in them only. -/
structure ChangesOnly (d d' : BinaryTreeDictionary) (cs : List Nat) : Prop where
  size : d'.size = d.size
  totalSize : d'.totalSize = d.totalSize
  totalFreeBlocks : d'.totalFreeBlocks = d.totalFreeBlocks
  embeddedList : ∀ x ∉ cs, d'.embeddedList x = d.embeddedList x
  agree : ∀ x ∉ cs, AgreeOn d d' x

/-- The list `b` of the chunks that are left when `c` leaves the list of `a`. -/
structure Shortened (d d' : BinaryTreeDictionary) (a c b : Nat) (rest rest' : List Nat) : Prop where
  changes : ChangesOnly d d' (a :: rest)
  listOf : ListOf d' b rest'
  size : (d'.embeddedList b).size = (d.embeddedList a).size
  hint : (d'.embeddedList b).hint = (d.embeddedList a).hint
  perm : (c :: b :: rest').Perm (a :: rest)

/-- The fields when a chunk that is not the first leaves the list. -/
theorem removeInterior_eq {p : Nat} (hhead : (d.embeddedList a).head ≠ some c)
    (hprev : d.prev c = some p) (fuel : Nat) : ∃ d',
      d.removeChunkReplaceIfNeeded a c fuel = some (a, d') ∧ d'.links = d.links ∧
      d'.size = d.size ∧ d'.list = d.list ∧ d'.totalSize = d.totalSize ∧
      d'.totalFreeBlocks = d.totalFreeBlocks ∧
      d'.next = Function.update d.next p (d.next c) ∧
      d'.prev = (match d.next c with
        | none => d.prev
        | some n => Function.update d.prev n (some p)) ∧
      d'.embeddedList = Function.update d.embeddedList a
        { d.embeddedList a with
          tail := if d.next c = none then some p else (d.embeddedList a).tail
          count := (d.embeddedList a).count - 1 } := by
  rw [removeChunkReplaceIfNeeded, if_neg hhead, hprev]
  cases hnext : d.next c with
  | none =>
    refine ⟨_, rfl, rfl, rfl, rfl, rfl, rfl, ?_, rfl, ?_⟩
    · simp [linkTail, linkAfter, linkNext, modifyList, decrementCount]
    · simp [linkTail, linkAfter, linkNext, modifyList, decrementCount]
  | some n =>
    refine ⟨_, rfl, rfl, rfl, rfl, rfl, rfl, rfl, rfl, ?_⟩
    simp [linkAfter, linkNext, linkPrev, modifyList, decrementCount]

/-- A chunk that is not the first leaves the list. -/
theorem removeInterior_spec (h : ListOf d a rest) (hnodup : (a :: rest).Nodup) (hc : c ∈ rest)
    (fuel : Nat) : ∃ d' rest', d.removeChunkReplaceIfNeeded a c fuel = some (a, d') ∧
      d'.links = d.links ∧ Shortened d d' a c a rest rest' := by
  obtain ⟨before, after, rfl⟩ := List.append_of_mem hc
  -- the chunk before `c`
  obtain ⟨front, p, hfront⟩ : ∃ front p, a :: before = front ++ [p] :=
    ⟨_, _, (List.dropLast_append_getLast (List.cons_ne_nil a before)).symm⟩
  have hchunks : a :: (before ++ c :: after) = front ++ p :: c :: after := by
    rw [← List.cons_append, hfront, List.append_assoc]
    rfl
  have hchunks' : a :: (before ++ after) = front ++ p :: after := by
    rw [← List.cons_append, hfront, List.append_assoc]
    rfl
  have hrev : ∀ last, (front ++ p :: last).reverse = last.reverse ++ p :: front.reverse := by simp
  have hforward := h.forward
  have hbackward := h.backward
  have hhead : (d.embeddedList a).head ≠ some c := by
    rw [h.head]
    intro heq
    exact (List.nodup_cons.mp hnodup).1 (Option.some.inj heq ▸ hc)
  have hsub : ∀ x ∈ a :: (before ++ after), x ∈ a :: (before ++ c :: after) := by
    intro x hx
    simp only [List.mem_append, List.mem_cons] at hx ⊢
    tauto
  have hlength : (before ++ c :: after).length = (before ++ after).length + 1 := by simp; omega
  rw [hchunks] at hforward hbackward
  have hnodupRev := List.nodup_reverse.mpr hnodup
  have hnext : d.next c = after.head? := by
    obtain ⟨_, -, -, -, hnext⟩ := LinkedSegment.append_iff.mp hforward
    exact hnext.start_eq
  have hprev : d.prev c = some p := by
    rw [hrev, List.reverse_cons, List.append_assoc] at hbackward
    obtain ⟨_, -, -, hprev, -⟩ := LinkedSegment.append_iff.mp hbackward
    exact hprev
  obtain ⟨d', hremove, hlinks, hsize, hlist, htotal, hblocks, hnext', hprev', hembedded⟩ :=
    removeInterior_eq hhead hprev fuel
  have hp : p ∈ a :: (before ++ c :: after) := by simp [hchunks]
  have hself : d'.embeddedList a =
      { d.embeddedList a with
        tail := if d.next c = none then some p else (d.embeddedList a).tail
        count := (d.embeddedList a).count - 1 } := by rw [hembedded, Function.update_self]
  refine ⟨d', before ++ after, hremove, hlinks, ⟨hsize, htotal, hblocks, ?_, ?_⟩,
    ⟨?_, ?_, ?_, ?_, ?_, ?_, ?_⟩, ?_, ?_, ?_⟩
  · intro x hx
    have hne : x ≠ a := fun heq => hx (heq ▸ List.mem_cons_self)
    rw [hembedded, Function.update_of_ne hne]
  · intro x hx
    refine ⟨by rw [hsize], ?_, ?_, by rw [hlist]⟩
    · rw [hprev', hnext]
      cases after with
      | nil => rfl
      | cons n after =>
        exact Function.update_of_ne (fun heq => hx (by simp [heq])) _ _
    · have hne : x ≠ p := fun heq => hx (heq ▸ hp)
      rw [hnext', Function.update_of_ne hne]
  · rw [hself, h.head]
  · have htail := h.tail
    rw [hchunks] at htail
    rw [hself, hchunks', hnext]
    cases after with
    | nil => simp
    | cons n after => simp [htail, List.getLast?_append, List.getLast?_cons]
  · rw [hself, h.count, hlength, Nat.add_sub_cancel]
  · rw [hchunks', hnext']
    rw [hchunks] at hnodup
    exact hforward.remove_after hnodup
  · rw [hself, hprev', hchunks', hrev, hnext]
    cases after with
    | nil =>
      have hlast : (front ++ [p, c]).reverse = c :: p :: front.reverse := by simp
      rw [hlast] at hbackward
      rw [← hprev]
      exact hbackward.2
    | cons n after =>
      have hlast : (front ++ p :: c :: n :: after).reverse =
          after.reverse ++ n :: c :: p :: front.reverse := by simp
      rw [hchunks, hlast] at hnodupRev
      rw [hlast] at hbackward
      rw [List.reverse_cons, List.append_assoc, ← hprev]
      exact hbackward.remove_after hnodupRev
  · intro x hx
    rw [hsize, hself, h.size x (hsub x hx)]
  · intro x hx
    rw [hlist, h.list x (hsub x hx)]
  · rw [hself]
  · rw [hself]
  · exact (List.Perm.swap a c _).trans (List.perm_middle.symm.cons a)

/-- The only chunk leaves the list empty. -/
theorem removeOnly_spec (h : ListOf d a []) (fuel : Nat) : ∃ d',
    d.removeChunkReplaceIfNeeded a a fuel = some (a, d') ∧ d'.links = d.links ∧
      ChangesOnly d d' [a] ∧ (d'.embeddedList a).count = 0 := by
  have hnext : d.next a = none := h.forward.2
  rw [removeChunkReplaceIfNeeded, if_pos h.head]
  simp only [hnext]
  refine ⟨_, rfl, rfl, ⟨rfl, rfl, rfl, fun x hx => ?_, fun x _ => ⟨rfl, rfl, rfl, rfl⟩⟩, ?_⟩
  · have hne : x ≠ a := fun heq => hx (heq ▸ List.mem_cons_self)
    simp [decrementCount, modifyList, hne]
  · simp [decrementCount, modifyList, h.count]

theorem setLists_eq {tl fuel : Nat} {start : Option Nat} {cs : List Nat}
    (hlist : LinkedSegment d.next start cs none) (hfuel : cs.length ≤ fuel) :
    d.setLists tl fuel start =
      some { d with list := fun c => if c ∈ cs then some tl else d.list c } := by
  induction cs generalizing d start fuel with
  | nil =>
    obtain rfl : start = none := hlist
    cases fuel <;> simp [setLists]
  | cons c cs ih =>
    obtain ⟨rfl, hlist⟩ := hlist
    obtain ⟨fuel, rfl⟩ := Nat.exists_eq_add_one.mpr (Nat.zero_lt_of_lt hfuel)
    have hset : LinkedSegment (d.setList c tl).next (d.next c) cs none := hlist
    rw [setLists, ih hset (Nat.le_of_succ_le_succ hfuel)]
    refine congrArg some ?_
    simp only [setList, mk.injEq, true_and, and_true]
    funext x
    by_cases hx : x = c
    · simp [hx]
    · simp [hx]

/-- The first chunk leaves the list to the next one. -/
theorem removeHead_spec {b fuel : Nat} (h : ListOf d a (b :: rest))
    (hnodup : (a :: b :: rest).Nodup) (hfuel : rest.length < fuel) : ∃ d',
      d.removeChunkReplaceIfNeeded a a fuel = some (b, d') ∧ d'.links = d.links.relocate a b ∧
        Shortened d d' a a b (b :: rest) rest := by
  obtain ⟨-, hnext, hforward⟩ := h.forward
  have hset : LinkedSegment (d.modifyList b fun _ => d.embeddedList a).next (some b) (b :: rest)
      none := ⟨rfl, hforward⟩
  have hab : a ≠ b := fun heq => (List.nodup_cons.mp hnodup).1 (heq ▸ List.mem_cons_self)
  have hb : b ∉ rest := (List.nodup_cons.mp (List.nodup_cons.mp hnodup).2).1
  have hout : ∀ x, x ∉ a :: b :: rest → x ≠ b ∧ x ∉ b :: rest := by
    intro x hx
    simp only [List.mem_cons, not_or] at hx ⊢
    exact ⟨hx.2.1, hx.2.1, hx.2.2⟩
  rw [removeChunkReplaceIfNeeded, if_pos h.head]
  simp only [hnext, setLists_eq hset hfuel, Option.bind_eq_bind, Option.bind_some]
  refine ⟨_, rfl, rfl, ⟨⟨rfl, rfl, rfl, fun x hx => ?_, fun x hx => ⟨rfl, ?_, rfl, ?_⟩⟩,
    ⟨?_, ?_, ?_, ⟨rfl, hforward⟩, ?_, ?_, ?_⟩, ?_, ?_, List.Perm.refl _⟩⟩
  · simp [decrementCount, linkHead, linkPrev, modifyList, (hout x hx).1]
  · simp [decrementCount, linkHead, linkPrev, modifyList, (hout x hx).1]
  · simp only [decrementCount, linkHead, linkPrev, modifyList]
    rw [if_neg (hout x hx).2]
  · simp [decrementCount, linkHead, linkPrev, modifyList]
  · simp [decrementCount, linkHead, linkPrev, modifyList, h.tail, List.getLast?_cons]
  · simp [decrementCount, linkHead, linkPrev, modifyList, h.count]
  · have hbackward := h.backward
    have hrev : (a :: b :: rest).reverse = rest.reverse ++ [b, a] := by simp
    rw [hrev] at hbackward
    obtain ⟨middle, hback, rfl, -⟩ := LinkedSegment.append_iff.mp hbackward
    simp only [decrementCount, linkHead, linkPrev, modifyList, Function.update_self,
      List.reverse_cons]
    refine LinkedSegment.append_iff.mpr ⟨_, hback.update ?_, rfl, Function.update_self ..⟩
    rwa [List.mem_reverse]
  · intro x hx
    simp [decrementCount, linkHead, linkPrev, modifyList, h.size x (List.mem_cons_of_mem _ hx)]
  · intro x hx
    simp only [decrementCount, linkHead, linkPrev, modifyList]
    rw [if_pos hx]
  · simp [decrementCount, linkHead, linkPrev, modifyList]
  · simp [decrementCount, linkHead, linkPrev, modifyList]

/-- The totals when one chunk is removed. -/
def account (d : BinaryTreeDictionary) (links : LinkStore Nat) (c : Nat) : BinaryTreeDictionary :=
  { d with
    links := links
    totalSize := d.totalSize - d.size c
    totalFreeBlocks := d.totalFreeBlocks - 1 }

section Middle

variable {pre post : List Nat} {rest : Nat → List Nat}

/-- The node in the middle has its own chunks. -/
theorem Lists.middle (h : Lists d (pre ++ ([a] ++ post)) rest) :
    ListOf d a (rest a) ∧ (a :: rest a).Nodup ∧
      ∀ x ∈ a :: rest a, x ∉ chunks (pre ++ post) rest := by
  have hnodup := h.nodup
  rw [(chunks_middle_perm pre [a] post rest).nodup_iff, List.nodup_append'] at hnodup
  obtain ⟨hself, -, hdisjoint⟩ := hnodup
  have hchunks : chunks [a] rest = a :: rest a := by simp [chunks]
  rw [hchunks] at hself hdisjoint
  exact ⟨h.listOf a (by simp), hself, fun x hx => hdisjoint hx⟩

/-- The totals count the chunks of the node in the middle. -/
theorem Lists.totals_middle (h : Lists d (pre ++ ([a] ++ post)) rest) :
    (d.embeddedList a).size * (d.embeddedList a).count ≤ d.totalSize ∧
      (d.embeddedList a).count ≤ d.totalFreeBlocks := by
  have hsize := h.totalSize
  have hblocks := h.totalFreeBlocks
  simp only [List.map_append, List.sum_append, List.map_cons, List.map_nil, List.sum_cons,
    List.sum_nil] at hsize hblocks
  omega

/-- The other nodes and the chunks of theirs. -/
theorem Shortened.others {b : Nat} {rest' : List Nat} (h : Lists d (pre ++ ([a] ++ post)) rest)
    (hs : Shortened d d' a c b (rest a) rest') :
    ∀ x ∈ pre ++ post, Function.update rest b rest' x = rest x := by
  obtain ⟨-, -, hdisjoint⟩ := h.middle
  intro x hx
  have hb : b ∈ a :: rest a :=
    hs.perm.mem_iff.mp (List.mem_cons_of_mem _ List.mem_cons_self)
  have hne : x ≠ b := fun heq => hdisjoint b hb (heq ▸ subset_chunks hx)
  exact Function.update_of_ne hne _ _

theorem Shortened.hintsUp {b : Nat} {rest' : List Nat} {links : LinkStore Nat}
    (h : Lists d (pre ++ ([a] ++ post)) rest) (hs : Shortened d d' a c b (rest a) rest')
    (hhints : HintsUp d (pre ++ ([a] ++ post))) :
    HintsUp (d'.account links c) (pre ++ ([b] ++ post)) := by
  obtain ⟨-, -, hdisjoint⟩ := h.middle
  refine hhints.replace (fun x hx => ?_) fun x hx => ?_
  · exact hs.changes.embeddedList x fun hown => hdisjoint x hown (subset_chunks hx)
  · obtain rfl := List.mem_singleton.mp hx
    have hold := hhints a (by simp)
    rw [← hs.hint, ← hs.size] at hold
    exact hold

/-- The chunk `c` of the node in the middle is gone, and no other. -/
theorem Shortened.chunks_perm {b : Nat} {rest' : List Nat}
    (h : Lists d (pre ++ ([a] ++ post)) rest) (hs : Shortened d d' a c b (rest a) rest') :
    (c :: chunks (pre ++ ([b] ++ post)) (Function.update rest b rest')).Perm
      (chunks (pre ++ ([a] ++ post)) rest) := by
  have hnew : chunks [b] (Function.update rest b rest') = b :: rest' := by simp [chunks]
  have hold : chunks [a] rest = a :: rest a := by simp [chunks]
  refine ((chunks_middle_perm pre [b] post _).cons c).trans ?_
  rw [chunks_congr (hs.others h), hnew, ← List.cons_append]
  refine (hs.perm.append_right _).trans ?_
  rw [← hold]
  exact (chunks_middle_perm pre [a] post rest).symm

/-- What is left of the lists when the chunk `c` of the node in the middle is removed. -/
theorem Shortened.lists {b : Nat} {rest' : List Nat} {links : LinkStore Nat}
    (h : Lists d (pre ++ ([a] ++ post)) rest) (hs : Shortened d d' a c b (rest a) rest') :
    Lists (d'.account links c) (pre ++ ([b] ++ post)) (Function.update rest b rest') := by
  obtain ⟨hlist, -, hdisjoint⟩ := h.middle
  have hc : c ∈ a :: rest a := hs.perm.mem_iff.mp List.mem_cons_self
  have hcount : (d.embeddedList a).count = (d'.embeddedList b).count + 1 := by
    have hlength := hs.perm.length_eq
    simp only [List.length_cons] at hlength
    rw [hlist.count, hs.listOf.count, hlength]
  have htotals := h.totals_middle
  refine h.replace (fun x hx => ⟨?_, hs.others h x hx, fun y hy => ?_⟩) (fun x hx => ?_) ?_ ?_ ?_ ?_
  · exact hs.changes.embeddedList x fun hmem => hdisjoint x hmem (subset_chunks hx)
  · exact hs.changes.agree y fun hmem => hdisjoint y hmem (mem_chunks.mpr ⟨x, hx, hy⟩)
  · obtain rfl := List.mem_singleton.mp hx
    rw [Function.update_self]
    exact hs.listOf.congr rfl fun _ _ => ⟨rfl, rfl, rfl, rfl⟩
  · exact (List.nodup_cons.mp ((hs.chunks_perm h).nodup_iff.mpr h.nodup)).2
  · have hsorted := h.sorted
    rw [List.map_append, List.map_append] at hsorted
    simpa [account, hs.size] using hsorted
  · have hone := htotals.1
    simp only [account, List.map_cons, List.map_nil, List.sum_cons, List.sum_nil, hs.size,
      hs.changes.totalSize, hs.changes.size, hlist.size c hc]
    rw [hcount, Nat.mul_succ] at hone ⊢
    omega
  · have hone := htotals.2
    simp only [account, List.map_cons, List.map_nil, List.sum_cons, List.sum_nil,
      hs.changes.totalFreeBlocks]
    omega

theorem chunks_drop_perm (pre post : List Nat) (hrest : rest a = []) :
    (a :: chunks (pre ++ post) rest).Perm (chunks (pre ++ ([a] ++ post)) rest) := by
  have hold : chunks [a] rest = [a] := by simp [chunks, hrest]
  have hmiddle := chunks_middle_perm pre [a] post rest
  rw [hold] at hmiddle
  exact hmiddle.symm

/-- The lists without a node that had one chunk. -/
theorem Lists.drop {links : LinkStore Nat} (h : Lists d (pre ++ ([a] ++ post)) rest)
    (hrest : rest a = []) (hchanges : ChangesOnly d d' [a]) :
    Lists (d'.account links a) (pre ++ post) rest := by
  obtain ⟨hlist, -, hdisjoint⟩ := h.middle
  have hcount : (d.embeddedList a).count = 1 := by rw [hlist.count, hrest]; rfl
  have hout : ∀ x ∈ chunks (pre ++ post) rest, x ∉ [a] := by
    intro x hx hmem
    exact hdisjoint x (List.mem_singleton.mp hmem ▸ List.mem_cons_self) hx
  have htotals := h.totals_middle
  suffices hnew : Lists (d'.account links a) (pre ++ ([] ++ post)) rest from hnew
  refine h.replace (fun x hx => ⟨?_, rfl, fun y hy => ?_⟩) (fun x hx => ?_) ?_ ?_ ?_ ?_
  · exact hchanges.embeddedList x (hout x (subset_chunks hx))
  · exact hchanges.agree y (hout y (mem_chunks.mpr ⟨x, hx, hy⟩))
  · simp at hx
  · exact (List.nodup_cons.mp ((chunks_drop_perm pre post hrest).nodup_iff.mpr h.nodup)).2
  · have hsorted := h.sorted
    rw [List.map_append, List.map_append] at hsorted
    exact hsorted.sublist ((List.sublist_append_right _ _).append_left _)
  · have hone := htotals.1
    rw [hcount, Nat.mul_one] at hone
    simp only [account, List.map_cons, List.map_nil, List.sum_cons, List.sum_nil,
      hchanges.totalSize, hchanges.size, hlist.size a List.mem_cons_self, hcount, Nat.mul_one]
    omega
  · have hone := htotals.2
    simp only [account, List.map_cons, List.map_nil, List.sum_cons, List.sum_nil,
      hchanges.totalFreeBlocks]
    omega

theorem Lists.hintsUp_drop {links : LinkStore Nat} (h : Lists d (pre ++ ([a] ++ post)) rest)
    (hchanges : ChangesOnly d d' [a]) (hhints : HintsUp d (pre ++ ([a] ++ post))) :
    HintsUp (d'.account links a) (pre ++ post) := by
  obtain ⟨-, -, hdisjoint⟩ := h.middle
  suffices hnew : HintsUp (d'.account links a) (pre ++ ([] ++ post)) from hnew
  refine hhints.replace (fun x hx => ?_) nofun
  refine hchanges.embeddedList x fun hmem => ?_
  exact hdisjoint x (List.mem_singleton.mp hmem ▸ List.mem_cons_self) (subset_chunks hx)

end Middle

/-- Removing a chunk from the tree when it has left its list. -/
theorem removeChunkFromTree_eq {b fuel : Nat} (hlist : d.list c = some a)
    (hremove : d.removeChunkReplaceIfNeeded a c fuel = some (b, d')) :
    d.removeChunkFromTree c fuel =
      let links := if d'.links.root = some a then d'.links.setRoot (some b) else d'.links
      (if (d'.embeddedList b).count = 0 then links.removeNode b fuel else some links).map
        fun links => d'.account links c := by
  simp only [removeChunkFromTree, hlist, hremove, Option.bind_eq_bind, Option.bind_some]
  by_cases hroot : d'.links.root = some a
  · simp only [hroot, if_true]
    by_cases hcount : (d'.embeddedList b).count = 0
    · simp only [hcount, if_true]
      rw [Option.map_eq_bind]
      rfl
    · simp only [hcount, if_false]
      rfl
  · simp only [hroot, if_false]
    by_cases hcount : (d'.embeddedList b).count = 0
    · simp only [hcount, if_true]
      rw [Option.map_eq_bind]
      rfl
    · simp only [hcount, if_false]
      rfl

/-- Removing a chunk leaves a tree with the others. -/
theorem removeChunkFromTree_represents {t : BinaryTree Nat} {rest : Nat → List Nat} {fuel : Nat}
    (h : Represents d t rest) (hc : c ∈ chunks (inorder t) rest)
    (hfuel : d.totalFreeBlocks ≤ fuel) : ∃ d' t' rest',
      d.removeChunkFromTree c fuel = some d' ∧ Represents d' t' rest' ∧ d'.size = d.size ∧
        (HintsUp d (inorder t) → HintsUp d' (inorder t')) ∧
        (c :: chunks (inorder t') rest').Perm (chunks (inorder t) rest) := by
  obtain ⟨a, ha, hca⟩ := mem_chunks.mp hc
  obtain ⟨frames, l, r, rfl⟩ := exists_plugAll_of_mem ha
  have hinorder : ∀ b, inorder (plugAll frames (.node b l r)) =
      (nodesBefore frames ++ inorder l) ++ ([b] ++ (inorder r ++ nodesAfter frames)) := by
    intro b
    simp [inorder_plugAll]
  have hlists := h.lists
  rw [hinorder] at hlists
  obtain ⟨hlist, hself, hdisjoint⟩ := hlists.middle
  have hlength := hlists.length_chunks
  rw [(chunks_middle_perm _ _ _ _).length_eq, List.length_append] at hlength
  have hown : (chunks [a] rest).length = (rest a).length + 1 := by simp [chunks]
  have hset : ∀ links : LinkStore Nat, (if links.root = some a then links.setRoot (some a)
      else links) = links := by
    intro links
    split
    next hroot => rw [← hroot]; rfl
    next => rfl
  rcases List.mem_cons.mp hca with rfl | hmem
  · cases hrest : rest c with
    | nil =>
      -- the node leaves the tree
      rw [hrest] at hlist
      obtain ⟨d', hremove, hlinks, hchanges, hcount⟩ := removeOnly_spec hlist fuel
      have hright : (inorder r).length < fuel := by
        have hnodes := length_le_chunks
          (nodesBefore frames ++ inorder l ++ (inorder r ++ nodesAfter frames)) rest
        simp only [List.length_append] at hnodes
        omega
      obtain ⟨links', t', hnode, htree, hinorder'⟩ := LinkStore.removeNode_eq h.tree hright
      have hnodes : inorder t' =
          nodesBefore frames ++ inorder l ++ (inorder r ++ nodesAfter frames) := by
        simp [hinorder']
      refine ⟨d'.account links' c, t', rest, ?_, ⟨htree, ?_⟩, hchanges.size, fun hhints => ?_, ?_⟩
      · rw [removeChunkFromTree_eq (hlist.list c List.mem_cons_self) hremove]
        simp only [hset, hcount, if_true, hlinks, hnode, Option.map_some]
      · rw [hnodes]
        exact hlists.drop hrest hchanges
      · rw [hinorder] at hhints
        rw [hnodes]
        exact hlists.hintsUp_drop hchanges hhints
      · rw [hinorder c, hnodes]
        exact chunks_drop_perm _ _ hrest
    | cons b rs =>
      -- the node moves to the next chunk
      rw [hrest] at hlist hself hown
      have hless : rs.length < fuel := by
        rw [List.length_cons] at hown
        omega
      obtain ⟨d', hremove, hlinks, hs⟩ := removeHead_spec hlist hself hless
      have hb : b ∈ c :: rest c := by simp [hrest]
      have hfresh : b ∉ inorder (plugAll frames (.node c l r)) := by
        rw [hinorder]
        intro hmem
        rcases List.mem_append.mp hmem with hpre | hpost
        · exact hdisjoint b hb (subset_chunks (List.mem_append_left _ hpre))
        · rcases List.mem_cons.mp hpost with rfl | hpost
          · exact (List.nodup_cons.mp hself).1 List.mem_cons_self
          · exact hdisjoint b hb (subset_chunks (List.mem_append_right _ hpost))
      have hmove := LinkStore.relocate_eq h.tree hfresh
      rw [← hrest] at hs
      refine ⟨d'.account _ c, _, Function.update rest b rs, ?_, ⟨hmove, ?_⟩, hs.changes.size,
        fun hhints => ?_, ?_⟩
      · rw [removeChunkFromTree_eq (hlist.list c List.mem_cons_self) hremove]
        have hcount : (d'.embeddedList b).count ≠ 0 := by
          rw [hs.listOf.count]
          omega
        simp only [if_neg hcount, hlinks, Option.map_some]
        rfl
      · rw [hinorder]
        exact hs.lists hlists
      · rw [hinorder] at hhints ⊢
        exact hs.hintsUp hlists hhints
      · rw [hinorder, hinorder]
        exact hs.chunks_perm hlists
  · -- the node stays
    obtain ⟨d', rest', hremove, hlinks, hs⟩ := removeInterior_spec hlist hself hmem fuel
    refine ⟨d'.account d.links c, _, Function.update rest a rest', ?_, ⟨h.tree, ?_⟩,
      hs.changes.size,
      fun hhints => ?_, ?_⟩
    · rw [removeChunkFromTree_eq (hlist.list c hca) hremove]
      have hcount : (d'.embeddedList a).count ≠ 0 := by
        rw [hs.listOf.count]
        omega
      simp only [hset, if_neg hcount, hlinks, Option.map_some]
    · rw [hinorder]
      exact hs.lists hlists
    · rw [hinorder] at hhints ⊢
      exact hs.hintsUp hlists hhints
    · rw [hinorder]
      exact hs.chunks_perm hlists

end HotSpot.BinaryTreeDictionary
