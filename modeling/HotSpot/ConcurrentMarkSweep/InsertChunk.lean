import HotSpot.ConcurrentMarkSweep.DictionarySearch
import HotSpot.ConcurrentMarkSweep.RemoveChunk

/-! # Inserting a chunk

A chunk joins the list of its size at the tail, or becomes a node below the last one on the way
down.
-/

namespace HotSpot

namespace LinkStore

variable {links : LinkStore Nat} {frames : List (TreeFrame Nat)} {c : Nat} {t : BinaryTree Nat}

theorem clearLinks_clearLinks : (links.clearLinks c).clearLinks c = links.clearLinks c := by
  simp [clearLinks]

/-- The links of a chunk outside the tree do not matter. -/
theorem Tree.clearLinks (h : links.Tree t) (hc : c ∉ inorder t) : (links.clearLinks c).Tree t := by
  refine h.congr rfl fun a ha => ?_
  have hne : a ≠ c := fun heq => hc (heq ▸ ha)
  simp [AgreeAt, LinkStore.clearLinks, hne]

/-- A new root needs no write of its parent. -/
theorem setChild_nil_clearLinks :
    (links.clearLinks c).setChild [] (some c) = (links.clearLinks c).setRoot (some c) := by
  refine LinkStore.ext rfl (funext fun x => ?_) rfl rfl
  by_cases hx : x = c
  · simp [setChild, setParentOf, setParent, setRoot, clearLinks, hx]
  · simp [setChild, setParentOf, setParent, setRoot, clearLinks, hx]

end LinkStore

namespace BinaryTreeDictionary

variable {d d' : BinaryTreeDictionary} {a c : Nat} {t : BinaryTree Nat}

/-- The chunk `c`, without links, joins the list of `a` at the tail. -/
theorem returnChunkAtTail_spec {others : List Nat} (h : ListOf d a others)
    (hnodup : (a :: others).Nodup) (hc : c ∉ a :: others) (hlist : d.list c = some a)
    (hsize : d.size c = (d.embeddedList a).size) : ∃ d', d.returnChunkAtTail a c = some d' ∧
      d'.links = d.links ∧ ChangesOnly d d' (c :: a :: others) ∧ ListOf d' a (others ++ [c]) ∧
      (d'.embeddedList a).size = (d.embeddedList a).size ∧
      (d'.embeddedList a).hint = (d.embeddedList a).hint := by
  obtain ⟨front, last, hfront⟩ : ∃ front last, a :: others = front ++ [last] :=
    ⟨_, _, (List.dropLast_append_getLast (List.cons_ne_nil a others)).symm⟩
  have htail : (d.embeddedList a).tail = some last := by
    rw [h.tail, hfront, List.getLast?_concat]
  have hlast : last ∈ a :: others := by simp [hfront]
  have hne : last ≠ c := fun heq => hc (heq ▸ hlast)
  have hall : a :: (others ++ [c]) = front ++ [last, c] := by
    rw [← List.cons_append, hfront, List.append_assoc]
    rfl
  simp only [returnChunkAtTail, htail, Option.bind_eq_bind, Option.bind_some]
  refine ⟨_, rfl, rfl, ⟨rfl, rfl, rfl, fun x hx => ?_, fun x hx => ⟨rfl, ?_, ?_, rfl⟩⟩,
    ⟨?_, ?_, ?_, ?_, ?_, ?_, ?_⟩, ?_, ?_⟩
  · have hxa : x ≠ a := fun heq => hx (by simp [heq])
    simp [incrementCount, linkTail, linkAfter, linkNext, linkPrev, modifyList, hxa]
  · have hxc : x ≠ c := fun heq => hx (by simp [heq])
    simp [incrementCount, linkTail, linkAfter, linkNext, linkPrev, modifyList, hxc]
  · have hxc : x ≠ c := fun heq => hx (by simp [heq])
    have hxlast : x ≠ last := fun heq => hx (List.mem_cons_of_mem _ (heq ▸ hlast))
    simp [incrementCount, linkTail, linkAfter, linkNext, linkPrev, modifyList, hxc, hxlast]
  · simp [incrementCount, linkTail, linkAfter, linkNext, linkPrev, modifyList, h.head]
  · rw [← List.cons_append, List.getLast?_concat]
    simp [incrementCount, linkTail, linkAfter, linkNext, linkPrev, modifyList]
  · simp [incrementCount, linkTail, linkAfter, linkNext, linkPrev, modifyList, h.count]
  · have hforward := h.forward
    rw [hfront] at hforward hnodup hc
    have hnext : d.next last = none := by
      obtain ⟨_, -, -, hnext⟩ := LinkedSegment.append_iff.mp hforward
      exact hnext
    have hinsert := hforward.insert_after hnodup hc
    rw [hnext, Function.update_comm hne.symm] at hinsert
    rw [hall]
    exact hinsert
  · have hbackward := h.backward
    have hrev : (front ++ [last, c]).reverse = c :: (front ++ [last]).reverse := by simp
    have hc' : c ∉ (front ++ [last]).reverse := by
      rw [List.mem_reverse, ← hfront]
      exact hc
    rw [hfront, htail] at hbackward
    rw [hall, hrev]
    simp only [incrementCount, linkTail, linkAfter, linkNext, linkPrev, modifyList,
      Function.update_self]
    refine ⟨rfl, ?_⟩
    rw [Function.update_self]
    exact hbackward.update hc'
  · intro x hx
    rw [← List.cons_append, List.mem_append, List.mem_singleton] at hx
    rcases hx with hx | rfl
    · simp [incrementCount, linkTail, linkAfter, linkNext, linkPrev, modifyList, h.size x hx]
    · simp [incrementCount, linkTail, linkAfter, linkNext, linkPrev, modifyList, hsize]
  · intro x hx
    rw [← List.cons_append, List.mem_append, List.mem_singleton] at hx
    rcases hx with hx | rfl
    · exact h.list x hx
    · exact hlist
  · simp [incrementCount, linkTail, linkAfter, linkNext, linkPrev, modifyList]
  · simp [incrementCount, linkTail, linkAfter, linkNext, linkPrev, modifyList]

/-- The links when the chunk `c` becomes a node in the hole. -/
theorem links_insertNode {frames : List (TreeFrame Nat)} {q : Option Nat} {size : Nat}
    (hframes : LinkedFrames d.links frames none q) (hc : c ∉ nodesOutside frames)
    (hbefore : ∀ x ∈ nodesBefore frames, (d.embeddedList x).size < size)
    (hafter : ∀ x ∈ nodesAfter frames, size < (d.embeddedList x).size) :
    (d.insertNode c size q).links = (d.links.clearLinks c).setChild frames (some c) := by
  have hsize : ∀ x ∈ nodesOutside frames, ((((d.linkNext c none).linkPrev c none).asTreeList
      c).embeddedList x).size = (d.embeddedList x).size := by
    intro x hx
    have hne : x ≠ c := fun heq => hc (heq ▸ hx)
    simp [asTreeList, linkHead, linkTail, linkNext, linkPrev, modifyList, setList, hne]
  cases frames with
  | nil =>
    obtain ⟨-, rfl⟩ := hframes
    rw [LinkStore.setChild_nil_clearLinks]
    rfl
  | cons frame frames =>
    have hmem : frame.node ∈ nodesOutside (frame :: frames) :=
      (nodesOutside_cons frame frames).mem_iff.mpr List.mem_cons_self
    cases frame with
    | left x r =>
      obtain ⟨rfl, -⟩ := hframes
      have hlt := hafter x (by simp [nodesAfter])
      have hnot : ¬ ((((d.linkNext c none).linkPrev c none).asTreeList c).embeddedList x).size <
          size := by
        rw [hsize x hmem]
        omega
      simp only [insertNode]
      rw [if_neg hnot]
      rfl
    | right x l =>
      obtain ⟨rfl, -⟩ := hframes
      have hlt := hbefore x (by simp [nodesBefore])
      have hyes : ((((d.linkNext c none).linkPrev c none).asTreeList c).embeddedList x).size <
          size := by
        rw [hsize x hmem]
        exact hlt
      simp only [insertNode]
      rw [if_pos hyes]
      rfl

theorem insertNode_changes (d : BinaryTreeDictionary) (c size : Nat) (q : Option Nat) :
    ChangesOnly d (d.insertNode c size q) [c] ∧ ListOf (d.insertNode c size q) c [] ∧
      ((d.insertNode c size q).embeddedList c).size = d.size c ∧
      ((d.insertNode c size q).embeddedList c).hint = 0 := by
  obtain ⟨links, hlinks⟩ : ∃ links, d.insertNode c size q =
      { ((d.linkNext c none).linkPrev c none).asTreeList c with links := links } := by
    cases q with
    | none => exact ⟨_, rfl⟩
    | some prevTL =>
      simp only [insertNode]
      split
      · exact ⟨_, rfl⟩
      · exact ⟨_, rfl⟩
  rw [hlinks]
  refine ⟨⟨rfl, rfl, rfl, fun x hx => ?_, fun x hx => ?_⟩, ?_, ?_, ?_⟩
  · have hne : x ≠ c := fun heq => hx (heq ▸ List.mem_cons_self)
    simp [asTreeList, linkHead, linkTail, linkNext, linkPrev, modifyList, setList, hne]
  · have hne : x ≠ c := fun heq => hx (heq ▸ List.mem_cons_self)
    simp [AgreeOn, asTreeList, linkHead, linkTail, linkNext, linkPrev, modifyList, setList, hne]
  · exact (listOf_asTreeList _ c).congr rfl fun _ _ => ⟨rfl, rfl, rfl, rfl⟩
  · exact size_asTreeList _ c
  · exact hint_asTreeList _ c

/-- A change of fewer chunks before one of more. -/
theorem ChangesOnly.trans {d'' : BinaryTreeDictionary} {cs cs' : List Nat}
    (h : ChangesOnly d d' cs) (h' : ChangesOnly d' d'' cs') (hsub : cs ⊆ cs') :
    ChangesOnly d d'' cs' where
  size := h'.size.trans h.size
  totalSize := h'.totalSize.trans h.totalSize
  totalFreeBlocks := h'.totalFreeBlocks.trans h.totalFreeBlocks
  embeddedList := fun x hx =>
    (h'.embeddedList x hx).trans (h.embeddedList x fun hmem => hx (hsub hmem))
  agree := fun x hx => by
    obtain ⟨hsize, hprev, hnext, hlist⟩ := h.agree x fun hmem => hx (hsub hmem)
    obtain ⟨hsize', hprev', hnext', hlist'⟩ := h'.agree x hx
    exact ⟨hsize'.trans hsize, hprev'.trans hprev, hnext'.trans hnext, hlist'.trans hlist⟩

/-- The totals when the chunk `c` is added. -/
def accountFor (d : BinaryTreeDictionary) (c : Nat) : BinaryTreeDictionary :=
  { d with
    totalSize := d.totalSize + d.size c
    totalFreeBlocks := d.totalFreeBlocks + 1 }

section Middle

variable {pre post : List Nat} {rest : Nat → List Nat}

/-- The lists when the chunk `c` joins that of the node in the middle. -/
theorem Lists.join (h : Lists d (pre ++ ([a] ++ post)) rest)
    (hc : c ∉ chunks (pre ++ ([a] ++ post)) rest) (hsize : d.size c = (d.embeddedList a).size)
    (hchanges : ChangesOnly d d' (c :: a :: rest a)) (hlist : ListOf d' a (rest a ++ [c]))
    (hsame : (d'.embeddedList a).size = (d.embeddedList a).size) :
    Lists (d'.accountFor c) (pre ++ ([a] ++ post)) (Function.update rest a (rest a ++ [c])) ∧
      (chunks (pre ++ ([a] ++ post)) (Function.update rest a (rest a ++ [c]))).Perm
        (c :: chunks (pre ++ ([a] ++ post)) rest) := by
  obtain ⟨hold, -, hdisjoint⟩ := h.middle
  have hmiddle := chunks_middle_perm pre [a] post rest
  have hout : ∀ x ∈ chunks (pre ++ post) rest, x ∉ c :: a :: rest a := by
    intro x hx hmem
    rcases List.mem_cons.mp hmem with rfl | hmem
    · exact hc (hmiddle.mem_iff.mpr (List.mem_append_right _ hx))
    · exact hdisjoint x hmem hx
  have hothers : ∀ x ∈ pre ++ post, Function.update rest a (rest a ++ [c]) x = rest x := by
    intro x hx
    have hne : x ≠ a := fun heq => hout x (subset_chunks hx) (by simp [heq])
    exact Function.update_of_ne hne _ _
  have hperm : (chunks (pre ++ ([a] ++ post)) (Function.update rest a (rest a ++ [c]))).Perm
      (c :: chunks (pre ++ ([a] ++ post)) rest) := by
    have hnew : chunks [a] (Function.update rest a (rest a ++ [c])) = a :: rest a ++ [c] := by
      simp [chunks]
    have hown : chunks [a] rest = a :: rest a := by simp [chunks]
    refine (chunks_middle_perm pre [a] post _).trans ?_
    rw [chunks_congr hothers, hnew]
    refine List.Perm.trans ?_ (hmiddle.symm.cons c)
    rw [hown, ← List.cons_append]
    exact (List.perm_append_singleton c (a :: rest a)).append_right _
  refine ⟨h.replace (fun x hx => ⟨?_, hothers x hx, fun y hy => ?_⟩) (fun x hx => ?_) ?_ ?_ ?_ ?_,
    hperm⟩
  · exact hchanges.embeddedList x (hout x (subset_chunks hx))
  · exact hchanges.agree y (hout y (mem_chunks.mpr ⟨x, hx, hy⟩))
  · obtain rfl := List.mem_singleton.mp hx
    rw [Function.update_self]
    exact hlist.congr rfl fun _ _ => ⟨rfl, rfl, rfl, rfl⟩
  · exact hperm.nodup_iff.mpr (List.nodup_cons.mpr ⟨hc, h.nodup⟩)
  · have hsorted := h.sorted
    rw [List.map_append, List.map_append] at hsorted
    simpa [accountFor, hsame] using hsorted
  · simp only [accountFor, List.map_cons, List.map_nil, List.sum_cons, List.sum_nil, hsame,
      hchanges.totalSize, hchanges.size, hsize, hlist.count, hold.count, List.length_append,
      List.length_singleton, Nat.mul_succ]
    omega
  · simp only [accountFor, List.map_cons, List.map_nil, List.sum_cons, List.sum_nil,
      hchanges.totalFreeBlocks, hlist.count, hold.count, List.length_append,
      List.length_singleton]
    omega

theorem Lists.hintsUp_join (h : Lists d (pre ++ ([a] ++ post)) rest)
    (hc : c ∉ chunks (pre ++ ([a] ++ post)) rest) (hchanges : ChangesOnly d d' (c :: a :: rest a))
    (hsame : (d'.embeddedList a).size = (d.embeddedList a).size)
    (hhint : (d'.embeddedList a).hint = (d.embeddedList a).hint)
    (hhints : HintsUp d (pre ++ ([a] ++ post))) :
    HintsUp (d'.accountFor c) (pre ++ ([a] ++ post)) := by
  obtain ⟨-, -, hdisjoint⟩ := h.middle
  refine hhints.replace (fun x hx => ?_) fun x hx => ?_
  · refine hchanges.embeddedList x fun hmem => ?_
    rcases List.mem_cons.mp hmem with rfl | hmem
    · exact hc ((chunks_middle_perm pre [a] post rest).mem_iff.mpr
        (List.mem_append_right _ (subset_chunks hx)))
    · exact hdisjoint x hmem (subset_chunks hx)
  · obtain rfl := List.mem_singleton.mp hx
    have hold := hhints x (by simp)
    rw [← hhint, ← hsame] at hold
    exact hold

/-- The lists when the chunk `c` becomes a node. -/
theorem Lists.insert (h : Lists d (pre ++ post) rest) (hc : c ∉ chunks (pre ++ post) rest)
    (hbefore : ∀ x ∈ pre, (d.embeddedList x).size < d.size c)
    (hafter : ∀ x ∈ post, d.size c < (d.embeddedList x).size)
    (hchanges : ChangesOnly d d' [c]) (hlist : ListOf d' c [])
    (hsame : (d'.embeddedList c).size = d.size c) :
    Lists (d'.accountFor c) (pre ++ ([c] ++ post)) (Function.update rest c []) ∧
      (chunks (pre ++ ([c] ++ post)) (Function.update rest c [])).Perm
        (c :: chunks (pre ++ post) rest) := by
  have hout : ∀ x ∈ chunks (pre ++ post) rest, x ∉ [c] := by
    intro x hx hmem
    exact hc (List.mem_singleton.mp hmem ▸ hx)
  have hothers : ∀ x ∈ pre ++ post, Function.update rest c [] x = rest x := by
    intro x hx
    have hne : x ≠ c := fun heq => hout x (subset_chunks hx) (by simp [heq])
    exact Function.update_of_ne hne _ _
  have hperm : (chunks (pre ++ ([c] ++ post)) (Function.update rest c [])).Perm
      (c :: chunks (pre ++ post) rest) := by
    have hnew : chunks [c] (Function.update rest c []) = [c] := by simp [chunks]
    have hmiddle := chunks_middle_perm pre [c] post (Function.update rest c [])
    rwa [chunks_congr hothers, hnew] at hmiddle
  have h' : Lists d (pre ++ ([] ++ post)) rest := h
  refine ⟨h'.replace (fun x hx => ⟨?_, hothers x hx, fun y hy => ?_⟩) (fun x hx => ?_) ?_ ?_ ?_ ?_,
    hperm⟩
  · exact hchanges.embeddedList x (hout x (subset_chunks hx))
  · exact hchanges.agree y (hout y (mem_chunks.mpr ⟨x, hx, hy⟩))
  · obtain rfl := List.mem_singleton.mp hx
    rw [Function.update_self]
    exact hlist.congr rfl fun _ _ => ⟨rfl, rfl, rfl, rfl⟩
  · exact hperm.nodup_iff.mpr (List.nodup_cons.mpr ⟨hc, h.nodup⟩)
  · have hsorted := h.sorted
    rw [List.map_append, List.pairwise_append] at hsorted
    obtain ⟨hpre, hpost, hcross⟩ := hsorted
    have hc' : ((d'.accountFor c).embeddedList c).size = d.size c := hsame
    rw [List.map_singleton, hc', List.pairwise_append, List.singleton_append, List.pairwise_cons]
    refine ⟨hpre, ⟨?_, hpost⟩, ?_⟩
    · simpa using hafter
    · intro x hx y hy
      rcases List.mem_cons.mp hy with rfl | hy
      · obtain ⟨z, hz, rfl⟩ := List.mem_map.mp hx
        exact hbefore z hz
      · exact hcross x hx y hy
  · simp [accountFor, hsame, hchanges.totalSize, hchanges.size, hlist.count]
  · simp [accountFor, hchanges.totalFreeBlocks, hlist.count]

end Middle

/-- The chunk `c`, which is not in the tree, is added to it. -/
theorem insertChunkInTree_represents {rest : Nat → List Nat} {fuel : Nat} (h : Represents d t rest)
    (hc : c ∉ chunks (inorder t) rest) (hfuel : d.totalFreeBlocks ≤ fuel) : ∃ d' t' rest',
      d.insertChunkInTree c fuel = some d' ∧ Represents d' t' rest' ∧ d'.size = d.size ∧
        (HintsUp d (inorder t) → HintsUp d' (inorder t')) ∧
        (chunks (inorder t') rest').Perm (c :: chunks (inorder t) rest) := by
  have hnotmem : ∀ x ∈ chunks (inorder t) rest, x ≠ c := fun x hx heq => hc (heq ▸ hx)
  have hclean : Represents ((d.linkNext c none).linkPrev c none) t rest := by
    refine h.congr h.tree rfl rfl (fun x hx => ?_) fun a _ => ⟨rfl, rfl, rfl, rfl⟩
    simp [AgreeOn, linkNext, linkPrev, hnotmem x hx]
  have hctree : c ∉ inorder t := fun hmem => hc (subset_chunks hmem)
  obtain ⟨prevTL, curTL, hsearch, hwhere⟩ := hclean.searchTree hfuel (d.size c)
  cases hwhere with
  | @found frames a l r _ htree hsize =>
    have hnodes : inorder t =
        (nodesBefore frames ++ inorder l) ++ ([a] ++ (inorder r ++ nodesAfter frames)) := by
      simp [← htree, inorder_plugAll]
    have ha : a ∈ inorder t := by simp [hnodes]
    have hown : ∀ x ∈ a :: rest a, x ≠ c := fun x hx =>
      hnotmem x (mem_chunks.mpr ⟨a, ha, hx⟩)
    let d2 := { (d.linkNext c none).linkPrev c none with
      links := d.links.clearLinks c }.setList c a
    have hchanges2 : ChangesOnly d d2 [c] := by
      refine ⟨rfl, rfl, rfl, fun x _ => rfl, fun x hx => ?_⟩
      have hne : x ≠ c := fun heq => hx (heq ▸ List.mem_cons_self)
      simp [d2, AgreeOn, linkNext, linkPrev, setList, hne]
    have hlists := h.lists
    rw [hnodes] at hlists hc
    obtain ⟨hold, hself, -⟩ := hlists.middle
    have hlist2 : ListOf d2 a (rest a) := hold.congr rfl fun x hx =>
      hchanges2.agree x fun hmem => hown x hx (List.mem_singleton.mp hmem)
    obtain ⟨d3, hreturn, hlinks, hchanges, hlist, hsame, hhint⟩ :=
      returnChunkAtTail_spec hlist2 hself
      (fun hmem => hown c hmem rfl) (Function.update_self ..) hsize.symm
    have hall := hchanges2.trans hchanges (by simp)
    obtain ⟨hjoin, hperm⟩ := hlists.join hc hsize.symm hall hlist hsame
    refine ⟨d3.accountFor c, t, Function.update rest a (rest a ++ [c]), ?_, ⟨?_, ?_⟩, hall.size,
      fun hups => ?_, ?_⟩
    · simp only [insertChunkInTree, hsearch, Option.bind_eq_bind, Option.bind_some]
      refine (congrArg (fun result => Option.bind result _) hreturn).trans ?_
      rw [Option.bind_some, accountFor, hall.size]
    · have htree' : d3.links = d.links.clearLinks c := hlinks
      rw [accountFor, htree']
      exact h.tree.clearLinks hctree
    · rw [hnodes]
      exact hjoin
    · rw [hnodes] at hups ⊢
      exact hlists.hintsUp_join hc hall hsame hhint hups
    · rw [hnodes]
      exact hperm
  | @missing frames _ htree hframes hbefore hafter =>
    have hnodes : inorder t = nodesBefore frames ++ nodesAfter frames := by
      simp [← htree, inorder_plugAll]
    have hnodes' : inorder (plugAll frames (.node c .nil .nil)) =
        nodesBefore frames ++ ([c] ++ nodesAfter frames) := by simp [inorder_plugAll]
    have hlists := h.lists
    rw [hnodes] at hlists hc
    let d2 := { (d.linkNext c none).linkPrev c none with links := d.links.clearLinks c }
    have hchanges2 : ChangesOnly d d2 [c] := by
      refine ⟨rfl, rfl, rfl, fun x _ => rfl, fun x hx => ?_⟩
      have hne : x ≠ c := fun heq => hx (heq ▸ List.mem_cons_self)
      simp [d2, AgreeOn, linkNext, linkPrev, hne]
    have houtside : c ∉ nodesOutside frames := by
      rw [hnodes] at hctree
      exact hctree
    have hframes2 : LinkedFrames d2.links frames none prevTL := by
      have hframes' : LinkedFrames d.links frames none prevTL := hframes
      refine LinkedFrames.congr (by rfl) (fun x hx => ?_) hframes'
      have hne : x ≠ c := fun heq => houtside (heq ▸ hx)
      simp [d2, AgreeAt, LinkStore.clearLinks, hne]
    obtain ⟨hchanges, hlist, hsame, hhint⟩ := d2.insertNode_changes c (d.size c) prevTL
    have hall := hchanges2.trans hchanges (fun _ hx => hx)
    obtain ⟨hinsert, hperm⟩ := hlists.insert hc hbefore hafter hall hlist hsame
    refine ⟨(d2.insertNode c (d.size c) prevTL).accountFor c, plugAll frames (.node c .nil .nil),
      Function.update rest c [], ?_, ⟨?_, ?_⟩, hall.size, fun hups => ?_, ?_⟩
    · simp only [insertChunkInTree, hsearch, Option.bind_eq_bind, Option.bind_some]
      have hsize : (d2.insertNode c (d.size c) prevTL).size c = d.size c := by rw [hall.size]
      rw [accountFor, hsize]
      rfl
    · rw [accountFor, links_insertNode hframes2 houtside hbefore hafter]
      have htree' := h.tree
      rw [← htree] at htree' hctree
      have hinserted := LinkStore.insert_eq htree' hctree
      rw [← LinkStore.clearLinks_clearLinks] at hinserted
      exact hinserted
    · rw [hnodes']
      exact hinsert
    · rw [hnodes']
      rw [hnodes] at hups
      have hups' : HintsUp d (nodesBefore frames ++ ([] ++ nodesAfter frames)) := hups
      refine hups'.replace (fun x hx => ?_) fun x hx => ?_
      · refine hall.embeddedList x fun hmem => hc ?_
        exact List.mem_singleton.mp hmem ▸ subset_chunks hx
      · obtain rfl := List.mem_singleton.mp hx
        exact .inl hhint
    · rw [hnodes', hnodes]
      exact hperm

end BinaryTreeDictionary

end HotSpot
