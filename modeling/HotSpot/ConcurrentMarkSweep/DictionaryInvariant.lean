import HotSpot.ConcurrentMarkSweep.BinaryTreeDictionary
import HotSpot.Lib.LinkedSegment
import Mathlib

/-! # The invariant of the dictionary

The nodes form a search tree for strictly ordered sizes, and the chunks of a node's list are
the node's own and some others, linked both ways.
-/

/-! ## The repair of the tree

What the writes of the links do to the tree that the links represent: a node that moves to
another chunk, a node that is removed, and a new node.
-/

namespace HotSpot

namespace LinkStore

variable {links : LinkStore Nat} {frames : List (TreeFrame Nat)} {a b c : Nat} {p q : Option Nat}
  {l r : BinaryTree Nat}

/-- The tree that the links represent. -/
def Tree (links : LinkStore Nat) (t : BinaryTree Nat) : Prop :=
  LinkedTree links t links.root none ∧ (inorder t).Nodup

theorem Tree.congr {links' : LinkStore Nat} {t : BinaryTree Nat} (h : links.Tree t)
    (hroot : links'.root = links.root) (hagree : ∀ a ∈ inorder t, AgreeAt links links' a) :
    links'.Tree t :=
  ⟨hroot ▸ h.1.congr hagree, h.2⟩

/-- The two ways to see a node of the tree. -/
theorem tree_plugAll_node : links.Tree (plugAll frames (.node a l r)) →
    LinkedFrames links frames (some a) (links.parent a) ∧
      LinkedTree links l (links.left a) (some a) ∧ LinkedTree links r (links.right a) (some a) ∧
      (a :: (inorder l ++ (inorder r ++ nodesOutside frames))).Nodup := by
  rintro ⟨htree, hnodup⟩
  obtain ⟨p, q, hframes, rfl, rfl, hl, hr⟩ := linkedTree_plugAll.mp htree
  refine ⟨hframes, hl, hr, ?_⟩
  rw [(inorder_plugAll_perm frames (.node a l r)).nodup_iff, inorder_node, List.append_assoc,
    List.cons_append] at hnodup
  rwa [← List.perm_middle.nodup_iff]

/-- The new child takes the place of the old. -/
theorem replaceChild_eq (hframes : LinkedFrames links frames (some a) (links.parent a))
    (ha : a ∉ nodesOutside frames) : links.replaceChild a p = links.setChild frames p := by
  cases frames with
  | nil => rw [replaceChild, hframes.2]; rfl
  | cons frame frames =>
    have hsibling : a ∉ inorder frame.sibling := fun hmem => ha
      ((nodesOutside_cons frame frames).mem_iff.mpr
        (List.mem_cons_of_mem _ (List.mem_append_left _ hmem)))
    cases frame with
    | left x t =>
      obtain ⟨hparent, -, hr, -⟩ := hframes
      have hne : links.right x ≠ some a := fun heq => hsibling (hr.mem heq)
      simp only [replaceChild, hparent]
      rw [if_neg hne]
      rfl
    | right x t =>
      obtain ⟨hparent, hright, -⟩ := hframes
      simp only [replaceChild, hparent]
      rw [if_pos hright]
      rfl

/-- The walk finds the leftmost node and its place. -/
theorem leftmost_eq {fuel : Nat} (htree : LinkedTree links (.node a l r) p q)
    (hfuel : (inorder l).length < fuel) : ∃ m, links.leftmost fuel a = some m ∧
      ∃ inner r', BinaryTree.node a l r = plugAll inner (.node m .nil r') ∧
        nodesBefore inner = [] := by
  induction l generalizing a r p q fuel with
  | nil =>
    obtain ⟨fuel, rfl⟩ := Nat.exists_eq_add_one.mpr (Nat.zero_lt_of_lt hfuel)
    have hleft : links.left a = none := htree.2.2.1
    rw [leftmost, hleft]
    exact ⟨a, rfl, [], r, rfl, rfl⟩
  | node b l' r' ihl ihr =>
    obtain ⟨fuel, rfl⟩ := Nat.exists_eq_add_one.mpr (Nat.zero_lt_of_lt hfuel)
    have hleft : links.left a = some b := htree.2.2.1.1
    rw [inorder_node, List.length_append, List.length_cons] at hfuel
    have hless : (inorder l').length < fuel := by omega
    obtain ⟨m, hm, inner, r'', hinner, hbefore⟩ := ihl htree.2.2.1 hless
    rw [leftmost, hleft]
    refine ⟨m, hm, inner ++ [.left a r], r'', ?_, ?_⟩
    · rw [plugAll_append, ← hinner]
      rfl
    · rw [nodesBefore_append, hbefore]
      rfl

/-- Removing the leftmost node of the right subtree of `a`. -/
theorem removeTreeMinimum_eq {right fuel : Nat} {rl rr : BinaryTree Nat}
    (htree : links.Tree (plugAll frames (.node a l (.node right rl rr))))
    (hfuel : (inorder rl).length < fuel) : ∃ m links' t,
      links.removeTreeMinimum right fuel = some (m, links') ∧
        links'.Tree (plugAll frames (.node a l t)) ∧
        inorder (.node right rl rr) = m :: inorder t := by
  obtain ⟨-, hl, hr, -⟩ := tree_plugAll_node htree
  obtain ⟨m, hm, inner, r', hinner, hbefore⟩ := leftmost_eq hr hfuel
  have hplug : ∀ t, plugAll frames (.node a l (plugAll inner t)) =
      plugAll (inner ++ .right a l :: frames) t := by
    intro t
    rw [plugAll_append]
    rfl
  rw [hinner, hplug] at htree
  obtain ⟨hframes, -, hright, hnodup⟩ := tree_plugAll_node htree
  have hnodup' : (inorder r' ++ nodesOutside (inner ++ .right a l :: frames)).Nodup :=
    (List.nodup_cons.mp hnodup).2
  have hfresh : m ∉ nodesOutside (inner ++ .right a l :: frames) := fun hmem =>
    (List.nodup_cons.mp hnodup).1 (List.mem_append_right _ (List.mem_append_right _ hmem))
  refine ⟨m, links.setChild (inner ++ .right a l :: frames) (links.right m), plugAll inner r',
    ?_, ⟨?_, ?_⟩, ?_⟩
  · have hroot : links.root ≠ some m := by
      rcases hframes.root_eq with ⟨hnil, -⟩ | ⟨c, hc, hroot⟩
      · simp at hnil
      · rw [hroot]
        exact fun heq => hfresh (Option.some.inj heq ▸ hc)
    simp only [removeTreeMinimum, hm, Option.bind_eq_bind, Option.bind_some]
    rw [if_neg hroot]
    cases inner with
    | nil =>
      obtain ⟨hparent, -⟩ := hframes
      have hne : links.left a ≠ some m := fun heq => hfresh
        ((nodesOutside_cons (.right a l) frames).mem_iff.mpr
          (List.mem_cons_of_mem _ (List.mem_append_left _ (hl.mem heq))))
      rw [hparent, Option.bind_some, if_neg hne]
      rfl
    | cons frame inner =>
      cases frame with
      | left x t =>
        obtain ⟨hparent, hleft, -⟩ := hframes
        rw [hparent, Option.bind_some, if_pos hleft]
        rfl
      | right x t => simp [nodesBefore] at hbefore
  · rw [hplug]
    exact hframes.linkedTree_setChild hright hnodup'
  · rw [hplug, (inorder_plugAll_perm _ _).nodup_iff]
    exact hnodup'
  · rw [hinner, inorder_plugAll, inorder_plugAll, hbefore]
    rfl

/-- Removing a node joins the nodes of its subtrees. -/
theorem removeNode_eq {fuel : Nat} (htree : links.Tree (plugAll frames (.node a l r)))
    (hfuel : (inorder r).length < fuel) : ∃ links' t, links.removeNode a fuel = some links' ∧
      links'.Tree t ∧ inorder t = nodesBefore frames ++ (inorder l ++ inorder r) ++
        nodesAfter frames := by
  obtain ⟨hframes, hl, hr, hnodup⟩ := tree_plugAll_node htree
  obtain ⟨ha, hnodup'⟩ := List.nodup_cons.mp hnodup
  simp only [List.mem_append, not_or] at ha
  -- one child, or none, takes the place
  have hsplice : ∀ t p q, LinkedTree links t p q → (inorder t ++ nodesOutside frames).Nodup →
      inorder t = inorder l ++ inorder r →
      (links.replaceChild a p).Tree (plugAll frames t) ∧
        inorder (plugAll frames t) = nodesBefore frames ++ (inorder l ++ inorder r) ++
          nodesAfter frames := by
    intro t p q ht hnodup heq
    rw [replaceChild_eq hframes ha.2.2, inorder_plugAll, heq]
    refine ⟨⟨hframes.linkedTree_setChild ht hnodup, ?_⟩, rfl⟩
    rwa [(inorder_plugAll_perm _ _).nodup_iff]
  cases l with
  | nil =>
    have hleft : links.left a = none := hl
    refine ⟨_, _, ?_, hsplice r _ _ hr hnodup' rfl⟩
    rw [removeNode, hleft]
  | node b ll lr =>
    have hleft : links.left a = some b := hl.1
    cases r with
    | nil =>
      have hright : links.right a = none := hr
      refine ⟨_, _, ?_, hsplice _ _ _ hl hnodup' (List.append_nil _).symm⟩
      rw [removeNode, hleft, hright]
    | node right rl rr =>
      have hright : links.right a = some right := hr.1
      rw [inorder_node, List.length_append, List.length_cons] at hfuel
      have hless : (inorder rl).length < fuel := by omega
      obtain ⟨m, links', t, hremove, htree', hinorder⟩ := removeTreeMinimum_eq htree hless
      obtain ⟨hframes', hl', ht', -⟩ := tree_plugAll_node htree'
      have hm : (m :: (inorder (.node b ll lr) ++ (inorder t ++ nodesOutside frames))).Nodup := by
        rw [hinorder] at hnodup'
        exact List.perm_middle.nodup_iff.mp hnodup'
      have hleft' : (links'.setChild frames (some m)).left a = links'.left a :=
        (children_setChild ha.2.2).1
      have hright' : (links'.setChild frames (some m)).right a = links'.right a :=
        (children_setChild ha.2.2).2
      have hlinked := hframes'.linkedTree_setChild_node hl' ht' hm
      refine ⟨_, _, ?_, ⟨hlinked, ?_⟩, ?_⟩
      · rw [removeNode, hleft, hright]
        simp only [hremove, Option.bind_eq_bind, Option.bind_some]
        rw [replaceChild_eq hframes' ha.2.2, right_setLeft, hleft', hright']
      · rw [(inorder_plugAll_perm _ _).nodup_iff, inorder_node, List.append_assoc]
        exact List.perm_middle.nodup_iff.mpr hm
      · rw [inorder_plugAll, hinorder]
        rfl

/-- Where the links lead after the node `a` moves to the chunk `b`. -/
theorem relocate_links (hframes : LinkedFrames links frames (some a) (links.parent a))
    (ha : a ∉ nodesOutside frames) (hb : b ∉ nodesOutside frames) :
    let links' := ((links.setChild frames (some b)).setLeft b (links.left a)).setRight b
      (links.right a)
    (links.relocate a b).parent = links'.parent ∧ (links.relocate a b).left = links'.left ∧
      (links.relocate a b).right = links'.right := by
  cases frames with
  | nil =>
    have hparent : links.parent a = none := hframes.2
    simp only [relocate, Function.update_self, hparent]
    refine ⟨funext fun c => ?_, ?_, ?_⟩
    · simp only [parent_setParentOf, parent_setRight, parent_setLeft, setChild, setRoot,
        left_setParentOf, Function.update_apply, Option.some.injEq]
      grind
    · simp [setChild, setRoot]
    · simp [setChild, setRoot]
  | cons frame frames =>
    have hne : b ≠ frame.node := fun heq => hb
      ((nodesOutside_cons frame frames).mem_iff.mpr (heq ▸ List.mem_cons_self))
    have hsibling : a ∉ inorder frame.sibling := fun hmem => ha
      ((nodesOutside_cons frame frames).mem_iff.mpr
        (List.mem_cons_of_mem _ (List.mem_append_left _ hmem)))
    cases frame with
    | left x t =>
      obtain ⟨hparent, hleft, -⟩ := hframes
      replace hne : b ≠ x := hne
      simp only [relocate, Function.update_self, hparent, Function.update_of_ne hne.symm, hleft,
        if_true]
      refine ⟨funext fun c => ?_, ?_, ?_⟩
      · simp only [parent_setParentOf, parent_setRight, parent_setLeft, setChild,
          left_setParentOf, left_setLeft, right_setLeft, Function.update_apply, Option.some.injEq,
          if_neg hne]
        grind
      · simp only [setChild, left_setParentOf, left_setLeft, left_setRight]
        exact Function.update_comm hne _ _ _
      · simp [setChild]
    | right x t =>
      obtain ⟨hparent, -, hl, -⟩ := hframes
      replace hne : b ≠ x := hne
      have hleft : links.left x ≠ some a := fun heq => hsibling (hl.mem heq)
      simp only [relocate, Function.update_self, hparent, Function.update_of_ne hne.symm, hleft,
        if_false]
      refine ⟨funext fun c => ?_, ?_, ?_⟩
      · simp only [parent_setParentOf, parent_setRight, parent_setLeft, setChild,
          left_setParentOf, left_setRight, right_setRight, Function.update_apply,
          Option.some.injEq, if_neg hne]
        grind
      · simp [setChild]
      · simp only [setChild, right_setParentOf, right_setLeft, right_setRight]
        exact Function.update_comm hne _ _ _

theorem root_relocate : (links.relocate a b).root = links.root := by
  simp only [relocate, root_setParentOf]
  split
  · rfl
  · split <;> simp

/-- The node of `a` moves to the chunk `b`. -/
theorem relocate_eq (htree : links.Tree (plugAll frames (.node a l r)))
    (hb : b ∉ inorder (plugAll frames (.node a l r))) :
    (if (links.relocate a b).root = some a then (links.relocate a b).setRoot (some b)
      else links.relocate a b).Tree (plugAll frames (.node b l r)) := by
  obtain ⟨hframes, hl, hr, hnodup⟩ := tree_plugAll_node htree
  obtain ⟨ha, hnodup'⟩ := List.nodup_cons.mp hnodup
  rw [(inorder_plugAll_perm _ _).mem_iff, inorder_node] at hb
  simp only [List.mem_append, List.mem_cons, not_or] at ha hb
  have hnodupB : (b :: (inorder l ++ (inorder r ++ nodesOutside frames))).Nodup := by
    refine List.nodup_cons.mpr ⟨?_, hnodup'⟩
    simp only [List.mem_append, not_or]
    exact ⟨hb.1.1, hb.1.2.2, hb.2⟩
  have hlinked := hframes.linkedTree_setChild_node hl hr hnodupB
  obtain ⟨hparent, hleft, hright⟩ := relocate_links hframes ha.2.2 hb.2
  have hlinks : (if (links.relocate a b).root = some a then (links.relocate a b).setRoot (some b)
      else links.relocate a b) = ((links.setChild frames (some b)).setLeft b
        (links.left a)).setRight b (links.right a) := by
    rw [root_relocate]
    rcases hframes.root_eq with ⟨rfl, hroot⟩ | ⟨c, hc, hroot⟩
    · rw [if_pos hroot]
      refine LinkStore.ext ?_ hparent hleft hright
      rw [root_setRight, root_setLeft]
      have hset : ((links.setRoot (some b)).setParentOf (some b) none).root = some b :=
        root_setParentOf
      exact hset.symm
    · have hne : links.root ≠ some a := fun heq => ha.2.2 (Option.some.inj (hroot ▸ heq) ▸ hc)
      rw [if_neg hne]
      refine LinkStore.ext ?_ hparent hleft hright
      rw [root_setRight, root_setLeft, root_relocate]
      cases frames with
      | nil => simp [nodesOutside, nodesBefore, nodesAfter] at hc
      | cons frame frames => cases frame <;> simp [setChild]
  rw [hlinks]
  refine ⟨hlinked, ?_⟩
  rw [(inorder_plugAll_perm _ _).nodup_iff, inorder_node, List.append_assoc]
  exact List.perm_middle.nodup_iff.mpr hnodupB

/-- The chunk `c` becomes a node in the hole. -/
theorem insert_eq (htree : links.Tree (plugAll frames .nil))
    (hc : c ∉ inorder (plugAll frames .nil)) :
    ((links.clearLinks c).setChild frames (some c)).Tree (plugAll frames (.node c .nil .nil)) := by
  obtain ⟨hlinked, hnodup⟩ := htree
  obtain ⟨p, q, hframes, -⟩ := linkedTree_plugAll.mp hlinked
  rw [(inorder_plugAll_perm _ _).nodup_iff] at hnodup
  rw [(inorder_plugAll_perm _ _).mem_iff] at hc
  have hagree : ∀ a ∈ nodesOutside frames, AgreeAt links (links.clearLinks c) a := by
    intro a ha
    have hne : a ≠ c := fun heq => hc (heq ▸ ha)
    simp [AgreeAt, clearLinks, hne]
  have hnode : LinkedTree (links.clearLinks c) (.node c .nil .nil) (some c) none := by
    refine ⟨rfl, ?_, ?_, ?_⟩
    · simp [clearLinks]
    · exact Function.update_self ..
    · exact Function.update_self ..
  have hnodup' : (inorder (.node c .nil .nil) ++ nodesOutside frames).Nodup :=
    List.nodup_cons.mpr ⟨hc, hnodup⟩
  have hframes' : LinkedFrames (links.clearLinks c) frames p q :=
    LinkedFrames.congr (by rfl) hagree hframes
  refine ⟨hframes'.linkedTree_setChild hnode hnodup', ?_⟩
  rwa [(inorder_plugAll_perm _ _).nodup_iff]

end LinkStore

end HotSpot

namespace HotSpot.BinaryTreeDictionary

variable {d d' : BinaryTreeDictionary}

/-- The list of the node `a` holds the chunks `a :: rest`. -/
structure ListOf (d : BinaryTreeDictionary) (a : Nat) (rest : List Nat) : Prop where
  head : (d.embeddedList a).head = some a
  tail : (d.embeddedList a).tail = (a :: rest).getLast?
  count : (d.embeddedList a).count = rest.length + 1
  forward : LinkedSegment d.next (some a) (a :: rest) none
  backward : LinkedSegment d.prev (d.embeddedList a).tail (a :: rest).reverse none
  size : ∀ c ∈ a :: rest, d.size c = (d.embeddedList a).size
  list : ∀ c ∈ a :: rest, d.list c = some a

/-- The chunks of the lists of some nodes. -/
def chunks (nodes : List Nat) (rest : Nat → List Nat) : List Nat :=
  nodes.flatMap fun a => a :: rest a

/-- The nodes of the tree from left to right, and the other chunks of their lists. -/
structure Lists (d : BinaryTreeDictionary) (nodes : List Nat) (rest : Nat → List Nat) : Prop where
  listOf : ∀ a ∈ nodes, ListOf d a (rest a)
  nodup : (chunks nodes rest).Nodup
  sorted : (nodes.map fun a => (d.embeddedList a).size).Pairwise (· < ·)
  totalSize : d.totalSize =
    (nodes.map fun a => (d.embeddedList a).size * (d.embeddedList a).count).sum
  totalFreeBlocks : d.totalFreeBlocks = (nodes.map fun a => (d.embeddedList a).count).sum

/-- The dictionary represents the tree `t`, whose nodes have the other chunks `rest`. -/
structure Represents (d : BinaryTreeDictionary) (t : BinaryTree Nat) (rest : Nat → List Nat) :
    Prop where
  tree : d.links.Tree t
  lists : Lists d (inorder t) rest

/-- The hints lead to larger sizes. -/
def HintsUp (d : BinaryTreeDictionary) (nodes : List Nat) : Prop :=
  ∀ a ∈ nodes, (d.embeddedList a).hint = 0 ∨ (d.embeddedList a).size < (d.embeddedList a).hint

/-- Two dictionaries with the same fields of a chunk. -/
def AgreeOn (d d' : BinaryTreeDictionary) (c : Nat) : Prop :=
  d'.size c = d.size c ∧ d'.prev c = d.prev c ∧ d'.next c = d.next c ∧ d'.list c = d.list c

theorem ListOf.congr {a : Nat} {rest : List Nat} (h : ListOf d a rest)
    (hlist : d'.embeddedList a = d.embeddedList a)
    (hagree : ∀ c ∈ a :: rest, AgreeOn d d' c) : ListOf d' a rest where
  head := by rw [hlist, h.head]
  tail := by rw [hlist, h.tail]
  count := by rw [hlist, h.count]
  forward := h.forward.congr fun c hc => (hagree c hc).2.2.1
  backward := by
    rw [hlist]
    exact h.backward.congr fun c hc => (hagree c (List.mem_reverse.mp hc)).2.1
  size := by
    intro c hc
    rw [(hagree c hc).1, hlist, h.size c hc]
  list := by
    intro c hc
    rw [(hagree c hc).2.2.2, h.list c hc]

/-! ## The chunks -/

theorem mem_chunks {nodes : List Nat} {rest : Nat → List Nat} {c : Nat} :
    c ∈ chunks nodes rest ↔ ∃ a ∈ nodes, c ∈ a :: rest a := List.mem_flatMap

theorem chunks_append (first second : List Nat) (rest : Nat → List Nat) :
    chunks (first ++ second) rest = chunks first rest ++ chunks second rest :=
  List.flatMap_append

theorem chunks_cons (a : Nat) (nodes : List Nat) (rest : Nat → List Nat) :
    chunks (a :: nodes) rest = a :: rest a ++ chunks nodes rest := List.flatMap_cons

theorem chunks_congr {nodes : List Nat} {rest rest' : Nat → List Nat}
    (h : ∀ a ∈ nodes, rest' a = rest a) : chunks nodes rest' = chunks nodes rest := by
  induction nodes with
  | nil => rfl
  | cons a nodes ih =>
    rw [chunks_cons, chunks_cons, h a List.mem_cons_self,
      ih fun b hb => h b (List.mem_cons_of_mem _ hb)]

theorem subset_chunks {nodes : List Nat} {rest : Nat → List Nat} {a : Nat} (ha : a ∈ nodes) :
    a ∈ chunks nodes rest := mem_chunks.mpr ⟨a, ha, List.mem_cons_self⟩

theorem length_chunks (nodes : List Nat) (rest : Nat → List Nat) :
    (chunks nodes rest).length = (nodes.map fun a => (rest a).length + 1).sum := by
  induction nodes with
  | nil => rfl
  | cons a nodes ih => rw [chunks_cons, List.length_append, List.length_cons, ih]; rfl

/-- The chunks of the nodes in the middle come first. -/
theorem chunks_middle_perm (pre middle post : List Nat) (rest : Nat → List Nat) :
    (chunks (pre ++ (middle ++ post)) rest).Perm
      (chunks middle rest ++ chunks (pre ++ post) rest) := by
  rw [chunks_append, chunks_append, chunks_append]
  exact List.perm_append_comm_assoc _ _ _

/-- The chunks of a node and the others. -/
theorem exists_chunks_perm {nodes : List Nat} {a : Nat} (ha : a ∈ nodes) (rest : Nat → List Nat) :
    ∃ others, (chunks nodes rest).Perm (a :: rest a ++ others) := by
  obtain ⟨pre, post, rfl⟩ := List.append_of_mem ha
  have hown : chunks [a] rest = a :: rest a := by simp [chunks]
  rw [← hown]
  exact ⟨_, chunks_middle_perm pre [a] post rest⟩

theorem length_le_chunks (nodes : List Nat) (rest : Nat → List Nat) :
    nodes.length ≤ (chunks nodes rest).length := by
  induction nodes with
  | nil => exact Nat.le_refl _
  | cons a nodes ih =>
    rw [chunks_cons, List.length_append, List.length_cons, List.length_cons]
    omega

namespace Lists

variable {nodes : List Nat} {rest : Nat → List Nat}

/-- The count of the free blocks. -/
theorem length_chunks (h : Lists d nodes rest) :
    (chunks nodes rest).length = d.totalFreeBlocks := by
  rw [h.totalFreeBlocks, BinaryTreeDictionary.length_chunks]
  exact congrArg List.sum (List.map_congr_left fun a ha => (h.listOf a ha).count.symm)

/-- A node in the middle gives way to others. -/
theorem replace {pre old new post : List Nat} {rest' : Nat → List Nat}
    (h : Lists d (pre ++ (old ++ post)) rest)
    (hothers : ∀ a ∈ pre ++ post, d'.embeddedList a = d.embeddedList a ∧ rest' a = rest a ∧
      ∀ c ∈ a :: rest a, AgreeOn d d' c)
    (hnew : ∀ a ∈ new, ListOf d' a (rest' a))
    (hnodup : (chunks (pre ++ (new ++ post)) rest').Nodup)
    (hsorted : (pre.map (fun a => (d.embeddedList a).size) ++
      (new.map (fun a => (d'.embeddedList a).size) ++
        post.map fun a => (d.embeddedList a).size)).Pairwise (· < ·))
    (htotal : d'.totalSize +
      (old.map fun a => (d.embeddedList a).size * (d.embeddedList a).count).sum = d.totalSize +
        (new.map fun a => (d'.embeddedList a).size * (d'.embeddedList a).count).sum)
    (hblocks : d'.totalFreeBlocks + (old.map fun a => (d.embeddedList a).count).sum =
      d.totalFreeBlocks + (new.map fun a => (d'.embeddedList a).count).sum) :
    Lists d' (pre ++ (new ++ post)) rest' := by
  have hmap : ∀ {β : Type} (f : FreeList → β) (nodes : List Nat), nodes ⊆ pre ++ post →
      nodes.map (fun a => f (d'.embeddedList a)) = nodes.map fun a => f (d.embeddedList a) :=
    fun f nodes hsub => List.map_congr_left fun a ha => by rw [(hothers a (hsub ha)).1]
  have hpre : pre ⊆ pre ++ post := List.subset_append_left ..
  have hpost : post ⊆ pre ++ post := List.subset_append_right ..
  refine ⟨fun a ha => ?_, hnodup, ?_, ?_, ?_⟩
  · have hcases : a ∈ new ∨ a ∈ pre ++ post := by
      simp only [List.mem_append] at ha ⊢
      tauto
    rcases hcases with hmem | hmem
    · exact hnew a hmem
    · obtain ⟨hlist, hrest, hagree⟩ := hothers a hmem
      have hold : a ∈ pre ++ (old ++ post) := by
        simp only [List.mem_append] at hmem ⊢
        tauto
      rw [hrest]
      exact (h.listOf a hold).congr hlist hagree
  · rwa [List.map_append, List.map_append, hmap _ pre hpre, hmap _ post hpost]
  · have hold := h.totalSize
    simp only [List.map_append, List.sum_append] at hold ⊢
    rw [hmap (fun list => list.size * list.count) pre hpre,
      hmap (fun list => list.size * list.count) post hpost]
    omega
  · have hold := h.totalFreeBlocks
    simp only [List.map_append, List.sum_append] at hold ⊢
    rw [hmap FreeList.count pre hpre, hmap FreeList.count post hpost]
    omega

end Lists

theorem HintsUp.replace {pre old new post : List Nat} (h : HintsUp d (pre ++ (old ++ post)))
    (hothers : ∀ a ∈ pre ++ post, d'.embeddedList a = d.embeddedList a) (hnew : HintsUp d' new) :
    HintsUp d' (pre ++ (new ++ post)) := by
  intro a ha
  have hcases : a ∈ new ∨ a ∈ pre ++ post := by
    simp only [List.mem_append] at ha ⊢
    tauto
  rcases hcases with hmem | hmem
  · exact hnew a hmem
  · rw [hothers a hmem]
    refine h a ?_
    simp only [List.mem_append] at hmem ⊢
    tauto

/-- What the representation does not speak of may change. -/
theorem Represents.congr {t : BinaryTree Nat} {rest : Nat → List Nat} (h : Represents d t rest)
    (htree : d'.links.Tree t) (htotal : d'.totalSize = d.totalSize)
    (hblocks : d'.totalFreeBlocks = d.totalFreeBlocks)
    (hagree : ∀ c ∈ chunks (inorder t) rest, AgreeOn d d' c)
    (hlists : ∀ a ∈ inorder t, (d'.embeddedList a).head = (d.embeddedList a).head ∧
      (d'.embeddedList a).tail = (d.embeddedList a).tail ∧
      (d'.embeddedList a).size = (d.embeddedList a).size ∧
      (d'.embeddedList a).count = (d.embeddedList a).count) : Represents d' t rest := by
  have hsizes : ∀ {β : Type} (f : Nat → Nat → β), (inorder t).map
      (fun a => f (d'.embeddedList a).size (d'.embeddedList a).count) =
        (inorder t).map fun a => f (d.embeddedList a).size (d.embeddedList a).count := by
    intro β f
    refine List.map_congr_left fun a ha => ?_
    obtain ⟨-, -, hsize, hcount⟩ := hlists a ha
    rw [hsize, hcount]
  refine ⟨htree, ⟨fun a ha => ?_, h.lists.nodup, ?_, ?_, ?_⟩⟩
  · obtain ⟨hhead, htail, hsize, hcount⟩ := hlists a ha
    have hlist := h.lists.listOf a ha
    have hchunk : ∀ c ∈ a :: rest a, AgreeOn d d' c := fun c hc =>
      hagree c (mem_chunks.mpr ⟨a, ha, hc⟩)
    refine ⟨hhead.trans hlist.head, htail.trans hlist.tail, hcount.trans hlist.count,
      ?_, ?_, ?_, ?_⟩
    · exact hlist.forward.congr fun c hc => (hchunk c hc).2.2.1
    · rw [htail]
      exact hlist.backward.congr fun c hc => (hchunk c (List.mem_reverse.mp hc)).2.1
    · intro c hc
      rw [(hchunk c hc).1, hsize, hlist.size c hc]
    · intro c hc
      rw [(hchunk c hc).2.2.2, hlist.list c hc]
  · rw [hsizes fun size _ => size]
    exact h.lists.sorted
  · rw [hsizes fun size count => size * count, htotal]
    exact h.lists.totalSize
  · rw [hsizes fun _ count => count, hblocks]
    exact h.lists.totalFreeBlocks

/-! ## The initial states -/

theorem reset_represents (d : BinaryTreeDictionary) (rest : Nat → List Nat) :
    Represents d.reset .nil rest where
  tree := ⟨rfl, List.nodup_nil⟩
  lists := ⟨by simp, List.nodup_nil, List.Pairwise.nil, rfl, rfl⟩

/-- A list embedded in its only chunk. -/
theorem listOf_asTreeList (d : BinaryTreeDictionary) (tc : Nat) :
    ListOf (d.asTreeList tc) tc [] where
  head := by simp [asTreeList, linkHead, linkTail, linkNext, linkPrev, modifyList, setList]
  tail := by simp [asTreeList, linkHead, linkTail, linkNext, linkPrev, modifyList, setList]
  count := by simp [asTreeList, linkHead, linkTail, linkNext, linkPrev, modifyList, setList]
  forward := ⟨rfl, Function.update_self ..⟩
  backward := by simp [asTreeList, linkHead, linkTail, linkNext, linkPrev, modifyList, setList]
  size := by simp [asTreeList, linkHead, linkTail, linkNext, linkPrev, modifyList, setList]
  list := by simp [asTreeList, linkHead, linkTail, linkNext, linkPrev, modifyList, setList]

theorem size_asTreeList (d : BinaryTreeDictionary) (tc : Nat) :
    ((d.asTreeList tc).embeddedList tc).size = d.size tc := by
  simp [asTreeList, linkHead, linkTail, linkNext, linkPrev, modifyList, setList]

theorem hint_asTreeList (d : BinaryTreeDictionary) (tc : Nat) :
    ((d.asTreeList tc).embeddedList tc).hint = 0 := by
  simp [asTreeList, linkHead, linkTail, linkNext, linkPrev, modifyList, setList]

theorem resetTo_represents (d : BinaryTreeDictionary) (start wordSize : Nat) :
    Represents (d.resetTo start wordSize) (.node start .nil .nil) fun _ => [] := by
  have hlist : ListOf (d.resetTo start wordSize) start [] :=
    (listOf_asTreeList _ start).congr rfl fun _ _ => ⟨rfl, rfl, rfl, rfl⟩
  have hsize : ((d.resetTo start wordSize).embeddedList start).size = wordSize := by
    refine (size_asTreeList _ start).trans ?_
    exact Function.update_self ..
  refine ⟨⟨⟨rfl, ?_, ?_, ?_⟩, List.nodup_singleton _⟩, ⟨?_, ?_, ?_, ?_, ?_⟩⟩
  · exact Function.update_self ..
  · exact Function.update_self ..
  · exact Function.update_self ..
  · intro a ha
    obtain rfl := List.mem_singleton.mp ha
    exact hlist
  · exact List.nodup_singleton _
  · exact List.pairwise_singleton _ _
  · simp [hlist.count, hsize]
    rfl
  · simp [hlist.count]
    rfl

theorem resetTo_hintsUp (d : BinaryTreeDictionary) (start wordSize : Nat) :
    HintsUp (d.resetTo start wordSize) [start] := by
  intro a ha
  obtain rfl := List.mem_singleton.mp ha
  exact .inl (hint_asTreeList _ a)

end HotSpot.BinaryTreeDictionary
