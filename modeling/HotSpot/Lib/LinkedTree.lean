import Mathlib.Data.List.Nodup
import Mathlib.Data.Tree.Basic
import Mathlib.Logic.Function.Basic
import Mathlib.Tactic.Common

/-! # Binary trees of linked nodes

Trees whose nodes hold links to their parent and to their children, over any type of nodes.
A tree with a hole is the list of the nodes on the way up from the hole, each with its other
subtree.
-/

namespace HotSpot

variable {α : Type*}

/-- The nodes from left to right. -/
def inorder : BinaryTree α → List α
  | .nil => []
  | .node a l r => inorder l ++ a :: inorder r

@[simp] theorem inorder_nil : inorder (.nil : BinaryTree α) = [] := rfl

@[simp] theorem inorder_node (a : α) (l r : BinaryTree α) :
    inorder (.node a l r) = inorder l ++ a :: inorder r := rfl

/-- A node above the hole; the hole is in its left or in its right subtree. -/
inductive TreeFrame (α : Type*) where
  | left (a : α) (r : BinaryTree α)
  | right (a : α) (l : BinaryTree α)

namespace TreeFrame

def node : TreeFrame α → α
  | left a _ => a
  | right a _ => a

def sibling : TreeFrame α → BinaryTree α
  | left _ r => r
  | right _ l => l

/-- The tree of a node and its two subtrees. -/
def plug (t : BinaryTree α) : TreeFrame α → BinaryTree α
  | left a r => .node a t r
  | right a l => .node a l t

end TreeFrame

/-- Fills the hole. -/
def plugAll : List (TreeFrame α) → BinaryTree α → BinaryTree α
  | [], t => t
  | frame :: frames, t => plugAll frames (frame.plug t)

/-- The nodes to the left of the hole. -/
def nodesBefore : List (TreeFrame α) → List α
  | [] => []
  | .left _ _ :: frames => nodesBefore frames
  | .right a l :: frames => nodesBefore frames ++ (inorder l ++ [a])

/-- The nodes to the right of the hole. -/
def nodesAfter : List (TreeFrame α) → List α
  | [] => []
  | .left a r :: frames => a :: inorder r ++ nodesAfter frames
  | .right _ _ :: frames => nodesAfter frames

theorem plugAll_append (inner outer : List (TreeFrame α)) (t : BinaryTree α) :
    plugAll (inner ++ outer) t = plugAll outer (plugAll inner t) := by
  induction inner generalizing t with
  | nil => rfl
  | cons frame inner ih => exact ih _

theorem nodesBefore_append (inner outer : List (TreeFrame α)) :
    nodesBefore (inner ++ outer) = nodesBefore outer ++ nodesBefore inner := by
  induction inner with
  | nil => simp [nodesBefore]
  | cons frame inner ih => cases frame <;> simp [nodesBefore, ih]

theorem inorder_plugAll (frames : List (TreeFrame α)) (t : BinaryTree α) :
    inorder (plugAll frames t) = nodesBefore frames ++ inorder t ++ nodesAfter frames := by
  induction frames generalizing t with
  | nil => simp [plugAll, nodesBefore, nodesAfter]
  | cons frame frames ih =>
    cases frame with
    | left a r => simp [plugAll, TreeFrame.plug, ih, nodesBefore, nodesAfter]
    | right a l => simp [plugAll, TreeFrame.plug, ih, nodesBefore, nodesAfter]

/-- The nodes above the hole and beside it. -/
def nodesOutside (frames : List (TreeFrame α)) : List α := nodesBefore frames ++ nodesAfter frames

theorem nodesOutside_cons (frame : TreeFrame α) (frames : List (TreeFrame α)) :
    (nodesOutside (frame :: frames)).Perm
      (frame.node :: (inorder frame.sibling ++ nodesOutside frames)) := by
  cases frame with
  | left a r => exact List.perm_middle.trans ((List.perm_append_comm_assoc _ _ _).cons a)
  | right a l =>
    have hassoc : nodesOutside (.right a l :: frames) =
        (nodesBefore frames ++ inorder l) ++ a :: nodesAfter frames := by
      simp [nodesOutside, nodesBefore, nodesAfter]
    rw [hassoc]
    refine List.perm_middle.trans (List.Perm.cons a ?_)
    rw [List.append_assoc]
    exact List.perm_append_comm_assoc _ _ _

/-- The nodes of a tree are those in the hole and those outside it. -/
theorem inorder_plugAll_perm (frames : List (TreeFrame α)) (t : BinaryTree α) :
    (inorder (plugAll frames t)).Perm (inorder t ++ nodesOutside frames) := by
  rw [inorder_plugAll, List.append_assoc]
  exact List.perm_append_comm_assoc _ _ _

/-- A node of a tree has a place in it. -/
theorem exists_plugAll_of_mem {a : α} {t : BinaryTree α} (ha : a ∈ inorder t) :
    ∃ frames l r, t = plugAll frames (.node a l r) := by
  suffices h : ∀ frames, ∃ frames' l r, plugAll frames t = plugAll frames' (.node a l r) from h []
  intro frames
  induction t generalizing frames with
  | nil => simp at ha
  | node b l r ihl ihr =>
    rw [inorder_node, List.mem_append, List.mem_cons] at ha
    rcases ha with hl | rfl | hr
    · exact ihl hl (.left b r :: frames)
    · exact ⟨frames, l, r, rfl⟩
    · exact ihr hr (.right b l :: frames)

/-! ## The links -/

/-- The links of the nodes and to the root. -/
@[ext]
structure LinkStore (α : Type*) where
  root : Option α
  parent : α → Option α
  left : α → Option α
  right : α → Option α

/-- The link `p` to the root of a subtree below `q`. -/
def LinkedTree (links : LinkStore α) : BinaryTree α → Option α → Option α → Prop
  | .nil, p, _ => p = none
  | .node a l r, p, q => p = some a ∧ links.parent a = q ∧
      LinkedTree links l (links.left a) (some a) ∧ LinkedTree links r (links.right a) (some a)

/-- The links of the nodes above a hole below `q` that `p` leads to. -/
def LinkedFrames (links : LinkStore α) : List (TreeFrame α) → Option α → Option α → Prop
  | [], p, q => links.root = p ∧ q = none
  | .left a r :: frames, p, q => q = some a ∧ links.left a = p ∧
      LinkedTree links r (links.right a) (some a) ∧
      LinkedFrames links frames (some a) (links.parent a)
  | .right a l :: frames, p, q => q = some a ∧ links.right a = p ∧
      LinkedTree links l (links.left a) (some a) ∧
      LinkedFrames links frames (some a) (links.parent a)

section Links

variable {links links' : LinkStore α} {p q : Option α} {t : BinaryTree α}
  {frames : List (TreeFrame α)}

/-- A linked tree is one around and one in the hole. -/
theorem linkedTree_plugAll : LinkedTree links (plugAll frames t) links.root none ↔
    ∃ p q, LinkedFrames links frames p q ∧ LinkedTree links t p q := by
  induction frames generalizing t with
  | nil =>
    constructor
    · intro h
      exact ⟨_, _, ⟨rfl, rfl⟩, h⟩
    · rintro ⟨p, q, ⟨rfl, rfl⟩, h⟩
      exact h
  | cons frame frames ih =>
    rw [plugAll, ih]
    cases frame with
    | left a r =>
      constructor
      · rintro ⟨p, q, hframes, rfl, rfl, hl, hr⟩
        exact ⟨_, _, ⟨rfl, rfl, hr, hframes⟩, hl⟩
      · rintro ⟨p, q, ⟨rfl, rfl, hr, hframes⟩, hl⟩
        exact ⟨_, _, hframes, rfl, rfl, hl, hr⟩
    | right a l =>
      constructor
      · rintro ⟨p, q, hframes, rfl, rfl, hl, hr⟩
        exact ⟨_, _, ⟨rfl, rfl, hl, hframes⟩, hr⟩
      · rintro ⟨p, q, ⟨rfl, rfl, hl, hframes⟩, hr⟩
        exact ⟨_, _, hframes, rfl, rfl, hl, hr⟩

/-- Two stores with the same links of a node. -/
def AgreeAt (links links' : LinkStore α) (a : α) : Prop :=
  links'.parent a = links.parent a ∧ links'.left a = links.left a ∧
    links'.right a = links.right a

theorem LinkedTree.congr (hagree : ∀ a ∈ inorder t, AgreeAt links links' a)
    (h : LinkedTree links t p q) : LinkedTree links' t p q := by
  induction t generalizing p q with
  | nil => exact h
  | node a l r ihl ihr =>
    simp only [inorder_node, List.forall_mem_append, List.forall_mem_cons] at hagree
    obtain ⟨hp, hq, hl, hr⟩ := h
    obtain ⟨hparent, hleft, hright⟩ := hagree.2.1
    refine ⟨hp, hparent.trans hq, ?_, ?_⟩
    · rw [hleft]
      exact ihl hagree.1 hl
    · rw [hright]
      exact ihr hagree.2.2 hr

theorem LinkedFrames.congr (hroot : links'.root = links.root)
    (hagree : ∀ a ∈ nodesOutside frames, AgreeAt links links' a)
    (h : LinkedFrames links frames p q) : LinkedFrames links' frames p q := by
  induction frames generalizing p q with
  | nil => exact ⟨hroot.trans h.1, h.2⟩
  | cons frame frames ih =>
    cases frame with
    | left a r =>
      simp only [nodesOutside, nodesBefore, nodesAfter, List.forall_mem_append, List.cons_append,
        List.forall_mem_cons] at hagree
      obtain ⟨hq, hp, hr, hframes⟩ := h
      obtain ⟨hparent, hleft, hright⟩ := hagree.2.1
      refine ⟨hq, hleft.trans hp, ?_, ?_⟩
      · rw [hright]
        exact hr.congr hagree.2.2.1
      · rw [hparent]
        exact ih (List.forall_mem_append.mpr ⟨hagree.1, hagree.2.2.2⟩) hframes
    | right a l =>
      simp only [nodesOutside, nodesBefore, nodesAfter, List.forall_mem_append,
        List.forall_mem_singleton] at hagree
      obtain ⟨hq, hp, hl, hframes⟩ := h
      obtain ⟨hparent, hleft, hright⟩ := hagree.1.2.2
      refine ⟨hq, hright.trans hp, ?_, ?_⟩
      · rw [hleft]
        exact hl.congr hagree.1.2.1
      · rw [hparent]
        exact ih (List.forall_mem_append.mpr ⟨hagree.1.1, hagree.2⟩) hframes

/-- The root is in the hole or is one of the nodes above it. -/
theorem LinkedFrames.root_eq (h : LinkedFrames links frames p q) :
    frames = [] ∧ links.root = p ∨ ∃ a ∈ nodesOutside frames, links.root = some a := by
  induction frames generalizing p q with
  | nil => exact .inl ⟨rfl, h.1⟩
  | cons frame frames ih =>
    right
    have hmem : ∀ {a}, a ∈ frame.node :: (inorder frame.sibling ++ nodesOutside frames) →
        a ∈ nodesOutside (frame :: frames) := (nodesOutside_cons frame frames).mem_iff.mpr
    have hframes : LinkedFrames links frames (some frame.node) (links.parent frame.node) := by
      cases frame with
      | left a r => exact h.2.2.2
      | right a l => exact h.2.2.2
    rcases ih hframes with ⟨rfl, hroot⟩ | ⟨a, ha, hroot⟩
    · exact ⟨_, hmem List.mem_cons_self, hroot⟩
    · exact ⟨a, hmem (List.mem_cons_of_mem _ (List.mem_append_right _ ha)), hroot⟩

/-- A subtree with another parent. -/
theorem LinkedTree.reparent {q' : Option α} (hnodup : (inorder t).Nodup)
    (hroot : ∀ a, p = some a → links'.parent a = q')
    (hparent : ∀ a ∈ inorder t, p ≠ some a → links'.parent a = links.parent a)
    (hchildren : ∀ a ∈ inorder t, links'.left a = links.left a ∧ links'.right a = links.right a)
    (h : LinkedTree links t p q) : LinkedTree links' t p q' := by
  cases t with
  | nil => exact h
  | node a l r =>
    obtain ⟨rfl, -, hl, hr⟩ := h
    simp only [inorder_node, List.forall_mem_append, List.forall_mem_cons]
      at hparent hchildren
    rw [inorder_node, List.nodup_append, List.nodup_cons] at hnodup
    obtain ⟨hleft, hright⟩ := hchildren.2.1
    refine ⟨rfl, hroot a rfl, ?_, ?_⟩
    · rw [hleft]
      refine hl.congr fun b hb => ⟨hparent.1 b hb fun heq => ?_, hchildren.1 b hb⟩
      exact hnodup.2.2 b hb a List.mem_cons_self (Option.some.inj heq).symm
    · rw [hright]
      refine hr.congr fun b hb => ⟨hparent.2.2 b hb fun heq => ?_, hchildren.2.2 b hb⟩
      obtain rfl := Option.some.inj heq
      exact hnodup.2.1.1 hb

/-- The link to a subtree leads to one of its nodes. -/
theorem LinkedTree.mem {a : α} (h : LinkedTree links t p q) (ha : p = some a) :
    a ∈ inorder t := by
  cases t with
  | nil =>
    rw [h] at ha
    exact absurd ha (by simp)
  | node b l r =>
    obtain ⟨rfl, -⟩ := h
    simp [Option.some.inj ha]

end Links

/-! ## Writes -/

namespace LinkStore

variable [DecidableEq α]

def setParent (links : LinkStore α) (a : α) (q : Option α) : LinkStore α :=
  { links with parent := Function.update links.parent a q }

/-- Writes the parent of the node that a link leads to, if any. -/
def setParentOf (links : LinkStore α) (p q : Option α) : LinkStore α :=
  match p with
  | none => links
  | some a => links.setParent a q

def setLeft (links : LinkStore α) (a : α) (p : Option α) : LinkStore α :=
  ({ links with left := Function.update links.left a p }).setParentOf p (some a)

def setRight (links : LinkStore α) (a : α) (p : Option α) : LinkStore α :=
  ({ links with right := Function.update links.right a p }).setParentOf p (some a)

def setRoot (links : LinkStore α) (p : Option α) : LinkStore α := { links with root := p }

/-- Lets the link in place of the hole lead to `p`. -/
def setChild (links : LinkStore α) : List (TreeFrame α) → Option α → LinkStore α
  | [], p => (links.setRoot p).setParentOf p none
  | .left a _ :: _, p => links.setLeft a p
  | .right a _ :: _, p => links.setRight a p

variable {links : LinkStore α} {a c : α} {p q : Option α}

@[simp] theorem root_setParentOf : (links.setParentOf p q).root = links.root := by
  cases p <;> rfl

@[simp] theorem left_setParentOf : (links.setParentOf p q).left = links.left := by
  cases p <;> rfl

@[simp] theorem right_setParentOf : (links.setParentOf p q).right = links.right := by
  cases p <;> rfl

theorem parent_setParentOf (c : α) :
    (links.setParentOf p q).parent c = if p = some c then q else links.parent c := by
  cases p with
  | none => simp [setParentOf]
  | some a => simp [setParentOf, setParent, Function.update_apply, eq_comm]

@[simp] theorem root_setLeft : (links.setLeft a p).root = links.root := root_setParentOf

@[simp] theorem root_setRight : (links.setRight a p).root = links.root := root_setParentOf

@[simp] theorem left_setLeft : (links.setLeft a p).left = Function.update links.left a p :=
  left_setParentOf

@[simp] theorem right_setLeft : (links.setLeft a p).right = links.right := right_setParentOf

@[simp] theorem left_setRight : (links.setRight a p).left = links.left := left_setParentOf

@[simp] theorem right_setRight : (links.setRight a p).right = Function.update links.right a p :=
  right_setParentOf

theorem parent_setLeft (c : α) :
    (links.setLeft a p).parent c = if p = some c then some a else links.parent c :=
  parent_setParentOf c

theorem parent_setRight (c : α) :
    (links.setRight a p).parent c = if p = some c then some a else links.parent c :=
  parent_setParentOf c

theorem agreeAt_setLeft (hc : c ≠ a) (hp : p ≠ some c) : AgreeAt links (links.setLeft a p) c := by
  refine ⟨?_, by simp [hc], by simp⟩
  rw [parent_setLeft, if_neg hp]

theorem agreeAt_setRight (hc : c ≠ a) (hp : p ≠ some c) :
    AgreeAt links (links.setRight a p) c := by
  refine ⟨?_, by simp, by simp [hc]⟩
  rw [parent_setRight, if_neg hp]

end LinkStore

section Rules

variable [DecidableEq α] {links : LinkStore α} {frames : List (TreeFrame α)} {p p' q q' : Option α}
  {t : BinaryTree α}

/-- The node above a hole, if any, is outside it. -/
theorem LinkedFrames.setChild (h : LinkedFrames links frames p q)
    (hnodup : (nodesOutside frames).Nodup) (hfresh : ∀ a, p' = some a → a ∉ nodesOutside frames) :
    LinkedFrames (links.setChild frames p') frames p' q := by
  cases frames with
  | nil => exact ⟨LinkStore.root_setParentOf, h.2⟩
  | cons frame frames =>
    rw [(nodesOutside_cons frame frames).nodup_iff, List.nodup_cons] at hnodup
    have hnot : ∀ c ∈ inorder frame.sibling ++ nodesOutside frames,
        c ≠ frame.node ∧ p' ≠ some c := by
      intro c hc
      refine ⟨fun heq => hnodup.1 (heq ▸ hc), fun heq => hfresh c heq ?_⟩
      exact (nodesOutside_cons frame frames).mem_iff.mpr (List.mem_cons_of_mem _ hc)
    have hnode : p' ≠ some frame.node := fun heq => hfresh _ heq
      ((nodesOutside_cons frame frames).mem_iff.mpr List.mem_cons_self)
    rw [List.forall_mem_append] at hnot
    cases frame with
    | left a r =>
      obtain ⟨rfl, -, hr, hframes⟩ := h
      refine ⟨rfl, by simp [LinkStore.setChild], ?_, ?_⟩
      · rw [LinkStore.setChild, LinkStore.right_setLeft]
        exact hr.congr fun c hc =>
          LinkStore.agreeAt_setLeft (hnot.1 c hc).1 (hnot.1 c hc).2
      · have hparent : p' ≠ some a := hnode
        rw [LinkStore.setChild, LinkStore.parent_setLeft, if_neg hparent]
        exact hframes.congr LinkStore.root_setLeft fun c hc =>
          LinkStore.agreeAt_setLeft (hnot.2 c hc).1 (hnot.2 c hc).2
    | right a l =>
      obtain ⟨rfl, -, hl, hframes⟩ := h
      refine ⟨rfl, by simp [LinkStore.setChild], ?_, ?_⟩
      · rw [LinkStore.setChild, LinkStore.left_setRight]
        exact hl.congr fun c hc =>
          LinkStore.agreeAt_setRight (hnot.1 c hc).1 (hnot.1 c hc).2
      · have hparent : p' ≠ some a := hnode
        rw [LinkStore.setChild, LinkStore.parent_setRight, if_neg hparent]
        exact hframes.congr LinkStore.root_setRight fun c hc =>
          LinkStore.agreeAt_setRight (hnot.2 c hc).1 (hnot.2 c hc).2

/-- The parent of the node that takes the place of the hole. -/
theorem LinkedFrames.parent_setChild (h : LinkedFrames links frames p q) (c : α) :
    (links.setChild frames p').parent c = if p' = some c then q else links.parent c := by
  cases frames with
  | nil => rw [LinkStore.setChild, LinkStore.parent_setParentOf, h.2]; rfl
  | cons frame frames =>
    cases frame with
    | left a r => rw [LinkStore.setChild, LinkStore.parent_setLeft, h.1]
    | right a l => rw [LinkStore.setChild, LinkStore.parent_setRight, h.1]

/-- The links of a node that is not above the hole, other than its parent. -/
theorem LinkStore.children_setChild {c : α} (hc : c ∉ nodesOutside frames) :
    (links.setChild frames p').left c = links.left c ∧
      (links.setChild frames p').right c = links.right c := by
  cases frames with
  | nil => simp [LinkStore.setChild, LinkStore.setRoot]
  | cons frame frames =>
    have hnode : c ≠ frame.node := fun heq => hc
      ((nodesOutside_cons frame frames).mem_iff.mpr (heq ▸ List.mem_cons_self))
    cases frame with
    | left a r =>
      replace hnode : c ≠ a := hnode
      simp [LinkStore.setChild, hnode]
    | right a l =>
      replace hnode : c ≠ a := hnode
      simp [LinkStore.setChild, hnode]

/-- Fills the hole with another tree. -/
theorem LinkedTree.setChild (ht : LinkedTree links t p' q') (h : LinkedFrames links frames p q)
    (hnodup : (inorder t).Nodup) (hdisjoint : ∀ a ∈ inorder t, a ∉ nodesOutside frames) :
    LinkedTree (links.setChild frames p') t p' q := by
  refine ht.reparent hnodup (fun a ha => ?_) (fun a _ hne => ?_) fun a ha =>
    LinkStore.children_setChild (hdisjoint a ha)
  · rw [h.parent_setChild, if_pos ha]
  · rw [h.parent_setChild, if_neg hne]

/-- Fills the hole with another tree, root and all. -/
theorem LinkedFrames.linkedTree_setChild (h : LinkedFrames links frames p q)
    (ht : LinkedTree links t p' q') (hnodup : (inorder t ++ nodesOutside frames).Nodup) :
    LinkedTree (links.setChild frames p') (plugAll frames t) (links.setChild frames p').root
      none := by
  rw [List.nodup_append'] at hnodup
  obtain ⟨hnodupTree, hnodupOutside, hdisjoint⟩ := hnodup
  refine linkedTree_plugAll.mpr ⟨p', q, h.setChild hnodupOutside fun a ha => ?_, ?_⟩
  · exact hdisjoint (ht.mem ha)
  · exact ht.setChild h hnodupTree fun a ha => hdisjoint ha

/-- Fills the hole with a new node above two trees. -/
theorem LinkedFrames.linkedTree_setChild_node {b : α} {l r : BinaryTree α}
    {pl pr ql qr : Option α} (h : LinkedFrames links frames p q)
    (hl : LinkedTree links l pl ql) (hr : LinkedTree links r pr qr)
    (hnodup : (b :: (inorder l ++ (inorder r ++ nodesOutside frames))).Nodup) :
    LinkedTree (((links.setChild frames (some b)).setLeft b pl).setRight b pr)
      (plugAll frames (.node b l r))
      (((links.setChild frames (some b)).setLeft b pl).setRight b pr).root none := by
  simp only [List.nodup_cons, List.nodup_append', List.mem_append, not_or,
    List.disjoint_append_right] at hnodup
  obtain ⟨⟨hbl, hbr, hbo⟩, hnl, ⟨hnr, hno, hro⟩, hlr, hlo⟩ := hnodup
  have hpl : ∀ c, pl = some c → c ∈ inorder l := fun c hc => hl.mem hc
  have hpr : ∀ c, pr = some c → c ∈ inorder r := fun c hc => hr.mem hc
  have hframes : LinkedFrames (links.setChild frames (some b)) frames (some b) q :=
    h.setChild hno fun c hc => Option.some.inj hc ▸ hbo
  have hchildren : ∀ c, c ≠ b → c ∉ nodesOutside frames →
      AgreeAt links (links.setChild frames (some b)) c := by
    intro c hc hout
    refine ⟨?_, LinkStore.children_setChild hout⟩
    rw [h.parent_setChild, if_neg fun heq => hc (Option.some.inj heq).symm]
  have hneL : ∀ c ∈ inorder l, c ≠ b := fun c hc heq => hbl (heq ▸ hc)
  have hneR : ∀ c ∈ inorder r, c ≠ b := fun c hc heq => hbr (heq ▸ hc)
  have hneO : ∀ c ∈ nodesOutside frames, c ≠ b := fun c hc heq => hbo (heq ▸ hc)
  refine linkedTree_plugAll.mpr ⟨some b, q, ?_, rfl, ?_, ?_, ?_⟩
  · refine (hframes.congr LinkStore.root_setLeft fun c hc => ?_).congr LinkStore.root_setRight
      fun c hc => ?_
    · exact LinkStore.agreeAt_setLeft (hneO c hc) fun heq => hlo (hpl c heq) hc
    · exact LinkStore.agreeAt_setRight (hneO c hc) fun heq => hro (hpr c heq) hc
  · rw [LinkStore.parent_setRight, if_neg fun heq => hbr (hpr b heq), LinkStore.parent_setLeft,
      if_neg fun heq => hbl (hpl b heq), h.parent_setChild, if_pos rfl]
  · rw [LinkStore.left_setRight, LinkStore.left_setLeft, Function.update_self]
    have hl' := hl.congr fun c hc => hchildren c (hneL c hc) (hlo hc)
    refine (hl'.reparent hnl (fun c hc => ?_) (fun c hc hne => ?_) fun c hc => ?_).congr
      fun c hc => LinkStore.agreeAt_setRight (hneL c hc) fun heq => hlr hc (hpr c heq)
    · rw [LinkStore.parent_setLeft, if_pos hc]
    · rw [LinkStore.parent_setLeft, if_neg hne]
    · simp [hneL c hc]
  · rw [LinkStore.right_setRight, Function.update_self]
    have hr' := (hr.congr fun c hc => hchildren c (hneR c hc) (hro hc)).congr fun c hc =>
      LinkStore.agreeAt_setLeft (hneR c hc) fun heq => hlr (hpl c heq) hc
    refine hr'.reparent hnr (fun c hc => ?_) (fun c hc hne => ?_) fun c hc => ?_
    · rw [LinkStore.parent_setRight, if_pos hc]
    · rw [LinkStore.parent_setRight, if_neg hne]
    · simp [hneR c hc]

end Rules

end HotSpot
