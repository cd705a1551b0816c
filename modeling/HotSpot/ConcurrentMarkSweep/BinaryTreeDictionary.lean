import HotSpot.Lib.LinkedTree

/-! # The dictionary of free blocks

A binary tree of lists of free chunks, one list for each size. The list of a size is a node of
the tree and lies in the first chunk of the list, so nodes and chunks are both known by the
address of a chunk. The loops take a number of steps they may make.
-/

namespace HotSpot

/-- The fields of a list of chunks other than its links in the tree. -/
structure FreeList where
  head : Option Nat
  tail : Option Nat
  size : Nat
  count : Nat
  hint : Nat
  surplus : Int

/-- The fields of the chunks and of the lists embedded in them, by address. -/
structure BinaryTreeDictionary where
  size : Nat → Nat
  prev : Nat → Option Nat
  next : Nat → Option Nat
  list : Nat → Option Nat
  embeddedList : Nat → FreeList
  links : LinkStore Nat
  totalSize : Nat
  totalFreeBlocks : Nat

/-! ## The links -/

namespace LinkStore

/-- The node `tl` without links. -/
def clearLinks (links : LinkStore Nat) (tl : Nat) : LinkStore Nat :=
  { links with
    parent := Function.update links.parent tl none
    left := Function.update links.left tl none
    right := Function.update links.right tl none }

/-- Copies the links of the node `tl` to `retTL`, and lets the links to it lead there. -/
def relocate (links : LinkStore Nat) (tl retTL : Nat) : LinkStore Nat :=
  let links :=
    { links with
      parent := Function.update links.parent retTL (links.parent tl)
      left := Function.update links.left retTL (links.left tl)
      right := Function.update links.right retTL (links.right tl) }
  let links :=
    match links.parent retTL with
    | none => links
    | some parent =>
      if links.left parent = some tl then links.setLeft parent (some retTL)
      else links.setRight parent (some retTL)
  let links := links.setParentOf (links.right retTL) (some retTL)
  links.setParentOf (links.left retTL) (some retTL)

/-- Makes `newTL` the child of the parent of `replacementTL`. -/
def replaceChild (links : LinkStore Nat) (replacementTL : Nat) (newTL : Option Nat) :
    LinkStore Nat :=
  match links.parent replacementTL with
  | none => (links.setRoot newTL).setParentOf newTL none
  | some parentTL =>
    if links.right parentTL = some replacementTL then links.setRight parentTL newTL
    else links.setLeft parentTL newTL

/-- Walks down left branches. -/
def leftmost (links : LinkStore Nat) : Nat → Nat → Option Nat
  | 0, _ => none
  | fuel + 1, curTL =>
    match links.left curTL with
    | none => some curTL
    | some left => links.leftmost fuel left

/-- Removes the leftmost node below `tl`. -/
def removeTreeMinimum (links : LinkStore Nat) (tl fuel : Nat) : Option (Nat × LinkStore Nat) := do
  let curTL ← links.leftmost fuel tl
  if links.root = some curTL then
    some (curTL, links.setRoot none)
  else
    let parentTL ← links.parent curTL
    if links.left parentTL = some curTL then
      some (curTL, links.setLeft parentTL (links.right curTL))
    else
      some (curTL, links.setRight parentTL (links.right curTL))

/-- Repairs the tree when the list of the node `replacementTL` is empty. -/
def removeNode (links : LinkStore Nat) (replacementTL fuel : Nat) : Option (LinkStore Nat) :=
  match links.left replacementTL, links.right replacementTL with
  | none, right => some (links.replaceChild replacementTL right)
  | left, none => some (links.replaceChild replacementTL left)
  | some _, some right => do
      -- both children: the least node in the right subtree takes the place
      let (newTL, links) ← links.removeTreeMinimum right fuel
      let links := links.replaceChild replacementTL (some newTL)
      let links := links.setLeft newTL (links.left replacementTL)
      some (links.setRight newTL (links.right replacementTL))

end LinkStore

namespace BinaryTreeDictionary

/-! ## The chunks and the lists -/

def linkNext (d : BinaryTreeDictionary) (fc : Nat) (ptr : Option Nat) : BinaryTreeDictionary :=
  { d with next := Function.update d.next fc ptr }

def linkPrev (d : BinaryTreeDictionary) (fc : Nat) (ptr : Option Nat) : BinaryTreeDictionary :=
  { d with prev := Function.update d.prev fc ptr }

def setList (d : BinaryTreeDictionary) (tc tl : Nat) : BinaryTreeDictionary :=
  { d with list := Function.update d.list tc (some tl) }

def linkAfter (d : BinaryTreeDictionary) (fc : Nat) (ptr : Option Nat) : BinaryTreeDictionary :=
  match ptr with
  | none => d.linkNext fc none
  | some p => (d.linkNext fc (some p)).linkPrev p (some fc)

/-- Changes the fields of the list `tl`. -/
def modifyList (d : BinaryTreeDictionary) (tl : Nat) (f : FreeList → FreeList) :
    BinaryTreeDictionary :=
  { d with embeddedList := Function.update d.embeddedList tl (f (d.embeddedList tl)) }

def linkHead (d : BinaryTreeDictionary) (tl fc : Nat) : BinaryTreeDictionary :=
  (d.modifyList tl fun list => { list with head := some fc }).linkPrev fc none

def linkTail (d : BinaryTreeDictionary) (tl fc : Nat) : BinaryTreeDictionary :=
  (d.modifyList tl fun list => { list with tail := some fc }).linkNext fc none

def setHint (d : BinaryTreeDictionary) (tl hint : Nat) : BinaryTreeDictionary :=
  d.modifyList tl fun list => { list with hint := hint }

def decrementCount (d : BinaryTreeDictionary) (tl : Nat) : BinaryTreeDictionary :=
  d.modifyList tl fun list => { list with count := list.count - 1 }

def incrementCount (d : BinaryTreeDictionary) (tl : Nat) : BinaryTreeDictionary :=
  d.modifyList tl fun list => { list with count := list.count + 1 }

/-- Makes the list embedded in the chunk `tc` a node with that chunk only. -/
def asTreeList (d : BinaryTreeDictionary) (tc : Nat) : BinaryTreeDictionary :=
  let d := d.setList tc tc
  let d := d.modifyList tc fun list =>
    { list with
      hint := 0
      size := d.size tc }
  let d := d.linkHead tc tc
  let d := d.linkTail tc tc
  let d := d.modifyList tc fun list =>
    { list with
      count := 1
      surplus := 0 }
  { d with links := d.links.clearLinks tc }

/-- Lets the chunks from `curTC` on belong to the list `retTL`. -/
def setLists (d : BinaryTreeDictionary) (retTL : Nat) : Nat → Option Nat →
    Option BinaryTreeDictionary
  | _, none => some d
  | 0, some _ => none
  | fuel + 1, some curTC => (d.setList curTC retTL).setLists retTL fuel (d.next curTC)

/-- Takes the chunk `tc` from the list `tl`, and gives the list of the others. -/
def removeChunkReplaceIfNeeded (d : BinaryTreeDictionary) (tl tc fuel : Nat) :
    Option (Nat × BinaryTreeDictionary) :=
  if (d.embeddedList tl).head = some tc then
    match d.next tc with
    | none =>
      let d := d.modifyList tl fun list =>
        { list with
          tail := none
          head := none }
      some (tl, d.decrementCount tl)
    | some nextTC => do
        -- the list moves to the next chunk
        let d := d.modifyList nextTC fun _ => d.embeddedList tl
        let d ← d.setLists nextTC fuel (some nextTC)
        let d := { d with links := d.links.relocate tl nextTC }
        let d := d.linkHead nextTC nextTC
        some (nextTC, d.decrementCount nextTC)
  else
    match d.prev tc with
    | none => none
    | some prevFC =>
      let nextTC := d.next tc
      let d := if nextTC = none then d.linkTail tl prevFC else d
      let d := d.linkAfter prevFC nextTC
      some (tl, d.decrementCount tl)

def returnChunkAtTail (d : BinaryTreeDictionary) (tl chunk : Nat) :
    Option BinaryTreeDictionary := do
  let fc ← (d.embeddedList tl).tail
  let d := d.linkAfter fc (some chunk)
  let d := d.linkTail tl chunk
  some (d.incrementCount tl)

/-- The chunk of the list `tl` to hand out: its first only when there is no other. -/
def firstAvailable (d : BinaryTreeDictionary) (tl : Nat) : Option Nat := do
  let head ← (d.embeddedList tl).head
  match d.next head with
  | none => some head
  | some fc => some fc

/-- The walk of `largestAddress` from `fc` on, with the highest address so far. -/
def largestFrom (d : BinaryTreeDictionary) : Nat → Nat → Nat → Option Nat
  | 0, _, _ => none
  | fuel + 1, last, fc =>
    match d.next fc with
    | none => some last
    | some next => d.largestFrom fuel (if last < fc then fc else last) next

def largestAddress (d : BinaryTreeDictionary) (tl fuel : Nat) : Option Nat := do
  let head ← (d.embeddedList tl).head
  match d.next head with
  | none => some head
  | some fc => d.largestFrom fuel fc fc

/-! ## The tree -/

/-- An empty dictionary. -/
def reset (d : BinaryTreeDictionary) : BinaryTreeDictionary :=
  { d with
    links := d.links.setRoot none
    totalSize := 0
    totalFreeBlocks := 0 }

/-- A dictionary of one chunk. -/
def resetTo (d : BinaryTreeDictionary) (start wordSize : Nat) : BinaryTreeDictionary :=
  let d := { d with size := Function.update d.size start wordSize }
  let d := (d.linkPrev start none).linkNext start none
  let d := d.asTreeList start
  { d with
    links := d.links.setRoot (some start)
    totalSize := wordSize
    totalFreeBlocks := 1 }

/-- Works down from the node `curTL` to the one of the given size; gives the last other node on
the way too. -/
def searchTree (d : BinaryTreeDictionary) (size : Nat) :
    Nat → Option Nat → Option Nat → Option (Option Nat × Option Nat)
  | _, prevTL, none => some (prevTL, none)
  | 0, _, some _ => none
  | fuel + 1, prevTL, some curTL =>
    if (d.embeddedList curTL).size = size then some (prevTL, some curTL)
    else if (d.embeddedList curTL).size < size then
      d.searchTree size fuel (some curTL) (d.links.right curTL)
    else
      d.searchTree size fuel (some curTL) (d.links.left curTL)

def findList (d : BinaryTreeDictionary) (size fuel : Nat) : Option (Option Nat) := do
  let (_, curTL) ← d.searchTree size fuel d.links.root d.links.root
  some curTL

/-- Walks back up to a node of at least the given size. -/
def nextLarger (d : BinaryTreeDictionary) (size : Nat) : Nat → Option Nat → Option (Option Nat)
  | _, none => some none
  | 0, some _ => none
  | fuel + 1, some curTL =>
    if size ≤ (d.embeddedList curTL).size then some (some curTL)
    else d.nextLarger size fuel (d.links.parent curTL)

/-- Removes the chunk `tc`, and the node of its list when it is the last one there. -/
def removeChunkFromTree (d : BinaryTreeDictionary) (tc fuel : Nat) :
    Option BinaryTreeDictionary := do
  let tl ← d.list tc
  let (replacementTL, d) ← d.removeChunkReplaceIfNeeded tl tc fuel
  let d :=
    if d.links.root = some tl then { d with links := d.links.setRoot (some replacementTL) } else d
  let links ←
    if (d.embeddedList replacementTL).count = 0 then d.links.removeNode replacementTL fuel
    else some d.links
  some
    { d with
      links := links
      totalSize := d.totalSize - d.size tc
      totalFreeBlocks := d.totalFreeBlocks - 1 }

/-- Follows the hints from `hintTL` to a list with a surplus to use in place of `curTL`. -/
def followHints (d : BinaryTreeDictionary) (curTL fuel : Nat) : Nat → Nat →
    Option (Nat × BinaryTreeDictionary)
  | 0, _ => none
  | steps + 1, hintTL =>
    if (d.embeddedList hintTL).hint = 0 then some (curTL, d)
    else do
      match ← d.findList (d.embeddedList hintTL).hint fuel with
      | none => some (curTL, d.setHint curTL 0)
      | some hintTL =>
        if hintTL = curTL then some (curTL, d.setHint curTL 0)
        else if 0 < (d.embeddedList hintTL).surplus then
          some (hintTL, d.setHint curTL (d.embeddedList hintTL).size)
        else
          d.followHints curTL fuel steps hintTL

/-- The list of the given size, else that of the next larger. -/
def closestList (d : BinaryTreeDictionary) (size fuel : Nat) : Option (Option Nat) := do
  let (prevTL, curTL) ← d.searchTree size fuel d.links.root d.links.root
  match curTL with
  | some curTL => some (some curTL)
  | none => d.nextLarger size fuel prevTL

/-- The list to take a chunk from when `curTL` is the closest. -/
def candidateList (d : BinaryTreeDictionary) (useAdaptiveFreeLists : Bool) (curTL fuel : Nat) :
    Option (Nat × BinaryTreeDictionary) :=
  if useAdaptiveFreeLists ∧ (d.embeddedList curTL).surplus ≤ 0 then
    d.followHints curTL fuel fuel curTL
  else some (curTL, d)

/-- Takes a chunk of at least the given size from the dictionary. -/
def getChunkFromTree (d : BinaryTreeDictionary) (useAdaptiveFreeLists : Bool) (size fuel : Nat) :
    Option (Option Nat × BinaryTreeDictionary) := do
  match ← d.closestList size fuel with
  | none => some (none, d)
  | some curTL =>
    let (curTL, d) ← d.candidateList useAdaptiveFreeLists curTL fuel
    let retTC ← d.firstAvailable curTL
    let d ← d.removeChunkFromTree retTC fuel
    some (some retTC, d)

def rightmost (d : BinaryTreeDictionary) : Nat → Nat → Option Nat
  | 0, _ => none
  | fuel + 1, curTL =>
    match d.links.right curTL with
    | none => some curTL
    | some right => d.rightmost fuel right

def findLargestDict (d : BinaryTreeDictionary) (fuel : Nat) : Option (Option Nat) :=
  match d.links.root with
  | none => some none
  | some root => do
      let curTL ← d.rightmost fuel root
      let chunk ← d.largestAddress curTL fuel
      some (some chunk)

/-- Makes the chunk `fc` a new node under `prevTL`, or the only one. -/
def insertNode (d : BinaryTreeDictionary) (fc size : Nat) (prevTL : Option Nat) :
    BinaryTreeDictionary :=
  let d := (d.linkNext fc none).linkPrev fc none
  let d := d.asTreeList fc
  match prevTL with
  | none => { d with links := d.links.setRoot (some fc) }
  | some prevTL =>
    if (d.embeddedList prevTL).size < size then
      { d with links := d.links.setRight prevTL (some fc) }
    else
      { d with links := d.links.setLeft prevTL (some fc) }

/-- Adds the chunk `fc` to the list of its size, or as a new node. -/
def insertChunkInTree (d : BinaryTreeDictionary) (fc fuel : Nat) :
    Option BinaryTreeDictionary := do
  let size := d.size fc
  let d := (d.linkNext fc none).linkPrev fc none
  let (prevTL, curTL) ← d.searchTree size fuel d.links.root d.links.root
  let d := { d with links := d.links.clearLinks fc }
  let d ←
    match curTL with
    | some curTL => (d.setList fc curTL).returnChunkAtTail curTL fc
    | none => some (d.insertNode fc size prevTL)
  some
    { d with
      totalSize := d.totalSize + size
      totalFreeBlocks := d.totalFreeBlocks + 1 }

end BinaryTreeDictionary

end HotSpot
