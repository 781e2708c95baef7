import HevTunnel.RBTree
import Mathlib.Logic.Function.Basic

/-! # The red-black tree in memory

`hev-rbtree.c` as it runs: a node is a parent word and two child pointers, and the lowest bit of the
parent word is the colour.  A memory is a partial function from addresses to nodes; to follow `NULL`
or an address without a node gives `none`.  The two branches of each loop mirror each other, so a
branch is written once for a `Side`: with `left` it is the first branch of the source and with `right`
the second.

The loops take a number of rounds and give `none` when that is used up. -/

namespace HevTunnel

/-- A pointer, or any other `unsigned long`, of `w` bits. -/
abbrev Word (w : ℕ) := BitVec w

/-- The two children of a node. -/
inductive Side where
  | left
  | right
deriving DecidableEq, Repr

def Side.other : Side → Side
  | .left => .right
  | .right => .left

/-- `HevRBTreeColor`. -/
def Color.word (w : ℕ) : Color → Word w
  | .red => 0
  | .black => 1

variable {w : ℕ}

/-- `HevRBTreeNode`. -/
structure RBNode (w : ℕ) where
  parentColor : Word w
  right : Word w
  left : Word w
deriving DecidableEq, Repr

namespace RBNode

def child : Side → RBNode w → Word w
  | .left, n => n.left
  | .right, n => n.right

def setChild : Side → Word w → RBNode w → RBNode w
  | .left, p, n => { n with left := p }
  | .right, p, n => { n with right := p }

/-- `hev_rbtree_node_parent`. -/
def parent (n : RBNode w) : Word w := n.parentColor &&& ~~~3

/-- `hev_rbtree_node_red_parent`: the whole word, which is the parent of a red node. -/
def redParent (n : RBNode w) : Word w := n.parentColor

/-- `hev_rbtree_node_color`. -/
def color (n : RBNode w) : Word w := n.parentColor &&& 1

/-- `hev_rbtree_node_is_red`. -/
def isRed (n : RBNode w) : Bool := n.color &&& Color.black.word w = 0

/-- `hev_rbtree_node_is_black`. -/
def isBlack (n : RBNode w) : Bool := n.color &&& Color.black.word w ≠ 0

/-- `hev_rbtree_node_set_black`. -/
def setBlack (n : RBNode w) : RBNode w :=
  { n with parentColor := n.parentColor ||| Color.black.word w }

/-- `hev_rbtree_node_set_parent`. -/
def setParent (parent : Word w) (n : RBNode w) : RBNode w :=
  { n with parentColor := n.color ||| parent }

/-- `hev_rbtree_node_set_parent_color`. -/
def setParentColor (parent : Word w) (color : Color) (n : RBNode w) : RBNode w :=
  { n with parentColor := parent ||| color.word w }

end RBNode

/-- `HevRBTree` with the memory of the nodes. -/
structure RBHeap (w : ℕ) where
  root : Word w
  mem : Word w → Option (RBNode w)

namespace RBHeap

/-- The node a pointer points to. -/
def read (s : RBHeap w) (p : Word w) : Option (RBNode w) := if p = 0 then none else s.mem p

/-- A write to the node a pointer points to. -/
def modify (s : RBHeap w) (p : Word w) (f : RBNode w → RBNode w) : Option (RBHeap w) :=
  (s.read p).map fun n => { s with mem := Function.update s.mem p (some (f n)) }

/-- `node->left = child` or `node->right = child`. -/
def setChild (s : RBHeap w) (d : Side) (node child : Word w) : Option (RBHeap w) :=
  s.modify node (RBNode.setChild d child)

/-- `hev_rbtree_node_set_parent_color`. -/
def setParentColor (s : RBHeap w) (node parent : Word w) (color : Color) : Option (RBHeap w) :=
  s.modify node (RBNode.setParentColor parent color)

/-- `if (tmp) hev_rbtree_node_set_parent_color (tmp, parent, HEV_RBTREE_BLACK)`. -/
def adopt (s : RBHeap w) (tmp parent : Word w) : Option (RBHeap w) :=
  if tmp ≠ 0 then s.setParentColor tmp parent .black else some s

/-- `if (tmp) hev_rbtree_node_set_parent (tmp, parent)`. -/
def reparent (s : RBHeap w) (tmp parent : Word w) : Option (RBHeap w) :=
  if tmp ≠ 0 then s.modify tmp (RBNode.setParent parent) else some s

/-- `tmp && hev_rbtree_node_is_red (tmp)`. -/
def hasRed (s : RBHeap w) (tmp : Word w) : Option Bool :=
  if tmp = 0 then some false else (s.read tmp).map RBNode.isRed

/-- `!tmp || hev_rbtree_node_is_black (tmp)`. -/
def hasNoRed (s : RBHeap w) (tmp : Word w) : Option Bool :=
  if tmp = 0 then some true else (s.read tmp).map RBNode.isBlack

/-- `hev_rbtree_change_child`. -/
def changeChild (s : RBHeap w) (old new parent : Word w) : Option (RBHeap w) :=
  if parent ≠ 0 then do
    let n ← s.read parent
    if n.left = old then s.setChild .left parent new else s.setChild .right parent new
  else some { s with root := new }

/-- `hev_rbtree_rotate_set_parents`. -/
def rotateSetParents (s : RBHeap w) (old new : Word w) (color : Color) : Option (RBHeap w) := do
  let n ← s.read old
  let parent := n.parent
  let s ← s.modify new fun m => { m with parentColor := n.parentColor }
  let s ← s.setParentColor old new color
  s.changeChild old new parent

/-! ### Insertion -/

/-- The child slot of a new node, `root` or a child field of a node. -/
inductive Slot (w : ℕ) where
  | root
  | child (parent : Word w) (d : Side)
deriving DecidableEq, Repr

/-- The node whose child the slot holds. -/
def Slot.parent : Slot w → Word w
  | .root => 0
  | .child parent _ => parent

/-- `hev_rbtree_node_link`. -/
def nodeLink (s : RBHeap w) (node : Word w) (link : Slot w) : Option (RBHeap w) := do
  let s ← s.modify node fun n => { n with parentColor := link.parent }
  let s ← s.setChild .right node 0
  let s ← s.setChild .left node 0
  match link with
  | .root => some { s with root := node }
  | .child parent d => s.setChild d parent node

/-- Case 1 of `hev_rbtree_insert_color`, the colour flips: the next node and its parent. -/
def insertCase1 (s : RBHeap w) (parent gparent tmp : Word w) :
    Option (RBHeap w × Word w × Word w) := do
  let s ← s.setParentColor tmp gparent .black
  let s ← s.setParentColor parent gparent .black
  let node := gparent
  let n ← s.read node
  let parent := n.parent
  let s ← s.setParentColor node parent .red
  pure (s, node, parent)

/-- Case 2, the rotation at the parent: the parent and `tmp` for case 3. -/
def insertCase2 (s : RBHeap w) (d : Side) (node parent : Word w) :
    Option (RBHeap w × Word w × Word w) := do
  let p ← s.read parent
  let tmp := p.child d.other
  if node = tmp then
    let n ← s.read node
    let tmp := n.child d
    let s ← s.setChild d.other parent tmp
    let s ← s.setChild d node parent
    let s ← s.adopt tmp parent
    let s ← s.setParentColor parent node .red
    let parent := node
    let n ← s.read node
    pure (s, parent, n.child d.other)
  else pure (s, parent, tmp)

/-- Case 3, the rotation at the grandparent. -/
def insertCase3 (s : RBHeap w) (d : Side) (parent gparent tmp : Word w) : Option (RBHeap w) := do
  let s ← s.setChild d gparent tmp
  let s ← s.setChild d.other parent gparent
  let s ← s.adopt tmp gparent
  s.rotateSetParents gparent parent .red

/-- One round of the loop of `hev_rbtree_insert_color`, with the node and the parent of the next
round. -/
def insertRound (s : RBHeap w) (node parent : Word w) :
    Option (RBHeap w × Option (Word w × Word w)) := do
  if parent = 0 then
    let s ← s.setParentColor node 0 .black
    pure (s, none)
  else
    let p ← s.read parent
    if p.isBlack then pure (s, none)
    else
      let gparent := p.redParent
      let g ← s.read gparent
      let d := if parent ≠ g.right then Side.left else Side.right
      let tmp := g.child d.other
      if ← s.hasRed tmp then
        let (s, node, parent) ← s.insertCase1 parent gparent tmp
        pure (s, some (node, parent))
      else
        let (s, parent, tmp) ← s.insertCase2 d node parent
        let s ← s.insertCase3 d parent gparent tmp
        pure (s, none)

/-- The loop of `hev_rbtree_insert_color`. -/
def insertLoop : ℕ → RBHeap w → Word w → Word w → Option (RBHeap w)
  | 0, _, _, _ => none
  | fuel + 1, s, node, parent =>
      (s.insertRound node parent).bind fun r =>
        match r.2 with
        | none => some r.1
        | some (node, parent) => insertLoop fuel r.1 node parent

/-- `hev_rbtree_insert_color`. -/
def insertColor (fuel : ℕ) (s : RBHeap w) (node : Word w) : Option (RBHeap w) := do
  let n ← s.read node
  insertLoop fuel s node n.redParent

/-! ### Erasure -/

/-- `do { … } while (tmp)` of `_hev_rbtree_erase`, for a `tmp` that is not `NULL`: the parent of the
successor and the successor. -/
def successorLoop : ℕ → RBHeap w → Word w → Word w → Option (Word w × Word w)
  | 0, _, _, _ => none
  | fuel + 1, s, successor, tmp =>
      (s.read tmp).bind fun n =>
        if n.left ≠ 0 then successorLoop fuel s tmp n.left else some (successor, tmp)

/-- The successor of a node with two children: its parent after the erasure, the successor and its
right child; and the links around it when it is not the right child itself. -/
def detachSuccessor (fuel : ℕ) (s : RBHeap w) (child : Word w) :
    Option (RBHeap w × Word w × Word w × Word w) := do
  let n ← s.read child
  let tmp := n.left
  if tmp = 0 then
    pure (s, child, child, n.right)
  else
    let (parent, successor) ← successorLoop fuel s child tmp
    let m ← s.read successor
    let child2 := m.right
    let s ← s.setChild .left parent child2
    let s ← s.setChild .right successor child
    let s ← s.modify child (RBNode.setParent successor)
    pure (s, parent, successor, child2)

/-- What becomes of the right child of the successor, and the node at which the colours have to be
repaired. -/
def moveChild (s : RBHeap w) (parent successor child2 : Word w) : Option (RBHeap w × Word w) :=
  if child2 ≠ 0 then (s.setParentColor child2 parent .black).map fun s => (s, 0)
  else (s.read successor).map fun m => (s, if m.isBlack then parent else 0)

/-- The rest of the third branch of `_hev_rbtree_erase`: the successor takes the place of the
node. -/
def replaceBySuccessor (s : RBHeap w) (node parent successor child2 : Word w) :
    Option (RBHeap w × Word w) := do
  let n ← s.read node
  let tmp := n.left
  let s ← s.setChild .left successor tmp
  let s ← s.modify tmp (RBNode.setParent successor)
  let n ← s.read node
  let pc := n.parentColor
  let s ← s.changeChild node successor n.parent
  let (s, rebalance) ← s.moveChild parent successor child2
  let s ← s.modify successor fun m => { m with parentColor := pc }
  pure (s, rebalance)

/-- `_hev_rbtree_erase`: the node at which the colours have to be repaired, `NULL` for none. -/
def unlink (fuel : ℕ) (s : RBHeap w) (node : Word w) : Option (RBHeap w × Word w) := do
  let n ← s.read node
  let child := n.right
  let tmp := n.left
  if tmp = 0 then
    let pc := n.parentColor
    let s ← s.changeChild node child n.parent
    if child ≠ 0 then
      let s ← s.modify child fun m => { m with parentColor := pc }
      pure (s, 0)
    else pure (s, if n.isBlack then n.parent else 0)
  else if child = 0 then
    let s ← s.modify tmp fun m => { m with parentColor := n.parentColor }
    let s ← s.changeChild node tmp n.parent
    pure (s, 0)
  else
    let (s, parent, successor, child2) ← s.detachSuccessor fuel child
    s.replaceBySuccessor node parent successor child2

/-- Case 1 of `_hev_rbtree_erase_color`, the rotation at the parent for a red sibling: the new
sibling. -/
def eraseCase1 (s : RBHeap w) (d : Side) (parent sibling : Word w) :
    Option (RBHeap w × Word w) := do
  let n ← s.read sibling
  if n.isRed then
    let tmp1 := n.child d
    let s ← s.setChild d.other parent tmp1
    let s ← s.setChild d sibling parent
    let s ← s.setParentColor tmp1 parent .black
    let s ← s.rotateSetParents parent sibling .red
    pure (s, tmp1)
  else pure (s, sibling)

/-- Case 2, the colour flip of the sibling. -/
def eraseCase2 (s : RBHeap w) (parent sibling : Word w) :
    Option (RBHeap w × Option (Word w × Word w)) := do
  let s ← s.setParentColor sibling parent .red
  let p ← s.read parent
  if p.isRed then
    let s ← s.modify parent RBNode.setBlack
    pure (s, none)
  else if p.parent ≠ 0 then pure (s, some (parent, p.parent))
  else pure (s, none)

/-- Case 3, the rotation at the sibling. -/
def eraseCase3 (s : RBHeap w) (d : Side) (parent sibling tmp2 : Word w) : Option (RBHeap w) := do
  let n ← s.read tmp2
  let tmp1 := n.child d.other
  let s ← s.setChild d sibling tmp1
  let s ← s.setChild d.other tmp2 sibling
  let s ← s.setChild d.other parent tmp2
  s.adopt tmp1 sibling

/-- Case 4, the rotation at the parent. -/
def eraseCase4 (s : RBHeap w) (d : Side) (parent sibling tmp1 : Word w) : Option (RBHeap w) := do
  let n ← s.read sibling
  let tmp2 := n.child d
  let s ← s.setChild d.other parent tmp2
  let s ← s.setChild d sibling parent
  let s ← s.setParentColor tmp1 sibling .black
  let s ← s.reparent tmp2 parent
  s.rotateSetParents parent sibling .black

/-- Cases 2 to 4. -/
def eraseFix (s : RBHeap w) (d : Side) (parent sibling : Word w) :
    Option (RBHeap w × Option (Word w × Word w)) := do
  let n ← s.read sibling
  let tmp1 := n.child d.other
  if ← s.hasNoRed tmp1 then
    let tmp2 := n.child d
    if ← s.hasNoRed tmp2 then s.eraseCase2 parent sibling
    else
      let s ← s.eraseCase3 d parent sibling tmp2
      let s ← s.eraseCase4 d parent tmp2 sibling
      pure (s, none)
  else
    let s ← s.eraseCase4 d parent sibling tmp1
    pure (s, none)

/-- One round of the loop of `_hev_rbtree_erase_color`, with the node and the parent of the next
round. -/
def eraseRound (s : RBHeap w) (node parent : Word w) :
    Option (RBHeap w × Option (Word w × Word w)) := do
  let p ← s.read parent
  let d := if node ≠ p.right then Side.left else Side.right
  let (s, sibling) ← s.eraseCase1 d parent (p.child d.other)
  s.eraseFix d parent sibling

/-- The loop of `_hev_rbtree_erase_color`. -/
def eraseLoop : ℕ → RBHeap w → Word w → Word w → Option (RBHeap w)
  | 0, _, _, _ => none
  | fuel + 1, s, node, parent =>
      (s.eraseRound node parent).bind fun r =>
        match r.2 with
        | none => some r.1
        | some (node, parent) => eraseLoop fuel r.1 node parent

/-- `hev_rbtree_erase`. -/
def erase (fuel : ℕ) (s : RBHeap w) (node : Word w) : Option (RBHeap w) := do
  let (s, rebalance) ← s.unlink fuel node
  if rebalance ≠ 0 then eraseLoop fuel s 0 rebalance else some s

end RBHeap

end HevTunnel
