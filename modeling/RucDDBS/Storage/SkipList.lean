import RucDDBS.Library.Bytes
import Mathlib.Logic.Function.Basic

/-!
The skip list under the memtable: nodes on a heap, linked on as many levels as each
of them is high. A search goes along the highest level of the head as far as it can,
then along the level below it, and keeps the node it left each level at; insertion
and deletion relink these nodes.

`none` stands for what is undefined in the source: a pointer to no node, an entry of
an array that was not written or lies outside of it. The loops have as much fuel as
their list can need, so `none` also says that they would go on.
-/

namespace RucDDBS

namespace SkipList

/-- A pointer; `new` hands them out in order, from 1 on. -/
abbrev Addr := Nat

def null : Addr := 0

/-- `nexts` is an array of length `height`, with `none` where nothing was written. -/
structure Node where
  key : Bytes
  value : Bytes
  nexts : Nat → Option Addr
  height : Nat

def maxHeight : Nat := 12

end SkipList

open SkipList in
structure SkipList where
  nodes : Addr → Option Node
  fresh : Addr
  head : Addr
  tail : Addr
  numEntries : Nat
  numBytes : Nat

namespace SkipList

section Nodes

def newNode (s : SkipList) (key value : Bytes) (height : Nat) : SkipList × Addr :=
  ({ s with
      nodes := Function.update s.nodes s.fresh (some ⟨key, value, fun _ => none, height⟩)
      fresh := s.fresh + 1 },
    s.fresh)

/-- `a->nexts_[i]`. -/
def next (s : SkipList) (a : Addr) (i : Nat) : Option Addr := do
  let node ← s.nodes a
  node.nexts i

/-- `a->nexts_[i] = b`. -/
def setNext (s : SkipList) (a : Addr) (i : Nat) (b : Addr) : Option SkipList := do
  let node ← s.nodes a
  if i < node.height then
    pure { s with
      nodes := Function.update s.nodes a (some { node with nexts := Function.update node.nexts i (some b) }) }
  else none

def getMaxHeight (s : SkipList) : Option Nat := (s.nodes s.head).map Node.height

def init (s : SkipList) : Option SkipList := do
  let (s, head) := s.newNode [] [] 1
  let (s, tail) := s.newNode [] [] 1
  let s ← setNext { s with head, tail } head 0 tail
  let s ← s.setNext tail 0 null
  pure { s with numEntries := 0, numBytes := 0 }

/-- The constructor, on an empty heap. -/
def new : Option SkipList := init ⟨fun _ => none, null + 1, null, null, 0, 0⟩

/-- `random_height`, if the distribution gives `ones` ones before the first zero. -/
def randomHeight (ones : Nat) : Nat :=
  let height := 1 + ones
  if height > maxHeight then maxHeight else height

def enlargeHeight (s : SkipList) (height : Nat) : Option SkipList := do
  let head ← s.nodes s.head
  let tail ← s.nodes s.tail
  let headNexts (i : Nat) : Option Addr :=
    if i < head.height then head.nexts i else if i < height then some s.tail else none
  let tailNexts (i : Nat) : Option Addr := if i < height then some null else none
  pure { s with
    nodes := Function.update (Function.update s.nodes s.head (some { head with nexts := headNexts, height }))
      s.tail (some { tail with nexts := tailNexts, height }) }

end Nodes

section Search

/-- `next != tail_ && next->key_ < key`. -/
def isBelow (s : SkipList) (next : Addr) (key : Bytes) : Option Bool :=
  if next = s.tail then some false
  else do
    let node ← s.nodes next
    pure (decide (node.key < key))

/-- The loop of `findGreatorOrEqual`, with `prevs` as far as it is filled. -/
def findLoop (s : SkipList) (key : Bytes) :
    Nat → Addr → Nat → (Nat → Option Addr) → Option (Addr × (Nat → Option Addr))
  | 0, _, _, _ => none
  | fuel + 1, x, height, prevs => do
      let next ← s.next x height
      if ← s.isBelow next key then s.findLoop key fuel next height prevs
      else
        let prevs := Function.update prevs height (some x)
        match height with
        | 0 => pure (next, prevs)
        | height + 1 => s.findLoop key fuel x height prevs

/-- Every round goes forward or down. -/
def findGreatorOrEqual (s : SkipList) (key : Bytes) : Option (Addr × (Nat → Option Addr)) := do
  let height ← s.getMaxHeight
  s.findLoop key (s.numEntries + height) s.head (height - 1) fun _ => none

/-- `x != tail_ && x->key_ == key`. -/
def isAt (s : SkipList) (x : Addr) (key : Bytes) : Option Bool :=
  if x = s.tail then some false
  else do
    let node ← s.nodes x
    pure (decide (node.key = key))

def get (s : SkipList) (key : Bytes) : Option (Bool × Bytes) := do
  let (x, _) ← s.findGreatorOrEqual key
  if ← s.isAt x key then do
    let node ← s.nodes x
    pure (true, node.value)
  else pure (false, [])

def contains (s : SkipList) (key : Bytes) : Option Bool := do
  let (x, _) ← s.findGreatorOrEqual key
  s.isAt x key

def size (s : SkipList) : Nat := s.numEntries

def space (s : SkipList) : Nat := s.numBytes

def isEmpty (s : SkipList) : Bool := s.numEntries = 0

end Search

section Updates

/-- A round of the loop that links a new node. -/
def linkLevel (node : Addr) (prevs : Nat → Option Addr) (s : SkipList) (i : Nat) :
    Option SkipList := do
  let prev ← prevs i
  let after ← s.next prev i
  let s ← s.setNext node i after
  s.setNext prev i node

/-- A round of the loop that unlinks a node. -/
def unlinkLevel (node : Addr) (prevs : Nat → Option Addr) (s : SkipList) (i : Nat) :
    Option SkipList := do
  let prev ← prevs i
  let after ← s.next node i
  s.setNext prev i after

/-- The branch of `put` that makes the head as high as the new node. -/
def reachHeight (s : SkipList) (height : Nat) (prevs : Nat → Option Addr) :
    Option (SkipList × (Nat → Option Addr)) := do
  let maxHeight ← s.getMaxHeight
  if height > maxHeight then do
    let enlarged ← s.enlargeHeight height
    pure (enlarged, fun i => if maxHeight ≤ i ∧ i < height then some s.head else prevs i)
  else pure (s, prevs)

def put (s : SkipList) (key value : Bytes) (ones : Nat) : Option SkipList := do
  let (x, prevs) ← s.findGreatorOrEqual key
  if ← s.isAt x key then do
    let node ← s.nodes x
    pure { s with
      nodes := Function.update s.nodes x (some { node with value })
      numBytes := s.numBytes - node.value.length + value.length }
  else do
    let height := randomHeight ones
    let (s, prevs) ← s.reachHeight height prevs
    let (s, node) := s.newNode key value height
    let s ← (List.range height).foldlM (linkLevel node prevs) s
    pure { s with
      numEntries := s.numEntries + 1
      numBytes := s.numBytes + key.length + value.length }

def del (s : SkipList) (key : Bytes) : Option (SkipList × Bool) := do
  let (x, prevs) ← s.findGreatorOrEqual key
  if ← s.isAt x key then do
    let node ← s.nodes x
    let s ← (List.range node.height).foldlM (unlinkLevel x prevs) s
    pure ({ s with
      nodes := Function.update s.nodes x none
      numEntries := s.numEntries - 1
      numBytes := s.numBytes - node.key.length - node.value.length }, true)
  else pure (s, false)

/-- The loop of `clear`. -/
def deleteFrom : Nat → Addr → (Addr → Option Node) → Option (Addr → Option Node)
  | 0, _, _ => none
  | fuel + 1, a, nodes =>
      if a = null then some nodes
      else do
        let node ← nodes a
        let next ← node.nexts 0
        deleteFrom fuel next (Function.update nodes a none)

/-- All nodes are deleted, with the head and the tail. -/
def clear (s : SkipList) : Option SkipList := do
  let nodes ← deleteFrom (s.numEntries + 3) s.head s.nodes
  init { s with nodes }

end Updates

end SkipList

end RucDDBS
