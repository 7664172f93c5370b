import Mathlib.Data.List.Basic

namespace Vpp.Infra

structure FheapNode where
  parent : Option Nat
  firstChild : Option Nat
  nextSibling : Option Nat
  prevSibling : Option Nat
  key : BitVec 32
  rank : Nat
  isMarked : Bool
  isValid : Bool
deriving DecidableEq

structure Fheap where
  minRoot : Option Nat
  nodes : Nat → FheapNode
  nNodes : Nat
  rootListByRank : List (Option Nat)

def Fheap.modify (f : Fheap) (ni : Nat) (g : FheapNode → FheapNode) : Fheap :=
  { f with nodes := Function.update f.nodes ni (g (f.nodes ni)) }

def Fheap.modifyAt (f : Fheap) (ni : Option Nat) (g : FheapNode → FheapNode) : Fheap :=
  match ni with
  | none => f
  | some ni => f.modify ni g

def fheapInit (f : Fheap) (nNodes : Nat) : Fheap :=
  { f with
    minRoot := none
    nNodes := max f.nNodes nNodes
    rootListByRank := [] }

def fheapNodeAddSibling (f : Fheap) (ni niToAdd : Nat) : Fheap :=
  let n := f.nodes ni
  let f := match n.nextSibling with
    | none =>
      (f.modify ni fun x => { x with
        nextSibling := some niToAdd
        prevSibling := some niToAdd }).modify niToAdd fun x => { x with
        nextSibling := some ni
        prevSibling := some ni }
    | some next =>
      ((f.modify niToAdd fun x => { x with
        prevSibling := some ni
        nextSibling := some next }).modify ni fun x => { x with nextSibling := some niToAdd }).modify next
        fun x => { x with prevSibling := some niToAdd }
  let f := f.modify niToAdd fun x => { x with parent := n.parent }
  f.modifyAt n.parent fun x => { x with rank := x.rank + 1 }

def fheapNodeRemoveInternal (f : Fheap) (ni : Nat) (invalidate : Bool) : Fheap × Option Nat :=
  let n := f.nodes ni
  let result := if n.prevSibling = some ni then none else n.nextSibling
  let f := f.modifyAt n.parent fun x => { x with
    rank := x.rank - 1
    firstChild := result }
  let f := f.modifyAt n.prevSibling fun x => { x with nextSibling := n.nextSibling }
  let f := f.modifyAt n.nextSibling fun x => { x with prevSibling := n.prevSibling }
  let f := f.modify ni fun x => { x with
    prevSibling := some ni
    nextSibling := some ni
    parent := none
    isValid := !invalidate }
  (f, result)

def fheapNodeRemove (f : Fheap) (ni : Nat) : Fheap × Option Nat := fheapNodeRemoveInternal f ni false

def fheapNodeRemoveAndInvalidate (f : Fheap) (ni : Nat) : Fheap × Option Nat := fheapNodeRemoveInternal f ni true

def fheapAdd (f : Fheap) (ni : Nat) (key : BitVec 32) : Fheap :=
  let f := f.modify ni fun _ => ⟨none, none, none, none, key, 0, false, false⟩
  match f.minRoot with
  | none => { f with minRoot := some ni }
  | some ri =>
    let r := (f.nodes ri).key
    let f := fheapNodeAddSibling f ri ni
    if r > key then { f with minRoot := some ni } else f

/-- The root `hi` becomes a child of the root `lo`. -/
def linkTo (f : Fheap) (lo hi : Nat) : Fheap :=
  let f := (fheapNodeRemove f hi).1
  let f := match (f.nodes lo).firstChild with
    | none =>
      (f.modify hi fun x => { x with parent := some lo }).modify lo fun x => { x with
        firstChild := some hi
        rank := 1 }
    | some c => fheapNodeAddSibling f c hi
  f.modify hi fun x => { x with isMarked := false }

/-- The first argument bounds the rounds: each of them empties a place of the list. -/
def fheapLinkRoot : Nat → Fheap → Nat → Fheap
  | 0, f, _ => f
  | n + 1, f, ni =>
    let k := (f.nodes ni).rank
    let ranks := f.rootListByRank ++ List.replicate (k + 1 - f.rootListByRank.length) none
    match ranks.getD k none with
    | none => { f with rootListByRank := ranks.set k (some ni) }
    | some ri =>
      let f := { f with rootListByRank := ranks.set k none }
      if (f.nodes ni).key < (f.nodes ri).key then fheapLinkRoot n (linkTo f ni ri) ni
      else fheapLinkRoot n (linkTo f ri ni) ri

def spliceChildren (f : Fheap) (ri : Nat) : Fheap :=
  match (f.nodes ri).firstChild with
  | none => f
  | some ci =>
    let cni := (f.nodes ci).nextSibling
    let rni := (f.nodes ri).nextSibling
    (((f.modify ri fun x => { x with nextSibling := cni }).modify ci fun x => { x with
      nextSibling := rni }).modifyAt cni fun x => { x with prevSibling := some ri }).modifyAt rni fun x => { x with
      prevSibling := some ci }

/-- From `ri` to `last`. The first argument bounds the rounds. -/
def linkRoots (last : Nat) : Nat → Fheap → Nat → Fheap
  | 0, f, _ => f
  | n + 1, f, ri =>
    let f := f.modify ri fun x => { x with parent := none }
    let next := (f.nodes ri).nextSibling
    let f := fheapLinkRoot (f.rootListByRank.length + 1) f ri
    if ri = last then f
    else
      match next with
      | none => f
      | some next => linkRoots last n f next

/-- The first of the smallest keys below `minDs`, and none where there is no such key. -/
def pickMin (nodes : Nat → FheapNode) : List (Option Nat) → Option Nat → BitVec 32 → Option Nat
  | [], minRoot, _ => minRoot
  | none :: ranks, minRoot, minDs => pickMin nodes ranks minRoot minDs
  | some ni :: ranks, minRoot, minDs =>
    if (nodes ni).key < minDs then pickMin nodes ranks (some ni) (nodes ni).key
    else pickMin nodes ranks minRoot minDs

def newMinRoot (f : Fheap) : Fheap :=
  { f with
    minRoot := pickMin f.nodes f.rootListByRank none (-1)
    rootListByRank := f.rootListByRank.map fun _ => none }

def fheapDelMin (f : Fheap) : Fheap × Option (Nat × BitVec 32) :=
  match f.minRoot with
  | none => (f, none)
  | some r =>
    let (f, ri) := fheapNodeRemoveAndInvalidate (spliceChildren f r) r
    let f := { f with minRoot := none }
    let f := match ri with
      | none => f
      | some ri => newMinRoot (linkRoots ((f.nodes ri).prevSibling.getD ri) (f.nNodes + 1) f ri)
    (f, some (r, (f.nodes r).key))

def cut (f : Fheap) (ni : Nat) : Fheap :=
  match f.minRoot with
  | none => (fheapNodeRemove f ni).1
  | some root => fheapNodeAddSibling (fheapNodeRemove f ni).1 root ni

def fheapMarkParent : Nat → Fheap → Nat → Fheap
  | 0, f, _ => f
  | n + 1, f, pi =>
    if (f.nodes pi).parent = none then f
    else if ¬ (f.nodes pi).isMarked then f.modify pi fun x => { x with isMarked := true }
    else
      let f := (cut f pi).modify pi fun x => { x with isMarked := false }
      match (f.nodes pi).parent with
      | none => f
      | some parent => fheapMarkParent n f parent

def fheapDecreaseKey (f : Fheap) (ni : Nat) (newKey : BitVec 32) : Fheap :=
  let f := f.modify ni fun x => { x with key := newKey }
  let r := f.minRoot
  let f := match (f.nodes ni).parent with
    | none => f
    | some parent => cut (fheapMarkParent f.nNodes f parent) ni
  match r with
  | none => f
  | some r => if newKey < (f.nodes r).key then { f with minRoot := some ni } else f

/-- The children of a node go to the roots. The first argument bounds the rounds: the walk goes on along the roots
until it is before the first child. -/
def cutChildren (first : Nat) : Nat → Fheap → Nat → Fheap
  | 0, f, _ => f
  | n + 1, f, ci =>
    let next := (f.nodes ci).nextSibling
    let f := cut f ci
    match next with
    | none => f
    | some next => if next = first then f else cutChildren first n f next

def fheapDel (f : Fheap) (ni : Nat) : Fheap :=
  match (f.nodes ni).parent with
  | none => (fheapDelMin f).1
  | some parent =>
    let f := fheapMarkParent f.nNodes f parent
    let f := match (f.nodes ni).firstChild with
      | none => f
      | some c => cutChildren c (2 * f.nNodes + 2) f c
    (fheapNodeRemoveAndInvalidate f ni).1

end Vpp.Infra
