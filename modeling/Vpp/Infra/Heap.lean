import Vpp.Infra.Bitops
import Vpp.Lib.Chain

namespace Vpp.Infra
open Vpp.Lib

/-- An element: where its block starts (plus free bit) and its neighbours, relative to its own index. -/
structure HeapElt where
  offset : BitVec 32 := 0
  next : Int := 0
  prev : Int := 0

def heapEltFreeBit : BitVec 32 := 1 <<< 31

def HeapElt.isFree (e : HeapElt) : Bool := e.offset &&& heapEltFreeBit != 0

def HeapElt.heapOffset (e : HeapElt) : Nat := (e.offset &&& ~~~heapEltFreeBit).toNat

/-- The vector of elements, with what the header keeps to find its members: the indices that are free, most
recently freed first, and the two ends of the chain. The vector keeps what was written past its end. -/
structure Elts where
  elt : Nat → HeapElt := fun _ => {}
  len : Nat := 0
  freeElts : List Nat := []
  head : Nat := 0
  tail : Nat := 0

namespace Elts

def heapNext (E : Elts) (i : Nat) : Nat := (i + (E.elt i).next).toNat

def heapPrev (E : Elts) (i : Nat) : Nat := (i + (E.elt i).prev).toNat

def setOffset (E : Elts) (i : Nat) (offset : BitVec 32) : Elts :=
  { E with elt := Function.update E.elt i { E.elt i with offset } }

/-- Make `j` the next of `i`; an element that is its own next has none. -/
def setNext (E : Elts) (i j : Nat) : Elts :=
  { E with elt := Function.update E.elt i { E.elt i with next := (j : Int) - i } }

def setPrev (E : Elts) (i j : Nat) : Elts :=
  { E with elt := Function.update E.elt i { E.elt i with prev := (j : Int) - i } }

def eltDelete (E : Elts) (e : Nat) : Elts :=
  let l := E.len - 1
  let p := E.heapPrev e
  let n := E.heapNext e
  let E :=
    if p = e then { E.setPrev n n with head := n }
    else if n = e then { E.setNext p p with tail := p }
    else (E.setNext p n).setPrev n p
  if e < l then { E with freeElts := e :: E.freeElts } else { E with len := E.len - 1 }

def eltInsertBefore (E : Elts) (e new : Nat) : Elts :=
  let p := E.heapPrev e
  if p = e then { ((E.setPrev new new).setNext new e).setPrev p new with head := new }
  else (((E.setPrev new p).setNext new e).setPrev e new).setNext p new

def eltInsertAfter (E : Elts) (e new : Nat) : Elts :=
  let n := E.heapNext e
  if n = e then { ((E.setNext new new).setPrev new e).setNext e new with tail := new }
  else (((E.setPrev new e).setNext new n).setNext e new).setPrev n new

def eltNew (E : Elts) : Nat × Elts :=
  match E.freeElts with
  | i :: is => (i, { E with freeElts := is })
  | [] => (E.len, { E with len := E.len + 1 })

end Elts

/-- A heap. Of the vector itself the heap uses its length and, where a block is free, the word at its start. -/
structure Heap where
  len : Nat := 0
  data : Nat → Nat := fun _ => 0
  elts : Elts := {}
  smallFreeEltFreeIndex : Nat → Nat := fun _ => 0
  freeLists : List (List Nat) := []
  usedCount : Nat := 0
  maxLen : Nat := 0
  eltBytes : Nat := 0

def heapSmallBins : Nat := 32

def heapNBins : Nat := 64

def maxLog2 (x : Nat) : Nat :=
  let l := x.log2
  if x > 2 ^ l then l + 1 else l

def sizeToBin (size : Nat) : Nat :=
  if size ≤ heapSmallBins then
    if size = 0 then 0 else size - 1
  else
    let bin := heapSmallBins + maxLog2 size - (5 + 1)
    if bin ≥ heapNBins then heapNBins - 1 else bin

namespace Heap

def eltOffset (h : Heap) (i : Nat) : Nat := (h.elts.elt i).heapOffset

def eltIsFree (h : Heap) (i : Nat) : Bool := (h.elts.elt i).isFree

def heapEltSize (h : Heap) (i : Nat) : Nat :=
  let n := h.elts.heapNext i
  let nextOffset := if n ≠ i then h.eltOffset n else h.len
  (nextOffset + 2 ^ 64 - h.eltOffset i) % 2 ^ 64

def setFreeElt (h : Heap) (e fi : Nat) : Heap :=
  let h := { h with elts := h.elts.setOffset e ((h.elts.elt e).offset ||| heapEltFreeBit) }
  if h.eltBytes ≥ 4 then { h with data := Function.update h.data (h.eltOffset e) fi }
  else { h with smallFreeEltFreeIndex := Function.update h.smallFreeEltFreeIndex e fi }

def freeIndex (h : Heap) (e : Nat) : Nat :=
  if h.eltBytes ≥ 4 then h.data (h.eltOffset e) else h.smallFreeEltFreeIndex e

def getFreeElt (h : Heap) (e : Nat) : Nat × Nat := (sizeToBin (h.heapEltSize e), h.freeIndex e)

def freeList (h : Heap) (b : Nat) : List Nat := h.freeLists.getD b []

def addFreeBlock (h : Heap) (b e : Nat) : Heap :=
  let lists := h.freeLists ++ List.replicate (b + 1 - h.freeLists.length) []
  { h with freeLists := lists.modify b (· ++ [e]) }

def removeFreeBlock (h : Heap) (b i : Nat) : Heap :=
  let list := h.freeList b
  let l := list.length
  if i < l - 1 then
    let t := list.getD (l - 1) 0
    let h := h.setFreeElt t i
    { h with freeLists := h.freeLists.modify b fun list => (list.set i t).take (l - 1) }
  else { h with freeLists := h.freeLists.modify b (·.take (l - 1)) }

/-- From the end of a free list, the first place with an element that is large enough, and what is left of it. -/
def searchList (h : Heap) (size b : Nat) : (l : Nat) → Option (Nat × Nat)
  | 0 => none
  | l + 1 =>
    let f := (h.freeList b).getD l 0
    let s := (h.heapEltSize f + 2 ^ 64 - size) % 2 ^ 64
    if s < 2 ^ 63 then some (l, s) else searchList h size b l

/-- The first bin, from `b` on, with an element that is large enough. -/
def searchBins (h : Heap) (size b : Nat) : (n : Nat) → Option (Nat × Nat × Nat)
  | 0 => none
  | n + 1 =>
    match h.searchList size b (h.freeList b).length with
    | some (l, s) => some (b, l, s)
    | none => searchBins h size (b + 1) n

/-- Cut an object of the given size off the end of a free one. The loop of the source also reads the word before
a list in which nothing fits, and does not use it. -/
def searchFreeList (h : Heap) (size : Nat) : Option (Nat × Heap) :=
  let b := sizeToBin size
  match h.searchBins size b (h.freeLists.length - b) with
  | none => none
  | some (b, l, s) =>
    let f := (h.freeList b).getD l 0
    if s = 0 then
      let h := { h with elts := h.elts.setOffset f (BitVec.ofNat 32 (h.eltOffset f)) }
      some (f, h.removeFreeBlock b l)
    else
      let (u, elts) := h.elts.eltNew
      let elts := elts.eltInsertAfter f u
      let fb := sizeToBin s
      let h := { h with elts := elts.setOffset u (BitVec.ofNat 32 ((elts.elt f).heapOffset + s)) }
      if fb ≠ b then
        let i := (h.freeList fb).length
        some (u, ((h.addFreeBlock fb f).setFreeElt f i).removeFreeBlock b l)
      else some (u, h)

structure FreeRef where
  index : Nat
  bin : Nat
  binIndex : Nat

/-- The free elements from `e` to `e1`, at most as many as the array holds. -/
def collectFree (h : Heap) (e1 : Nat) : (n : Nat) → (e : Nat) → List FreeRef
  | 0, _ => []
  | n + 1, e =>
    let (tb, ti) := h.getFreeElt e
    let f : FreeRef := ⟨(h.freeList tb).getD ti 0, tb, ti⟩
    if e = e1 then [f] else f :: collectFree h e1 n (h.elts.heapNext e)

def deleteUnused (h : Heap) (g : Nat) : List FreeRef → Heap
  | [] => h
  | f :: fs =>
    if g ≠ f.index then
      let (tb, ti) := h.getFreeElt f.index
      let h := h.removeFreeBlock tb ti
      deleteUnused { h with elts := h.elts.eltDelete f.index } g fs
    else deleteUnused h g fs

def combineFreeBlocks (h : Heap) (e0 e1 : Nat) : Heap :=
  let f := h.collectFree e1 3 e0
  let totalSize := (f.map fun r => h.heapEltSize r.index).sum
  let b := sizeToBin totalSize
  let f0 := (f.map (·.index)).headD 0
  let (g, h) := match f.find? fun r => b == r.bin with
    | some r => (r, h)
    | none =>
      let (new, elts) := h.elts.eltNew
      let binIndex := (h.freeList b).length
      let h := addFreeBlock { h with elts } b new
      (⟨new, b, binIndex⟩, { h with elts := h.elts.eltInsertBefore f0 new })
  let gOffset := (h.elts.elt f0).offset
  let h := h.deleteUnused g.index f
  let h := { h with elts := h.elts.setOffset g.index gOffset }
  h.setFreeElt g.index g.binIndex

def deallocElt (h : Heap) (e : Nat) : Heap :=
  let b := sizeToBin (h.heapEltSize e)
  let l := (h.freeList b).length
  let h := (h.addFreeBlock b e).setFreeElt e l
  let p := h.elts.heapPrev e
  let p := if h.eltIsFree p then p else e
  let n := h.elts.heapNext e
  let n := if h.eltIsFree n then n else e
  if p ≠ n then h.combineFreeBlocks p n else h

def roundAlign (align : Nat) : Nat := if align ≤ 1 then 0 else maxPow2 align % 2 ^ 64

def alignSize (size align : Nat) : Nat :=
  if align ≤ 1 then size else (size + roundAlign align + (2 ^ 64 - 1)) % 2 ^ 64

def roundPow2 (x pow2 : Nat) : Nat :=
  (BitVec.ofNat 64 (x + pow2 + (2 ^ 64 - 1)) &&& ~~~(BitVec.ofNat 64 (pow2 + (2 ^ 64 - 1)))).toNat

/-- Move `e` up to an offset and free what is before it. -/
def alignFront (h : Heap) (e oldOffset newOffset : Nat) : Heap :=
  let h := { h with elts := h.elts.setOffset e (BitVec.ofNat 32 newOffset) }
  if newOffset > oldOffset then
    let (beforeE, elts) := h.elts.eltNew
    let elts := (elts.setOffset beforeE (BitVec.ofNat 32 oldOffset)).eltInsertBefore e beforeE
    deallocElt { h with elts } beforeE
  else h

/-- Free what is after `e`, from `offset` to its end. -/
def alignBack (h : Heap) (e offset endOffset : Nat) : Heap :=
  if offset < endOffset then
    let (afterE, elts) := h.elts.eltNew
    let elts := (elts.setOffset afterE (BitVec.ofNat 32 offset)).eltInsertAfter e afterE
    deallocElt { h with elts } afterE
  else h

def alignElt (h : Heap) (size align e : Nat) : Heap :=
  let oldOffset := (h.elts.elt e).offset.toNat
  let newOffset := roundPow2 oldOffset (roundAlign align)
  (h.alignFront e oldOffset newOffset).alignBack e ((newOffset + size) % 2 ^ 64)
    ((oldOffset + alignSize size align) % 2 ^ 64)

/-- Take an object from the end of the vector, unless it is full. -/
def extend (h : Heap) (size eltBytes : Nat) : Option (Nat × Heap) :=
  let offset := h.len
  if h.maxLen ≠ 0 ∧ (offset + size) % 2 ^ 64 > h.maxLen then none
  else
    let h := { h with len := (h.len + size) % 2 ^ 32 }
    let h := if offset = 0 then { h with eltBytes } else h
    let (e, elts) := h.elts.eltNew
    let elts := elts.setOffset e (BitVec.ofNat 32 offset)
    some (e, { h with elts := elts.eltInsertAfter elts.tail e })

def heapAlloc (h : Heap) (size align eltBytes : Nat) : Option (Nat × Nat) × Heap :=
  if size = 0 then (none, h)
  else
    match (h.searchFreeList (alignSize size align)).or (h.extend (alignSize size align) eltBytes) with
    | none => (none, h)
    | some (e, h) =>
      let h := if roundAlign align > 0 then h.alignElt size align e else h
      (some ((h.elts.elt e).offset.toNat, e), { h with usedCount := h.usedCount + 1 })

def heapDealloc (h : Heap) (handle : Nat) : Heap := deallocElt { h with usedCount := h.usedCount - 1 } handle

def heapLen (h : Heap) (handle : Nat) : Nat := h.heapEltSize handle

end Heap

end Vpp.Infra

namespace Vpp.Infra.Elts
open Vpp.Lib

variable {E : Elts}

def links (E : Elts) : Links := ⟨E.heapNext, E.heapPrev⟩

def offset (E : Elts) (i : Nat) : BitVec 32 := (E.elt i).offset

theorem links_setNext : (E.setNext i j).links = E.links.setNext i j := by
  have hn : (E.setNext i j).heapNext = Function.update E.heapNext i j := by
    funext x
    by_cases hx : x = i
    · subst hx
      simp [heapNext, setNext]
    · simp [heapNext, setNext, hx]
  have hp : (E.setNext i j).heapPrev = E.heapPrev := by
    funext x
    by_cases hx : x = i
    · subst hx
      simp [heapPrev, setNext]
    · simp [heapPrev, setNext, hx]
  rw [links, hn, hp]
  rfl

theorem links_setPrev : (E.setPrev i j).links = E.links.setPrev i j := by
  have hn : (E.setPrev i j).heapNext = E.heapNext := by
    funext x
    by_cases hx : x = i
    · subst hx
      simp [heapNext, setPrev]
    · simp [heapNext, setPrev, hx]
  have hp : (E.setPrev i j).heapPrev = Function.update E.heapPrev i j := by
    funext x
    by_cases hx : x = i
    · subst hx
      simp [heapPrev, setPrev]
    · simp [heapPrev, setPrev, hx]
  rw [links, hn, hp]
  rfl

@[simp] theorem links_setOffset : (E.setOffset i o).links = E.links := by
  have hn : (E.setOffset i o).heapNext = E.heapNext := by
    funext x
    by_cases hx : x = i
    · subst hx
      simp [heapNext, setOffset]
    · simp [heapNext, setOffset, hx]
  have hp : (E.setOffset i o).heapPrev = E.heapPrev := by
    funext x
    by_cases hx : x = i
    · subst hx
      simp [heapPrev, setOffset]
    · simp [heapPrev, setOffset, hx]
  rw [links, hn, hp]
  rfl

theorem offset_setOffset : (E.setOffset i o).offset j = if j = i then o else E.offset j := by
  by_cases hj : j = i
  · simp [offset, setOffset, hj]
  · simp [offset, setOffset, hj]

@[simp] theorem offset_setNext : (E.setNext i j).offset = E.offset := by
  funext x
  by_cases hx : x = i
  · subst hx
    simp [offset, setNext]
  · simp [offset, setNext, hx]

@[simp] theorem offset_setPrev : (E.setPrev i j).offset = E.offset := by
  funext x
  by_cases hx : x = i
  · subst hx
    simp [offset, setPrev]
  · simp [offset, setPrev, hx]

/-- The elements `is` make up the chain, and the free indices are others. -/
structure Linked (E : Elts) (is : List Nat) : Prop where
  chain : E.links.Chain none is none
  nodup : (is ++ E.freeElts).Nodup
  lt : ∀ i ∈ is ++ E.freeElts, i < E.len
  head : E.head = is.head?.getD 0
  tail : E.tail = is.getLast?.getD 0

structure Unused (E : Elts) (is : List Nat) (u : Nat) : Prop where
  notMem : u ∉ is ++ E.freeElts
  lt : u < E.len

theorem Linked.nodup_chain (h : Linked E is) : is.Nodup := (List.nodup_append.mp h.nodup).1

theorem Linked.next (h : Linked E (xs ++ i :: ys)) : E.heapNext i = ys.head?.getD i := h.chain.links.1

theorem Linked.prev (h : Linked E (xs ++ i :: ys)) : E.heapPrev i = xs.getLast?.getD i := h.chain.links.2

theorem Linked.setOffset (h : Linked E is) : Linked (E.setOffset i o) is := by
  obtain ⟨hc, hnd, hlt, hh, ht⟩ := h
  exact ⟨by rwa [links_setOffset], hnd, hlt, hh, ht⟩

@[simp] theorem eltNew_elt : E.eltNew.2.elt = E.elt := by
  rw [eltNew]
  split
  · rfl
  · rfl

@[simp] theorem offset_eltNew : E.eltNew.2.offset = E.offset := by
  funext i
  rw [offset, eltNew_elt]
  rfl

theorem Linked.eltNew (h : Linked E is) : Linked E.eltNew.2 is ∧ Unused E.eltNew.2 is E.eltNew.1 := by
  obtain ⟨hc, hnd, hlt, hh, ht⟩ := h
  cases hf : E.freeElts with
  | nil =>
    have he : E.eltNew = (E.len, { E with len := E.len + 1 }) := by rw [Elts.eltNew, hf]
    rw [he]
    refine ⟨⟨hc, hnd, fun i hi => Nat.lt_succ_of_lt (hlt i hi), hh, ht⟩, ?_, Nat.lt_succ_self _⟩
    exact fun hm => Nat.lt_irrefl _ (hlt _ hm)
  | cons u us =>
    have he : E.eltNew = (u, { E with freeElts := us }) := by rw [Elts.eltNew, hf]
    rw [hf] at hnd hlt
    rw [he]
    have hsub : (is ++ us).Sublist (is ++ u :: us) := List.Sublist.append_left (List.sublist_cons_self u us) is
    refine ⟨⟨hc, hnd.sublist hsub, fun i hi => hlt i (hsub.subset hi), hh, ht⟩, ?_, hlt u (by simp)⟩
    have hnd' := (List.nodup_middle.mp hnd)
    exact (List.nodup_cons.mp hnd').1

theorem links_eltInsertAfter : (E.eltInsertAfter e new).links = E.links.insertAfter e new := by
  rw [eltInsertAfter, Links.insertAfter]
  by_cases hn : E.heapNext e = e
  · rw [if_pos hn, if_pos (show E.links.next e = e from hn), ← links_setNext, ← links_setPrev, ← links_setNext]
    rfl
  · rw [if_neg hn, if_neg (show ¬ E.links.next e = e from hn), links_setPrev, links_setNext, links_setNext,
      links_setPrev]
    rfl

theorem links_eltInsertBefore : (E.eltInsertBefore e new).links = E.links.insertBefore e new := by
  rw [eltInsertBefore, Links.insertBefore]
  by_cases hp : E.heapPrev e = e
  · rw [if_pos hp, if_pos (show E.links.prev e = e from hp), ← links_setPrev, ← links_setNext]
    exact links_setPrev
  · rw [if_neg hp, if_neg (show ¬ E.links.prev e = e from hp), links_setNext, links_setPrev, links_setNext,
      links_setPrev]
    rfl

theorem links_eltDelete : (E.eltDelete e).links = E.links.delete e := by
  have hif (c : Prop) [Decidable c] (A B : Elts) (L : Links) (ha : A.links = L) (hb : B.links = L) :
      (if c then A else B).links = L := by
    split
    · exact ha
    · exact hb
  rw [eltDelete]
  refine hif _ _ _ _ ?_ ?_
  all_goals
    rw [Links.delete]
    by_cases hp : E.heapPrev e = e
    · rw [if_pos (show E.links.prev e = e from hp), ← links_setPrev]
      simp only [if_pos hp]
      rfl
    · rw [if_neg (show ¬ E.links.prev e = e from hp)]
      simp only [if_neg hp]
      by_cases hn : E.heapNext e = e
      · rw [if_pos (show E.links.next e = e from hn), ← links_setNext]
        simp only [if_pos hn]
        rfl
      · rw [if_neg (show ¬ E.links.next e = e from hn), ← links_setNext, ← links_setPrev]
        simp only [if_neg hn]
        rfl

theorem eltInsertAfter_frame (E : Elts) (e new : Nat) :
    (E.eltInsertAfter e new).freeElts = E.freeElts ∧ (E.eltInsertAfter e new).len = E.len ∧
    (E.eltInsertAfter e new).head = E.head ∧
    (E.eltInsertAfter e new).tail = if E.heapNext e = e then new else E.tail := by
  rw [eltInsertAfter]
  split
  · exact ⟨rfl, rfl, rfl, rfl⟩
  · exact ⟨rfl, rfl, rfl, rfl⟩

theorem eltInsertBefore_frame (E : Elts) (e new : Nat) : (E.eltInsertBefore e new).freeElts = E.freeElts ∧
    (E.eltInsertBefore e new).len = E.len ∧ (E.eltInsertBefore e new).tail = E.tail ∧
    (E.eltInsertBefore e new).head = if E.heapPrev e = e then new else E.head := by
  rw [eltInsertBefore]
  split
  · exact ⟨rfl, rfl, rfl, rfl⟩
  · exact ⟨rfl, rfl, rfl, rfl⟩

@[simp] theorem offset_eltInsertAfter : (E.eltInsertAfter e new).offset = E.offset := by
  rw [eltInsertAfter]
  split
  · exact offset_setNext.trans (offset_setPrev.trans offset_setNext)
  · exact offset_setPrev.trans (offset_setNext.trans (offset_setNext.trans offset_setPrev))

@[simp] theorem offset_eltInsertBefore : (E.eltInsertBefore e new).offset = E.offset := by
  rw [eltInsertBefore]
  split
  · exact offset_setPrev.trans (offset_setNext.trans offset_setPrev)
  · exact offset_setNext.trans (offset_setPrev.trans (offset_setNext.trans offset_setPrev))

theorem nodup_insert (hnd : (xs ++ ys ++ fs : List Nat).Nodup) (hu : u ∉ xs ++ ys ++ fs) :
    (xs ++ u :: ys ++ fs).Nodup := by
  rw [List.append_assoc, List.cons_append]
  rw [List.append_assoc] at hnd hu
  exact List.nodup_middle.mpr (List.nodup_cons.mpr ⟨hu, hnd⟩)

theorem Linked.insertAfter (h : Linked E (xs ++ e :: ys)) (hu : Unused E (xs ++ e :: ys) new) :
    Linked (E.eltInsertAfter e new) (xs ++ e :: new :: ys) := by
  obtain ⟨hfree, hlen, hhead, htail⟩ := eltInsertAfter_frame E e new
  obtain ⟨hnot, hlt⟩ := hu
  have hsplit : xs ++ e :: new :: ys = (xs ++ [e]) ++ new :: ys := by simp
  have hold : xs ++ e :: ys = (xs ++ [e]) ++ ys := by simp
  constructor
  · rw [links_eltInsertAfter]
    exact h.chain.insertAfter h.nodup_chain fun hm => hnot (List.mem_append_left _ hm)
  · rw [hfree, hsplit]
    exact nodup_insert (hold ▸ h.nodup) (hold ▸ hnot)
  · rw [hfree, hlen]
    intro i hi
    by_cases hin : i = new
    · exact hin ▸ hlt
    · apply h.lt
      simp only [List.mem_append, List.mem_cons] at hi ⊢
      tauto
  · rw [hhead, h.head]
    cases xs with
    | nil => rfl
    | cons x xs => rfl
  · rw [htail, h.next]
    cases ys with
    | nil => simp
    | cons y ys =>
      have hye : y ≠ e := fun he => by
        have hnd := (List.nodup_append.mp h.nodup_chain).2.1
        exact (List.nodup_cons.mp hnd).1 (he ▸ List.mem_cons_self)
      rw [List.head?_cons, Option.getD_some, if_neg hye, h.tail]
      simp

theorem Linked.insertBefore (h : Linked E (xs ++ e :: ys)) (hu : Unused E (xs ++ e :: ys) new) :
    Linked (E.eltInsertBefore e new) (xs ++ new :: e :: ys) := by
  obtain ⟨hfree, hlen, htail, hhead⟩ := eltInsertBefore_frame E e new
  obtain ⟨hnot, hlt⟩ := hu
  constructor
  · rw [links_eltInsertBefore]
    exact h.chain.insertBefore h.nodup_chain fun hm => hnot (List.mem_append_left _ hm)
  · rw [hfree]
    exact nodup_insert h.nodup hnot
  · rw [hfree, hlen]
    intro i hi
    by_cases hin : i = new
    · exact hin ▸ hlt
    · apply h.lt
      simp only [List.mem_append, List.mem_cons] at hi ⊢
      tauto
  · rw [hhead, h.prev]
    cases xs with
    | nil => simp
    | cons x xs =>
      have hlast := List.getLast?_eq_some_getLast (List.cons_ne_nil x xs)
      have hne : (x :: xs).getLast (List.cons_ne_nil x xs) ≠ e := fun he => by
        exact (List.nodup_append.mp h.nodup_chain).2.2 _ (List.getLast_mem _) e List.mem_cons_self he
      rw [hlast, Option.getD_some, if_neg hne, h.head]
      rfl
  · rw [htail, h.tail]
    simp

/-- What unlinking leaves for the end of the vector: an index at its end shrinks it, another one is spare. -/
theorem eltDelete_frame (E : Elts) (e : Nat) : (E.eltDelete e).offset = E.offset ∧
    (E.eltDelete e).head = (if E.heapPrev e = e then E.heapNext e else E.head) ∧
    (E.eltDelete e).tail = (if E.heapPrev e = e then E.tail else if E.heapNext e = e then E.heapPrev e else E.tail) ∧
    ((e < E.len - 1 ∧ (E.eltDelete e).freeElts = e :: E.freeElts ∧ (E.eltDelete e).len = E.len) ∨
      (¬ e < E.len - 1 ∧ (E.eltDelete e).freeElts = E.freeElts ∧ (E.eltDelete e).len = E.len - 1)) := by
  have hif (A : Elts) (hl : A.len = E.len) (hf : A.freeElts = E.freeElts) :
      let B := if e < E.len - 1 then { A with freeElts := e :: A.freeElts } else { A with len := A.len - 1 }
      B.offset = A.offset ∧ B.head = A.head ∧ B.tail = A.tail ∧
        ((e < E.len - 1 ∧ B.freeElts = e :: E.freeElts ∧ B.len = E.len) ∨
          (¬ e < E.len - 1 ∧ B.freeElts = E.freeElts ∧ B.len = E.len - 1)) := by
    by_cases he : e < E.len - 1
    · rw [if_pos he]
      exact ⟨rfl, rfl, rfl, .inl ⟨he, congrArg (e :: ·) hf, hl⟩⟩
    · rw [if_neg he]
      exact ⟨rfl, rfl, rfl, .inr ⟨he, hf, congrArg (· - 1) hl⟩⟩
  simp only [eltDelete]
  by_cases hp : E.heapPrev e = e
  · simp only [if_pos hp]
    obtain ⟨ho, hh, ht, hs⟩ := hif { E.setPrev (E.heapNext e) (E.heapNext e) with head := E.heapNext e } rfl rfl
    exact ⟨ho.trans offset_setPrev, hh, ht, hs⟩
  · simp only [if_neg hp]
    by_cases hn : E.heapNext e = e
    · simp only [if_pos hn]
      obtain ⟨ho, hh, ht, hs⟩ := hif { E.setNext (E.heapPrev e) (E.heapPrev e) with tail := E.heapPrev e } rfl rfl
      exact ⟨ho.trans offset_setNext, hh, ht, hs⟩
    · simp only [if_neg hn]
      obtain ⟨ho, hh, ht, hs⟩ := hif ((E.setNext (E.heapPrev e) (E.heapNext e)).setPrev (E.heapNext e) (E.heapPrev e))
        rfl rfl
      exact ⟨ho.trans (offset_setPrev.trans offset_setNext), hh, ht, hs⟩

theorem Linked.delete (h : Linked E (xs ++ d :: ys)) (hne : xs ++ ys ≠ []) :
    Linked (E.eltDelete d) (xs ++ ys) := by
  obtain ⟨-, hhead, htail, hspare⟩ := eltDelete_frame E d
  have hdlt : d < E.len := h.lt d (by simp)
  have hnd : (d :: (xs ++ ys ++ E.freeElts)).Nodup := by
    have hnd := h.nodup
    rw [List.append_assoc, List.cons_append] at hnd
    rw [List.append_assoc]
    exact List.nodup_middle.mp hnd
  have hlt : ∀ i ∈ xs ++ ys ++ E.freeElts, i < E.len := by
    intro i hi
    apply h.lt
    simp only [List.mem_append, List.mem_cons] at hi ⊢
    tauto
  have hdy : ∀ y ∈ ys, y ≠ d := fun y hy he => (List.nodup_cons.mp hnd).1 (by simp [← he, hy])
  have hdx : ∀ x ∈ xs, x ≠ d := fun x hx he => (List.nodup_cons.mp hnd).1 (by simp [← he, hx])
  have hdel : ∀ i ∈ xs ++ ys ++ E.freeElts, i ≠ d := fun i hi he => (List.nodup_cons.mp hnd).1 (he ▸ hi)
  constructor
  · rw [links_eltDelete]
    exact h.chain.delete h.nodup_chain hne
  · obtain ⟨-, hf, -⟩ | ⟨-, hf, -⟩ := hspare
    · rw [hf]
      exact List.nodup_middle.mpr hnd
    · rw [hf]
      exact (List.nodup_cons.mp hnd).2
  · intro i hi
    obtain ⟨hl, hf, hlen⟩ | ⟨hl, hf, hlen⟩ := hspare
    · rw [hf] at hi
      rw [hlen]
      by_cases hid : i = d
      · exact hid ▸ hdlt
      · apply hlt
        simp only [List.mem_append, List.mem_cons] at hi ⊢
        tauto
    · rw [hf] at hi
      rw [hlen]
      have h1 := hlt i hi
      have h2 := hdel i hi
      omega
  · rw [hhead, h.prev, h.next]
    cases xs with
    | nil =>
      cases ys with
      | nil => exact absurd rfl hne
      | cons y ys => simp
    | cons x xs =>
      rw [List.getLast?_eq_some_getLast (List.cons_ne_nil x xs), Option.getD_some,
        if_neg (hdx _ (List.getLast_mem _)), h.head]
      rfl
  · rw [htail, h.prev, h.next]
    cases hlast : xs.getLast? with
    | none =>
      have hxs : xs = [] := List.getLast?_eq_none_iff.mp hlast
      cases ys with
      | nil => exact absurd (by simp [hxs]) hne
      | cons y ys => simp [h.tail, hxs]
    | some p =>
      have hp := hdx p (List.mem_of_getLast? hlast)
      cases ys with
      | nil => simp [hlast, hp]
      | cons y ys =>
        have hy := hdy y List.mem_cons_self
        simp [h.tail, hp, hy]

end Vpp.Infra.Elts
