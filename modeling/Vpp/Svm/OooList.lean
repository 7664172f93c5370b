import Vpp.Lib.EndedList
import Vpp.Svm.Reached
import Vpp.Svm.OooSegs

namespace Vpp.Svm
open Vpp.Lib List

variable {f f' : SvmFifo} {x y : BitVec 32} {l xs ys : List Seg} {s d : Seg}

def linkIndex (x : BitVec 32) : Option Nat := if x = oooSegmentInvalidIndex then none else some x.toNat

theorem linkIndex_eq_some : linkIndex x = some i ↔ x ≠ oooSegmentInvalidIndex ∧ x.toNat = i := by
  unfold linkIndex
  split
  · next h => exact iff_of_false nofun fun hc => hc.1 h
  · next h => rw [Option.some_inj, and_iff_right h]

theorem linkIndex_eq_none : linkIndex x = none ↔ x = oooSegmentInvalidIndex := by
  unfold linkIndex
  split
  · next h => exact iff_of_true rfl h
  · next h => exact iff_of_false nofun h

theorem linkIndex_ofNat (hi : i < 2 ^ 32 - 1) : linkIndex (BitVec.ofNat 32 i) = some i := by
  have hnat : (BitVec.ofNat 32 i).toNat = i := by
    rw [BitVec.toNat_ofNat]
    exact Nat.mod_eq_of_lt (by omega)
  refine linkIndex_eq_some.mpr ⟨?_, hnat⟩
  intro he
  rw [he] at hnat
  have hinv : oooSegmentInvalidIndex.toNat = 2 ^ 32 - 1 := rfl
  omega

def SvmFifo.nexts (f : SvmFifo) (i : Nat) : Option Nat := linkIndex (f.oooSegments.eltAt i).next

def SvmFifo.prevs (f : SvmFifo) (i : Nat) : Option Nat := linkIndex (f.oooSegments.eltAt i).prev

theorem nexts_eq (hx : linkIndex x = some i) : f.nexts i = linkIndex (f.segment x).next := by
  rw [SvmFifo.nexts, SvmFifo.segment, (linkIndex_eq_some.mp hx).2]

theorem prevs_eq (hx : linkIndex x = some i) : f.prevs i = linkIndex (f.segment x).prev := by
  rw [SvmFifo.prevs, SvmFifo.segment, (linkIndex_eq_some.mp hx).2]

/-- The segment is in use, where and as long as `s` says. -/
structure SvmFifo.HasSeg (f : SvmFifo) (s : Seg) : Prop where
  live : f.oooSegments.Live s.idx
  small : s.idx < 2 ^ 32 - 1
  position : (f.oooSegments.eltAt s.idx).fifoPosition.toNat = (f.tail.toNat + s.off) % f.nitems.toNat
  length : (f.oooSegments.eltAt s.idx).length.toNat = s.len
  off_lt : s.off < f.nitems.toNat

structure SvmFifo.Ooo (f : SvmFifo) (l : List Seg) : Prop where
  list : EndedList f.nexts f.prevs (linkIndex f.ooosListHead) (l.map Seg.idx).getLast? (l.map Seg.idx)
  segs : ∀ s ∈ l, f.HasSeg s

def setNext (f : SvmFifo) (x y : BitVec 32) : SvmFifo := f.modifySegment x fun s => { s with next := y }

def setPrev (f : SvmFifo) (x y : BitVec 32) : SvmFifo := f.modifySegment x fun s => { s with prev := y }

theorem nexts_setNext (hx : f.oooSegments.Live x.toNat) (j : Nat) :
    (setNext f x y).nexts j = if j = x.toNat then linkIndex y else f.nexts j := by
  rw [SvmFifo.nexts, setNext, SvmFifo.modifySegment, Pool.eltAt_modify hx]
  split <;> rfl

theorem prevs_setPrev (hx : f.oooSegments.Live x.toNat) (j : Nat) :
    (setPrev f x y).prevs j = if j = x.toNat then linkIndex y else f.prevs j := by
  rw [SvmFifo.prevs, setPrev, SvmFifo.modifySegment, Pool.eltAt_modify hx]
  split <;> rfl

theorem proj_setNext {p : OooSegment → β} (hp : ∀ s y, p { s with next := y } = p s) (f : SvmFifo) (x y : BitVec 32)
    (j : Nat) : p ((setNext f x y).oooSegments.eltAt j) = p (f.oooSegments.eltAt j) :=
  Pool.proj_modify (fun s => hp s y) f.oooSegments x.toNat j

theorem proj_setPrev {p : OooSegment → β} (hp : ∀ s y, p { s with prev := y } = p s) (f : SvmFifo) (x y : BitVec 32)
    (j : Nat) : p ((setPrev f x y).oooSegments.eltAt j) = p (f.oooSegments.eltAt j) :=
  Pool.proj_modify (fun s => hp s y) f.oooSegments x.toNat j

theorem prevs_setNext (f : SvmFifo) (x y : BitVec 32) (j : Nat) : (setNext f x y).prevs j = f.prevs j :=
  congrArg linkIndex (proj_setNext (p := OooSegment.prev) (fun _ _ => rfl) f x y j)

theorem nexts_setPrev (f : SvmFifo) (x y : BitVec 32) (j : Nat) : (setPrev f x y).nexts j = f.nexts j :=
  congrArg linkIndex (proj_setPrev (p := OooSegment.next) (fun _ _ => rfl) f x y j)

structure SameSegs (f f' : SvmFifo) : Prop where
  tail : f'.tail = f.tail
  nitems : f'.nitems = f.nitems
  live : ∀ i, f'.oooSegments.Live i ↔ f.oooSegments.Live i
  position : ∀ i, (f'.oooSegments.eltAt i).fifoPosition = (f.oooSegments.eltAt i).fifoPosition
  length : ∀ i, (f'.oooSegments.eltAt i).length = (f.oooSegments.eltAt i).length

theorem SameSegs.trans (h : SameSegs f f') (h' : SameSegs f' f'') : SameSegs f f'' :=
  ⟨h'.tail.trans h.tail, h'.nitems.trans h.nitems, fun i => (h'.live i).trans (h.live i),
    fun i => (h'.position i).trans (h.position i), fun i => (h'.length i).trans (h.length i)⟩

theorem sameSegs_setNext (f : SvmFifo) (x y : BitVec 32) : SameSegs f (setNext f x y) :=
  ⟨rfl, rfl, fun _ => Pool.live_modify, proj_setNext (p := OooSegment.fifoPosition) (fun _ _ => rfl) f x y,
    proj_setNext (p := OooSegment.length) (fun _ _ => rfl) f x y⟩

theorem sameSegs_setPrev (f : SvmFifo) (x y : BitVec 32) : SameSegs f (setPrev f x y) :=
  ⟨rfl, rfl, fun _ => Pool.live_modify, proj_setPrev (p := OooSegment.fifoPosition) (fun _ _ => rfl) f x y,
    proj_setPrev (p := OooSegment.length) (fun _ _ => rfl) f x y⟩

theorem SvmFifo.HasSeg.same (h : f.HasSeg s) (hs : SameSegs f f') : f'.HasSeg s := by
  refine ⟨(hs.live _).mpr h.live, h.small, ?_, ?_, ?_⟩
  · rw [hs.position, hs.tail, hs.nitems]
    exact h.position
  · rw [hs.length]
    exact h.length
  · rw [hs.nitems]
    exact h.off_lt

theorem SvmFifo.HasSeg.link (h : f.HasSeg s) : linkIndex (BitVec.ofNat 32 s.idx) = some s.idx := linkIndex_ofNat h.small

namespace SvmFifo.Ooo

theorem nodup (h : f.Ooo l) : (l.map Seg.idx).Nodup := h.list.nodup

theorem idx_inj (h : f.Ooo l) (hs : s ∈ l) (hd : d ∈ l) (he : s.idx = d.idx) : s = d :=
  inj_on_of_nodup_map h.nodup hs hd he

theorem mem_of_idx (h : f.Ooo l) (hi : i ∈ l.map Seg.idx) : f.oooSegments.Live i := by
  obtain ⟨s, hs, rfl⟩ := List.mem_map.mp hi
  exact (h.segs s hs).live

theorem neighbours (h : f.Ooo (xs ++ d :: ys)) :
    f.nexts d.idx = (ys.map Seg.idx).head? ∧ f.prevs d.idx = (xs.map Seg.idx).getLast? := by
  have hlist := h.list
  have hmap : (xs ++ d :: ys).map Seg.idx = xs.map Seg.idx ++ d.idx :: ys.map Seg.idx := by
    rw [map_append, map_cons]
  exact ⟨hlist.next_eq _ _ _ hmap, hlist.prev_eq _ _ _ hmap⟩

theorem head (h : f.Ooo (s :: l)) : linkIndex f.ooosListHead = some s.idx := h.list.head_eq

theorem of_nil (h : f.Ooo []) : f.ooosListHead = oooSegmentInvalidIndex := linkIndex_eq_none.mp h.list.head_eq

end SvmFifo.Ooo

def unlink (f : SvmFifo) (x : BitVec 32) : SvmFifo :=
  let cur := f.segment x
  let f := if cur.next ≠ oooSegmentInvalidIndex then setPrev f cur.next cur.prev else f
  if cur.prev ≠ oooSegmentInvalidIndex then setNext f cur.prev cur.next else { f with ooosListHead := cur.next }

theorem oooSegmentDel_eq (f : SvmFifo) (x : BitVec 32) :
    oooSegmentDel f x = { unlink f x with oooSegments := (unlink f x).oooSegments.put x.toNat } := rfl

theorem SameSegs.refl (f : SvmFifo) : SameSegs f f := ⟨rfl, rfl, fun _ => .rfl, fun _ => rfl, fun _ => rfl⟩

theorem sameSegs_unlink (f : SvmFifo) (x : BitVec 32) : SameSegs f (unlink f x) := by
  have hstart : SameSegs f (if (f.segment x).next ≠ oooSegmentInvalidIndex then
      setPrev f (f.segment x).next (f.segment x).prev else f) := by
    split
    · exact sameSegs_setPrev f _ _
    · exact .refl f
  unfold unlink
  dsimp only
  split
  · exact hstart.trans (sameSegs_setNext _ _ _)
  · exact hstart.trans ⟨rfl, rfl, fun _ => .rfl, fun _ => rfl, fun _ => rfl⟩

section
variable (h : f.Ooo (xs ++ d :: ys)) (hx : linkIndex x = some d.idx)
include h hx

theorem links_live : (∀ i, f.nexts d.idx = some i → f.oooSegments.Live i) ∧
    (∀ i, f.prevs d.idx = some i → f.oooSegments.Live i) ∧ f.oooSegments.Live x.toNat := by
  obtain ⟨hnext, hprev⟩ := h.neighbours
  refine ⟨?_, ?_, ?_⟩
  · intro i hi
    rw [hnext] at hi
    apply h.mem_of_idx
    rw [map_append, map_cons]
    exact mem_append_right _ (mem_cons_of_mem _ (mem_of_mem_head? hi))
  · intro i hi
    rw [hprev] at hi
    apply h.mem_of_idx
    rw [map_append]
    exact mem_append_left _ (mem_of_getLast? hi)
  · rw [(linkIndex_eq_some.mp hx).2]
    exact (h.segs d (mem_append_right xs mem_cons_self)).live

theorem unlink_links :
    (∀ i, (unlink f x).nexts i = if f.prevs d.idx = some i then f.nexts d.idx else f.nexts i) ∧
    (∀ i, (unlink f x).prevs i = if f.nexts d.idx = some i then f.prevs d.idx else f.prevs i) ∧
    linkIndex (unlink f x).ooosListHead =
      if f.prevs d.idx = none then f.nexts d.idx else linkIndex f.ooosListHead := by
  obtain ⟨hnlive, hplive, -⟩ := links_live h hx
  rw [nexts_eq hx] at *
  rw [prevs_eq hx] at *
  generalize hcn : (f.segment x).next = n at *
  generalize hcp : (f.segment x).prev = p at *
  -- the next segment is linked back, whether there is one or not
  obtain ⟨g, hg, hgn, hgp, hgl, hgh⟩ : ∃ g : SvmFifo,
      (if n ≠ oooSegmentInvalidIndex then setPrev f n p else f) = g ∧ (∀ i, g.nexts i = f.nexts i) ∧
      (∀ i, g.prevs i = if linkIndex n = some i then linkIndex p else f.prevs i) ∧
      (∀ i, g.oooSegments.Live i ↔ f.oooSegments.Live i) ∧ g.ooosListHead = f.ooosListHead := by
    refine ⟨_, rfl, ?_⟩
    by_cases hn : n = oooSegmentInvalidIndex
    · rw [if_neg (not_not.mpr hn), linkIndex_eq_none.mpr hn]
      exact ⟨fun _ => rfl, fun i => (if_neg nofun).symm, fun _ => .rfl, rfl⟩
    · have hsome : linkIndex n = some n.toNat := if_neg hn
      rw [if_pos hn, hsome]
      refine ⟨nexts_setPrev f n p, ?_, fun _ => Pool.live_modify, rfl⟩
      intro i
      rw [prevs_setPrev (hnlive _ hsome)]
      by_cases hi : i = n.toNat
      · rw [if_pos hi, if_pos (by rw [hi])]
      · rw [if_neg hi, if_neg (by simpa using Ne.symm hi)]
  unfold unlink
  dsimp only
  rw [hcn, hcp, hg]
  by_cases hp : p = oooSegmentInvalidIndex
  · rw [if_neg (not_not.mpr hp), linkIndex_eq_none.mpr hp]
    refine ⟨fun i => (hgn i).trans (if_neg nofun).symm, ?_, rfl⟩
    intro i
    rw [← linkIndex_eq_none.mpr hp]
    exact hgp i
  · have hsome : linkIndex p = some p.toNat := if_neg hp
    rw [if_pos hp]
    refine ⟨?_, ?_, ?_⟩
    · intro i
      rw [nexts_setNext ((hgl _).mpr (hplive _ hsome)), hgn, hsome]
      by_cases hi : i = p.toNat
      · rw [if_pos hi, if_pos (by rw [hi])]
      · rw [if_neg hi, if_neg (by simpa using Ne.symm hi)]
    · intro i
      rw [prevs_setNext, hgp]
    · rw [hsome, if_neg nofun, ← hgh]
      rfl

theorem SvmFifo.Ooo.del : (oooSegmentDel f x).Ooo (xs ++ ys) := by
  obtain ⟨hn, hp, hhead⟩ := unlink_links h hx
  have hmap : (xs ++ d :: ys).map Seg.idx = xs.map Seg.idx ++ d.idx :: ys.map Seg.idx := by
    rw [map_append, map_cons]
  have hxi := (linkIndex_eq_some.mp hx).2
  have hlist := h.list
  have hnd := h.nodup
  rw [hmap] at hlist hnd
  have hn' : ∀ i, (oooSegmentDel f x).nexts i = (unlink f x).nexts i := fun i =>
    congrArg (fun s : OooSegment => linkIndex s.next) (Pool.eltAt_put _ _ i)
  have hp' : ∀ i, (oooSegmentDel f x).prevs i = (unlink f x).prevs i := fun i =>
    congrArg (fun s : OooSegment => linkIndex s.prev) (Pool.eltAt_put _ _ i)
  have hnew := hlist.remove (fun i _ => (hn' i).trans (hn i)) fun i _ => (hp' i).trans (hp i)
  constructor
  · rw [map_append, ← hnew.tail_eq]
    have hheadEq : linkIndex (oooSegmentDel f x).ooosListHead =
        if linkIndex f.ooosListHead = some d.idx then f.nexts d.idx else linkIndex f.ooosListHead := by
      refine hhead.trans ?_
      rw [h.neighbours.2, hlist.head_eq]
      cases hxs : xs.map Seg.idx with
      | nil => simp
      | cons a as =>
        have hne : a ≠ d.idx := by
          intro he
          rw [hxs, nodup_append] at hnd
          exact hnd.2.2 a mem_cons_self d.idx mem_cons_self he
        rw [if_neg (by simp), List.cons_append, head?_cons, if_neg (by simpa using hne)]
    rw [hheadEq]
    exact hnew
  · intro s hs
    have hmem : s ∈ xs ++ d :: ys := by
      rcases mem_append.mp hs with hs | hs
      · exact mem_append_left _ hs
      · exact mem_append_right _ (mem_cons_of_mem d hs)
    have hne : s.idx ≠ x.toNat := by
      rw [hxi]
      intro he
      rw [nodup_append] at hnd
      rcases mem_append.mp hs with hs | hs
      · exact hnd.2.2 _ (List.mem_map_of_mem hs) _ mem_cons_self he
      · exact (nodup_cons.mp hnd.2.1).1 (he ▸ List.mem_map_of_mem hs)
    have hseg := (h.segs s hmem).same (sameSegs_unlink f x)
    rw [oooSegmentDel_eq]
    refine ⟨Pool.live_put.mpr ⟨hseg.live, hne⟩, hseg.small, ?_, ?_, hseg.off_lt⟩
    · rw [Pool.eltAt_put]
      exact hseg.position
    · rw [Pool.eltAt_put]
      exact hseg.length

end

theorem tail_del (f : SvmFifo) (x : BitVec 32) : (oooSegmentDel f x).tail = f.tail := (sameSegs_unlink f x).tail

theorem nitems_del (f : SvmFifo) (x : BitVec 32) : (oooSegmentDel f x).nitems = f.nitems :=
  (sameSegs_unlink f x).nitems

def linkBefore (f : SvmFifo) (s new : BitVec 32) : SvmFifo :=
  let prev := (f.segment s).prev
  let f := if prev ≠ oooSegmentInvalidIndex then setNext (setPrev f new prev) prev new
    else { f with ooosListHead := new }
  setPrev (setNext f new s) s new

def linkAfter (f : SvmFifo) (s new : BitVec 32) : SvmFifo :=
  let next := (f.segment s).next
  let f := if next ≠ oooSegmentInvalidIndex then setPrev (setNext f new next) next new else f
  setNext (setPrev f new s) s new

/-- A segment in use that no other segment leads to. -/
structure SvmFifo.Fresh (f : SvmFifo) (s : Seg) (l : List Seg) : Prop where
  seg : f.HasSeg s
  nexts : f.nexts s.idx = none
  prevs : f.prevs s.idx = none
  notMem : s.idx ∉ l.map Seg.idx

theorem oooSegmentNew_spec (h : f.Ooo l) (hroom : f.oooSegments.elts.length < 2 ^ 32 - 1)
    (hp : x.toNat = (f.tail.toNat + o) % f.nitems.toNat) (ho : o < f.nitems.toNat) :
    linkIndex (oooSegmentNew f x y).2 = some f.oooSegments.get.2 ∧ (oooSegmentNew f x y).1.Ooo l ∧
      (oooSegmentNew f x y).1.Fresh ⟨f.oooSegments.get.2, o, y.toNat⟩ l := by
  have hlive := Pool.live_get (p := f.oooSegments) (j := f.oooSegments.get.2) |>.mpr (.inr rfl)
  have hsmall : f.oooSegments.get.2 < 2 ^ 32 - 1 := by
    have hlt := hlive.1
    rw [Pool.length_get] at hlt
    split at hlt <;> omega
  have hnew := Pool.not_live_get f.oooSegments
  have hnm : f.oooSegments.get.2 ∉ l.map Seg.idx := fun hm => hnew (h.mem_of_idx hm)
  have hself : (oooSegmentNew f x y).1.oooSegments.eltAt f.oooSegments.get.2 =
      ⟨oooSegmentInvalidIndex, oooSegmentInvalidIndex, x, y⟩ := Pool.eltAt_set_self hlive
  have helt {i : Nat} (hi : i ≠ f.oooSegments.get.2) :
      (oooSegmentNew f x y).1.oooSegments.eltAt i = f.oooSegments.eltAt i :=
    (Pool.eltAt_set_ne hi).trans (Pool.eltAt_get _ _)
  have hold {i : Nat} (hi : i ∈ l.map Seg.idx) : i ≠ f.oooSegments.get.2 := fun he => hnm (he ▸ hi)
  refine ⟨linkIndex_ofNat hsmall, ⟨?_, ?_⟩, ⟨?_, ?_, ?_, hnm⟩⟩
  · apply h.list.congr
    · intro i hi
      rw [SvmFifo.nexts, helt (hold hi)]
      rfl
    · intro i hi
      rw [SvmFifo.prevs, helt (hold hi)]
      rfl
  · intro s hs
    have hseg := h.segs s hs
    have hi := helt (hold (List.mem_map_of_mem hs))
    refine ⟨?_, hseg.small, ?_, ?_, hseg.off_lt⟩
    · exact Pool.live_set.mpr (Pool.live_get.mpr (.inl hseg.live))
    · rw [hi]
      exact hseg.position
    · rw [hi]
      exact hseg.length
  · refine ⟨Pool.live_set.mpr hlive, hsmall, ?_, ?_, ho⟩
    · exact (congrArg (·.fifoPosition.toNat) hself).trans hp
    · exact congrArg (·.length.toNat) hself
  · rw [SvmFifo.nexts, hself]
    rfl
  · rw [SvmFifo.prevs, hself]
    rfl

theorem sameSegs_linkBefore (f : SvmFifo) (s new : BitVec 32) : SameSegs f (linkBefore f s new) := by
  have hstart : SameSegs f (if (f.segment s).prev ≠ oooSegmentInvalidIndex then
      setNext (setPrev f new (f.segment s).prev) (f.segment s).prev new else { f with ooosListHead := new }) := by
    split
    · exact (sameSegs_setPrev f _ _).trans (sameSegs_setNext _ _ _)
    · exact ⟨rfl, rfl, fun _ => .rfl, fun _ => rfl, fun _ => rfl⟩
  exact (hstart.trans (sameSegs_setNext _ _ _)).trans (sameSegs_setPrev _ _ _)

theorem sameSegs_linkAfter (f : SvmFifo) (s new : BitVec 32) : SameSegs f (linkAfter f s new) := by
  have hstart : SameSegs f (if (f.segment s).next ≠ oooSegmentInvalidIndex then
      setPrev (setNext f new (f.segment s).next) (f.segment s).next new else f) := by
    split
    · exact (sameSegs_setNext f _ _).trans (sameSegs_setPrev _ _ _)
    · exact .refl f
  exact (hstart.trans (sameSegs_setPrev _ _ _)).trans (sameSegs_setNext _ _ _)

section
variable {n : Seg} {new : BitVec 32} (h : f.Ooo (xs ++ d :: ys)) (hx : linkIndex x = some d.idx)
  (hn : f.Fresh n (xs ++ d :: ys)) (hnew : linkIndex new = some n.idx)
include h hx hn hnew

theorem linkBefore_links :
    (∀ i, (linkBefore f x new).nexts i =
      if i = n.idx then some d.idx else if f.prevs d.idx = some i then some n.idx else f.nexts i) ∧
    (∀ i, (linkBefore f x new).prevs i =
      if i = d.idx then some n.idx else if i = n.idx then f.prevs d.idx else f.prevs i) ∧
    linkIndex (linkBefore f x new).ooosListHead =
      if f.prevs d.idx = none then some n.idx else linkIndex f.ooosListHead := by
  obtain ⟨-, hplive, hxlive⟩ := links_live h hx
  have hxi := (linkIndex_eq_some.mp hx).2
  have hni := (linkIndex_eq_some.mp hnew).2
  have hnlive : f.oooSegments.Live new.toNat := hni ▸ hn.seg.live
  rw [prevs_eq hx] at *
  unfold linkBefore
  generalize (f.segment x).prev = p at *
  -- the segment before is linked, whether there is one or not
  obtain ⟨g, hg, hgn, hgp, hgl, hgh⟩ : ∃ g : SvmFifo,
      (if p ≠ oooSegmentInvalidIndex then setNext (setPrev f new p) p new
        else { f with ooosListHead := new }) = g ∧
      (∀ i, g.nexts i = if linkIndex p = some i then some n.idx else f.nexts i) ∧
      (∀ i, g.prevs i = if i = n.idx then linkIndex p else f.prevs i) ∧
      (∀ i, g.oooSegments.Live i ↔ f.oooSegments.Live i) ∧
      linkIndex g.ooosListHead = if linkIndex p = none then some n.idx else linkIndex f.ooosListHead := by
    refine ⟨_, rfl, ?_⟩
    by_cases hp : p = oooSegmentInvalidIndex
    · rw [if_neg (not_not.mpr hp), linkIndex_eq_none.mpr hp]
      refine ⟨fun i => (if_neg nofun).symm, ?_, fun _ => .rfl, hnew.trans (if_pos rfl).symm⟩
      intro i
      by_cases hi : i = n.idx
      · rw [if_pos hi, hi]
        exact hn.prevs
      · rw [if_neg hi]
        rfl
    · have hsome : linkIndex p = some p.toNat := if_neg hp
      rw [if_pos hp, hsome]
      refine ⟨?_, ?_, fun _ => Pool.live_modify.trans Pool.live_modify, (if_neg nofun).symm⟩
      · intro i
        rw [nexts_setNext (Pool.live_modify.mpr (hplive _ hsome)), nexts_setPrev, hnew]
        by_cases hi : i = p.toNat
        · rw [if_pos hi, if_pos (by rw [hi])]
        · rw [if_neg hi, if_neg (by simpa using Ne.symm hi)]
      · intro i
        rw [prevs_setNext, prevs_setPrev hnlive, hni, hsome]
  dsimp only
  rw [hg]
  refine ⟨?_, ?_, hgh⟩
  · intro i
    rw [nexts_setPrev, nexts_setNext ((hgl _).mpr hnlive), hni, hx, hgn]
  · intro i
    rw [prevs_setPrev (Pool.live_modify.mpr ((hgl _).mpr hxlive)), hxi, hnew, prevs_setNext, hgp]

theorem linkAfter_links :
    (∀ i, (linkAfter f x new).nexts i =
      if i = d.idx then some n.idx else if i = n.idx then f.nexts d.idx else f.nexts i) ∧
    (∀ i, (linkAfter f x new).prevs i =
      if i = n.idx then some d.idx else if f.nexts d.idx = some i then some n.idx else f.prevs i) ∧
    (linkAfter f x new).ooosListHead = f.ooosListHead := by
  obtain ⟨hnxlive, -, hxlive⟩ := links_live h hx
  have hxi := (linkIndex_eq_some.mp hx).2
  have hni := (linkIndex_eq_some.mp hnew).2
  have hnlive : f.oooSegments.Live new.toNat := hni ▸ hn.seg.live
  rw [nexts_eq hx] at *
  unfold linkAfter
  generalize (f.segment x).next = p at *
  -- the segment behind is linked, whether there is one or not
  obtain ⟨g, hg, hgn, hgp, hgl, hgh⟩ : ∃ g : SvmFifo,
      (if p ≠ oooSegmentInvalidIndex then setPrev (setNext f new p) p new else f) = g ∧
      (∀ i, g.nexts i = if i = n.idx then linkIndex p else f.nexts i) ∧
      (∀ i, g.prevs i = if linkIndex p = some i then some n.idx else f.prevs i) ∧
      (∀ i, g.oooSegments.Live i ↔ f.oooSegments.Live i) ∧ g.ooosListHead = f.ooosListHead := by
    refine ⟨_, rfl, ?_⟩
    by_cases hp : p = oooSegmentInvalidIndex
    · rw [if_neg (not_not.mpr hp), linkIndex_eq_none.mpr hp]
      refine ⟨?_, fun i => (if_neg nofun).symm, fun _ => .rfl, rfl⟩
      intro i
      by_cases hi : i = n.idx
      · rw [if_pos hi, hi]
        exact hn.nexts
      · rw [if_neg hi]
    · have hsome : linkIndex p = some p.toNat := if_neg hp
      rw [if_pos hp, hsome]
      refine ⟨?_, ?_, fun _ => Pool.live_modify.trans Pool.live_modify, rfl⟩
      · intro i
        rw [nexts_setPrev, nexts_setNext hnlive, hni, hsome]
      · intro i
        rw [prevs_setPrev (Pool.live_modify.mpr (hnxlive _ hsome)), prevs_setNext, hnew]
        by_cases hi : i = p.toNat
        · rw [if_pos hi, if_pos (by rw [hi])]
        · rw [if_neg hi, if_neg (by simpa using Ne.symm hi)]
  dsimp only
  rw [hg]
  refine ⟨?_, ?_, hgh⟩
  · intro i
    rw [nexts_setNext (Pool.live_modify.mpr ((hgl _).mpr hxlive)), hxi, hnew, nexts_setPrev, hgn]
  · intro i
    rw [prevs_setNext, prevs_setPrev ((hgl _).mpr hnlive), hni, hx, hgp]

omit hx hnew in
theorem SvmFifo.Fresh.segs : ∀ s ∈ xs ++ n :: d :: ys, f.HasSeg s := by
  intro s hs
  rcases mem_append.mp hs with hs | hs
  · exact h.segs s (mem_append_left _ hs)
  · rcases mem_cons.mp hs with rfl | hs
    · exact hn.seg
    · exact h.segs s (mem_append_right xs hs)

theorem SvmFifo.Ooo.before : (linkBefore f x new).Ooo (xs ++ n :: d :: ys) := by
  obtain ⟨hnexts, hprevs, hhead⟩ := linkBefore_links h hx hn hnew
  have hlist := h.list
  have hmem := hn.notMem
  rw [map_append] at hlist hmem
  rw [h.neighbours.2] at hnexts hprevs hhead
  have hne : n.idx ≠ d.idx := fun he =>
    hmem (he ▸ mem_append_right _ (List.mem_map_of_mem mem_cons_self))
  have hins : EndedList (linkBefore f x new).nexts (linkBefore f x new).prevs _ _ _ := hlist.insert hmem hnexts (by
    intro i
    rw [hprevs]
    by_cases hd : i = d.idx
    · rw [if_pos hd, if_neg (hd ▸ hne.symm), map_cons, head?_cons, if_pos (by rw [hd])]
    · rw [if_neg hd, map_cons, head?_cons, if_neg fun he : some d.idx = some i => hd (Option.some.inj he).symm])
  have hsegs := hn.segs h
  constructor
  · rw [hhead, map_append, map_cons, hlist.head_eq]
    cases xs with
    | nil => exact hins
    | cons a xs =>
      rw [if_neg (by simp)]
      exact hins
  · exact fun s hs => (hsegs s hs).same (sameSegs_linkBefore f x new)

theorem SvmFifo.Ooo.after : (linkAfter f x new).Ooo (xs ++ d :: n :: ys) := by
  obtain ⟨hnexts, hprevs, hhead⟩ := linkAfter_links h hx hn hnew
  have hsplit : xs ++ d :: ys = (xs ++ [d]) ++ ys := by rw [List.append_assoc, singleton_append]
  have hlist := h.list
  have hmem := hn.notMem
  rw [hsplit, map_append] at hlist hmem
  rw [h.neighbours.1] at hnexts hprevs
  have hne : n.idx ≠ d.idx := fun he =>
    hmem (he ▸ mem_append_left _ (List.mem_map_of_mem (mem_append_right xs (mem_singleton.mpr rfl))))
  have hins : EndedList (linkAfter f x new).nexts (linkAfter f x new).prevs _ _ _ := hlist.insert hmem (by
    intro i
    rw [hnexts]
    by_cases hd : i = d.idx
    · rw [if_pos hd, if_neg (hd ▸ hne.symm), map_append, map_singleton, getLast?_concat,
        if_pos (by rw [hd])]
    · rw [if_neg hd, map_append, map_singleton, getLast?_concat,
        if_neg fun he : some d.idx = some i => hd (Option.some.inj he).symm]) (by
    intro i
    rw [hprevs, map_append, map_singleton, getLast?_concat])
  have hsplit' : xs ++ d :: n :: ys = (xs ++ [d]) ++ n :: ys := by rw [List.append_assoc, singleton_append]
  constructor
  · rw [hhead, hsplit', map_append, map_cons, hlist.head_eq]
    cases xs with
    | nil => exact hins
    | cons a xs => exact hins
  · intro s hs
    refine SvmFifo.HasSeg.same ?_ (sameSegs_linkAfter f x new)
    rw [hsplit'] at hs
    rcases mem_append.mp hs with hs | hs
    · exact h.segs s (hsplit ▸ mem_append_left ys hs)
    · rcases mem_cons.mp hs with rfl | hs
      · exact hn.seg
      · exact h.segs s (hsplit ▸ mem_append_right _ hs)

end

end Vpp.Svm
