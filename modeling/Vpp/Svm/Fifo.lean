import Mathlib.Data.BitVec
import Vpp.Lib.Pool
import Vpp.Lib.Ring

namespace Vpp.Svm
open Vpp.Lib List

/-- An out-of-order segment; `next` and `prev` are pool indices. -/
structure OooSegment where
  next : BitVec 32
  prev : BitVec 32
  fifoPosition : BitVec 32
  length : BitVec 32
  deriving DecidableEq, Repr, Inhabited

def oooSegmentInvalidIndex : BitVec 32 := ~~~0

abbrev Buffer := Nat → BitVec 8

structure SvmFifo where
  cursize : BitVec 32
  nitems : BitVec 32
  head : BitVec 32
  tail : BitVec 32
  oooSegments : Pool OooSegment
  ooosListHead : BitVec 32
  ooosNewest : BitVec 32
  data : Buffer

def svmFifoCreate (dataSizeInBytes : BitVec 32) : SvmFifo where
  cursize := 0
  nitems := dataSizeInBytes
  head := 0
  tail := 0
  oooSegments := .empty
  ooosListHead := oooSegmentInvalidIndex
  ooosNewest := 0
  data := fun _ => 0

def SvmFifo.segment (f : SvmFifo) (index : BitVec 32) : OooSegment := f.oooSegments.eltAt index.toNat

def SvmFifo.modifySegment (f : SvmFifo) (index : BitVec 32) (g : OooSegment → OooSegment) : SvmFifo :=
  { f with oooSegments := f.oooSegments.modify index.toNat g }

def oooSegmentDel (f : SvmFifo) (index : BitVec 32) : SvmFifo :=
  let cur := f.segment index
  let f := if cur.next ≠ oooSegmentInvalidIndex then
      f.modifySegment cur.next fun s => { s with prev := cur.prev }
    else f
  let f := if cur.prev ≠ oooSegmentInvalidIndex then
      f.modifySegment cur.prev fun s => { s with next := cur.next }
    else { f with ooosListHead := cur.next }
  { f with oooSegments := f.oooSegments.put index.toNat }

def SvmFifo.tailDiff (f : SvmFifo) (index : BitVec 32) : BitVec 32 :=
  (f.nitems + f.tail - (f.segment index).fifoPosition) % f.nitems

/-- The loop over segments that the last tail update overlaps. It frees a segment in every round
but the last, so the size of the pool bounds the number of rounds. -/
def tryCollectLoop (nBytesEnqueued : BitVec 32) :
    Nat → SvmFifo → BitVec 32 → BitVec 32 → SvmFifo × BitVec 32 × BitVec 32
  | 0, f, s, diff => (f, s, diff)
  | n + 1, f, s, diff =>
    if 0 < diff ∧ diff < nBytesEnqueued then
      let seg := f.segment s
      if diff < seg.length then
        ({ f with tail := (f.tail + (seg.length - diff)) % f.nitems }, s, diff)
      else if seg.next ≠ oooSegmentInvalidIndex then
        tryCollectLoop nBytesEnqueued n (oooSegmentDel f s) seg.next (f.tailDiff seg.next)
      else (f, s, diff)
    else (f, s, diff)

def oooSegmentTryCollect (f : SvmFifo) (nBytesEnqueued : BitVec 32) : SvmFifo × BitVec 32 :=
  let (f, s, diff) := tryCollectLoop nBytesEnqueued (f.oooSegments.elts.length + 1) f
    f.ooosListHead (f.tailDiff f.ooosListHead)
  if diff = 0 then
    let length := (f.segment s).length
    let bytes := if length ≤ f.nitems - f.cursize then length else f.nitems - f.cursize
    (oooSegmentDel { f with tail := (f.tail + bytes) % f.nitems } s, bytes)
  else (f, 0)

/-- One piece of a move around the ring: the position falls back to the start at the end. -/
def advance (nitems pos bytes : BitVec 32) : BitVec 32 :=
  if pos + bytes = nitems then 0 else pos + bytes

def firstBytes (nitems pos totalBytes : BitVec 32) : BitVec 32 :=
  if nitems - pos < totalBytes then nitems - pos else totalBytes

def fifoStuck : BitVec 32 := -2

def enqueueCopy (f : SvmFifo) (totalCopyBytes : BitVec 32) (copyFromHere : Buffer) : SvmFifo :=
  let firstCopyBytes := firstBytes f.nitems f.tail totalCopyBytes
  let data := memcpy f.data f.tail.toNat copyFromHere 0 firstCopyBytes.toNat
  let tail := advance f.nitems f.tail firstCopyBytes
  let secondCopyBytes := totalCopyBytes - firstCopyBytes
  if secondCopyBytes ≠ 0 then
    { f with
      data := memcpy data tail.toNat copyFromHere firstCopyBytes.toNat secondCopyBytes.toNat
      tail := advance f.nitems tail secondCopyBytes }
  else { f with data, tail }

/-- `none` as the buffer accounts for a zero-copy enqueue done elsewhere. -/
def svmFifoEnqueueInternal (f : SvmFifo) (maxBytes : BitVec 32) (copyFromHere : Option Buffer) :
    SvmFifo × BitVec 32 :=
  if f.cursize = f.nitems then (f, fifoStuck)
  else
    let free := f.nitems - f.cursize
    let (f, totalCopyBytes) := match copyFromHere with
      | some buf =>
        let totalCopyBytes := if free < maxBytes then free else maxBytes
        (enqueueCopy f totalCopyBytes buf, totalCopyBytes)
      | none => ({ f with tail := (f.tail + maxBytes) % f.nitems }, maxBytes)
    let (f, totalCopyBytes) := if f.ooosListHead ≠ oooSegmentInvalidIndex then
        let (f, bytes) := oooSegmentTryCollect f totalCopyBytes
        (f, totalCopyBytes + bytes)
      else (f, totalCopyBytes)
    ({ f with cursize := f.cursize + totalCopyBytes }, totalCopyBytes)

def svmFifoEnqueueNowait (f : SvmFifo) (maxBytes : BitVec 32) (copyFromHere : Option Buffer) :
    SvmFifo × BitVec 32 := svmFifoEnqueueInternal f maxBytes copyFromHere

def dequeueCopy (f : SvmFifo) (totalCopyBytes : BitVec 32) (copyHere : Buffer) :
    BitVec 32 × Buffer :=
  let firstCopyBytes := firstBytes f.nitems f.head totalCopyBytes
  let buf := memcpy copyHere 0 f.data f.head.toNat firstCopyBytes.toNat
  let head := advance f.nitems f.head firstCopyBytes
  let secondCopyBytes := totalCopyBytes - firstCopyBytes
  if secondCopyBytes ≠ 0 then
    (advance f.nitems head secondCopyBytes,
      memcpy buf firstCopyBytes.toNat f.data head.toNat secondCopyBytes.toNat)
  else (head, buf)

def svmFifoDequeueInternal2 (f : SvmFifo) (maxBytes : BitVec 32) (copyHere : Option Buffer) :
    SvmFifo × Option Buffer × BitVec 32 :=
  if f.cursize = 0 then (f, copyHere, fifoStuck)
  else match copyHere with
    | some buf =>
      let totalCopyBytes := if f.cursize < maxBytes then f.cursize else maxBytes
      let (head, buf) := dequeueCopy f totalCopyBytes buf
      ({ f with head, cursize := f.cursize - totalCopyBytes }, some buf, totalCopyBytes)
    | none =>
      ({ f with head := (f.head + maxBytes) % f.nitems, cursize := f.cursize - maxBytes }, none,
        maxBytes)

def svmFifoDequeueNowait (f : SvmFifo) (maxBytes : BitVec 32) (copyHere : Option Buffer) :
    SvmFifo × Option Buffer × BitVec 32 := svmFifoDequeueInternal2 f maxBytes copyHere

def svmFifoDequeueDrop (f : SvmFifo) (maxBytes : BitVec 32) : SvmFifo × BitVec 32 :=
  if f.cursize = 0 then (f, fifoStuck)
  else
    let totalDropBytes := if f.cursize < maxBytes then f.cursize else maxBytes
    let firstDropBytes := firstBytes f.nitems f.head totalDropBytes
    let head := advance f.nitems f.head firstDropBytes
    let secondDropBytes := totalDropBytes - firstDropBytes
    let head := if secondDropBytes ≠ 0 then advance f.nitems head secondDropBytes else head
    ({ f with head, cursize := f.cursize - totalDropBytes }, totalDropBytes)

/-- The fifo holds the byte queue `q` and no out-of-order segment is outstanding. -/
structure SvmFifo.Holds (f : SvmFifo) (q : List (BitVec 8)) : Prop where
  head_lt : f.head.toNat < f.nitems.toNat
  tail_eq : (f.head.toNat + f.cursize.toNat) % f.nitems.toNat = f.tail.toNat
  size_le : f.cursize.toNat ≤ f.nitems.toNat
  contents : ringCells f.data f.nitems.toNat f.head.toNat f.cursize.toNat = q
  inOrder : f.ooosListHead = oooSegmentInvalidIndex

theorem svmFifoCreate_holds (hn : 0 < n.toNat) : (svmFifoCreate n).Holds [] := by
  refine ⟨hn, ?_, Nat.zero_le _, rfl, rfl⟩
  simp [svmFifoCreate]

variable {f : SvmFifo}

theorem SvmFifo.Holds.length (h : f.Holds q) : q.length = f.cursize.toNat := by
  rw [← h.contents, length_ringCells]

theorem SvmFifo.Holds.tail_lt (h : f.Holds q) : f.tail.toNat < f.nitems.toNat := by
  rw [← h.tail_eq]
  exact Nat.mod_lt _ (Nat.zero_lt_of_lt h.head_lt)

theorem advance_toNat (h : pos.toNat + bytes.toNat ≤ nitems.toNat) :
    (advance nitems pos bytes).toNat = wrapAt nitems.toNat (pos.toNat + bytes.toNat) := by
  have hs : (pos + bytes).toNat = pos.toNat + bytes.toNat := by
    rw [BitVec.toNat_add]
    exact Nat.mod_eq_of_lt (Nat.lt_of_le_of_lt h nitems.isLt)
  have hiff : pos + bytes = nitems ↔ pos.toNat + bytes.toNat = nitems.toNat := by
    rw [← hs]
    exact ⟨fun he => congrArg _ he, BitVec.eq_of_toNat_eq⟩
  unfold advance wrapAt
  by_cases he : pos + bytes = nitems
  · rw [if_pos he, if_pos (hiff.mp he)]
    rfl
  · rw [if_neg he, if_neg (mt hiff.mpr he), hs]

theorem firstBytes_toNat {nitems pos : BitVec 32} (hp : pos.toNat < nitems.toNat)
    (total : BitVec 32) :
    (firstBytes nitems pos total).toNat = firstPiece nitems.toNat pos.toNat total.toNat := by
  have hs : (nitems - pos).toNat = nitems.toNat - pos.toNat :=
    BitVec.toNat_sub_of_le (BitVec.le_def.mpr (Nat.le_of_lt hp))
  unfold firstBytes firstPiece
  split
  · next hlt =>
    rw [BitVec.lt_def, hs] at hlt
    omega
  · next hge =>
    rw [BitVec.lt_def, hs] at hge
    omega

/-- Both pieces of a move: how long they are and where they lead. -/
theorem advance_pieces {nitems pos total first : BitVec 32} (hp : pos.toNat < nitems.toNat)
    (ht : total.toNat ≤ nitems.toNat) (he : first = firstBytes nitems pos total) :
    (total - first).toNat = total.toNat - firstPiece nitems.toNat pos.toNat total.toNat ∧
      (if total - first ≠ 0 then advance nitems (advance nitems pos first) (total - first)
        else advance nitems pos first).toNat = (pos.toNat + total.toNat) % nitems.toNat ∧
      (total - first ≠ 0 → (advance nitems pos first).toNat = 0) := by
  have hf := he ▸ firstBytes_toNat hp total
  have hle : firstPiece nitems.toNat pos.toNat total.toNat ≤ total.toNat := Nat.min_le_right _ _
  have hle' : firstPiece nitems.toNat pos.toNat total.toNat ≤ nitems.toNat - pos.toNat :=
    Nat.min_le_left _ _
  have hs : (total - first).toNat = total.toNat - firstPiece nitems.toNat pos.toNat total.toNat := by
    rw [BitVec.toNat_sub_of_le (BitVec.le_def.mpr (by omega)), hf]
  have h1 := advance_toNat (show pos.toNat + first.toNat ≤ nitems.toNat by omega)
  have hz : total - first ≠ 0 → (advance nitems pos first).toNat = 0 := by
    intro hne
    have hpos : (total - first).toNat ≠ 0 := fun h => hne (BitVec.eq_of_toNat_eq h)
    rw [h1, hf]
    unfold firstPiece at hs ⊢
    rw [wrapAt, if_pos (by omega)]
  refine ⟨hs, ?_, hz⟩
  rw [← wrapAt_pieces hp ht, ← hs, ← hf, ← h1]
  split
  · next hne =>
    apply advance_toNat
    rw [hz hne]
    omega
  · next he =>
    have h0 : (total - first).toNat = 0 := by
      rw [not_not.mp he]
      rfl
    rw [h0, Nat.add_zero, h1, wrapAt_eq_mod (by omega),
      wrapAt_eq_mod (Nat.le_of_lt (Nat.mod_lt _ (by omega))), Nat.mod_mod]

theorem toNat_eq_zero_of_not_ne {x : BitVec 32} (h : ¬ x ≠ 0) : x.toNat = 0 := by
  rw [not_not.mp h]
  rfl

theorem enqueueCopy_eq (hp : f.tail.toNat < f.nitems.toNat)
    (ht : total.toNat ≤ f.nitems.toNat) (buf : Buffer) :
    ∃ tail : BitVec 32, tail.toNat = (f.tail.toNat + total.toNat) % f.nitems.toNat ∧
      enqueueCopy f total buf =
        { f with data := ringWrite f.data f.nitems.toNat f.tail.toNat buf total.toNat, tail } := by
  have hf := firstBytes_toNat hp total
  obtain ⟨hs, htail, hz⟩ := advance_pieces hp ht rfl
  refine ⟨_, htail, ?_⟩
  unfold enqueueCopy ringWrite
  rw [← hs, ← hf]
  by_cases hne : total - firstBytes f.nitems f.tail total ≠ 0
  · simp only [if_pos hne, hz hne]
  · simp only [if_neg hne, toNat_eq_zero_of_not_ne hne, memcpy_zero]

theorem dequeueCopy_spec (hp : f.head.toNat < f.nitems.toNat)
    (ht : total.toNat ≤ f.nitems.toNat) (buf : Buffer) :
    (dequeueCopy f total buf).1.toNat = (f.head.toNat + total.toNat) % f.nitems.toNat ∧
      cells (dequeueCopy f total buf).2 total.toNat =
        ringCells f.data f.nitems.toNat f.head.toNat total.toNat := by
  have hf := firstBytes_toNat hp total
  obtain ⟨hs, hhead, hz⟩ := advance_pieces hp ht rfl
  rw [← cells_ringRead buf hp ht, ← hhead]
  unfold dequeueCopy ringRead
  rw [← hs, ← hf]
  by_cases hne : total - firstBytes f.nitems f.head total ≠ 0
  · simp only [if_pos hne, hz hne, and_self]
  · simp only [if_neg hne, toNat_eq_zero_of_not_ne hne, memcpy_zero, and_self]

theorem min_toNat (a b : BitVec 32) : (if a < b then a else b).toNat = min a.toNat b.toNat := by
  split
  · next hlt =>
    rw [BitVec.lt_def] at hlt
    omega
  · next hge =>
    rw [BitVec.lt_def] at hge
    omega

structure SvmFifo.InRing (f : SvmFifo) : Prop where
  head_lt : f.head.toNat < f.nitems.toNat
  size_le : f.cursize.toNat ≤ f.nitems.toNat

theorem SvmFifo.InRing.drop_eq (h : f.InRing) (hne : f.cursize ≠ 0) (maxBytes : BitVec 32) :
    ∃ head moved : BitVec 32, svmFifoDequeueDrop f maxBytes =
        ({ f with head, cursize := f.cursize - moved }, moved) ∧
      moved.toNat = min f.cursize.toNat maxBytes.toNat ∧
      head.toNat = (f.head.toNat + moved.toNat) % f.nitems.toNat := by
  have hle := h.size_le
  have hmin := min_toNat f.cursize maxBytes
  obtain ⟨_, hhead, _⟩ := advance_pieces h.head_lt
    (show (if f.cursize < maxBytes then f.cursize else maxBytes).toNat ≤ f.nitems.toNat by omega) rfl
  refine ⟨_, _, ?_, hmin, hhead⟩
  rw [svmFifoDequeueDrop, if_neg hne]

theorem SvmFifo.InRing.dequeue_eq (h : f.InRing) (hne : f.cursize ≠ 0) (maxBytes : BitVec 32)
    (buf : Buffer) :
    ∃ (head moved : BitVec 32) (out : Buffer), svmFifoDequeueNowait f maxBytes (some buf) =
        ({ f with head, cursize := f.cursize - moved }, some out, moved) ∧
      moved.toNat = min f.cursize.toNat maxBytes.toNat ∧
      head.toNat = (f.head.toNat + moved.toNat) % f.nitems.toNat ∧
      cells out moved.toNat = ringCells f.data f.nitems.toNat f.head.toNat moved.toNat := by
  have hle := h.size_le
  have hmin := min_toNat f.cursize maxBytes
  obtain ⟨hhead, hcells⟩ := dequeueCopy_spec h.head_lt
    (show (if f.cursize < maxBytes then f.cursize else maxBytes).toNat ≤ f.nitems.toNat by omega) buf
  refine ⟨_, _, _, ?_, hmin, hhead, hcells⟩
  rw [svmFifoDequeueNowait, svmFifoDequeueInternal2, if_neg hne]

theorem SvmFifo.Holds.inRing (h : f.Holds q) : f.InRing := ⟨h.head_lt, h.size_le⟩

theorem SvmFifo.Holds.drop (h : f.Holds q) (hm : moved.toNat ≤ f.cursize.toNat)
    (hh : h'.toNat = (f.head.toNat + moved.toNat) % f.nitems.toNat) :
    ({ f with head := h', cursize := f.cursize - moved } : SvmFifo).Holds (q.drop moved.toNat) ∧
      ringCells f.data f.nitems.toNat f.head.toNat moved.toNat = q.take moved.toNat := by
  have hn : 0 < f.nitems.toNat := Nat.zero_lt_of_lt h.head_lt
  have hsz : (f.cursize - moved).toNat = f.cursize.toNat - moved.toNat :=
    BitVec.toNat_sub_of_le (BitVec.le_def.mpr hm)
  have hsum : f.cursize.toNat = moved.toNat + (f.cursize.toNat - moved.toNat) := by omega
  have hcells := h.contents
  rw [hsum, ringCells_add] at hcells
  have hlen : (ringCells f.data f.nitems.toNat f.head.toNat moved.toNat).length = moved.toNat :=
    length_ringCells _ _ _ _
  refine ⟨⟨?_, ?_, ?_, ?_, h.inOrder⟩, ?_⟩
  · rw [hh]
    exact Nat.mod_lt _ hn
  · rw [hh, hsz, Nat.mod_add_mod, Nat.add_assoc, ← hsum]
    exact h.tail_eq
  · have := h.size_le
    rw [hsz]
    exact Nat.le_trans (Nat.sub_le _ _) this
  · rw [hh, hsz, ← hcells, drop_append_of_le_length (Nat.le_of_eq hlen.symm),
      drop_of_length_le (Nat.le_of_eq hlen), nil_append]
  · rw [← hcells, take_append_of_le_length (Nat.le_of_eq hlen.symm),
      take_of_length_le (Nat.le_of_eq hlen)]

/-- An enqueue with room appends as much of the buffer as fits and returns that count. -/
theorem enqueue_spec (h : f.Holds q) (hroom : f.cursize ≠ f.nitems)
    (maxBytes : BitVec 32) (buf : Buffer) :
    let r := svmFifoEnqueueNowait f maxBytes (some buf)
    r.2.toNat = min (f.nitems.toNat - f.cursize.toNat) maxBytes.toNat ∧
      r.1.Holds (q ++ cells buf r.2.toNat) ∧ r.1.nitems = f.nitems := by
  have hfree : (f.nitems - f.cursize).toNat = f.nitems.toNat - f.cursize.toNat :=
    BitVec.toNat_sub_of_le (BitVec.le_def.mpr h.size_le)
  have hmin := min_toNat (f.nitems - f.cursize) maxBytes
  rw [hfree] at hmin
  have hsz := h.size_le
  obtain ⟨tail, htail, he⟩ := enqueueCopy_eq h.tail_lt
    (show (if f.nitems - f.cursize < maxBytes then f.nitems - f.cursize else maxBytes).toNat ≤
      f.nitems.toNat by omega) buf
  simp only [svmFifoEnqueueNowait, svmFifoEnqueueInternal, hroom, ↓reduceIte, he, h.inOrder, ne_eq,
    not_true_eq_false]
  generalize (if f.nitems - f.cursize < maxBytes then f.nitems - f.cursize else maxBytes) = total
    at hmin htail he ⊢
  have hadd : (f.cursize + total).toNat = f.cursize.toNat + total.toNat := by
    rw [BitVec.toNat_add]
    exact Nat.mod_eq_of_lt (by have := f.nitems.isLt; omega)
  refine ⟨hmin, ⟨h.head_lt, ?_, ?_, ?_, rfl⟩, trivial⟩
  · rw [hadd, htail, ← h.tail_eq, Nat.mod_add_mod, Nat.add_assoc]
  · rw [hadd]
    show f.cursize.toNat + total.toNat ≤ f.nitems.toNat
    omega
  · show ringCells _ f.nitems.toNat f.head.toNat (f.cursize + total).toNat = _
    rw [hadd, ← h.tail_eq, ringCells_ringWrite h.head_lt (by omega), h.contents]

theorem dequeue_spec (h : f.Holds q) (hne : f.cursize ≠ 0)
    (maxBytes : BitVec 32) (buf : Buffer) :
    ∃ f' out ret, svmFifoDequeueNowait f maxBytes (some buf) = (f', some out, ret) ∧
      ret.toNat = min f.cursize.toNat maxBytes.toNat ∧ cells out ret.toNat = q.take ret.toNat ∧
      f'.Holds (q.drop ret.toNat) ∧ f'.nitems = f.nitems := by
  obtain ⟨head, moved, out, he, hmoved, hhead, hcells⟩ := h.inRing.dequeue_eq hne maxBytes buf
  obtain ⟨hdrop, htake⟩ := h.drop (by omega) hhead
  exact ⟨_, out, moved, he, hmoved, hcells.trans htake, hdrop, rfl⟩

theorem drop_spec (h : f.Holds q) (hne : f.cursize ≠ 0) (maxBytes : BitVec 32) :
    let r := svmFifoDequeueDrop f maxBytes
    r.2.toNat = min f.cursize.toNat maxBytes.toNat ∧
      ringCells f.data f.nitems.toNat f.head.toNat r.2.toNat = q.take r.2.toNat ∧
      r.1.Holds (q.drop r.2.toNat) ∧ r.1.nitems = f.nitems := by
  obtain ⟨head, moved, he, hmoved, hhead⟩ := h.inRing.drop_eq hne maxBytes
  obtain ⟨hdrop, htake⟩ := h.drop (by omega) hhead
  rw [he]
  exact ⟨hmoved, htake, hdrop, rfl⟩

end Vpp.Svm
