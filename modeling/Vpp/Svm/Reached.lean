import Vpp.Svm.Fifo

namespace Vpp.Svm
open Vpp.Lib BitVec

def oooSegmentOffset (f : SvmFifo) (s : OooSegment) : BitVec 32 := (f.nitems + s.fifoPosition - f.tail) % f.nitems

def oooSegmentEndOffset (f : SvmFifo) (s : OooSegment) : BitVec 32 :=
  (f.nitems + s.fifoPosition + s.length - f.tail) % f.nitems

def oooSegmentNew (f : SvmFifo) (start length : BitVec 32) : SvmFifo × BitVec 32 :=
  let (pool, i) := f.oooSegments.get
  ({ f with oooSegments := pool.set i ⟨oooSegmentInvalidIndex, oooSegmentInvalidIndex, start, length⟩ },
    BitVec.ofNat 32 i)

/-- From `s` on, the first segment that starts after the offset, or the last one. The size of the pool bounds the
number of rounds. -/
def findSegment (f : SvmFifo) (offset : BitVec 32) : Nat → BitVec 32 → BitVec 32
  | 0, s => s
  | n + 1, s =>
    if (f.segment s).next ≠ oooSegmentInvalidIndex ∧ oooSegmentOffset f (f.segment s) ≤ offset then
      findSegment f offset n (f.segment s).next
    else s

def addBefore (f : SvmFifo) (s position length : BitVec 32) : SvmFifo :=
  let (f, new) := oooSegmentNew f position length
  let prev := (f.segment s).prev
  let f := if prev ≠ oooSegmentInvalidIndex then
      (f.modifySegment new fun x => { x with prev := prev }).modifySegment prev fun x => { x with next := new }
    else { f with ooosListHead := new }
  let f := f.modifySegment new fun x => { x with next := s }
  let f := f.modifySegment s fun x => { x with prev := new }
  { f with ooosNewest := new }

def addAfter (f : SvmFifo) (s position length : BitVec 32) : SvmFifo :=
  let (f, new) := oooSegmentNew f position length
  let next := (f.segment s).next
  let f := if next ≠ oooSegmentInvalidIndex then
      (f.modifySegment new fun x => { x with next := next }).modifySegment next fun x => { x with prev := new }
    else f
  let f := f.modifySegment new fun x => { x with prev := s }
  let f := f.modifySegment s fun x => { x with next := new }
  { f with ooosNewest := new }

/-- The segments from `it` on that end before an offset go. -/
def removeCovered (endOffset : BitVec 32) : Nat → SvmFifo → BitVec 32 → SvmFifo × BitVec 32
  | 0, f, it => (f, it)
  | n + 1, f, it =>
    if it ≠ oooSegmentInvalidIndex ∧ oooSegmentEndOffset f (f.segment it) < endOffset then
      removeCovered endOffset n (oooSegmentDel f it) (f.segment it).next
    else (f, it)

/-- The new segment starts no later than `s`: with a segment before, the start of `s` moves only where that one is
reached. -/
def mergeStart (f : SvmFifo) (s offset position sEof : BitVec 32) : SvmFifo :=
  let prev := (f.segment s).prev
  if prev ≠ oooSegmentInvalidIndex then
    let p := f.segment prev
    if oooSegmentEndOffset f p ≥ offset then
      oooSegmentDel (f.modifySegment s fun x => { x with
        fifoPosition := p.fifoPosition
        length := sEof - oooSegmentOffset f p }) prev
    else f
  else f.modifySegment s fun x => { x with
    fifoPosition := position
    length := sEof - oooSegmentOffset f { x with fifoPosition := position } }

/-- The new segment ends after `s`. -/
def mergeEnd (f : SvmFifo) (s endOffset : BitVec 32) : SvmFifo :=
  let (f, it) := removeCovered endOffset (f.oooSegments.elts.length + 1) f (f.segment s).next
  let f := f.modifySegment s fun x => { x with length := endOffset - oooSegmentOffset f x }
  let i := f.segment it
  if it ≠ oooSegmentInvalidIndex ∧ oooSegmentOffset f i < endOffset then
    oooSegmentDel (f.modifySegment s fun x => { x with
      length := x.length + (i.length - (oooSegmentOffset f i - endOffset)) }) it
  else f

def oooSegmentAdd (f : SvmFifo) (offset length : BitVec 32) : SvmFifo :=
  let position := (f.tail + offset) % f.nitems
  let endOffset := offset + length
  if f.ooosListHead = oooSegmentInvalidIndex then
    let (f, s) := oooSegmentNew f position length
    { f with
      ooosListHead := s
      ooosNewest := s }
  else
    let s := findSegment f offset (f.oooSegments.elts.length + 1) f.ooosListHead
    let sSof := oooSegmentOffset f (f.segment s)
    let sEof := oooSegmentEndOffset f (f.segment s)
    if endOffset < sSof then addBefore f s position length
    else if sEof < offset then addAfter f s position length
    else
      let f := if offset ≤ sSof then
          let f := mergeStart f s offset position sEof
          if sEof < endOffset then mergeEnd f s endOffset else f
        else if sEof ≤ endOffset then
          f.modifySegment s fun x => { x with length := endOffset - oooSegmentOffset f x }
        else f
      { f with ooosNewest := s }

/-- The value returned is nothing for a request that does not fit. -/
def svmFifoEnqueueWithOffset (f : SvmFifo) (offset requiredBytes : BitVec 32) (copyFromHere : Buffer) :
    SvmFifo × BitVec 32 :=
  if requiredBytes + offset > f.nitems - f.cursize then (f, -1)
  else
    let f := oooSegmentAdd f offset requiredBytes
    let tailPlusOffset := (f.tail + offset) % f.nitems
    let firstCopyBytes := firstBytes f.nitems tailPlusOffset requiredBytes
    let data := memcpy f.data tailPlusOffset.toNat copyFromHere 0 firstCopyBytes.toNat
    let secondCopyBytes := requiredBytes - firstCopyBytes
    let data := if secondCopyBytes ≠ 0 then
        memcpy data ((tailPlusOffset + firstCopyBytes) % f.nitems).toNat copyFromHere firstCopyBytes.toNat
          secondCopyBytes.toNat
      else data
    ({ f with data }, 0)

def SvmFifo.ring (f : SvmFifo) : BitVec 32 × BitVec 32 × BitVec 32 := (f.head, f.nitems, f.cursize)

theorem ring_oooSegmentDel (f : SvmFifo) (i : BitVec 32) : (oooSegmentDel f i).ring = f.ring := by
  unfold oooSegmentDel
  dsimp only
  split <;> split <;> rfl

theorem ring_addBefore (f : SvmFifo) (s position length : BitVec 32) :
    (addBefore f s position length).ring = f.ring := by
  unfold addBefore
  dsimp only
  split <;> rfl

theorem ring_addAfter (f : SvmFifo) (s position length : BitVec 32) :
    (addAfter f s position length).ring = f.ring := by
  unfold addAfter
  dsimp only
  split <;> rfl

theorem ring_removeCovered (endOffset : BitVec 32) (n : Nat) (f : SvmFifo) (it : BitVec 32) :
    (removeCovered endOffset n f it).1.ring = f.ring := by
  induction n generalizing f it with
  | zero => rfl
  | succ n ih =>
    unfold removeCovered
    split
    · exact (ih _ _).trans (ring_oooSegmentDel f it)
    · rfl

theorem ring_mergeStart (f : SvmFifo) (s offset position sEof : BitVec 32) :
    (mergeStart f s offset position sEof).ring = f.ring := by
  unfold mergeStart
  dsimp only
  split
  · split
    · exact ring_oooSegmentDel _ _
    · rfl
  · rfl

theorem ring_mergeEnd (f : SvmFifo) (s endOffset : BitVec 32) : (mergeEnd f s endOffset).ring = f.ring := by
  have hcov := ring_removeCovered endOffset (f.oooSegments.elts.length + 1) f (f.segment s).next
  unfold mergeEnd
  dsimp only
  split
  · exact (ring_oooSegmentDel _ _).trans hcov
  · exact hcov

theorem ring_oooSegmentAdd (f : SvmFifo) (offset length : BitVec 32) :
    (oooSegmentAdd f offset length).ring = f.ring := by
  have hmerge (s position sEof endOffset : BitVec 32) :
      (if sEof < endOffset then mergeEnd (mergeStart f s offset position sEof) s endOffset
        else mergeStart f s offset position sEof).ring = f.ring := by
    split
    · exact (ring_mergeEnd _ _ _).trans (ring_mergeStart _ _ _ _ _)
    · exact ring_mergeStart _ _ _ _ _
  unfold oooSegmentAdd
  dsimp only
  split
  · rfl
  · split
    · exact ring_addBefore _ _ _ _
    · split
      · exact ring_addAfter _ _ _ _
      · split
        · exact hmerge _ _ _ _
        · split <;> rfl

theorem ring_tryCollectLoop (nBytesEnqueued : BitVec 32) (n : Nat) (f : SvmFifo) (s diff : BitVec 32) :
    (tryCollectLoop nBytesEnqueued n f s diff).1.ring = f.ring := by
  induction n generalizing f s diff with
  | zero => rfl
  | succ n ih =>
    unfold tryCollectLoop
    dsimp only
    split
    · split
      · rfl
      · split
        · exact (ih _ _ _).trans (ring_oooSegmentDel f s)
        · rfl
    · rfl

theorem ring_oooSegmentTryCollect (f : SvmFifo) (nBytesEnqueued : BitVec 32) :
    (oooSegmentTryCollect f nBytesEnqueued).1.ring = f.ring := by
  have hloop := ring_tryCollectLoop nBytesEnqueued (f.oooSegments.elts.length + 1) f f.ooosListHead
    (f.tailDiff f.ooosListHead)
  unfold oooSegmentTryCollect
  dsimp only
  split
  · exact (ring_oooSegmentDel _ _).trans hloop
  · exact hloop

theorem ring_enqueueCopy (f : SvmFifo) (totalCopyBytes : BitVec 32) (copyFromHere : Buffer) :
    (enqueueCopy f totalCopyBytes copyFromHere).ring = f.ring := by
  unfold enqueueCopy
  dsimp only
  split <;> rfl

def collected (f : SvmFifo) (totalCopyBytes : BitVec 32) : SvmFifo × BitVec 32 :=
  if f.ooosListHead ≠ oooSegmentInvalidIndex then
    ((oooSegmentTryCollect f totalCopyBytes).1, totalCopyBytes + (oooSegmentTryCollect f totalCopyBytes).2)
  else (f, totalCopyBytes)

theorem ring_collected (f : SvmFifo) (totalCopyBytes : BitVec 32) : (collected f totalCopyBytes).1.ring = f.ring := by
  unfold collected
  split
  · exact ring_oooSegmentTryCollect f totalCopyBytes
  · rfl

def copyBytes (f : SvmFifo) (maxBytes : BitVec 32) : BitVec 32 :=
  if f.nitems - f.cursize < maxBytes then f.nitems - f.cursize else maxBytes

theorem enqueue_some {f : SvmFifo} (hroom : f.cursize ≠ f.nitems) (maxBytes : BitVec 32) (buf : Buffer) :
    svmFifoEnqueueNowait f maxBytes (some buf) =
      let r := collected (enqueueCopy f (copyBytes f maxBytes) buf) (copyBytes f maxBytes)
      ({ r.1 with cursize := r.1.cursize + r.2 }, r.2) := by
  simp only [svmFifoEnqueueNowait, svmFifoEnqueueInternal, hroom, ↓reduceIte, collected, copyBytes]
  split <;> rfl

theorem enqueue_none {f : SvmFifo} (hroom : f.cursize ≠ f.nitems) (maxBytes : BitVec 32) :
    svmFifoEnqueueNowait f maxBytes none =
      let r := collected { f with tail := (f.tail + maxBytes) % f.nitems } maxBytes
      ({ r.1 with cursize := r.1.cursize + r.2 }, r.2) := by
  simp only [svmFifoEnqueueNowait, svmFifoEnqueueInternal, hroom, ↓reduceIte, collected]

theorem enqueue_ring (f : SvmFifo) (maxBytes : BitVec 32) (copyFromHere : Option Buffer) :
    (svmFifoEnqueueNowait f maxBytes copyFromHere).1.head = f.head ∧
      (svmFifoEnqueueNowait f maxBytes copyFromHere).1.nitems = f.nitems := by
  have hproj {g : SvmFifo} {size : BitVec 32} (hg : g.ring = f.ring) :
      SvmFifo.head { g with cursize := size } = f.head ∧ SvmFifo.nitems { g with cursize := size } = f.nitems :=
    ⟨congrArg Prod.fst hg, congrArg (·.2.1) hg⟩
  by_cases hroom : f.cursize = f.nitems
  · rw [svmFifoEnqueueNowait, svmFifoEnqueueInternal, if_pos hroom]
    exact ⟨rfl, rfl⟩
  · cases copyFromHere with
    | none =>
      rw [enqueue_none hroom]
      exact hproj (ring_collected { f with tail := (f.tail + maxBytes) % f.nitems } maxBytes)
    | some buf =>
      rw [enqueue_some hroom]
      exact hproj ((ring_collected _ _).trans (ring_enqueueCopy f _ buf))

theorem ring_enqueueWithOffset (f : SvmFifo) (offset requiredBytes : BitVec 32) (copyFromHere : Buffer) :
    (svmFifoEnqueueWithOffset f offset requiredBytes copyFromHere).1.ring = f.ring := by
  unfold svmFifoEnqueueWithOffset
  split
  · rfl
  · exact ring_oooSegmentAdd f offset requiredBytes

/-- The fifos that calls build from an empty one. An enqueue that collects out-of-order data has to leave
`cursize` within the ring, and a zero-copy dequeue takes no more than there is. -/
inductive SvmFifo.Reached (nitems : BitVec 32) : SvmFifo → Prop
  | create : Reached nitems (svmFifoCreate nitems)
  | enqueue (h : Reached nitems f) (maxBytes : BitVec 32) (copyFromHere : Option Buffer)
      (hfits : (svmFifoEnqueueNowait f maxBytes copyFromHere).1.cursize ≤ f.nitems) :
      Reached nitems (svmFifoEnqueueNowait f maxBytes copyFromHere).1
  | enqueueWithOffset (h : Reached nitems f) (offset requiredBytes : BitVec 32) (copyFromHere : Buffer) :
      Reached nitems (svmFifoEnqueueWithOffset f offset requiredBytes copyFromHere).1
  | dequeue (h : Reached nitems f) (maxBytes : BitVec 32) (copyHere : Option Buffer)
      (hthere : copyHere = none → maxBytes ≤ f.cursize) :
      Reached nitems (svmFifoDequeueNowait f maxBytes copyHere).1
  | drop (h : Reached nitems f) (maxBytes : BitVec 32) : Reached nitems (svmFifoDequeueDrop f maxBytes).1

theorem SvmFifo.InRing.congr {f f' : SvmFifo} (h : f.InRing) (he : f'.ring = f.ring) : f'.InRing := by
  have h1 : f'.head = f.head := congrArg Prod.fst he
  have h2 : f'.nitems = f.nitems := congrArg (·.2.1) he
  have h3 : f'.cursize = f.cursize := congrArg (·.2.2) he
  exact ⟨by rw [h1, h2]; exact h.head_lt, by rw [h3, h2]; exact h.size_le⟩

theorem SvmFifo.InRing.dropped {f : SvmFifo} (h : f.InRing) {moved head : BitVec 32}
    (hm : moved.toNat ≤ f.cursize.toNat) (hh : head.toNat < f.nitems.toNat) :
    SvmFifo.InRing { f with head, cursize := f.cursize - moved } := by
  have hsz : (f.cursize - moved).toNat = f.cursize.toNat - moved.toNat :=
    toNat_sub_of_le (le_def.mpr hm)
  have hle := h.size_le
  exact ⟨hh, hsz ▸ Nat.le_trans (Nat.sub_le _ _) hle⟩

theorem SvmFifo.InRing.drop {f : SvmFifo} (h : f.InRing) (maxBytes : BitVec 32) :
    (svmFifoDequeueDrop f maxBytes).1.InRing := by
  by_cases hne : f.cursize = 0
  · rw [svmFifoDequeueDrop, if_pos hne]
    exact h
  · obtain ⟨head, moved, he, hmoved, hhead⟩ := h.drop_eq hne maxBytes
    rw [he]
    exact h.dropped (by omega) (hhead ▸ Nat.mod_lt _ (Nat.zero_lt_of_lt h.head_lt))

theorem SvmFifo.InRing.dequeue {f : SvmFifo} (h : f.InRing) (maxBytes : BitVec 32) (copyHere : Option Buffer)
    (hthere : copyHere = none → maxBytes ≤ f.cursize) :
    (svmFifoDequeueNowait f maxBytes copyHere).1.InRing := by
  by_cases hne : f.cursize = 0
  · simp only [svmFifoDequeueNowait, svmFifoDequeueInternal2, hne, ↓reduceIte]
    exact h
  · cases copyHere with
    | some buf =>
      obtain ⟨head, moved, out, he, hmoved, hhead, _⟩ := h.dequeue_eq hne maxBytes buf
      rw [he]
      exact h.dropped (by omega) (hhead ▸ Nat.mod_lt _ (Nat.zero_lt_of_lt h.head_lt))
    | none =>
      have hm := le_def.mp (hthere rfl)
      simp only [svmFifoDequeueNowait, svmFifoDequeueInternal2, hne, ↓reduceIte]
      exact h.dropped hm (Nat.mod_lt _ (Nat.zero_lt_of_lt h.head_lt))

theorem SvmFifo.Reached.inRing {n : BitVec 32} {f : SvmFifo} (hn : 0 < n.toNat) (h : SvmFifo.Reached n f) :
    f.InRing := by
  induction h with
  | create => exact ⟨hn, Nat.zero_le _⟩
  | enqueue _ maxBytes copyFromHere hfits ih =>
    obtain ⟨hhead, hnitems⟩ := enqueue_ring _ maxBytes copyFromHere
    exact ⟨by rw [hhead, hnitems]; exact ih.head_lt, by rw [hnitems]; exact le_def.mp hfits⟩
  | enqueueWithOffset _ offset requiredBytes copyFromHere ih =>
    exact ih.congr (ring_enqueueWithOffset _ offset requiredBytes copyFromHere)
  | dequeue _ maxBytes copyHere hthere ih => exact ih.dequeue maxBytes copyHere hthere
  | drop _ maxBytes ih => exact ih.drop maxBytes

end Vpp.Svm
