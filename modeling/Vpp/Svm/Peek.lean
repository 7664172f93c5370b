import Vpp.Svm.FifoRun
import Vpp.Svm.Reached

namespace Vpp.Svm
open Vpp.Lib List BitVec

variable {f : SvmFifo} {offset maxBytes : BitVec 32}

def peekBytes (f : SvmFifo) (maxBytes : BitVec 32) : BitVec 32 := if f.cursize < maxBytes then f.cursize else maxBytes

def peekFirstBytes (f : SvmFifo) (offset totalCopyBytes : BitVec 32) : BitVec 32 :=
  if f.nitems - f.head + offset < totalCopyBytes then f.nitems - f.head + offset else totalCopyBytes

def svmFifoPeek (f : SvmFifo) (offset maxBytes : BitVec 32) (copyHere : Option Buffer) :
    SvmFifo × Option Buffer × BitVec 32 :=
  if f.cursize = 0 then (f, copyHere, fifoStuck)
  else
    let totalCopyBytes := peekBytes f maxBytes
    match copyHere with
    | some buf =>
      let firstCopyBytes := peekFirstBytes f offset totalCopyBytes
      let buf := memcpy buf 0 f.data (f.head + offset).toNat firstCopyBytes.toNat
      let secondCopyBytes := totalCopyBytes - firstCopyBytes
      if secondCopyBytes ≠ 0 then
        (f, some (memcpy buf firstCopyBytes.toNat f.data 0 secondCopyBytes.toNat), totalCopyBytes)
      else (f, some buf, totalCopyBytes)
    | none => (f, none, totalCopyBytes)

def peekReads (f : SvmFifo) (offset maxBytes : BitVec 32) : List Nat :=
  let firstCopyBytes := peekFirstBytes f offset (peekBytes f maxBytes)
  (List.range firstCopyBytes.toNat).map ((f.head + offset).toNat + ·) ++
    List.range (peekBytes f maxBytes - firstCopyBytes).toNat

/-- A peek reads within the ring and hands over what a dequeue would after a drop, and it leaves the fifo alone. -/
def PeekAgrees (f : SvmFifo) (offset maxBytes : BitVec 32) (copyHere : Buffer) : Prop :=
  let p := svmFifoPeek f offset maxBytes (some copyHere)
  let d := svmFifoDequeueNowait (svmFifoDequeueDrop f offset).1 maxBytes (some copyHere)
  dequeuedBytes p = dequeuedBytes d ∧
    p.2.2.toNat = min maxBytes.toNat (f.cursize.toNat - offset.toNat) ∧
    (∀ i ∈ peekReads f offset maxBytes, i < f.nitems.toNat) ∧ p.1 = f

/-- The cell behind byte `i` of a peek. -/
def peekCell (f : SvmFifo) (offset maxBytes : BitVec 32) (i : Nat) : Nat :=
  let firstCopyBytes := (peekFirstBytes f offset (peekBytes f maxBytes)).toNat
  if i < firstCopyBytes then (f.head + offset).toNat + i else i - firstCopyBytes

theorem peekBytes_toNat (f : SvmFifo) (maxBytes : BitVec 32) :
    (peekBytes f maxBytes).toNat = min f.cursize.toNat maxBytes.toNat := min_toNat _ _

theorem peekFirstBytes_toNat (f : SvmFifo) (offset total : BitVec 32) :
    (peekFirstBytes f offset total).toNat = min (f.nitems - f.head + offset).toNat total.toNat := min_toNat _ _

theorem peekSecondBytes_toNat (f : SvmFifo) (offset total : BitVec 32) :
    (total - peekFirstBytes f offset total).toNat = total.toNat - (peekFirstBytes f offset total).toNat := by
  apply toNat_sub_of_le
  rw [le_def, peekFirstBytes_toNat]
  exact Nat.min_le_right _ _

theorem peekReads_eq (f : SvmFifo) (offset maxBytes : BitVec 32) :
    peekReads f offset maxBytes = (List.range (peekBytes f maxBytes).toNat).map (peekCell f offset maxBytes) := by
  have hfirst := peekFirstBytes_toNat f offset (peekBytes f maxBytes)
  have hsum : (peekBytes f maxBytes).toNat = (peekFirstBytes f offset (peekBytes f maxBytes)).toNat +
      ((peekBytes f maxBytes).toNat - (peekFirstBytes f offset (peekBytes f maxBytes)).toNat) := by omega
  rw [peekReads, peekSecondBytes_toNat, hsum, range_add, map_append, List.map_map, ← hsum]
  congr 1
  · apply map_congr_left
    intro i hi
    exact (if_pos (mem_range.mp hi)).symm
  · symm
    apply map_id''
    intro i
    rw [Function.comp, peekCell, if_neg (by omega), Nat.add_sub_cancel_left]

theorem dequeuedBytes_peek (hne : f.cursize ≠ 0) (buf : Buffer) :
    dequeuedBytes (svmFifoPeek f offset maxBytes (some buf)) =
      (List.range (peekBytes f maxBytes).toNat).map fun i => f.data (peekCell f offset maxBytes i) := by
  have hfirst := peekFirstBytes_toNat f offset (peekBytes f maxBytes)
  have hcells (i : Nat) (hi : i < (peekBytes f maxBytes).toNat) :
      memcpy (memcpy buf 0 f.data (f.head + offset).toNat (peekFirstBytes f offset (peekBytes f maxBytes)).toNat)
        (peekFirstBytes f offset (peekBytes f maxBytes)).toNat f.data 0
        (peekBytes f maxBytes - peekFirstBytes f offset (peekBytes f maxBytes)).toNat i =
      f.data (peekCell f offset maxBytes i) := by
    rw [peekSecondBytes_toNat, peekCell, memcpy]
    by_cases hlt : i < (peekFirstBytes f offset (peekBytes f maxBytes)).toNat
    · rw [if_neg (by omega), if_pos hlt, memcpy, if_pos (by omega), Nat.sub_zero]
    · rw [if_pos (by omega), if_neg hlt, Nat.zero_add]
  rw [svmFifoPeek, if_neg hne]
  by_cases hz : peekBytes f maxBytes - peekFirstBytes f offset (peekBytes f maxBytes) = 0
  · rw [hz, show (0 : BitVec 32).toNat = 0 from rfl, memcpy_zero] at hcells
    simp only [hz, ne_eq, not_true_eq_false, ↓reduceIte, dequeuedBytes]
    apply map_congr_left
    intro i hi
    exact hcells i (mem_range.mp hi)
  · simp only [hz, ne_eq, not_false_eq_true, ↓reduceIte, dequeuedBytes]
    apply map_congr_left
    intro i hi
    exact hcells i (mem_range.mp hi)

theorem dequeuedBytes_drop (h : f.InRing) (ho : offset.toNat < f.cursize.toNat) (buf : Buffer) :
    dequeuedBytes (svmFifoDequeueNowait (svmFifoDequeueDrop f offset).1 maxBytes (some buf)) =
      (List.range (min maxBytes.toNat (f.cursize.toNat - offset.toNat))).map fun i =>
        f.data ((f.head.toNat + offset.toNat + i) % f.nitems.toNat) := by
  have hsz := h.size_le
  have hne : f.cursize ≠ 0 := by
    intro he
    rw [he] at ho
    exact Nat.not_lt_zero _ ho
  obtain ⟨head, moved, he, hmoved, hhead⟩ := h.drop_eq hne offset
  have hmo : moved.toNat = offset.toNat := hmoved.trans (Nat.min_eq_right (Nat.le_of_lt ho))
  have hd : SvmFifo.InRing { f with head, cursize := f.cursize - moved } :=
    h.dropped (by omega) (hhead ▸ Nat.mod_lt _ (Nat.zero_lt_of_lt h.head_lt))
  have hleft : (f.cursize - moved).toNat = f.cursize.toNat - offset.toNat := by
    rw [toNat_sub_of_le (le_def.mpr (by omega)), hmo]
  have hne' : f.cursize - moved ≠ 0 := by
    intro hz
    rw [hz, show (0 : BitVec 32).toNat = 0 from rfl] at hleft
    omega
  obtain ⟨head', moved', out, he', hmoved', _, hout⟩ := hd.dequeue_eq hne' maxBytes buf
  rw [he, he']
  have hcount : moved'.toNat = min maxBytes.toNat (f.cursize.toNat - offset.toNat) :=
    hmoved'.trans ((congrArg (min · _) hleft).trans (Nat.min_comm _ _))
  rw [dequeuedBytes, hout, hcount, ringCells]
  apply map_congr_left
  intro i _
  rw [hhead, hmo, Nat.mod_add_mod]

/-- On a ring of over 2^31 cells the 32-bit sums can pass 2^32. The pieces then start elsewhere, and only equal bytes
make up for it. -/
def PeekWrapped (f : SvmFifo) (offset maxBytes : BitVec 32) : Prop :=
  let start := (f.head.toNat + offset.toNat) % 2 ^ 32
  let first := min ((f.nitems.toNat - f.head.toNat + offset.toNat) % 2 ^ 32) maxBytes.toNat
  (first = 0 ∨ start + first ≤ f.nitems.toNat) ∧ ∀ i < maxBytes.toNat,
    f.data (if i < first then start + i else i - first) =
      f.data ((f.head.toNat + offset.toNat + i) % f.nitems.toNat)

def PeekFits (f : SvmFifo) (offset maxBytes : BitVec 32) : Prop :=
  maxBytes = 0 ∨ offset = 0 ∨ offset.toNat + maxBytes.toNat ≤ f.cursize.toNat ∧
    if f.head.toNat + offset.toNat < 2 ^ 32 ∧ f.nitems.toNat - f.head.toNat + offset.toNat < 2 ^ 32 then
      f.head.toNat + offset.toNat + maxBytes.toNat ≤ f.nitems.toNat
    else PeekWrapped f offset maxBytes

theorem map_range_inj {g g' : Nat → α} :
    (List.range m).map g = (List.range n).map g' ↔ m = n ∧ ∀ i < m, g i = g' i := by
  constructor
  · intro h
    have hlen : m = n := by simpa using congrArg List.length h
    subst hlen
    exact ⟨rfl, fun i hi => map_inj_left.mp h i (mem_range.mpr hi)⟩
  · rintro ⟨rfl, h⟩
    exact map_congr_left fun i hi => h i (mem_range.mp hi)

/-- In terms of cells: the count is right, and so is every byte. -/
theorem peekAgrees_iff (h : f.InRing) (ho : offset.toNat < f.cursize.toNat) (buf : Buffer) :
    PeekAgrees f offset maxBytes buf ↔
      min f.cursize.toNat maxBytes.toNat = min maxBytes.toNat (f.cursize.toNat - offset.toNat) ∧
        ∀ i < min f.cursize.toNat maxBytes.toNat, peekCell f offset maxBytes i < f.nitems.toNat ∧
          f.data (peekCell f offset maxBytes i) =
            f.data ((f.head.toNat + offset.toNat + i) % f.nitems.toNat) := by
  have hne : f.cursize ≠ 0 := by
    intro he
    rw [he] at ho
    exact Nat.not_lt_zero _ ho
  have hret : (svmFifoPeek f offset maxBytes (some buf)).2.2 = peekBytes f maxBytes ∧
      (svmFifoPeek f offset maxBytes (some buf)).1 = f := by
    rw [svmFifoPeek, if_neg hne]
    dsimp only
    split <;> exact ⟨rfl, rfl⟩
  unfold PeekAgrees
  dsimp only
  rw [dequeuedBytes_peek hne, dequeuedBytes_drop h ho, hret.1, hret.2, peekReads_eq, peekBytes_toNat, map_range_inj]
  constructor
  · rintro ⟨⟨he, hbytes⟩, _, hreads, _⟩
    exact ⟨he, fun i hi => ⟨hreads _ (List.mem_map.mpr ⟨i, mem_range.mpr hi, rfl⟩), hbytes i hi⟩⟩
  · rintro ⟨he, hcells⟩
    refine ⟨⟨he, fun i hi => (hcells i hi).2⟩, he, ?_, rfl⟩
    intro c hc
    obtain ⟨i, hi, rfl⟩ := List.mem_map.mp hc
    exact (hcells i (mem_range.mp hi)).1

theorem peekCell_eq (h : f.InRing) (i : Nat) :
    peekCell f offset maxBytes i =
      let first := min ((f.nitems.toNat - f.head.toNat + offset.toNat) % 2 ^ 32) (min f.cursize.toNat maxBytes.toNat)
      if i < first then (f.head.toNat + offset.toNat) % 2 ^ 32 + i else i - first := by
  have hsub : (f.nitems - f.head).toNat = f.nitems.toNat - f.head.toNat :=
    toNat_sub_of_le (le_def.mpr (Nat.le_of_lt h.head_lt))
  rw [peekCell, peekFirstBytes_toNat, peekBytes_toNat, toNat_add, toNat_add, hsub]

theorem peekCell_zero (h : f.InRing) (i : Nat) (hi : i < min f.cursize.toNat maxBytes.toNat) :
    peekCell f 0 maxBytes i = (f.head.toNat + i) % f.nitems.toNat := by
  have hlt := h.head_lt
  have hsz := h.size_le
  have hn := f.nitems.isLt
  rw [peekCell_eq h]
  dsimp only
  rw [show (0 : BitVec 32).toNat = 0 from rfl, Nat.add_zero, Nat.add_zero,
    Nat.mod_eq_of_lt (show f.head.toNat < 2 ^ 32 by omega),
    Nat.mod_eq_of_lt (show f.nitems.toNat - f.head.toNat < 2 ^ 32 by omega)]
  split
  · exact (Nat.mod_eq_of_lt (by omega)).symm
  · rw [Nat.mod_eq_sub_mod (by omega), Nat.mod_eq_of_lt (by omega)]
    omega

/-- Without a wrap of the sums the second piece of a peek past the head always comes too late. -/
theorem peekCells_fit (h : f.InRing) (ho : 0 < offset.toNat) (hm : 0 < maxBytes.toNat)
    (hc : offset.toNat + maxBytes.toNat ≤ f.cursize.toNat) (hstart : f.head.toNat + offset.toNat < 2 ^ 32)
    (hfirst : f.nitems.toNat - f.head.toNat + offset.toNat < 2 ^ 32) :
    (∀ i < maxBytes.toNat, peekCell f offset maxBytes i < f.nitems.toNat ∧
      f.data (peekCell f offset maxBytes i) = f.data ((f.head.toNat + offset.toNat + i) % f.nitems.toNat)) ↔
      f.head.toNat + offset.toNat + maxBytes.toNat ≤ f.nitems.toNat := by
  have hcell (i : Nat) : peekCell f offset maxBytes i = _ := peekCell_eq h i
  dsimp only at hcell
  rw [Nat.mod_eq_of_lt hstart, Nat.mod_eq_of_lt hfirst, Nat.min_eq_right (show maxBytes.toNat ≤ _ by omega)] at hcell
  constructor
  · intro hall
    by_contra hlong
    -- the last cell of the first piece lies behind the ring
    by_cases hpiece : f.nitems.toNat - f.head.toNat + offset.toNat < maxBytes.toNat
    · have hlast := (hall (f.nitems.toNat - f.head.toNat + offset.toNat - 1) (by omega)).1
      rw [hcell, if_pos (by omega)] at hlast
      have := h.head_lt
      omega
    · have hlast := (hall (maxBytes.toNat - 1) (by omega)).1
      rw [hcell, if_pos (by omega)] at hlast
      omega
  · intro hfit i hi
    rw [hcell, if_pos (by omega)]
    exact ⟨by omega, by rw [Nat.mod_eq_of_lt (by omega)]⟩

theorem peekCells_wrapped (h : f.InRing) (hc : offset.toNat + maxBytes.toNat ≤ f.cursize.toNat) :
    (∀ i < maxBytes.toNat, peekCell f offset maxBytes i < f.nitems.toNat ∧
      f.data (peekCell f offset maxBytes i) = f.data ((f.head.toNat + offset.toNat + i) % f.nitems.toNat)) ↔
      PeekWrapped f offset maxBytes := by
  have hsz := h.size_le
  have hcell (i : Nat) : peekCell f offset maxBytes i = _ := peekCell_eq h i
  dsimp only at hcell
  rw [Nat.min_eq_right (show maxBytes.toNat ≤ f.cursize.toNat by omega)] at hcell
  unfold PeekWrapped
  dsimp only
  generalize hfirst : min ((f.nitems.toNat - f.head.toNat + offset.toNat) % 2 ^ 32) maxBytes.toNat = first at hcell ⊢
  constructor
  · intro hall
    refine ⟨?_, fun i hi => hcell i ▸ (hall i hi).2⟩
    by_cases hz : first = 0
    · exact .inl hz
    · have hlast := (hall (first - 1) (by omega)).1
      rw [hcell, if_pos (by omega)] at hlast
      exact .inr (by omega)
  · rintro ⟨hin, hbytes⟩ i hi
    refine ⟨?_, hcell i ▸ hbytes i hi⟩
    rw [hcell]
    split <;> omega

theorem peekAgrees_iff_fits (h : f.InRing) (ho : offset.toNat < f.cursize.toNat) (buf : Buffer) :
    PeekAgrees f offset maxBytes buf ↔ PeekFits f offset maxBytes := by
  have hzero {x : BitVec 32} (hx : x ≠ 0) : 0 < x.toNat := Nat.pos_of_ne_zero fun he => hx (eq_of_toNat_eq he)
  rw [peekAgrees_iff h ho]
  unfold PeekFits
  by_cases hm : maxBytes = 0
  · subst hm
    exact iff_of_true ⟨by simp, by simp⟩ (.inl rfl)
  · by_cases hoff : offset = 0
    · subst hoff
      refine iff_of_true ⟨Nat.min_comm _ _, ?_⟩ (.inr (.inl rfl))
      intro i hi
      rw [peekCell_zero h i hi]
      exact ⟨Nat.mod_lt _ (Nat.zero_lt_of_lt h.head_lt), rfl⟩
    · have hm' := hzero hm
      have ho' := hzero hoff
      rw [or_iff_right hm, or_iff_right hoff]
      have hcount : min f.cursize.toNat maxBytes.toNat = min maxBytes.toNat (f.cursize.toNat - offset.toNat) ↔
          offset.toNat + maxBytes.toNat ≤ f.cursize.toNat := by omega
      rw [hcount]
      apply and_congr_right
      intro hc
      rw [Nat.min_eq_right (show maxBytes.toNat ≤ f.cursize.toNat by omega)]
      split
      · next hsums => exact peekCells_fit h ho' hm' hc hsums.1 hsums.2
      · exact peekCells_wrapped h hc

/-- On a fifo that calls reach, a peek agrees with a dequeue exactly where its offset and count fit. On rings of up to
2^31 cells that means before the end of the ring. -/
theorem svm_fifo_peek_agrees (nitems : BitVec 32) (hn : 0 < nitems.toNat) (f : SvmFifo) (h : SvmFifo.Reached nitems f)
    (offset maxBytes : BitVec 32) (ho : offset < f.cursize) (copyHere : Buffer) :
    (PeekAgrees f offset maxBytes copyHere ↔ PeekFits f offset maxBytes) ∧
      (f.nitems.toNat ≤ 2 ^ 31 → (PeekFits f offset maxBytes ↔ maxBytes = 0 ∨ offset = 0 ∨
        offset.toNat + maxBytes.toNat ≤ f.cursize.toNat ∧
          f.head.toNat + offset.toNat + maxBytes.toNat ≤ f.nitems.toNat)) := by
  have hr := h.inRing hn
  have hlt := hr.head_lt
  have hsz := hr.size_le
  have ho' := lt_def.mp ho
  refine ⟨peekAgrees_iff_fits hr ho' copyHere, ?_⟩
  intro hsmall
  rw [PeekFits, if_pos ⟨by omega, by omega⟩]

/-- A fifo of four cells that holds the bytes 1, 2, 3, 4 from its third cell on. -/
def turnedFifo : SvmFifo :=
  let f := (svmFifoEnqueueNowait (svmFifoCreate 4) 2 (some fun _ => 0)).1
  (svmFifoEnqueueNowait (svmFifoDequeueDrop f 2).1 4 (some fun i => BitVec.ofNat 8 (i + 1))).1

theorem turnedFifo_reached : SvmFifo.Reached 4 turnedFifo :=
  .enqueue (.drop (.enqueue .create 2 _ (by decide)) 2) 4 _ (by decide)

theorem svm_fifo_peek_agrees_one : PeekAgrees turnedFifo 1 1 fun _ => 0 := by
  obtain ⟨hagrees, hfits⟩ := svm_fifo_peek_agrees 4 (by decide) turnedFifo turnedFifo_reached 1 1 (by decide) fun _ => 0
  exact hagrees.mpr ((hfits (by decide)).mpr (by decide))

/-- One byte past the end of the ring is enough. -/
theorem svm_fifo_peek_fails : ¬ ∀ (nitems : BitVec 32), 0 < nitems.toNat → ∀ f, SvmFifo.Reached nitems f →
    ∀ offset maxBytes : BitVec 32, offset < f.cursize → ∀ copyHere, PeekAgrees f offset maxBytes copyHere := by
  intro hall
  have hp := hall 4 (by decide) turnedFifo turnedFifo_reached 1 2 (by decide) fun _ => 0
  exact absurd (hp.2.2.1 4 (by decide)) (by decide)

end Vpp.Svm
