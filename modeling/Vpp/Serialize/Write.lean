import Vpp.Serialize.Stream
import Vpp.Lib.Splice

namespace Vpp.Serialize
open Vpp.Lib List

/-- The size of a vector once it can hold `x` bytes, doubled as often as that takes. -/
def capacityFor : (fuel nBufferBytes x : Nat) → Nat
  | 0, nBufferBytes, _ => nBufferBytes
  | fuel + 1, nBufferBytes, x =>
    if x ≤ nBufferBytes then nBufferBytes
    else capacityFor fuel (nBufferBytes + if nBufferBytes > 0 then nBufferBytes else 64) x

variable {s s' : Stream Unit} {W bytes : List UInt8}

theorem length_copyAt (h : i + bytes.length ≤ v.length) : (copyAt v i bytes).length = v.length := length_splice h

theorem take_copyAt (h : i ≤ v.length) (bytes : List UInt8) :
    (copyAt v i bytes).take (i + bytes.length) = v.take i ++ bytes := take_splice h bytes

structure Stream.Open (s : Stream Unit) : Prop where
  size : s.nBufferBytes = s.buffer.length
  index : s.currentBufferIndex ≤ s.nBufferBytes
  notEnd : s.endOfStream = false

def Stream.written (s : Stream Unit) : List UInt8 := s.buffer.take s.currentBufferIndex ++ s.overflowBuffer

theorem Stream.Open.length_written (h : s.Open) :
    s.written.length = s.currentBufferIndex + s.overflowBuffer.length := by
  have hindex := h.index
  rw [h.size] at hindex
  simp [Stream.written, hindex]

/-- What holds between two passes of the loop: `W` is in the buffer up to `curBi` and then in the
overflow buffer. -/
structure Pending (W : List UInt8) (s : Stream Unit) (curBi nLeftB nLeftO : Nat) : Prop where
  size : s.nBufferBytes = s.buffer.length
  notEnd : s.endOfStream = false
  left : curBi + nLeftB = s.nBufferBytes
  overflow : s.overflowBuffer.length = nLeftO
  content : s.buffer.take curBi ++ s.overflowBuffer = W

theorem Stream.Open.pending (h : s.Open) :
    Pending s.written s s.currentBufferIndex (s.nBufferBytes - s.currentBufferIndex) s.overflowBuffer.length := by
  have := h.index
  exact ⟨h.size, h.notEnd, by omega, rfl, rfl⟩

theorem Pending.length_eq (h : Pending W s curBi nLeftB nLeftO) : curBi + nLeftO = W.length := by
  have hleft := h.left
  rw [h.size] at hleft
  rw [← h.content, length_append, length_take, h.overflow]
  omega

/-- Where the loop leaves off, with all of `W` in the buffer. The stream's own index is behind if the
last bytes of the overflow buffer end inside the buffer. -/
structure Flushed (W : List UInt8) (s s' : Stream Unit) (nLeftB nLeftO capacity : Nat) : Prop where
  pending : Pending W s' W.length nLeftB 0
  length_le : W.length ≤ capacity
  at_end : W.length = capacity → s'.currentBufferIndex = W.length
  inside : W.length < capacity → s'.nBufferBytes = capacity
  kept : nLeftO = 0 → W.length < capacity → s'.currentBufferIndex = s.currentBufferIndex
  behind : 0 < nLeftO → W.length < capacity → s'.currentBufferIndex < W.length

theorem Pending.copy (h : Pending W s curBi nLeftB nLeftO) (hb : n ≤ nLeftB) (ho : n ≤ nLeftO) :
    Pending W { s with
      buffer := copyAt s.buffer curBi (s.overflowBuffer.take n)
      overflowBuffer := s.overflowBuffer.drop n } (curBi + n) (nLeftB - n) (nLeftO - n) := by
  have hleft := h.left
  have hsize := h.size
  have hn : (s.overflowBuffer.take n).length = n := by
    rw [length_take, h.overflow]
    omega
  constructor
  · rw [length_copyAt (by omega)]
    exact hsize
  · exact h.notEnd
  · show curBi + n + (nLeftB - n) = s.nBufferBytes
    omega
  · rw [length_drop, h.overflow]
  · have htake := take_copyAt (show curBi ≤ s.buffer.length by omega) (s.overflowBuffer.take n)
    rw [hn] at htake
    rw [htake, List.append_assoc, take_append_drop, h.content]

/-- The data function is called on a full buffer, and enlarges it. -/
theorem Pending.grow (h : Pending W s curBi 0 nLeftO) :
    let s' := serializeVectorWrite { s with currentBufferIndex := curBi }
    let size := s.nBufferBytes + if s.nBufferBytes > 0 then s.nBufferBytes else 64
    Pending W s' curBi (size - curBi) nLeftO ∧ s'.currentBufferIndex = curBi ∧ s'.nBufferBytes = size := by
  intro s' size
  have hleft : curBi = s.nBufferBytes := h.left
  have hs' : s' = { s with
      currentBufferIndex := curBi
      buffer := s.buffer ++ List.replicate (if s.buffer.length > 0 then s.buffer.length else 64) 0
      nBufferBytes := size } := by
    simp only [s', size, serializeVectorWrite, h.notEnd, length_append, length_replicate, h.size]
    rfl
  have hbuf : s.buffer.length = s.nBufferBytes := h.size.symm
  refine ⟨⟨?_, ?_, ?_, ?_, ?_⟩, ?_, ?_⟩
  · rw [hs']
    simp only [length_append, length_replicate, hbuf, size]
  · rw [hs']
    exact h.notEnd
  · rw [hs']
    simp only [size]
    omega
  · rw [hs']
    exact h.overflow
  · rw [hs', ← h.content]
    simp only
    rw [take_append_of_le_length (by omega)]
  · rw [hs']
  · rw [hs']

theorem capacityFor_of_le (h : x ≤ N) (c : Nat) : capacityFor c N x = N := by
  cases c with
  | zero => rfl
  | succ c => rw [capacityFor, if_pos h]

theorem capacityFor_of_gt (h : N < x) (hc : x ≤ N + c) :
    ∃ c', c = c' + 1 ∧ capacityFor c N x = capacityFor c' (N + if N > 0 then N else 64) x := by
  obtain ⟨c', rfl⟩ : ∃ c', c = c' + 1 := ⟨c - 1, by omega⟩
  exact ⟨c', rfl, by rw [capacityFor, if_neg (by omega)]⟩

theorem prependOverflow_succ (f : DataFunction Unit) (fuel : Nat) (s : Stream Unit)
    (curBi nLeftB nLeftO : Nat) : prependOverflow f (fuel + 1) s curBi nLeftB nLeftO =
    let n := min nLeftB nLeftO
    let s₁ := { s with
      buffer := copyAt s.buffer curBi (s.overflowBuffer.take n)
      overflowBuffer := s.overflowBuffer.drop n }
    let s₂ := f { s₁ with currentBufferIndex := curBi + n }
    if nLeftB - n = 0 then
      if nLeftO - n > 0 then prependOverflow f fuel s₂ s₂.currentBufferIndex
        (s₂.nBufferBytes - s₂.currentBufferIndex) (nLeftO - n)
      else (s₂, s₂.currentBufferIndex, s₂.nBufferBytes - s₂.currentBufferIndex, nLeftO - n)
    else if nLeftO - n > 0 then prependOverflow f fuel s₁ (curBi + n) (nLeftB - n) (nLeftO - n)
    else (s₁, curBi + n, nLeftB - n, nLeftO - n) := by
  have hn : (if nLeftO > 0 ∧ nLeftB > 0 then min nLeftB nLeftO else 0) = min nLeftB nLeftO := by
    split
    · rfl
    · omega
  simp only [prependOverflow, hn]
  by_cases hz : nLeftB - min nLeftB nLeftO = 0
  · simp only [if_pos hz]
  · simp only [if_neg hz]

theorem Pending.prependOverflow (h : Pending W s curBi nLeftB nLeftO) (hi : s.currentBufferIndex ≤ curBi)
    (hfuel : nLeftO ≤ fuel) (hpos : 0 < fuel) (hfirst : nLeftB = 0 → nLeftO < fuel)
    (hc : W.length ≤ s.nBufferBytes + c) :
    ∃ s' nLeftB', Serialize.prependOverflow serializeVectorWrite fuel s curBi nLeftB nLeftO =
        (s', W.length, nLeftB', 0) ∧
      Flushed W s s' nLeftB' nLeftO (capacityFor c s.nBufferBytes W.length) := by
  induction fuel generalizing s curBi nLeftB nLeftO c with
  | zero => exact absurd hpos (Nat.lt_irrefl 0)
  | succ fuel ih =>
    have hlen := h.length_eq
    have hleft := h.left
    have hcopy := h.copy (Nat.min_le_left nLeftB nLeftO) (Nat.min_le_right nLeftB nLeftO)
    rw [prependOverflow_succ]
    by_cases hlt : nLeftO < nLeftB
    · have hn : min nLeftB nLeftO = nLeftO := by omega
      simp only [hn, Nat.sub_self, Nat.lt_irrefl, if_false, show ¬ nLeftB - nLeftO = 0 by omega] at hcopy ⊢
      have hcap := capacityFor_of_le (show W.length ≤ s.nBufferBytes by omega) c
      refine ⟨_, _, by rw [hlen], ?_⟩
      rw [hcap]
      refine ⟨hlen ▸ hcopy, by omega, ?_, fun _ => rfl, fun _ _ => rfl, ?_⟩
      · intro he
        omega
      · intro ho _
        show s.currentBufferIndex < W.length
        omega
    · have hn : min nLeftB nLeftO = nLeftB := by omega
      simp only [hn, Nat.sub_self, if_true] at hcopy ⊢
      obtain ⟨hgrow, hindex, hsize⟩ := hcopy.grow
      generalize serializeVectorWrite _ = s₂ at hgrow hindex hsize ⊢
      simp only [hindex, hsize]
      by_cases heq : nLeftO = nLeftB
      · have hcap := capacityFor_of_le (show W.length ≤ s.nBufferBytes by omega) c
        simp only [heq, Nat.sub_self, Nat.lt_irrefl, if_false] at hgrow ⊢
        refine ⟨_, _, by rw [← heq, hlen], ?_⟩
        rw [hcap]
        have hW : curBi + nLeftB = W.length := by omega
        rw [hW] at hgrow hindex
        refine ⟨hgrow, by omega, fun _ => hindex, ?_, ?_, ?_⟩
        · intro _
          omega
        · intro _ _
          omega
        · intro _ _
          omega
      · obtain ⟨c', rfl, hcap⟩ := capacityFor_of_gt (show s.nBufferBytes < W.length by omega) hc
        have hstep : s.nBufferBytes + 1 ≤ s₂.nBufferBytes := by
          change s₂.nBufferBytes = s.nBufferBytes + if s.nBufferBytes > 0 then s.nBufferBytes else 64 at hsize
          rw [hsize]
          split <;> omega
        rw [if_pos (by omega), hcap]
        obtain ⟨s', nLeftB', he, hf⟩ := ih hgrow (Nat.le_of_eq hindex) (by omega) (by omega)
          (by omega) (show W.length ≤ s₂.nBufferBytes + c' by omega)
        refine ⟨s', nLeftB', he, ?_⟩
        rw [hsize] at hf
        refine ⟨hf.pending, hf.length_le, hf.at_end, hf.inside, ?_, fun _ => hf.behind (by omega)⟩
        intro hz
        omega

def Stream.capacity (s : Stream Unit) : Nat := capacityFor s.written.length s.nBufferBytes s.written.length

/-- A call for `n` bytes finds bytes in the overflow buffer that end inside the vector, and has itself no
room after them. -/
def Stream.Loses (s : Stream Unit) (n : Nat) : Prop :=
  0 < s.overflowBuffer.length ∧ s.written.length < s.capacity ∧ s.capacity < s.written.length + n

def put (s : Stream Unit) (bytes : List UInt8) : Stream Unit :=
  let (s, slot) := serializeGet serializeVectorWrite s bytes.length
  slot.fill bytes s

theorem Stream.Open.flushed (h : s.Open) : ∃ s' nLeftB,
    prependOverflow serializeVectorWrite (s.overflowBuffer.length + 1) s s.currentBufferIndex
      (s.nBufferBytes - s.currentBufferIndex) s.overflowBuffer.length = (s', s.written.length, nLeftB, 0) ∧
    Flushed s.written s s' nLeftB s.overflowBuffer.length s.capacity :=
  h.pending.prependOverflow (Nat.le_refl _) (Nat.le_succ _) (Nat.succ_pos _) (fun _ => Nat.lt_succ_self _)
    (Nat.le_add_left _ _)

theorem written_fill_buffer (h : Pending W s i nLeftB 0) (hn : bytes.length ≤ nLeftB) :
    let s' := Slot.fill bytes { s with currentBufferIndex := i + bytes.length } (.buffer i)
    s'.Open ∧ s'.written = W ++ bytes := by
  intro s'
  have hleft := h.left
  have hsize := h.size
  have hnil : s.overflowBuffer = [] := eq_nil_of_length_eq_zero h.overflow
  have hcontent := h.content
  rw [hnil, append_nil] at hcontent
  refine ⟨⟨?_, ?_, h.notEnd⟩, ?_⟩
  · show s.nBufferBytes = (copyAt s.buffer i bytes).length
    rw [length_copyAt (by omega), hsize]
  · show i + bytes.length ≤ s.nBufferBytes
    omega
  · show (copyAt s.buffer i bytes).take (i + bytes.length) ++ s.overflowBuffer = W ++ bytes
    rw [take_copyAt (by omega), hcontent, hnil, append_nil]

theorem written_fill_overflow (h : Pending W s i nLeftB 0) (hi : s.currentBufferIndex ≤ i)
    (bytes : List UInt8) :
    let s' := Slot.fill bytes { s with overflowBuffer := s.overflowBuffer ++ List.replicate bytes.length 0 }
      (.overflow s.overflowBuffer.length)
    s'.Open ∧ s'.written = W.take s.currentBufferIndex ++ bytes := by
  intro s'
  have hleft := h.left
  have hnil : s.overflowBuffer = [] := eq_nil_of_length_eq_zero h.overflow
  have hcontent := h.content
  rw [hnil, append_nil] at hcontent
  refine ⟨⟨h.size, ?_, h.notEnd⟩, ?_⟩
  · show s.currentBufferIndex ≤ s.nBufferBytes
    omega
  · show s.buffer.take s.currentBufferIndex ++ copyAt (s.overflowBuffer ++ List.replicate bytes.length 0)
      s.overflowBuffer.length bytes = _
    rw [hnil, ← hcontent, take_take, Nat.min_eq_left hi]
    simp [copyAt]

structure Wrote (s s' : Stream Unit) (bytes : List UInt8) : Prop where
  stillOpen : s'.Open
  kept : ¬ s.Loses bytes.length → s'.written = s.written ++ bytes
  lost : s.Loses bytes.length → s'.written.length < s.written.length + bytes.length

theorem Stream.Open.wrote_notInline (h : s.Open) (bytes : List UInt8) :
    let r := serializeWriteNotInline serializeVectorWrite s bytes.length
    Wrote s (r.2.fill bytes r.1) bytes := by
  obtain ⟨s₁, nLeftB, he, hf⟩ := h.flushed
  have hlen := h.length_written
  have hleft := hf.pending.left
  simp only [serializeWriteNotInline, he, Nat.lt_irrefl, false_or]
  by_cases hlt : nLeftB < bytes.length
  · rw [if_pos hlt]
    by_cases hw : s₁.currentBufferIndex = s.written.length
    · obtain ⟨hopen, hwritten⟩ := written_fill_overflow hf.pending (Nat.le_of_eq hw) bytes
      have htake : s.written.take s₁.currentBufferIndex = s.written := by rw [hw, take_length]
      rw [htake] at hwritten
      refine ⟨hopen, fun _ => hwritten, fun hl => ?_⟩
      have := hf.behind hl.1 hl.2.1
      omega
    · have hinside : s.written.length < s.capacity := by
        have := hf.length_le
        have := hf.at_end
        omega
      have ho : 0 < s.overflowBuffer.length := by
        have := hf.kept
        omega
      have hbehind := hf.behind ho hinside
      obtain ⟨hopen, hwritten⟩ := written_fill_overflow hf.pending (Nat.le_of_lt hbehind) bytes
      have hsize := hf.inside hinside
      refine ⟨hopen, fun hl => absurd ⟨ho, hinside, by omega⟩ hl, fun _ => ?_⟩
      rw [hwritten, length_append, length_take]
      omega
  · rw [if_neg hlt]
    obtain ⟨hopen, hwritten⟩ := written_fill_buffer hf.pending (show bytes.length ≤ nLeftB by omega)
    refine ⟨hopen, fun _ => hwritten, fun hl => ?_⟩
    have := hf.inside hl.2.1
    have := hl.2.2
    omega

theorem Stream.Open.wrote (h : s.Open) (bytes : List UInt8) : Wrote s (put s bytes) bytes := by
  by_cases hin : s.overflowBuffer.length = 0 ∧ s.currentBufferIndex + bytes.length ≤ s.nBufferBytes
  · have hpend := h.pending
    rw [hin.1] at hpend
    obtain ⟨hopen, hwritten⟩ := written_fill_buffer hpend (show bytes.length ≤ _ by omega)
    simp only [put, serializeGet, serializeStreamReadWrite, if_pos hin]
    exact ⟨hopen, fun _ => hwritten, fun hl => absurd hl.1 (by omega)⟩
  · simp only [put, serializeGet, serializeStreamReadWrite, if_neg hin]
    exact h.wrote_notInline bytes

theorem Stream.Open.serializeCloseVector_eq (h : s.Open) : serializeCloseVector s = s.written := by
  obtain ⟨s₁, nLeftB, he, hf⟩ := h.flushed
  have hend := hf.pending.notEnd
  have hcontent := hf.pending.content
  rw [eq_nil_of_length_eq_zero hf.pending.overflow, append_nil] at hcontent
  simp [serializeCloseVector, serializeClose, h.notEnd, serializeWriteNotInline, he, serializeVectorWrite,
    hcontent]

def putAll (s : Stream Unit) (writes : List (List UInt8)) : Stream Unit := writes.foldl put s

def NoLoss : Stream Unit → List (List UInt8) → Prop
  | _, [] => True
  | s, bytes :: writes => ¬ s.Loses bytes.length ∧ NoLoss (put s bytes) writes

theorem Stream.Open.putAll (h : s.Open) (writes : List (List UInt8)) :
    (Serialize.putAll s writes).Open ∧
      (Serialize.putAll s writes).written.length ≤ s.written.length + writes.flatten.length := by
  induction writes generalizing s with
  | nil => exact ⟨h, Nat.le_refl _⟩
  | cons bytes writes ih =>
    have hw := h.wrote bytes
    obtain ⟨hopen, hle⟩ := ih hw.stillOpen
    refine ⟨hopen, Nat.le_trans hle ?_⟩
    rw [flatten_cons, length_append]
    by_cases hl : s.Loses bytes.length
    · have := hw.lost hl
      omega
    · rw [hw.kept hl, length_append]
      omega

theorem Stream.Open.putAll_written (h : s.Open) (writes : List (List UInt8)) :
    (Serialize.putAll s writes).written = s.written ++ writes.flatten ↔ NoLoss s writes := by
  induction writes generalizing s with
  | nil => simp [Serialize.putAll, NoLoss]
  | cons bytes writes ih =>
    have hw := h.wrote bytes
    have hstep := ih hw.stillOpen
    by_cases hl : s.Loses bytes.length
    · have hlt := hw.lost hl
      obtain ⟨-, hle⟩ := hw.stillOpen.putAll writes
      refine ⟨fun he => absurd (congrArg List.length he) (Nat.ne_of_lt ?_), fun hn => absurd hl hn.1⟩
      rw [flatten_cons, length_append, length_append]
      exact Nat.lt_of_le_of_lt hle (by omega)
    · rw [NoLoss, ← hstep, hw.kept hl, flatten_cons, List.append_assoc]
      exact ⟨fun he => ⟨hl, he⟩, fun he => he.2⟩

theorem open_serializeOpenVector (v : List UInt8) : (serializeOpenVector v).Open :=
  ⟨rfl, Nat.zero_le _, rfl⟩

/-- The vector returned is the concatenation of what was written exactly when no call loses bytes. -/
theorem serialize_vector_concat (v : List UInt8) (writes : List (List UInt8)) :
    serializeCloseVector (putAll (serializeOpenVector v) writes) = writes.flatten ↔
      NoLoss (serializeOpenVector v) writes := by
  have h := open_serializeOpenVector v
  obtain ⟨hopen, -⟩ := h.putAll writes
  rw [hopen.serializeCloseVector_eq, ← h.putAll_written writes]
  simp [Stream.written, serializeOpenVector]

/-- The second call goes to the overflow buffer, and the third loses it. -/
theorem serialize_vector_loses :
    serializeCloseVector (putAll (serializeOpenVector [0, 0, 0, 0]) [[1, 2, 3], [4, 5], [6, 7, 8, 9]]) ≠
      [[1, 2, 3], [4, 5], [6, 7, 8, 9]].flatten := by
  decide

end Vpp.Serialize
