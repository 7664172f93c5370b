import Vpp.Svm.Fifo

namespace Vpp.Svm
open Vpp.Lib List

inductive FifoCall where
  | enqueue (maxBytes : BitVec 32) (buf : Buffer)
  | dequeue (maxBytes : BitVec 32) (buf : Buffer)
  | drop (maxBytes : BitVec 32)

structure FifoRun where
  fifo : SvmFifo
  accepted : List (BitVec 8)
  removed : List (BitVec 8)

/-- The bytes a dequeue with a buffer hands over when it returns a count. -/
def dequeuedBytes (r : SvmFifo × Option Buffer × BitVec 32) : List (BitVec 8) :=
  match r with
  | (_, some buf, ret) => cells buf ret.toNat
  | (_, none, _) => []

def FifoRun.call (r : FifoRun) : FifoCall → FifoRun
  | .enqueue maxBytes buf =>
    let (f, ret) := svmFifoEnqueueNowait r.fifo maxBytes (some buf)
    { r with
      fifo := f
      accepted := r.accepted ++ if r.fifo.cursize = r.fifo.nitems then [] else cells buf ret.toNat }
  | .dequeue maxBytes buf =>
    let d := svmFifoDequeueNowait r.fifo maxBytes (some buf)
    { r with
      fifo := d.1
      removed := r.removed ++ if r.fifo.cursize = 0 then [] else dequeuedBytes d }
  | .drop maxBytes =>
    let (f, ret) := svmFifoDequeueDrop r.fifo maxBytes
    { r with
      fifo := f
      removed := r.removed ++ if r.fifo.cursize = 0 then [] else
        ringCells r.fifo.data r.fifo.nitems.toNat r.fifo.head.toNat ret.toNat }

def fifoRun (nitems : BitVec 32) (calls : List FifoCall) : FifoRun :=
  calls.foldl FifoRun.call ⟨svmFifoCreate nitems, [], []⟩

/-- What was accepted is what was removed followed by what the fifo holds. -/
structure FifoRun.Inv (nitems : BitVec 32) (r : FifoRun) (q : List (BitVec 8)) : Prop where
  holds : r.fifo.Holds q
  nitems_eq : r.fifo.nitems = nitems
  history : r.removed ++ q = r.accepted

variable {r : FifoRun}

theorem FifoRun.Inv.call (h : r.Inv nitems q) (c : FifoCall) :
    ∃ q', (r.call c).Inv nitems q' := by
  obtain ⟨hf, hn, hh⟩ := h
  cases c with
  | enqueue maxBytes buf =>
    by_cases hfull : r.fifo.cursize = r.fifo.nitems
    · refine ⟨q, ?_, ?_, ?_⟩ <;>
        simpa [FifoRun.call, svmFifoEnqueueNowait, svmFifoEnqueueInternal, hfull]
    · obtain ⟨_, hq, hn'⟩ := enqueue_spec hf hfull maxBytes buf
      refine ⟨_, hq, hn'.trans hn, ?_⟩
      simp [FifoRun.call, hfull, ← hh]
  | dequeue maxBytes buf =>
    by_cases hempty : r.fifo.cursize = 0
    · refine ⟨q, ?_, ?_, ?_⟩ <;>
        simpa [FifoRun.call, svmFifoDequeueNowait, svmFifoDequeueInternal2, hempty]
    · obtain ⟨f', out, ret, he, _, hout, hq, hn'⟩ := dequeue_spec hf hempty maxBytes buf
      refine ⟨q.drop ret.toNat, ?_, ?_, ?_⟩
      · simpa only [FifoRun.call, he] using hq
      · simpa only [FifoRun.call, he] using hn'.trans hn
      · simp only [FifoRun.call, he, hempty, ↓reduceIte, dequeuedBytes, hout]
        rw [List.append_assoc, take_append_drop, hh]
  | drop maxBytes =>
    by_cases hempty : r.fifo.cursize = 0
    · refine ⟨q, ?_, ?_, ?_⟩ <;> simpa [FifoRun.call, svmFifoDequeueDrop, hempty]
    · obtain ⟨_, hout, hq, hn'⟩ := drop_spec hf hempty maxBytes
      refine ⟨_, hq, hn'.trans hn, ?_⟩
      simp only [FifoRun.call, hempty, ↓reduceIte, hout]
      rw [List.append_assoc, take_append_drop, hh]

theorem FifoRun.Inv.foldl (h : r.Inv nitems q) (calls : List FifoCall) :
    ∃ q', (calls.foldl FifoRun.call r).Inv nitems q' := by
  induction calls generalizing r q with
  | nil => exact ⟨q, h⟩
  | cons c calls ih =>
    obtain ⟨q', h'⟩ := h.call c
    exact ih h'

theorem fifoRun_inv (hn : 0 < nitems.toNat) (calls : List FifoCall) :
    ∃ q, (fifoRun nitems calls).Inv nitems q := by
  have h : FifoRun.Inv nitems ⟨svmFifoCreate nitems, [], []⟩ [] := ⟨svmFifoCreate_holds hn, rfl, rfl⟩
  exact h.foldl calls

def FifoRun.ret (r : FifoRun) : FifoCall → BitVec 32
  | .enqueue maxBytes buf => (svmFifoEnqueueNowait r.fifo maxBytes (some buf)).2
  | .dequeue maxBytes buf => (svmFifoDequeueNowait r.fifo maxBytes (some buf)).2.2
  | .drop maxBytes => (svmFifoDequeueDrop r.fifo maxBytes).2

def FifoRun.moved (r : FifoRun) (c : FifoCall) : Nat :=
  match c with
  | .enqueue .. => (r.call c).fifo.cursize.toNat - r.fifo.cursize.toNat
  | .dequeue .. => r.fifo.cursize.toNat - (r.call c).fifo.cursize.toNat
  | .drop .. => r.fifo.cursize.toNat - (r.call c).fifo.cursize.toNat

def FifoRun.Stuck (r : FifoRun) : FifoCall → Prop
  | .enqueue .. => r.fifo.cursize = r.fifo.nitems
  | .dequeue .. => r.fifo.cursize = 0
  | .drop .. => r.fifo.cursize = 0

instance (r : FifoRun) : (c : FifoCall) → Decidable (r.Stuck c)
  | .enqueue .. => inferInstanceAs (Decidable (_ = _))
  | .dequeue .. => inferInstanceAs (Decidable (_ = _))
  | .drop .. => inferInstanceAs (Decidable (_ = _))

def FifoCall.maxBytes : FifoCall → Nat
  | .enqueue maxBytes _ => maxBytes.toNat
  | .dequeue maxBytes _ => maxBytes.toNat
  | .drop maxBytes => maxBytes.toNat

def FifoRun.room (r : FifoRun) : FifoCall → Nat
  | .enqueue .. => r.fifo.nitems.toNat - r.fifo.cursize.toNat
  | .dequeue .. => r.fifo.cursize.toNat
  | .drop .. => r.fifo.cursize.toNat

theorem FifoRun.Inv.ret_stuck (hs : r.Stuck c) :
    r.ret c = fifoStuck ∧ r.moved c = 0 := by
  cases c with
  | enqueue maxBytes buf =>
    have hs : r.fifo.cursize = r.fifo.nitems := hs
    simp [FifoRun.ret, FifoRun.moved, FifoRun.call, svmFifoEnqueueNowait, svmFifoEnqueueInternal, hs]
  | dequeue maxBytes buf =>
    have hs : r.fifo.cursize = 0 := hs
    simp [FifoRun.ret, FifoRun.moved, FifoRun.call, svmFifoDequeueNowait, svmFifoDequeueInternal2, hs]
  | drop maxBytes =>
    have hs : r.fifo.cursize = 0 := hs
    simp [FifoRun.ret, FifoRun.moved, FifoRun.call, svmFifoDequeueDrop, hs]

theorem FifoRun.Inv.ret_moved (h : r.Inv nitems q) (hs : ¬ r.Stuck c) :
    (r.ret c).toNat = r.moved c ∧ r.moved c = min (r.room c) c.maxBytes := by
  have hlen := h.holds.length
  cases c with
  | enqueue maxBytes buf =>
    obtain ⟨hret, hq, _⟩ := enqueue_spec h.holds hs maxBytes buf
    have hl := hq.length
    rw [length_append, length_cells, hlen] at hl
    have he : (r.ret (.enqueue maxBytes buf)).toNat = r.moved (.enqueue maxBytes buf) := by
      simp only [FifoRun.ret, FifoRun.moved, FifoRun.call]
      omega
    exact ⟨he, he.symm.trans hret⟩
  | dequeue maxBytes buf =>
    obtain ⟨f', out, ret, hd, hret, _, hq, _⟩ := dequeue_spec h.holds hs maxBytes buf
    have hl := hq.length
    rw [length_drop, hlen] at hl
    have he : (r.ret (.dequeue maxBytes buf)).toNat = r.moved (.dequeue maxBytes buf) := by
      simp only [FifoRun.ret, FifoRun.moved, FifoRun.call, hd]
      omega
    have hr : r.ret (.dequeue maxBytes buf) = ret := by simp only [FifoRun.ret, hd]
    exact ⟨he, he.symm.trans (hr ▸ hret)⟩
  | drop maxBytes =>
    obtain ⟨hret, _, hq, _⟩ := drop_spec h.holds hs maxBytes
    have hl := hq.length
    rw [length_drop, hlen] at hl
    have he : (r.ret (.drop maxBytes)).toNat = r.moved (.drop maxBytes) := by
      simp only [FifoRun.ret, FifoRun.moved, FifoRun.call]
      omega
    exact ⟨he, he.symm.trans hret⟩

theorem FifoRun.Inv.room_le (h : r.Inv nitems q) (c : FifoCall) :
    r.room c ≤ nitems.toNat := by
  have hsz := h.holds.size_le
  rw [h.nitems_eq] at hsz
  cases c with
  | enqueue => exact h.nitems_eq ▸ Nat.sub_le _ _
  | dequeue => exact hsz
  | drop => exact hsz

theorem toInt_count (x : BitVec 32) :
    x.toInt = if x.toNat < 2 ^ 31 then (x.toNat : Int) else (x.toNat : Int) - 2 ^ 32 := by
  rw [BitVec.toInt_eq_toNat_cond]
  split <;> split <;> omega

/-- The fifo is a byte queue. A call returns the number of bytes it moved as a 32-bit `int`, and
`-2` on a full or an empty fifo; below 2^31 cells the two never coincide. -/
theorem svm_fifo_byte_queue (nitems : BitVec 32) (hn : 0 < nitems.toNat) (calls : List FifoCall) :
    let r := fifoRun nitems calls
    let f := r.fifo
    r.removed <+: r.accepted ∧
      f.cursize.toNat + r.removed.length = r.accepted.length ∧
      f.head.toNat < nitems.toNat ∧ f.tail.toNat < nitems.toNat ∧
      (f.head.toNat + f.cursize.toNat) % nitems.toNat = f.tail.toNat ∧
      ∀ c, (r.Stuck c → (r.ret c).toInt = -2 ∧ r.moved c = 0) ∧
        (¬ r.Stuck c → r.moved c = min (r.room c) c.maxBytes ∧ (r.ret c).toInt =
          if r.moved c < 2 ^ 31 then (r.moved c : Int) else (r.moved c : Int) - 2 ^ 32) ∧
        (nitems.toNat < 2 ^ 31 → ¬ r.Stuck c → (r.ret c).toInt = r.moved c ∧ (r.ret c).toInt ≠ -2) := by
  obtain ⟨q, h⟩ := fifoRun_inv hn calls
  have hlen := h.holds.length
  have hhead := h.holds.head_lt
  have htail := h.holds.tail_lt
  have heq := h.holds.tail_eq
  rw [h.nitems_eq] at hhead htail heq
  refine ⟨⟨q, h.history⟩, ?_, hhead, htail, heq, ?_⟩
  · rw [← h.history, length_append]
    omega
  · intro c
    refine ⟨?_, ?_, ?_⟩
    · intro hs
      obtain ⟨hret, hm⟩ := FifoRun.Inv.ret_stuck hs
      exact ⟨by rw [hret]; decide, hm⟩
    · intro hs
      obtain ⟨hret, hm⟩ := h.ret_moved hs
      exact ⟨hm, by rw [toInt_count, hret]⟩
    · intro hsmall hs
      obtain ⟨hret, hm⟩ := h.ret_moved hs
      have hle := h.room_le c
      rw [toInt_count, if_pos (by omega), hret]
      omega

theorem svm_fifo_byte_queue_of_two :
    (fifoRun 2 [.enqueue 3 fun _ => 7, .drop 1]).removed <+:
      (fifoRun 2 [.enqueue 3 fun _ => 7, .drop 1]).accepted :=
  (svm_fifo_byte_queue 2 (by decide) [.enqueue 3 fun _ => 7, .drop 1]).1

/-- On a fifo of 2^32 - 1 cells an enqueue of 2^32 - 2 bytes succeeds and returns `-2`. -/
theorem svm_fifo_count_is_minus_two :
    let r := fifoRun 0xffffffff []
    ¬ r.Stuck (.enqueue 0xfffffffe fun _ => 0) ∧
      r.moved (.enqueue 0xfffffffe fun _ => 0) = 0xfffffffe ∧
      (r.ret (.enqueue 0xfffffffe fun _ => 0)).toInt = -2 := by
  refine ⟨?_, ?_, ?_⟩ <;> decide

end Vpp.Svm
