import Vpp.Serialize.Stream

namespace Vpp.Serialize
open List Option

abbrev FileStream := Stream (List (List UInt8))

variable {s s' : FileStream} {U bytes : List UInt8}

def get (dataFunction : Option (DataFunction σ)) (s : Stream σ) (n : Nat) : Option (List UInt8 × Stream σ) :=
  (unserializeGet dataFunction s n).map fun (s, slot) => (slot.read n s, s)

def getAll (dataFunction : Option (DataFunction σ)) : Stream σ → List Nat → Option (List (List UInt8))
  | _, [] => some []
  | s, n :: sizes => do
    let (bytes, s) ← get dataFunction s n
    let rest ← getAll dataFunction s sizes
    some (bytes :: rest)

def slices : List Nat → List UInt8 → List (List UInt8)
  | [], _ => []
  | n :: sizes, bytes => bytes.take n :: slices sizes (bytes.drop n)

def Stream.unread (s : FileStream) : List UInt8 := s.buffer.drop s.currentBufferIndex ++ s.dataFunctionOpaque.flatten

/-- The next `n` bytes are in the buffer, or in the chunk that replaces it once it is used up. -/
def Contiguous (chunks : List (List UInt8)) (nLeftB n : Nat) : Prop :=
  n ≤ nLeftB ∨ nLeftB = 0 ∧ ∃ chunk rest, chunks = chunk :: rest ∧ n ≤ chunk.length

/-- What holds between two passes of the loop of a read of `n` bytes. -/
structure Partway (U : List UInt8) (n : Nat) (s : FileStream) (curBi nLeftB nLeftO nLeftToRead : Nat) : Prop where
  size : s.nBufferBytes = s.buffer.length
  left : curBi + nLeftB = s.nBufferBytes
  overflow : s.overflowBuffer.length = nLeftO
  toRead : nLeftO + nLeftToRead = n
  content : s.overflowBuffer ++ (s.buffer.drop curBi ++ s.dataFunctionOpaque.flatten) = U
  enough : n ≤ U.length
  notEnd : s.endOfStream = false
  chunks : ∀ chunk ∈ s.dataFunctionOpaque, 0 < chunk.length

theorem Partway.length_eq (h : Partway U n s curBi nLeftB nLeftO nLeftToRead) :
    nLeftO + (nLeftB + s.dataFunctionOpaque.flatten.length) = U.length := by
  have hleft := h.left
  rw [h.size] at hleft
  rw [← h.content, length_append, length_append, length_drop, h.overflow]
  omega

structure Consumed (U : List UInt8) (n : Nat) (s : FileStream) : Prop where
  size : s.nBufferBytes = s.buffer.length
  index : s.currentBufferIndex ≤ s.nBufferBytes
  unread : s.unread = U.drop n
  notEnd : s.endOfStream = false
  chunks : ∀ chunk ∈ s.dataFunctionOpaque, 0 < chunk.length

theorem Partway.copy (h : Partway U n s curBi nLeftB nLeftO nLeftToRead) (hb : k ≤ nLeftB)
    (hr : k ≤ nLeftToRead) :
    Partway U n { s with overflowBuffer := s.overflowBuffer ++ (s.buffer.drop curBi).take k }
      (curBi + k) (nLeftB - k) (nLeftO + k) (nLeftToRead - k) := by
  have hleft := h.left
  have hsize := h.size
  have hread := h.toRead
  have hover := h.overflow
  refine ⟨hsize, ?_, ?_, by omega, ?_, h.enough, h.notEnd, h.chunks⟩
  · show curBi + k + (nLeftB - k) = s.nBufferBytes
    omega
  · simp only [length_append, length_take, length_drop]
    omega
  · rw [← h.content, ← drop_drop, List.append_assoc, ← List.append_assoc ((s.buffer.drop curBi).take k),
      take_append_drop]

/-- The data function is called on a buffer that is used up, and gives the next chunk. -/
theorem Partway.refill (h : Partway U n s curBi 0 nLeftO nLeftToRead) (hr : 0 < nLeftToRead) :
    ∃ chunk chunks, s.dataFunctionOpaque = chunk :: chunks ∧ 0 < chunk.length ∧
      Partway U n (unixFileRead s) (unixFileRead s).currentBufferIndex
        ((unixFileRead s).nBufferBytes - (unixFileRead s).currentBufferIndex) nLeftO nLeftToRead ∧
      (unixFileRead s).nBufferBytes - (unixFileRead s).currentBufferIndex = chunk.length ∧
      (unixFileRead s).currentOverflowIndex = s.currentOverflowIndex := by
  have hlen := h.length_eq
  have henough := h.enough
  have hread := h.toRead
  have hchunks := h.chunks
  have hcontent := h.content
  have hleft := h.left
  have hsize := h.size
  have hdrop : s.buffer.drop curBi = [] := drop_of_length_le (by omega)
  cases hc : s.dataFunctionOpaque with
  | nil =>
    rw [hc, flatten_nil, length_nil] at hlen
    omega
  | cons chunk chunks =>
    rw [hc] at hchunks hcontent
    have hpos := hchunks chunk mem_cons_self
    have hfile : unixFileRead s = { s with
        buffer := chunk
        currentBufferIndex := 0
        nBufferBytes := chunk.length
        dataFunctionOpaque := chunks } := by
      simp only [unixFileRead, hc]
    rw [hfile]
    refine ⟨chunk, chunks, rfl, hpos, ⟨rfl, Nat.zero_add _, h.overflow, hread, ?_, henough, h.notEnd, ?_⟩,
      rfl, rfl⟩
    · rw [← hcontent, hdrop]
      rfl
    · intro chunk' hmem
      exact hchunks chunk' (mem_cons_of_mem _ hmem)

theorem Partway.consumed (h : Partway U n s curBi nLeftB n 0) (i : Nat) :
    let s' : FileStream := { s with
      currentBufferIndex := curBi
      currentOverflowIndex := i }
    Consumed U n s' ∧ s'.overflowBuffer = U.take n := by
  intro s'
  have hleft := h.left
  have hcontent := h.content
  refine ⟨⟨h.size, ?_, ?_, h.notEnd, h.chunks⟩, ?_⟩
  · show curBi ≤ s.nBufferBytes
    omega
  · rw [← hcontent, ← h.overflow, drop_left]
    rfl
  · rw [← hcontent, ← h.overflow, take_left]

theorem Partway.consumed_buffer (h : Partway U n s curBi nLeftB 0 n) (hn : n ≤ nLeftB) :
    let s' := { s with currentBufferIndex := curBi + n }
    Consumed U n s' ∧ (s'.buffer.drop curBi).take n = U.take n ∧ s'.overflowBuffer = [] := by
  intro s'
  have hleft := h.left
  have hsize := h.size
  have hnil : s.overflowBuffer = [] := eq_nil_of_length_eq_zero h.overflow
  have hcontent := h.content
  rw [hnil, nil_append] at hcontent
  have hlen : n ≤ (s.buffer.drop curBi).length := by
    rw [length_drop]
    omega
  refine ⟨⟨h.size, ?_, ?_, h.notEnd, h.chunks⟩, ?_, hnil⟩
  · show curBi + n ≤ s.nBufferBytes
    omega
  · rw [← hcontent, drop_append_of_le_length hlen, drop_drop]
    rfl
  · rw [← hcontent, take_append_of_le_length hlen]

theorem Partway.readLoop_contiguous (h : Partway U n s curBi nLeftB 0 n) (hn : 0 < n)
    (hc : Contiguous s.dataFunctionOpaque nLeftB n) (curOi fuel : Nat) :
    ∃ s' i, readLoop (some unixFileRead) n curOi (fuel + 1) s curBi nLeftB 0 n = some (s', .buffer i) ∧
      Consumed U n s' ∧ (s'.buffer.drop i).take n = U.take n ∧ s'.overflowBuffer = [] ∧
      s'.currentOverflowIndex = s.currentOverflowIndex := by
  have hn0 : n ≠ 0 := Nat.ne_of_gt hn
  by_cases hb : 0 + nLeftB < n
  · obtain hc | ⟨rfl, chunk, chunks, hq, hle⟩ := hc
    · omega
    · have hcopy := h.copy (Nat.le_refl 0) (Nat.zero_le n)
      obtain ⟨chunk', chunks', hq', -, hp, hleft, hoi⟩ := hcopy.refill hn
      obtain ⟨rfl, rfl⟩ := List.cons.inj (hq.symm.trans hq')
      rw [← hleft] at hle
      obtain ⟨hconsumed, htake, hover⟩ := hp.consumed_buffer hle
      rw [readLoop, if_neg hn0]
      simp only [if_pos hb]
      rw [if_pos (by simpa using hle)]
      exact ⟨_, _, rfl, hconsumed, htake, hover, hoi⟩
  · obtain ⟨hconsumed, htake, hover⟩ := h.consumed_buffer (show n ≤ nLeftB by omega)
    rw [readLoop, if_neg hn0]
    simp only [if_neg hb]
    rw [if_pos (by simp; omega)]
    exact ⟨_, _, rfl, hconsumed, htake, hover, rfl⟩

/-- Any other read gathers its bytes in the overflow buffer. -/
theorem Partway.readLoop_overflow (h : Partway U n s curBi nLeftB nLeftO nLeftToRead)
    (hc : nLeftO = 0 → ¬ Contiguous s.dataFunctionOpaque nLeftB n) (hfuel : nLeftToRead < fuel) (curOi : Nat) :
    ∃ s', readLoop (some unixFileRead) n curOi fuel s curBi nLeftB nLeftO nLeftToRead =
        some (s', .overflow curOi) ∧
      Consumed U n s' ∧ s'.overflowBuffer = U.take n ∧ s'.currentOverflowIndex = curOi + n := by
  induction fuel generalizing s curBi nLeftB nLeftO nLeftToRead with
  | zero => exact absurd hfuel (Nat.not_lt_zero _)
  | succ fuel ih =>
    have hread := h.toRead
    by_cases hr : nLeftToRead = 0
    · subst hr
      obtain rfl : nLeftO = n := hread
      obtain ⟨hconsumed, htake⟩ := h.consumed (curOi + nLeftO)
      rw [readLoop, if_pos rfl]
      exact ⟨_, rfl, hconsumed, htake, rfl⟩
    · by_cases hb : nLeftO + nLeftB < n
      · have hcopy := h.copy (Nat.le_refl nLeftB) (by omega)
        rw [Nat.sub_self] at hcopy
        obtain ⟨chunk, chunks, hq, hpos, hp, hleft, -⟩ := hcopy.refill (by omega)
        simp only [readLoop, if_neg hr, if_pos hb]
        generalize unixFileRead _ = s₂ at hp hleft ⊢
        generalize s₂.nBufferBytes - s₂.currentBufferIndex = nLeftB' at hp hleft ⊢
        have hcont : ¬ (nLeftO + nLeftB = 0 ∧ nLeftToRead - nLeftB = n ∧ nLeftB' ≥ nLeftToRead - nLeftB) := by
          intro ⟨hz, hn, hle⟩
          exact hc (by omega) (.inr ⟨by omega, chunk, chunks, hq, by omega⟩)
        rw [if_neg hcont, if_neg (by simp [hp.notEnd])]
        have hk := Nat.min_le_left (nLeftToRead - nLeftB) nLeftB'
        have hcopy' := hp.copy (Nat.min_le_right (nLeftToRead - nLeftB) nLeftB') hk
        exact ih hcopy' (by omega) (by omega)
      · have hcont : ¬ (nLeftO = 0 ∧ nLeftToRead = n ∧ nLeftB ≥ nLeftToRead) := by
          intro ⟨hz, hn, hle⟩
          exact hc hz (.inl (by omega))
        have hcopy := h.copy (Nat.min_le_right nLeftToRead nLeftB) (Nat.min_le_left nLeftToRead nLeftB)
        simp only [readLoop, if_neg hr, if_neg hb]
        rw [if_neg hcont, if_neg (by simp [h.notEnd])]
        exact ih hcopy (by omega) (by omega)

/-- A stream between two calls: what is in the overflow buffer has been read. -/
structure Stream.Reading (s : FileStream) : Prop where
  size : s.nBufferBytes = s.buffer.length
  index : s.currentBufferIndex ≤ s.nBufferBytes
  overflow : s.currentOverflowIndex = s.overflowBuffer.length
  notEnd : s.endOfStream = false
  chunks : ∀ chunk ∈ s.dataFunctionOpaque, 0 < chunk.length

def Stream.Stale (s : FileStream) (n : Nat) : Prop :=
  0 < n ∧ 0 < s.overflowBuffer.length ∧
    ¬ Contiguous s.dataFunctionOpaque (s.nBufferBytes - s.currentBufferIndex) n

theorem Consumed.reading (h : Consumed U n s) (ho : s.currentOverflowIndex = s.overflowBuffer.length) :
    s.Reading :=
  ⟨h.size, h.index, ho, h.notEnd, h.chunks⟩

theorem Stream.Reading.partway (h : s.Reading) (hn : n ≤ s.unread.length) :
    Partway s.unread n { s with currentOverflowIndex := 0, overflowBuffer := [] } s.currentBufferIndex
      (s.nBufferBytes - s.currentBufferIndex) 0 n := by
  have hindex := h.index
  refine ⟨h.size, ?_, rfl, Nat.zero_add n, rfl, hn, h.notEnd, h.chunks⟩
  show s.currentBufferIndex + (s.nBufferBytes - s.currentBufferIndex) = s.nBufferBytes
  omega

theorem Stream.Reading.serializeReadNotInline_eq (h : s.Reading) (hn : 0 < n) :
    serializeReadNotInline (some unixFileRead) s n =
      readLoop (some unixFileRead) n s.overflowBuffer.length (n + 1)
        { s with currentOverflowIndex := 0, overflowBuffer := [] } s.currentBufferIndex
        (s.nBufferBytes - s.currentBufferIndex) 0 n := by
  have ho : s.overflowLeft = 0 := by simp [Stream.overflowLeft, h.overflow]
  simp only [serializeReadNotInline, ho, h.overflow, if_true]
  rw [if_neg (by omega)]

structure Gave (s : FileStream) (n : Nat) (bytes : List UInt8) (s' : FileStream) : Prop where
  bytes : bytes = s.unread.take n
  unread : s'.unread = s.unread.drop n
  reading : s'.Reading

theorem Stream.Reading.get_inline (h : s.Reading) (hn : n ≤ s.unread.length)
    (hin : s.overflowBuffer.length = 0 ∧ s.currentBufferIndex + n ≤ s.nBufferBytes) :
    ∃ bytes s', get (some unixFileRead) s n = some (bytes, s') ∧ Gave s n bytes s' := by
  have hnil : s.overflowBuffer = [] := eq_nil_of_length_eq_zero hin.1
  have hp : Partway s.unread n s s.currentBufferIndex (s.nBufferBytes - s.currentBufferIndex) 0 n :=
    ⟨h.size, by have := h.index; omega, hin.1, Nat.zero_add n, by rw [hnil]; rfl, hn, h.notEnd, h.chunks⟩
  obtain ⟨hconsumed, htake, -⟩ := hp.consumed_buffer (by omega)
  simp only [get, unserializeGet, serializeStreamReadWrite, if_pos hin, map_some, Slot.read]
  exact ⟨_, _, rfl, htake, hconsumed.unread, hconsumed.reading h.overflow⟩

theorem Stream.Reading.get (h : s.Reading) (hn : n ≤ s.unread.length) (hst : ¬ s.Stale n) :
    ∃ bytes s', Serialize.get (some unixFileRead) s n = some (bytes, s') ∧ Gave s n bytes s' := by
  by_cases hin : s.overflowBuffer.length = 0 ∧ s.currentBufferIndex + n ≤ s.nBufferBytes
  · exact h.get_inline hn hin
  · simp only [Serialize.get, unserializeGet, serializeStreamReadWrite, if_neg hin]
    obtain rfl | hpos := Nat.eq_zero_or_pos n
    · simp only [serializeReadNotInline, Nat.zero_le, ge_iff_le, if_true, map_some, Slot.read,
        take_zero, Nat.add_zero]
      exact ⟨_, _, rfl, rfl, rfl, h⟩
    · rw [h.serializeReadNotInline_eq hpos]
      by_cases hc : Contiguous s.dataFunctionOpaque (s.nBufferBytes - s.currentBufferIndex) n
      · obtain ⟨s', i, he, hconsumed, htake, hnil, hoi⟩ :=
          (h.partway hn).readLoop_contiguous hpos hc s.overflowBuffer.length n
        rw [he]
        refine ⟨_, _, rfl, htake, hconsumed.unread, hconsumed.reading ?_⟩
        rw [hoi, hnil]
        rfl
      · have ho : s.overflowBuffer.length = 0 := by
          by_contra ho
          exact hst ⟨hpos, Nat.pos_of_ne_zero ho, hc⟩
        obtain ⟨s', he, hconsumed, htake, hoi⟩ :=
          (h.partway hn).readLoop_overflow (fun _ => hc) (Nat.lt_succ_self n) s.overflowBuffer.length
        rw [he, ho]
        have hread : s'.overflowBuffer.take n = s.unread.take n := by rw [htake, take_take, Nat.min_self]
        refine ⟨_, _, rfl, hread, hconsumed.unread, hconsumed.reading ?_⟩
        rw [hoi, ho, htake, length_take]
        omega

theorem Stream.Reading.get_stale (h : s.Reading) (hn : n ≤ s.unread.length) (hst : s.Stale n) :
    ∃ bytes s', Serialize.get (some unixFileRead) s n = some (bytes, s') ∧ bytes.length < n := by
  obtain ⟨hpos, ho, hc⟩ := hst
  obtain ⟨s', he, -, htake, -⟩ :=
    (h.partway hn).readLoop_overflow (fun _ => hc) (Nat.lt_succ_self n) s.overflowBuffer.length
  simp only [Serialize.get, unserializeGet, serializeStreamReadWrite]
  rw [if_neg (by omega), h.serializeReadNotInline_eq hpos, he]
  refine ⟨_, _, rfl, ?_⟩
  simp only [Slot.read, htake, length_take, length_drop]
  omega

def NoStale : FileStream → List Nat → Prop
  | _, [] => True
  | s, n :: sizes => ¬ s.Stale n ∧ ∀ bytes s', get (some unixFileRead) s n = some (bytes, s') → NoStale s' sizes

theorem Stream.Reading.getAll (h : s.Reading) (hn : sizes.sum ≤ s.unread.length) :
    Serialize.getAll (some unixFileRead) s sizes = some (slices sizes s.unread) ↔ NoStale s sizes := by
  induction sizes generalizing s with
  | nil => exact ⟨fun _ => trivial, fun _ => rfl⟩
  | cons n sizes ih =>
    rw [sum_cons] at hn
    by_cases hst : s.Stale n
    · obtain ⟨bytes, s', he, hlt⟩ := h.get_stale (by omega) hst
      refine ⟨fun hall => ?_, fun hno => absurd hst hno.1⟩
      simp only [Serialize.getAll, he, bind_eq_bind, bind_some, slices] at hall
      obtain ⟨rest, -, hcons⟩ := bind_eq_some_iff.mp hall
      have hbytes := (List.cons.inj (Option.some.inj hcons)).1
      rw [hbytes, length_take] at hlt
      omega
    · obtain ⟨bytes, s', he, hgave⟩ := h.get (by omega) hst
      have hunread := hgave.unread
      have hstep := ih hgave.reading (by rw [hunread, length_drop]; omega)
      rw [hunread] at hstep
      have hiff : NoStale s (n :: sizes) ↔ NoStale s' sizes := by
        refine ⟨fun hno => hno.2 bytes s' he, fun hno => ⟨hst, fun bytes₂ s₂ he₂ => ?_⟩⟩
        obtain ⟨-, rfl⟩ := Prod.mk.inj (Option.some.inj (he.symm.trans he₂))
        exact hno
      rw [hiff, ← hstep]
      simp only [Serialize.getAll, he, bind_eq_bind, bind_some, slices, hgave.bytes]
      cases Serialize.getAll (some unixFileRead) s' sizes <;> simp

theorem reading_unserializeOpenUnixFile (h : ∀ chunk ∈ chunks, 0 < chunk.length) :
    (unserializeOpenUnixFile chunks).Reading :=
  ⟨rfl, Nat.le_refl 0, rfl, rfl, h⟩

theorem getAll_data (s : Stream Unit) (hs : s.nBufferBytes = s.buffer.length) (ho : s.overflowBuffer = [])
    (hn : s.currentBufferIndex + sizes.sum ≤ s.nBufferBytes) :
    getAll none s sizes = some (slices sizes (s.buffer.drop s.currentBufferIndex)) := by
  induction sizes generalizing s with
  | nil => rfl
  | cons n sizes ih =>
    rw [sum_cons] at hn
    have hin : s.overflowBuffer.length = 0 ∧ s.currentBufferIndex + n ≤ s.nBufferBytes := by
      rw [ho]
      exact ⟨rfl, by omega⟩
    have hstep := ih { s with currentBufferIndex := s.currentBufferIndex + n } hs ho (by simp only; omega)
    simp only [getAll, get, unserializeGet, serializeStreamReadWrite, if_pos hin, map_some, Slot.read,
      bind_eq_bind, bind_some, hstep, slices, drop_drop]

/-- The reads give the slices of the stream, as they do when it is one buffer, exactly when none of them
finds the overflow buffer in use and needs it again. -/
theorem unserialize_slices (h : ∀ chunk ∈ chunks, 0 < chunk.length) (hn : sizes.sum ≤ chunks.flatten.length) :
    getAll none (unserializeOpenData chunks.flatten) sizes = some (slices sizes chunks.flatten) ∧
    (getAll (some unixFileRead) (unserializeOpenUnixFile chunks) sizes = some (slices sizes chunks.flatten) ↔
      NoStale (unserializeOpenUnixFile chunks) sizes) := by
  refine ⟨getAll_data (unserializeOpenData chunks.flatten) rfl rfl ?_, ?_⟩
  · rw [unserializeOpenData, Nat.zero_add]
    exact hn
  · exact (reading_unserializeOpenUnixFile h).getAll hn

def threeChunks : List (List UInt8) := [[1, 2, 3], [4, 5, 6], [7, 8, 9]]

theorem unserialize_slices_once : NoStale (unserializeOpenUnixFile threeChunks) [2, 2, 2, 3] :=
  (unserialize_slices (by decide) (by decide)).2.mp (by decide)

/-- The third read straddles the second and third chunks while the overflow buffer holds the second read. -/
theorem unserialize_slices_stale :
    getAll (some unixFileRead) (unserializeOpenUnixFile threeChunks) [2, 2, 3] ≠
      some (slices [2, 2, 3] threeChunks.flatten) := by
  decide

end Vpp.Serialize
