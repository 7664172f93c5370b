import Vpp.Serialize.Write
import Vpp.Serialize.Read
import Vpp.Lib.NetBytes
import Vpp.Lib.BitFields

namespace Vpp.Serialize
open Vpp.Lib List Option

def store (dataFunction : DataFunction σ) (s : Stream σ) (bytes : List UInt8) : Stream σ :=
  let (s, p) := serializeGet dataFunction s bytes.length
  p.fill bytes s

def serializeLikelySmallUnsignedInteger (dataFunction : DataFunction σ) (s : Stream σ) (x : BitVec 64) : Stream σ :=
  let r := x.toNat
  -- the low bit set means it fits into one byte
  if r < 2 ^ 7 then store dataFunction s (littleBytes 1 (1 + 2 * r))
  else
    let r := r - 2 ^ 7
    if r < 2 ^ 14 then store dataFunction s (littleBytes 2 (4 * r + 2))
    else
      let r := r - 2 ^ 14
      if r < 2 ^ 29 then store dataFunction s (littleBytes 4 (8 * r + 4))
      else store dataFunction s (0 :: littleBytes 8 x.toNat)

def unserializeLikelySmallUnsignedInteger (dataFunction : Option (DataFunction σ)) (s : Stream σ) :
    Option (BitVec 64 × Stream σ) := do
  let (p, s) ← get dataFunction s 1
  let y := (p.getD 0 0).toNat
  if y &&& 1 ≠ 0 then some (BitVec.ofNat 64 (y / 2), s)
  else
    let r := 2 ^ 7
    if y &&& 2 ≠ 0 then
      let (p, s) ← get dataFunction s 1
      some (BitVec.ofNat 64 (r + (y / 4 + (p.getD 0 0).toNat <<< 6)), s)
    else
      let r := r + 2 ^ 14
      if y &&& 4 ≠ 0 then
        let (p, s) ← get dataFunction s 3
        some (BitVec.ofNat 64 (r + (y / 8 + (p.getD 0 0).toNat <<< 5 + (p.getD 1 0).toNat <<< 13 +
          (p.getD 2 0).toNat <<< 21)), s)
      else
        let (p, s) ← get dataFunction s 8
        some (BitVec.ofNat 64 (littleValue p), s)

def serializeLikelySmallSignedInteger (dataFunction : DataFunction σ) (m : Stream σ) (s : BitVec 64) : Stream σ :=
  let u := if s.slt 0 then -(2 * s + 1) else 2 * s
  serializeLikelySmallUnsignedInteger dataFunction m u

def unserializeLikelySmallSignedInteger (dataFunction : Option (DataFunction σ)) (m : Stream σ) :
    Option (BitVec 64 × Stream σ) := do
  let (u, m) ← unserializeLikelySmallUnsignedInteger dataFunction m
  let s := u / 2
  some (if u &&& 1 ≠ 0 then -s else s, m)

inductive LikelySmall where
  | unsigned (x : BitVec 64)
  | signed (s : BitVec 64)
  deriving DecidableEq

def LikelySmall.write (dataFunction : DataFunction σ) (m : Stream σ) : LikelySmall → Stream σ
  | unsigned x => serializeLikelySmallUnsignedInteger dataFunction m x
  | signed s => serializeLikelySmallSignedInteger dataFunction m s

def LikelySmall.read (dataFunction : Option (DataFunction σ)) (m : Stream σ) :
    LikelySmall → Option (LikelySmall × Stream σ)
  | unsigned _ => (unserializeLikelySmallUnsignedInteger dataFunction m).map fun (x, m) => (unsigned x, m)
  | signed _ => (unserializeLikelySmallSignedInteger dataFunction m).map fun (s, m) => (signed s, m)

def readAll (dataFunction : Option (DataFunction σ)) : Stream σ → List LikelySmall →
    Option (List LikelySmall × Stream σ)
  | m, [] => some ([], m)
  | m, v :: values => do
    let (v, m) ← v.read dataFunction m
    let (values, m) ← readAll dataFunction m values
    some (v :: values, m)

variable {f : DataFunction σ} {g : Option (DataFunction τ)} {s : Stream σ} {m : Stream τ} {bs rest : List UInt8}

/-- Nothing overflowed, and there is room for `n` bytes in the buffer. -/
structure Stream.InBuffer (s : Stream σ) (n : Nat) : Prop where
  overflow : s.overflowBuffer = []
  room : s.currentBufferIndex + n ≤ s.nBufferBytes
  size : s.nBufferBytes ≤ s.buffer.length

theorem store_eq (h : s.InBuffer bs.length) : store f s bs = { s with
    buffer := splice s.buffer s.currentBufferIndex bs
    currentBufferIndex := s.currentBufferIndex + bs.length } := by
  have hin : s.overflowBuffer.length = 0 ∧ s.currentBufferIndex + bs.length ≤ s.nBufferBytes := by
    rw [h.overflow]
    exact ⟨rfl, h.room⟩
  rw [store, serializeGet, serializeStreamReadWrite, if_pos hin]
  rfl

theorem Stream.InBuffer.store (h : s.InBuffer (bs.length + n)) : (store f s bs).InBuffer n := by
  have hroom := h.room
  have hsize := h.size
  have hlen : (splice s.buffer s.currentBufferIndex bs).length = s.buffer.length := length_splice (by omega)
  rw [store_eq ⟨h.overflow, by omega, hsize⟩]
  exact ⟨h.overflow, by dsimp only; omega, by dsimp only; omega⟩

/-- The stream after `n` bytes. -/
def Stream.skip (m : Stream τ) (n : Nat) : Stream τ := { m with currentBufferIndex := m.currentBufferIndex + n }

theorem skip_skip (m : Stream τ) (k n : Nat) : (m.skip k).skip n = m.skip (k + n) := by
  rw [Stream.skip, Stream.skip, Stream.skip, Nat.add_assoc]

structure Stream.Holds (m : Stream τ) (bs : List UInt8) : Prop where
  overflow : m.overflowBuffer = []
  room : m.currentBufferIndex + bs.length ≤ m.nBufferBytes
  ahead : ∃ rest, m.buffer.drop m.currentBufferIndex = bs ++ rest

theorem Stream.Holds.left (h : m.Holds (bs ++ rest)) : m.Holds bs := by
  have hroom := h.room
  rw [length_append] at hroom
  obtain ⟨later, hlater⟩ := h.ahead
  exact ⟨h.overflow, by omega, rest ++ later, by rw [hlater, List.append_assoc]⟩

theorem Stream.Holds.skip (h : m.Holds (bs ++ rest)) : (m.skip bs.length).Holds rest := by
  have hroom := h.room
  rw [length_append, ← Nat.add_assoc] at hroom
  obtain ⟨later, hlater⟩ := h.ahead
  exact ⟨h.overflow, hroom, later, by rw [Stream.skip, ← drop_drop, hlater, List.append_assoc, drop_left]⟩

theorem get_eq (h : m.Holds bs) : get g m bs.length = some (bs, m.skip bs.length) := by
  have hin : m.overflowBuffer.length = 0 ∧ m.currentBufferIndex + bs.length ≤ m.nBufferBytes := by
    rw [h.overflow]
    exact ⟨rfl, h.room⟩
  obtain ⟨later, hlater⟩ := h.ahead
  have hread : (m.buffer.drop m.currentBufferIndex).take bs.length = bs := by rw [hlater, take_left]
  rw [get, unserializeGet, serializeStreamReadWrite, if_pos hin]
  exact congrArg some (congrArg (·, m.skip bs.length) hread)

def likelySmallBytes (x : Nat) : List UInt8 :=
  if x < 2 ^ 7 then littleBytes 1 (1 + 2 * x)
  else if x - 2 ^ 7 < 2 ^ 14 then littleBytes 2 (4 * (x - 2 ^ 7) + 2)
  else if x - 2 ^ 7 - 2 ^ 14 < 2 ^ 29 then littleBytes 4 (8 * (x - 2 ^ 7 - 2 ^ 14) + 4)
  else 0 :: littleBytes 8 x

theorem serialize_unsigned_eq (f : DataFunction σ) (s : Stream σ) (x : BitVec 64) :
    serializeLikelySmallUnsignedInteger f s x = store f s (likelySmallBytes x.toNat) := by
  rw [serializeLikelySmallUnsignedInteger, likelySmallBytes]
  dsimp only
  split_ifs <;> rfl

theorem and_two_pow_ne_zero (y i : Nat) : y &&& 2 ^ i ≠ 0 ↔ y / 2 ^ i % 2 = 1 := by
  have hbit : y.testBit i = true ↔ y / 2 ^ i % 2 = 1 := by rw [Nat.testBit_eq_decide_div_mod_eq, decide_eq_true_iff]
  rw [← hbit]
  apply Iff.intro
  · intro h
    obtain ⟨j, hj⟩ := Nat.exists_testBit_of_ne_zero h
    rw [Nat.testBit_and, Nat.testBit_two_pow, Bool.and_eq_true, decide_eq_true_iff] at hj
    exact hj.2 ▸ hj.1
  · intro h h0
    have hj : (y &&& 2 ^ i).testBit i = true := by rw [Nat.testBit_and, Nat.testBit_two_pow_self, h]; rfl
    rw [h0, Nat.zero_testBit] at hj
    cases hj

theorem unserialize_one (h : m.Holds [b]) (hb : b.toNat % 2 = 1) :
    unserializeLikelySmallUnsignedInteger g m = some (BitVec.ofNat 64 (b.toNat / 2), m.skip 1) := by
  have hget : get g m 1 = some ([b], m.skip 1) := get_eq h
  have h1 : b.toNat &&& 1 ≠ 0 := by rw [Nat.and_one_is_mod, hb]; exact Nat.one_ne_zero
  rw [unserializeLikelySmallUnsignedInteger, hget]
  exact if_pos h1

theorem unserialize_two (h : m.Holds ([b] ++ [b'])) (hb : b.toNat % 4 = 2) :
    unserializeLikelySmallUnsignedInteger g m =
      some (BitVec.ofNat 64 (2 ^ 7 + (b.toNat / 4 + b'.toNat <<< 6)), m.skip 2) := by
  have hget : get g m 1 = some ([b], m.skip 1) := get_eq h.left
  have hget' : get g (m.skip 1) 1 = some ([b'], (m.skip 1).skip 1) := get_eq h.skip
  have h1 : ¬ b.toNat &&& 1 ≠ 0 := by rw [Nat.and_one_is_mod]; omega
  have h2 : b.toNat &&& 2 ≠ 0 := (and_two_pow_ne_zero b.toNat 1).mpr (by omega)
  rw [unserializeLikelySmallUnsignedInteger, hget]
  simp only [bind_eq_bind, bind_some, getD_cons_zero, if_neg h1, if_pos h2, hget', skip_skip]

theorem unserialize_four (h : m.Holds ([b] ++ [b₁, b₂, b₃])) (hb : b.toNat % 8 = 4) :
    unserializeLikelySmallUnsignedInteger g m = some (BitVec.ofNat 64 (2 ^ 7 + 2 ^ 14 +
      (b.toNat / 8 + b₁.toNat <<< 5 + b₂.toNat <<< 13 + b₃.toNat <<< 21)), m.skip 4) := by
  have hget : get g m 1 = some ([b], m.skip 1) := get_eq h.left
  have hget' : get g (m.skip 1) 3 = some ([b₁, b₂, b₃], (m.skip 1).skip 3) := get_eq h.skip
  have h1 : ¬ b.toNat &&& 1 ≠ 0 := by rw [Nat.and_one_is_mod]; omega
  have h2 : ¬ b.toNat &&& 2 ≠ 0 := fun h => absurd ((and_two_pow_ne_zero b.toNat 1).mp h) (by omega)
  have h4 : b.toNat &&& 4 ≠ 0 := (and_two_pow_ne_zero b.toNat 2).mpr (by omega)
  rw [unserializeLikelySmallUnsignedInteger, hget]
  simp only [bind_eq_bind, bind_some, getD_cons_zero, getD_cons_succ, if_neg h1, if_neg h2,
    if_pos h4, hget', skip_skip]

theorem unserialize_nine (h : m.Holds ([0] ++ bs)) (hbs : bs.length = 8) :
    unserializeLikelySmallUnsignedInteger g m = some (BitVec.ofNat 64 (littleValue bs), m.skip 9) := by
  have hget : get g m 1 = some ([0], m.skip 1) := get_eq h.left
  have hget' : get g (m.skip 1) 8 = some (bs, (m.skip 1).skip 8) := by
    have hall : get g (m.skip 1) bs.length = some (bs, (m.skip 1).skip bs.length) := get_eq h.skip
    rwa [hbs] at hall
  rw [unserializeLikelySmallUnsignedInteger, hget]
  simp only [bind_eq_bind, bind_some, getD_cons_zero, UInt8.toNat_zero, Nat.zero_and, ne_eq,
    not_true, ite_false, hget', skip_skip]

theorem ofNat_eq {x : BitVec 64} (h : v = x.toNat) : BitVec.ofNat 64 v = x := by
  rw [h, BitVec.ofNat_toNat, BitVec.setWidth_eq]

theorem unserialize_unsigned_eq (x : BitVec 64) (h : m.Holds (likelySmallBytes x.toNat)) :
    unserializeLikelySmallUnsignedInteger g m = some (x, m.skip (likelySmallBytes x.toNat).length) := by
  have hx := x.isLt
  by_cases h1 : x.toNat < 2 ^ 7
  · rw [likelySmallBytes, if_pos h1] at h ⊢
    have hb : (UInt8.ofNat (1 + 2 * x.toNat)).toNat = 1 + 2 * x.toNat := by
      rw [UInt8.toNat_ofNat']
      omega
    rw [unserialize_one h (by omega), @ofNat_eq _ x (by omega)]
    rfl
  by_cases h2 : x.toNat - 2 ^ 7 < 2 ^ 14
  · rw [likelySmallBytes, if_neg h1, if_pos h2] at h ⊢
    generalize hv : 4 * (x.toNat - 2 ^ 7) + 2 = v at h ⊢
    have hb : (UInt8.ofNat v).toNat = v % 256 := UInt8.toNat_ofNat'
    have hb' : (UInt8.ofNat (v / 256)).toNat = v / 256 % 256 := UInt8.toNat_ofNat'
    rw [unserialize_two h (by omega), @ofNat_eq _ x (by omega)]
    rfl
  by_cases h3 : x.toNat - 2 ^ 7 - 2 ^ 14 < 2 ^ 29
  · rw [likelySmallBytes, if_neg h1, if_neg h2, if_pos h3] at h ⊢
    generalize hv : 8 * (x.toNat - 2 ^ 7 - 2 ^ 14) + 4 = v at h ⊢
    have hb : (UInt8.ofNat v).toNat = v % 256 := UInt8.toNat_ofNat'
    have hb₁ : (UInt8.ofNat (v / 256)).toNat = v / 256 % 256 := UInt8.toNat_ofNat'
    have hb₂ : (UInt8.ofNat (v / 256 / 256)).toNat = v / 256 / 256 % 256 := UInt8.toNat_ofNat'
    have hb₃ : (UInt8.ofNat (v / 256 / 256 / 256)).toNat = v / 256 / 256 / 256 % 256 := UInt8.toNat_ofNat'
    rw [unserialize_four h (by omega), @ofNat_eq _ x (by omega)]
    rfl
  · rw [likelySmallBytes, if_neg h1, if_neg h2, if_neg h3] at h ⊢
    have hvalue : littleValue (littleBytes 8 x.toNat) = x.toNat :=
      (littleValue_littleBytes 8 x.toNat).trans (Nat.mod_eq_of_lt hx)
    rw [@unserialize_nine _ g m (littleBytes 8 x.toNat) h (length_littleBytes 8 x.toNat), ofNat_eq hvalue,
      length_cons, length_littleBytes]

def LikelySmall.bytes : LikelySmall → List UInt8
  | unsigned x => likelySmallBytes x.toNat
  | signed s => likelySmallBytes (zigzag s).toNat

theorem write_eq (f : DataFunction σ) (s : Stream σ) (v : LikelySmall) : v.write f s = store f s v.bytes := by
  cases v with
  | unsigned x => exact serialize_unsigned_eq f s x
  | signed x => exact serialize_unsigned_eq f s (zigzag x)

/-- What a value is read back as: a negative one comes back one too large. -/
def LikelySmall.reread : LikelySmall → LikelySmall
  | unsigned x => unsigned x
  | signed s => signed (negateOdd (zigzag s))

theorem read_eq (v : LikelySmall) (h : m.Holds v.bytes) :
    v.read g m = some (v.reread, m.skip v.bytes.length) := by
  cases v with
  | unsigned x => rw [LikelySmall.read, unserialize_unsigned_eq x h]; rfl
  | signed s =>
    rw [LikelySmall.read, unserializeLikelySmallSignedInteger, unserialize_unsigned_eq (zigzag s) h]
    rfl

def writeAll (dataFunction : DataFunction σ) : Stream σ → List LikelySmall → Stream σ :=
  List.foldl fun m v => v.write dataFunction m

def allBytes (values : List LikelySmall) : List UInt8 := (values.map LikelySmall.bytes).flatten

theorem readAll_eq (values : List LikelySmall) (h : m.Holds (allBytes values)) :
    readAll g m values = some (values.map LikelySmall.reread, m.skip (allBytes values).length) := by
  induction values generalizing m with
  | nil => rfl
  | cons v values ih =>
    have hsplit : allBytes (v :: values) = v.bytes ++ allBytes values := flatten_cons
    rw [hsplit] at h ⊢
    have ih := ih h.skip
    rw [readAll, read_eq v h.left]
    simp only [bind_eq_bind, bind_some, ih, skip_skip, length_append, map_cons]

theorem writeAll_eq (values : List LikelySmall) (h : s.InBuffer (allBytes values).length) :
    writeAll f s values = { s with
      buffer := splice s.buffer s.currentBufferIndex (allBytes values)
      currentBufferIndex := s.currentBufferIndex + (allBytes values).length } := by
  induction values generalizing s with
  | nil =>
    rw [writeAll, foldl_nil, show allBytes [] = [] from rfl, splice_nil]
    rfl
  | cons v values ih =>
    have hsplit : allBytes (v :: values) = v.bytes ++ allBytes values := flatten_cons
    rw [hsplit, length_append] at h ⊢
    have hroom := h.room
    have hsize := h.size
    have hfirst : v.write f s = { s with
        buffer := splice s.buffer s.currentBufferIndex v.bytes
        currentBufferIndex := s.currentBufferIndex + v.bytes.length } := by
      rw [write_eq, store_eq ⟨h.overflow, by omega, hsize⟩]
    have ih := ih (@Stream.InBuffer.store _ f s _ _ h)
    rw [writeAll, foldl_cons]
    rw [writeAll, ← write_eq, hfirst] at ih
    rw [hfirst, ih]
    dsimp only
    rw [splice_append (by omega), Nat.add_assoc]

/-- A reader over the bytes that a writer has put into its buffer, from where the writer started. -/
structure ReadsBack (m : Stream τ) (s w : Stream σ) : Prop where
  buffer : m.buffer = w.buffer
  index : m.currentBufferIndex = s.currentBufferIndex
  room : w.currentBufferIndex ≤ m.nBufferBytes
  overflow : m.overflowBuffer = []

theorem ReadsBack.holds (h : ReadsBack m s (writeAll f s values)) (hs : s.InBuffer (allBytes values).length) :
    m.Holds (allBytes values) := by
  have hroom := h.room
  have hbuffer := h.buffer
  rw [writeAll_eq values hs] at hroom hbuffer
  have hsize := hs.size
  have hin := hs.room
  refine ⟨h.overflow, h.index ▸ hroom, s.buffer.drop (s.currentBufferIndex + (allBytes values).length), ?_⟩
  have hlen : (s.buffer.take s.currentBufferIndex).length = s.currentBufferIndex := by
    rw [length_take]
    omega
  rw [hbuffer, h.index]
  dsimp only
  rw [splice, List.append_assoc, drop_left' hlen]

theorem reread_eq_iff (v : LikelySmall) : v.reread = v ↔ ∀ x, .signed x = v → 0 ≤ x.toInt := by
  cases v with
  | unsigned x =>
    apply iff_of_true rfl
    intro y hy
    cases hy
  | signed s =>
    have hval : (LikelySmall.signed s).reread = .signed s ↔ 0 ≤ s.toInt := by
      rw [LikelySmall.reread, LikelySmall.signed.injEq, negateOdd_zigzag_eq_iff]
    rw [hval]
    exact ⟨fun h x hx => LikelySmall.signed.inj hx ▸ h, fun h => h s rfl⟩

/-- A sequence is read back with as many bytes as were written exactly where no signed value in it is
negative. -/
theorem serialize_likely_small (values : List LikelySmall) (hs : s.InBuffer (allBytes values).length)
    (hm : ReadsBack m s (writeAll f s values)) :
    (∃ m', readAll g m values = some (values, m') ∧
      m'.currentBufferIndex = (writeAll f s values).currentBufferIndex) ↔
    ∀ x, .signed x ∈ values → 0 ≤ x.toInt := by
  have hread : readAll g m values = _ := readAll_eq values (hm.holds hs)
  have hindex : (m.skip (allBytes values).length).currentBufferIndex = (writeAll f s values).currentBufferIndex := by
    rw [writeAll_eq values hs, Stream.skip, hm.index]
  have hsame : values.map LikelySmall.reread = values ↔ ∀ v ∈ values, v.reread = v := by
    rw [← map_inj_left, List.map_id']
  rw [hread]
  apply Iff.intro
  · intro h x hx
    obtain ⟨m', hm', -⟩ := h
    have hvalues := (Prod.mk.inj (Option.some.inj hm')).1
    exact (reread_eq_iff _).mp (hsame.mp hvalues _ hx) x rfl
  · intro h
    have hvalues := hsame.mpr fun v hv => (reread_eq_iff v).mpr fun x hx => h x (hx ▸ hv)
    exact ⟨_, by rw [hvalues], hindex⟩

def eightBytes : Stream Unit := serializeOpenVector (List.replicate 8 0)

theorem serialize_likely_small_three :
    let values : List LikelySmall := [.signed 5, .unsigned 300, .unsigned 20000]
    let w := writeAll id eightBytes values
    (∃ m', readAll none (unserializeOpenData w.buffer) values = some (values, m') ∧
      m'.currentBufferIndex = w.currentBufferIndex) ↔ ∀ x, .signed x ∈ values → 0 ≤ x.toInt :=
  serialize_likely_small _ ⟨rfl, by decide, Nat.le_refl _⟩ ⟨rfl, rfl, by decide, rfl⟩

/-- Minus one comes back as zero. -/
theorem serialize_likely_small_fails :
    (readAll none (unserializeOpenData (writeAll id eightBytes [.signed (-1)]).buffer) [.signed (-1)]).map
      Prod.fst = some [.signed 0] := by
  decide

end Vpp.Serialize
