import Vpp.Ip.Checksum
import Vpp.Lib.Pieces

namespace Vpp.Ip
open Vpp.Lib List

def u16 (v : Nat) : Nat := v % 2 ^ 16

def sub64 (a b : Nat) : Nat := (a + 2 ^ 64 - b) % 2 ^ 64

theorem sub64_of_le (hb : b ≤ a) (ha : a < 2 ^ 64) : sub64 a b = a - b := by
  rw [sub64]
  omega

def get16 (b : List Byte) (off : Nat) : Nat := (b.getD off 0).toNat * 256 + (b.getD (off + 1) 0).toNat

def set16 (b : List Byte) (off v : Nat) : List Byte := splice b off [BitVec.ofNat 8 (v / 256), BitVec.ofNat 8 v]

def getNative16 (b : List Byte) (off : Nat) : Nat := (b.getD off 0).toNat + 256 * (b.getD (off + 1) 0).toNat

def setNative16 (b : List Byte) (off v : Nat) : List Byte := splice b off (leBytes 2 v)

/-- The bytes outside of `T` are as before. -/
structure SameOutside (T : Nat → Prop) (b b' : List Byte) : Prop where
  length : b'.length = b.length
  same : ∀ j, ¬ T j → b'.getD j 0 = b.getD j 0

theorem SameOutside.refl (T : Nat → Prop) (b : List Byte) : SameOutside T b b := ⟨rfl, fun _ _ => rfl⟩

theorem SameOutside.trans (h : SameOutside T b b') (h' : SameOutside T b' b'') : SameOutside T b b'' :=
  ⟨h'.length.trans h.length, fun j hj => (h'.same j hj).trans (h.same j hj)⟩

theorem SameOutside.mono (h : SameOutside T b b') (hsub : ∀ j, T j → T' j) : SameOutside T' b b' :=
  ⟨h.length, fun j hj => h.same j fun ht => hj (hsub j ht)⟩

theorem SameOutside.get16 (h : SameOutside T b b') (h0 : ¬ T off) (h1 : ¬ T (off + 1)) :
    get16 b' off = get16 b off := by
  rw [Ip.get16, h.same _ h0, h.same _ h1, Ip.get16]

theorem SameOutside.getNative16 (h : SameOutside T b b') (h0 : ¬ T off) (h1 : ¬ T (off + 1)) :
    getNative16 b' off = getNative16 b off := by
  rw [Ip.getNative16, h.same _ h0, h.same _ h1, Ip.getNative16]

theorem ext_getD {b b' : List Byte} (hlen : b'.length = b.length) (h : ∀ j < b.length, b'.getD j 0 = b.getD j 0) :
    b' = b := by
  apply ext_getElem hlen
  intro j hj hj'
  have hd := h j hj'
  simpa [getD_eq_getElem?_getD, List.getElem?_eq_getElem hj, List.getElem?_eq_getElem hj'] using hd

theorem SameOutside.drop (h : SameOutside T b b') (hbelow : ∀ j, T j → j < n) : b'.drop n = b.drop n := by
  apply ext_getD
  · rw [length_drop, length_drop, h.length]
  · intro j _
    have hj := h.same (n + j) fun ht => absurd (hbelow _ ht) (by omega)
    simpa [getD_eq_getElem?_getD, getElem?_drop] using hj

theorem SameOutside.append_drop (h : SameOutside T (b.take n) f) (hn : n ≤ b.length) :
    SameOutside T b (f ++ b.drop n) := by
  have hlen : f.length = n := by
    rw [h.length, length_take]
    omega
  constructor
  · rw [length_append, length_drop, hlen]
    omega
  · intro j hj
    simp only [getD_eq_getElem?_getD]
    by_cases hlt : j < n
    · have hsame := h.same j hj
      simp only [getD_eq_getElem?_getD, getElem?_take_of_lt hlt] at hsame
      rw [getElem?_append_left (by omega), hsame]
    · rw [getElem?_append_right (by omega), getElem?_drop, hlen, Nat.add_sub_cancel' (Nat.le_of_not_lt hlt)]

theorem getNative16_lt (b : List Byte) (off : Nat) : getNative16 b off < 2 ^ 16 := by
  have h0 := (b.getD off 0).isLt
  have h1 := (b.getD (off + 1) 0).isLt
  rw [getNative16]
  omega

theorem sameOutside_splice (hn : xs.length = n) (h : i + n ≤ b.length) :
    SameOutside (fun j => i ≤ j ∧ j < i + n) b (splice b i xs) := by
  subst hn
  constructor
  · exact length_splice h
  · intro j hj
    rw [getD_splice h, if_neg hj]

theorem sameOutside_set16 (h : off + 2 ≤ b.length) (v : Nat) :
    SameOutside (fun j => off ≤ j ∧ j < off + 2) b (set16 b off v) :=
  sameOutside_splice rfl h

theorem sameOutside_setNative16 (h : off + 2 ≤ b.length) (v : Nat) :
    SameOutside (fun j => off ≤ j ∧ j < off + 2) b (setNative16 b off v) :=
  sameOutside_splice (length_leBytes 2 v) h

theorem get16_set16 (h : off + 2 ≤ b.length) (hv : v < 2 ^ 16) : get16 (set16 b off v) off = v := by
  have hlen : off + [BitVec.ofNat 8 (v / 256), BitVec.ofNat 8 v].length ≤ b.length := h
  rw [get16, set16, getD_splice hlen, getD_splice hlen, if_pos (by simp), if_pos (by simp)]
  simp
  omega

theorem getNative16_setNative16 (h : off + 2 ≤ b.length) (hv : v < 2 ^ 16) :
    getNative16 (setNative16 b off v) off = v := by
  have hlen : off + (leBytes 2 v).length ≤ b.length := h
  rw [getNative16, setNative16, getD_splice hlen, getD_splice hlen, if_pos (by simp), if_pos (by simp)]
  simp [leBytes]
  omega

inductive IpFragError where
  | cantFragmentHeader
  | dontFragmentSet
  | malformed
  | memory
deriving DecidableEq

def ipFragFlagIp4Header : BitVec 8 := 0x01

def ipFragFlagIp6Header : BitVec 8 := 0x02

/-- The length of the header before the one that is fragmented follows the length of the buffer. -/
def encapsulate (flags : BitVec 8) (addr : Nat) (b : List Byte) : List Byte :=
  if flags &&& ipFragFlagIp4Header ≠ 0 then
    let b := set16 b 2 (u16 b.length)
    setChecksum b (ip4HeaderChecksum addr b)
  else if flags &&& ipFragFlagIp6Header ≠ 0 then set16 b 4 (u16 (sub64 b.length 40))
  else b

def EncapBytes (flags : BitVec 8) (j : Nat) : Prop :=
  if flags &&& ipFragFlagIp4Header ≠ 0 then (2 ≤ j ∧ j < 4) ∨ (10 ≤ j ∧ j < 12)
  else if flags &&& ipFragFlagIp6Header ≠ 0 then 4 ≤ j ∧ j < 6
  else False

theorem sameOutside_encapsulate (h : 12 ≤ b.length) (flags : BitVec 8) (addr : Nat) :
    SameOutside (EncapBytes flags) b (encapsulate flags addr b) := by
  unfold encapsulate
  have hT : EncapBytes flags = fun j => EncapBytes flags j := rfl
  rw [hT]
  unfold EncapBytes
  split
  · have hset : SameOutside (fun j => 2 ≤ j ∧ j < 4) b (set16 b 2 (u16 b.length)) := sameOutside_set16 (by omega) _
    have hsum : SameOutside (fun j => 10 ≤ j ∧ j < 12) (set16 b 2 (u16 b.length))
        (setChecksum (set16 b 2 (u16 b.length)) (ip4HeaderChecksum addr (set16 b 2 (u16 b.length)))) :=
      sameOutside_splice (length_leBytes 2 _) (by rw [hset.length]; exact h)
    exact (hset.mono fun j hj => .inl hj).trans (hsum.mono fun j hj => .inr hj)
  · split
    · exact sameOutside_set16 (by omega) _
    · exact SameOutside.refl _ _

/-- The attributes of a buffer to fragment, which buffers can be allocated and where they are. -/
structure FragBuffer where
  headerOffset : Nat
  mtu : Nat
  mtu_lt : mtu < 2 ^ 16
  flags : BitVec 8
  alloc : Nat → Bool
  addr : Nat → Nat

structure IpFragResult where
  error : Option IpFragError
  buffer : List (List Byte)
  runningFragmentId : BitVec 32

structure FragState where
  /-- The memory of the buffer to fragment: what follows its new end stays there. -/
  packet : List Byte
  buffer : List (List Byte)
  ptr : Nat
  rem : Nat

/-- The loop of both functions. The headers end at `h`, and `fields` sets what a fragment has of its own: it gets the
number of the buffer, the position, the length and what is left with the fragment. The first fragment is made in place,
the others are copies. -/
def fragLoop (alloc : Nat → Bool) (h room max : Nat) (fields : Nat → Nat → Nat → Nat → List Byte → List Byte) :
    Nat → FragState → Option (Option IpFragError × FragState)
  | 0, s => if s.rem = 0 then some (none, s) else none
  | n + 1, s =>
    if s.rem = 0 then some (none, s)
    else
      let len := if room < s.rem then max else s.rem
      let i := s.buffer.length
      if s.ptr = 0 then
        let b := fields i s.ptr len s.rem (s.packet.take (h + len))
        fragLoop alloc h room max fields n
          { packet := b ++ s.packet.drop (h + len), buffer := s.buffer ++ [b], ptr := u16 (s.ptr + len)
            rem := s.rem - len }
      else if alloc i then
        let b := fields i s.ptr len s.rem (s.packet.take h ++ (s.packet.drop (h + s.ptr)).take len)
        fragLoop alloc h room max fields n
          { s with buffer := s.buffer ++ [b], ptr := u16 (s.ptr + len), rem := s.rem - len }
      else some (some .memory, s)

/-- A fragment of a packet: the data from `ptr` on, `len` bytes of it, with the headers but for the bytes `T`. -/
structure IsPiece (h room : Nat) (T : Nat → Prop) (Q : List Byte → Nat → Nat → Bool → Prop) (packet f : List Byte)
    (ptr len : Nat) (notLast : Bool) : Prop where
  length : f.length = h + len
  fits : len ≤ room
  data : f.drop h = (packet.drop (h + ptr)).take len
  aligned : 8 ∣ ptr
  same : ∀ j < h, ¬ T j → f.getD j 0 = packet.getD j 0
  fields : Q f ptr len notLast

theorem cutLen_spec (hroom : 8 ≤ room) (hrem : rem ≠ 0) :
    let len := if room < rem then room / 8 * 8 else rem
    0 < len ∧ len ≤ rem ∧ len ≤ room ∧ (len ≠ rem → len = room / 8 * 8) := by
  intro len
  by_cases h : room < rem
  · have hl : len = room / 8 * 8 := if_pos h
    omega
  · have hl : len = rem := if_neg h
    omega

section Loop
variable (alloc : Nat → Bool) {h room : Nat} {T : Nat → Prop} {Q : List Byte → Nat → Nat → Bool → Prop}
  {packet : List Byte} {fields : Nat → Nat → Nat → Nat → List Byte → List Byte}
  (hT : ∀ j, T j → j < h) (hroom : 8 ≤ room) (hlen : packet.length < 2 ^ 16)
  (hfields : ∀ i ptr len rem b, b.length = h + len → len ≤ room → len ≤ rem → h + ptr < packet.length →
    room / 8 * 8 ∣ ptr →
    SameOutside T b (fields i ptr len rem b) ∧ Q (fields i ptr len rem b) ptr len (decide (len ≠ rem)))
include hT hroom hlen hfields

omit hroom hlen in
theorem isPiece_fields (hb : b.length = h + len) (hfit : len ≤ room) (hle : len ≤ rem) (hptr : h + ptr < packet.length)
    (hdvd : room / 8 * 8 ∣ ptr) (hdata : b.drop h = (packet.drop (h + ptr)).take len)
    (hsame : ∀ j < h, ¬ T j → b.getD j 0 = packet.getD j 0) (i : Nat) :
    SameOutside T b (fields i ptr len rem b) ∧
      IsPiece h room T Q packet (fields i ptr len rem b) ptr len (decide (len ≠ rem)) := by
  obtain ⟨hout, hq⟩ := hfields i ptr len rem b hb hfit hle hptr hdvd
  refine ⟨hout, hout.length.trans hb, hfit, ?_, (Nat.dvd_mul_left 8 _).trans hdvd, ?_, hq⟩
  · rw [hout.drop hT, hdata]
  · intro j hj hnot
    rw [hout.same j hnot]
    exact hsame j hj hnot

/-- The fragments after the first are copied from the buffer that the first one was made in. -/
theorem fragLoop_later (hs : SameOutside T packet s.packet) (hptr : s.ptr ≠ 0)
    (hdvd : s.rem ≠ 0 → room / 8 * 8 ∣ s.ptr) (hsum : h + s.ptr + s.rem = packet.length) (hn : s.rem ≤ n) :
    ∃ r, fragLoop alloc h room (room / 8 * 8) fields n s = some r ∧
      ((r.1 = none ∧ ∃ fs, r.2.buffer = s.buffer ++ fs ∧ Cut 8 (IsPiece h room T Q packet) s.ptr s.rem fs) ∨
        r.1 = some .memory) := by
  induction n generalizing s with
  | zero =>
    have h0 : s.rem = 0 := Nat.le_zero.mp hn
    refine ⟨(none, s), ?_, .inl ⟨rfl, [], ?_, h0⟩⟩
    · rw [fragLoop, if_pos h0]
    · rw [append_nil]
  | succ n ih =>
    by_cases h0 : s.rem = 0
    · refine ⟨(none, s), ?_, .inl ⟨rfl, [], ?_, h0⟩⟩
      · rw [fragLoop, if_pos h0]
      · rw [append_nil]
    · have hcut := cutLen_spec hroom h0
      generalize hlendef : (if room < s.rem then room / 8 * 8 else s.rem) = len at hcut
      obtain ⟨hpos, hle, hfit, hmax⟩ := hcut
      rw [fragLoop, if_neg h0]
      simp only [if_neg hptr, hlendef]
      split
      · have hu : u16 (s.ptr + len) = s.ptr + len := Nat.mod_eq_of_lt (by omega)
        have htake : (s.packet.take h).length = h := by
          rw [length_take, hs.length]
          omega
        have hdrop : s.packet.drop (h + s.ptr) = packet.drop (h + s.ptr) :=
          hs.drop fun j hj => Nat.lt_of_lt_of_le (hT j hj) (Nat.le_add_right _ _)
        have hlenb : (s.packet.take h ++ (s.packet.drop (h + s.ptr)).take len).length = h + len := by
          rw [length_append, htake, length_take, length_drop, hs.length]
          omega
        obtain ⟨_, hf⟩ := isPiece_fields hT hfields hlenb hfit hle (by omega) (hdvd h0)
          (by rw [drop_left' htake, hdrop])
          (by
            intro j hj hnot
            rw [← hs.same j hnot, getD_eq_getElem?_getD, getElem?_append_left (by omega),
              getElem?_take_of_lt hj, getD_eq_getElem?_getD])
          s.buffer.length
        generalize fields s.buffer.length s.ptr len s.rem
          (s.packet.take h ++ (s.packet.drop (h + s.ptr)).take len) = f at hf
        have hdvd' : s.rem - len ≠ 0 → room / 8 * 8 ∣ s.ptr + len := by
          intro hne
          rw [hmax (by omega)]
          exact Nat.dvd_add (hdvd h0) (Nat.dvd_refl _)
        obtain ⟨r, hr, hres⟩ := ih (s := ⟨s.packet, s.buffer ++ [f], u16 (s.ptr + len), s.rem - len⟩) hs
          (by simp only [hu]; omega) (by simpa only [hu] using hdvd') (by simp only [hu]; omega) (by simp only; omega)
        refine ⟨r, hr, ?_⟩
        obtain ⟨hnone, fs, hbuffer, hcutr⟩ | hmem := hres
        · refine .inl ⟨hnone, f :: fs, ?_, len, hpos, hle, ?_, hf, ?_⟩
          · rw [hbuffer, List.append_assoc, singleton_append]
          · intro hne
            rw [hmax hne]
            exact Nat.dvd_mul_left _ _
          · simpa only [hu] using hcutr
        · exact .inr hmem
      · exact ⟨_, rfl, .inr rfl⟩

/-- The first fragment is made in place, and what follows it in the buffer is left for the others. -/
theorem fragLoop_start (hne : rem ≠ 0) (hsum : h + rem = packet.length) :
    ∃ r, fragLoop alloc h room (room / 8 * 8) fields rem ⟨packet, [], 0, rem⟩ = some r ∧
      ((r.1 = none ∧ Cut 8 (IsPiece h room T Q packet) 0 rem r.2.buffer) ∨ r.1 = some .memory) := by
  obtain ⟨n, rfl⟩ := Nat.exists_eq_succ_of_ne_zero hne
  have hcut := cutLen_spec hroom hne
  generalize hlendef : (if room < n.succ then room / 8 * 8 else n.succ) = len at hcut
  obtain ⟨hpos, hle, hfit, hmax⟩ := hcut
  have htake : (packet.take (h + len)).length = h + len := by
    rw [length_take]
    omega
  obtain ⟨hout, hf⟩ := isPiece_fields hT hfields htake hfit hle (by omega : h + 0 < packet.length)
    (Nat.dvd_zero _)
    (by rw [drop_take, Nat.add_zero, Nat.add_sub_cancel_left])
    (by
      intro j hj _
      rw [getD_eq_getElem?_getD, getElem?_take_of_lt (by omega), getD_eq_getElem?_getD])
    0
  rw [fragLoop, if_neg hne]
  simp only [if_true, hlendef, length_nil, nil_append]
  generalize fields 0 0 len n.succ (packet.take (h + len)) = f at hf hout
  have hu : u16 (0 + len) = len := by
    rw [Nat.zero_add]
    exact Nat.mod_eq_of_lt (by omega)
  simp only [hu]
  obtain ⟨r, hr, hres⟩ := fragLoop_later alloc hT hroom hlen hfields
    (s := ⟨f ++ packet.drop (h + len), [f], len, n.succ - len⟩) (n := n) (hout.append_drop (by omega))
    (by simp only; omega)
    (by
      intro hrest
      simp only at hrest ⊢
      rw [hmax (by omega)])
    (by simp only; omega) (by simp only; omega)
  refine ⟨r, hr, ?_⟩
  obtain ⟨hnone, fs, hbuffer, hcutr⟩ | hmem := hres
  · rw [hbuffer]
    refine .inl ⟨hnone, len, hpos, hle, ?_, hf, ?_⟩
    · intro hnr
      rw [hmax hnr]
      exact Nat.dvd_mul_left _ _
    · rw [Nat.zero_add]
      exact hcutr
  · exact .inr hmem

end Loop

end Vpp.Ip
