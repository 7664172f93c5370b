import Vpp.Ip.Checksum
import Vpp.Lib.NetBytes

namespace Vpp.Ip
open Vpp.Lib

/-- A buffer of a chain: where its data starts in memory, and the data. -/
structure Segment where
  current : Nat
  data : List Byte

def protocolOffset : Nat := 9

def srcAddressOffset : Nat := 12

def clibHostToNetU32 (x : BitVec 32) : BitVec 32 := BitVec.ofNat 32 (leValue (netBytes 4 x.toNat))

def ip0Length (ip0 : Ip4Header) : BitVec 16 := netWord 2 ip0 2

def ip0Protocol (ip0 : Ip4Header) : Byte := ip0.getD protocolOffset 0

/-- The loop, over the bytes of this buffer and of the next ones. It leaves the chain where there is no next buffer. -/
def computeChecksumLoop (sum0 : IpCsum) (nBytesLeft : BitVec 32) : List Segment → Option IpCsum
  | [] => none
  | this :: next =>
    let sum0 := ipIncrementalChecksum sum0 this.current this.data
    let nBytesLeft := nBytesLeft - BitVec.ofNat 32 this.data.length
    if nBytesLeft = 0 then some sum0 else computeChecksumLoop sum0 nBytesLeft next

/-- The bytes of the payload in the first buffer, as far as the lengths go. -/
def nFirstBuffer (payloadLength ipHeaderLength currentLength : BitVec 32) : BitVec 32 :=
  if payloadLength + ipHeaderLength > currentLength then
    if currentLength > ipHeaderLength then currentLength - ipHeaderLength else 0
  else payloadLength

def ip4TcpUdpComputeChecksum (p0 : Segment) (chain : List Segment) : Option (BitVec 16) :=
  let ip0 := p0.data
  let ipHeaderLength := BitVec.ofNat 32 (ip4HeaderBytes ip0)
  let payloadLength := (ip0Length ip0).setWidth 32 - ipHeaderLength
  let sum0 : IpCsum := (clibHostToNetU32 (payloadLength + (ip0Protocol ip0).setWidth 32 <<< 16)).setWidth 64
  let sum0 := ipCsumWithCarry sum0 (load 8 (ip0.drop srcAddressOffset))
  let nThisBuffer := nFirstBuffer payloadLength ipHeaderLength (BitVec.ofNat 32 p0.data.length)
  let first : Segment := ⟨p0.current + ip4HeaderBytes ip0, (p0.data.drop (ip4HeaderBytes ip0)).take nThisBuffer.toNat⟩
  (computeChecksumLoop sum0 payloadLength (first :: chain)).map fun sum0 => ~~~ipCsumFold sum0

def onesComplementSum : List Byte → BitVec 16
  | [] => 0
  | [a] => BitVec.ofNat 16 (leValue [a])
  | a :: b :: bs =>
    let word := BitVec.ofNat 16 (leValue [a, b])
    let sum := onesComplementSum bs
    word + sum + if word + sum < sum then 1 else 0

variable {bytes : List Byte} {segments chain : List Segment} {p0 : Segment} {sum0 : IpCsum}

theorem toNat_ofNat_leValue (h : bytes.length ≤ 2) : (BitVec.ofNat 16 (leValue bytes)).toNat = leValue bytes := by
  have hlt := leValue_lt bytes
  have hle : (256 : Nat) ^ bytes.length ≤ 256 ^ 2 := Nat.pow_le_pow_right (by decide) h
  rw [BitVec.toNat_ofNat, Nat.mod_eq_of_lt (by omega)]

theorem onesComplementSum_spec (bytes : List Byte) :
    ((onesComplementSum bytes).toNat : Z) = leValue bytes ∧ (onesComplementSum bytes = 0 ↔ leValue bytes = 0) := by
  have h16 : (2 ^ 16 : Z) = 1 := by decide
  induction bytes using onesComplementSum.induct with
  | case1 => exact ⟨rfl, iff_of_true rfl rfl⟩
  | case2 a =>
    have hword : (BitVec.ofNat 16 (leValue [a])).toNat = leValue [a] := toNat_ofNat_leValue (Nat.le_succ 1)
    rw [onesComplementSum, word_eq_zero_iff, hword]
    exact ⟨rfl, Iff.rfl⟩
  | case3 a b bs ih =>
    obtain ⟨hcast, hzero⟩ := ih
    have hword : (BitVec.ofNat 16 (leValue [a, b])).toNat = leValue [a, b] := toNat_ofNat_leValue (Nat.le_refl 2)
    have heven : [a, b].length % 2 = 0 := Nat.mod_self 2
    have hsplit : a :: b :: bs = [a, b] ++ bs := rfl
    rw [onesComplementSum]
    apply And.intro
    · rw [cast_carryAdd h16 _ _ (by decide), hword, hcast, hsplit, cast_leValue_append two_bytes heven]
    · rw [carryAdd_eq_zero _ _ (by decide), hzero, word_eq_zero_iff, hword, hsplit, leValue_append_eq_zero]

theorem eq_of_cast_eq {x y : BitVec 16} (h : (x.toNat : Z) = y.toNat) (h0 : x = 0 ↔ y = 0) : x = y := by
  have hx := x.isLt
  have hy := y.isLt
  have hmod := (ZMod.natCast_eq_natCast_iff' x.toNat y.toNat 65535).mp h
  rw [word_eq_zero_iff, word_eq_zero_iff] at h0
  apply BitVec.eq_of_toNat_eq
  omega

def oddSum : Nat → List (List Byte) → Nat
  | _, [] => 0
  | offset, s :: ss => (if offset % 2 = 1 then leValue s else 0) + oddSum (offset + s.length) ss

variable (offset : Nat)

theorem cast_pow_offset : (256 ^ offset : Z) = if offset % 2 = 1 then 256 else 1 := by
  have hstep : (256 ^ offset : Z) = 256 ^ (offset / 2 * 2) * 256 ^ (offset % 2) := by
    rw [← pow_add, Nat.div_add_mod']
  rw [hstep, pow_even_eq_one two_bytes (Nat.mul_mod_left _ 2), one_mul]
  rcases Nat.mod_two_eq_zero_or_one offset with h | h
  · rw [h, pow_zero, if_neg Nat.zero_ne_one]
  · rw [h, pow_one, if_pos rfl]

theorem cast_flatten (ss : List (List Byte)) :
    (256 ^ offset * leValue ss.flatten : Z) = (ss.map leValue).sum + 255 * oddSum offset ss := by
  induction ss generalizing offset with
  | nil => simp [leValue, oddSum]
  | cons s ss ih =>
    have ih := ih (offset + s.length)
    rw [List.flatten_cons, leValue_append, oddSum, List.map_cons, List.sum_cons, Nat.cast_add, Nat.cast_mul,
        Nat.cast_pow,
      Nat.cast_ofNat, Nat.cast_add, Nat.cast_add, mul_add, ← mul_assoc, ← pow_add, ih, cast_pow_offset]
    split
    · ring
    · rw [Nat.cast_zero]
      ring

theorem leValue_flatten_eq_zero (ss : List (List Byte)) : leValue ss.flatten = 0 ↔ (ss.map leValue).sum = 0 := by
  induction ss with
  | nil => exact iff_of_true rfl rfl
  | cons s ss ih =>
    rw [List.flatten_cons, leValue_append_eq_zero, ih, List.map_cons, List.sum_cons, Nat.add_eq_zero_iff]

theorem cast_255_mul_eq_zero (n : Nat) : (255 * n : Z) = 0 ↔ 257 ∣ n := by
  have hcast : (255 * n : Z) = ((255 * n : Nat) : Z) := by rw [Nat.cast_mul, Nat.cast_ofNat]
  rw [hcast, ZMod.natCast_eq_zero_iff]
  exact @Nat.mul_dvd_mul_iff_left 255 257 n (by decide)

def totalLength (segments : List Segment) : Nat := (segments.map fun s => s.data.length).sum

def totalValue (segments : List Segment) : Nat := (segments.map fun s => leValue s.data).sum

/-- The bytes left are those of the first segments of the chain. -/
structure Used (left : Nat) (segments used : List Segment) : Prop where
  first : used <+: segments
  length : totalLength used = left
  ne_nil : used ≠ []

theorem totalLength_cons (s : Segment) (segments : List Segment) :
    totalLength (s :: segments) = s.data.length + totalLength segments := List.sum_cons

theorem totalValue_cons (s : Segment) (segments : List Segment) :
    totalValue (s :: segments) = leValue s.data + totalValue segments := List.sum_cons

theorem totalLength_le (h : used <+: segments) : totalLength used ≤ totalLength segments := by
  obtain ⟨rest, rfl⟩ := h
  rw [totalLength, totalLength, List.map_append, List.sum_append]
  exact Nat.le_add_right _ _

theorem sub_length_eq_zero {left : BitVec 32} (hlen : n < 2 ^ 32) : left - BitVec.ofNat 32 n = 0 ↔ left.toNat = n := by
  rw [BitVec.sub_eq_iff_eq_add, zero_add, ← BitVec.toNat_inj, BitVec.toNat_ofNat, Nat.mod_eq_of_lt hlen]

theorem toNat_sub_length {left : BitVec 32} (hlen : n < 2 ^ 32) :
    (left - BitVec.ofNat 32 n).toNat = if n ≤ left.toNat then left.toNat - n else left.toNat + 2 ^ 32 - n := by
  have hlt := left.isLt
  rw [BitVec.toNat_sub, BitVec.toNat_ofNat, Nat.mod_eq_of_lt hlen]
  split <;> omega

/-- Where the loop ends it has summed up the segments of the bytes announced. -/
theorem computeChecksumLoop_some (hlen : totalLength segments < 2 ^ 32) (he : ∀ s ∈ segments, s.current % 2 = 0)
    {left : BitVec 32} (h : computeChecksumLoop sum0 left segments = some sum) :
    ∃ used, Used left.toNat segments used ∧ (sum.toNat : Z) = sum0.toNat + totalValue used ∧
      (sum = 0 ↔ sum0 = 0 ∧ totalValue used = 0) := by
  induction segments generalizing sum0 left with
  | nil => cases h
  | cons s segments ih =>
    rw [totalLength_cons] at hlen
    obtain ⟨hfirst, hrest⟩ := List.forall_mem_cons.mp he
    obtain ⟨hcast, hzero⟩ := ipIncrementalChecksum_spec sum0 hfirst s.data
    have hone : totalValue [s] = leValue s.data := totalValue_cons s []
    rw [computeChecksumLoop] at h
    split at h
    · next hend =>
      obtain rfl := Option.some.inj h
      refine ⟨[s], ⟨List.prefix_append [s] segments, ?_, List.cons_ne_nil s []⟩, ?_, ?_⟩
      · exact ((sub_length_eq_zero (by omega)).mp hend).symm
      · rw [hcast, hone]
      · rw [hzero, hone]
    · next hmore =>
      obtain ⟨used, hused, hcast', hzero'⟩ := ih (by omega) hrest h
      have hle := totalLength_le hused.first
      have hsum := hused.length
      rw [toNat_sub_length (by omega)] at hsum
      refine ⟨s :: used, ⟨List.cons_prefix_cons.mpr ⟨rfl, hused.first⟩, ?_, List.cons_ne_nil s used⟩, ?_, ?_⟩
      · rw [totalLength_cons]
        split at hsum <;> omega
      · rw [hcast', hcast, totalValue_cons, Nat.cast_add, add_assoc]
      · rw [hzero', hzero, totalValue_cons, Nat.add_eq_zero_iff, and_assoc]

theorem computeChecksumLoop_isSome (hlen : totalLength segments < 2 ^ 32) {left : BitVec 32}
    (h : Used left.toNat segments used) : ∃ sum, computeChecksumLoop sum0 left segments = some sum := by
  induction segments generalizing sum0 left used with
  | nil => exact absurd (List.prefix_nil.mp h.first) h.ne_nil
  | cons s segments ih =>
    rw [totalLength_cons] at hlen
    obtain ⟨u, used, rfl⟩ := List.exists_cons_of_ne_nil h.ne_nil
    obtain ⟨rfl, hfirst⟩ := List.cons_prefix_cons.mp h.first
    have hsum := h.length
    rw [totalLength_cons] at hsum
    rw [computeChecksumLoop]
    split
    · exact ⟨_, rfl⟩
    · next hmore =>
      rw [sub_length_eq_zero (by omega)] at hmore
      apply @ih _ used (by omega)
      refine ⟨hfirst, ?_, ?_⟩
      · rw [toNat_sub_length (by omega), if_pos (by omega)]
        omega
      · intro hnil
        rw [hnil] at hsum
        exact hmore hsum.symm

/-- A packet in a chain that holds at least the bytes announced, with its header in the first buffer and each segment
at an even address. -/
structure IsPacket (p0 : Segment) (chain : List Segment) : Prop where
  header : 20 ≤ ip4HeaderBytes p0.data
  contiguous : ip4HeaderBytes p0.data ≤ p0.data.length
  length : ip4HeaderBytes p0.data ≤ (ip0Length p0.data).toNat
  holds : (ip0Length p0.data).toNat ≤ totalLength (p0 :: chain)
  even : ∀ s ∈ p0 :: chain, s.current % 2 = 0
  total : totalLength (p0 :: chain) < 2 ^ 32

def payloadLength (ip0 : Ip4Header) : Nat := (ip0Length ip0).toNat - ip4HeaderBytes ip0

def chainBytes (segments : List Segment) : List Byte := (segments.map Segment.data).flatten

def payload (p0 : Segment) (chain : List Segment) : List Byte :=
  ((chainBytes (p0 :: chain)).drop (ip4HeaderBytes p0.data)).take (payloadLength p0.data)

def pseudoHeader (ip0 : Ip4Header) : List Byte :=
  (ip0.drop srcAddressOffset).take 8 ++ ([0, ip0Protocol ip0] ++ netBytes 2 (payloadLength ip0))

def firstSegment (p0 : Segment) : Segment :=
  ⟨p0.current + ip4HeaderBytes p0.data, (p0.data.drop (ip4HeaderBytes p0.data)).take (payloadLength p0.data)⟩

theorem ip4HeaderBytes_le (ip0 : Ip4Header) : ip4HeaderBytes ip0 ≤ 60 := by
  have hle : (ip0.headD 0 &&& 0xf).toNat ≤ 15 := by
    rw [BitVec.toNat_and]
    exact Nat.and_le_right
  rw [ip4HeaderBytes]
  omega

theorem toNat_payloadLength (h : IsPacket p0 chain) :
    ((ip0Length p0.data).setWidth 32 - BitVec.ofNat 32 (ip4HeaderBytes p0.data)).toNat = payloadLength p0.data := by
  have hle := h.length
  have hsmall := ip4HeaderBytes_le p0.data
  have hlength : ((ip0Length p0.data).setWidth 32).toNat = (ip0Length p0.data).toNat :=
    BitVec.toNat_setWidth_of_le (by decide)
  rw [toNat_sub_length (by omega), hlength, if_pos hle, payloadLength]

/-- The length and the protocol in network order are the bytes of the pseudo header. -/
theorem toNat_hostToNet (proto : Byte) {len : BitVec 32} (hlen : len.toNat < 2 ^ 16) :
    (clibHostToNetU32 (len + proto.setWidth 32 <<< 16)).toNat = leValue ([0, proto] ++ netBytes 2 len.toNat) := by
  have hproto := proto.isLt
  have hshift : (proto.setWidth 32 <<< 16).toNat = proto.toNat * 2 ^ 16 := by
    rw [BitVec.toNat_shiftLeft, BitVec.toNat_setWidth, Nat.shiftLeft_eq]
    omega
  have hsum : (len + proto.setWidth 32 <<< 16).toNat = len.toNat + proto.toNat * 2 ^ 16 := by
    rw [BitVec.toNat_add, hshift]
    omega
  have hbytes : netBytes 4 (len.toNat + proto.toNat * 2 ^ 16) = [0, proto] ++ netBytes 2 len.toNat := by
    have hbyte (n : Nat) (b : Byte) (hb : n % 256 = b.toNat) : BitVec.ofNat 8 n = b := by
      apply BitVec.eq_of_toNat_eq
      rw [BitVec.toNat_ofNat]
      exact hb
    simp only [netBytes, List.cons_append, List.nil_append, List.cons.injEq, and_true]
    refine ⟨hbyte _ _ ?_, hbyte _ _ ?_, hbyte _ _ ?_, hbyte _ _ ?_⟩
    · show _ = 0
      omega
    · omega
    · rw [BitVec.toNat_ofNat]
      omega
    · rw [BitVec.toNat_ofNat]
      omega
  have hlt := leValue_lt ([0, proto] ++ netBytes 2 len.toNat)
  rw [List.length_append, length_netBytes, show [0, proto].length + 2 = 4 from rfl] at hlt
  rw [clibHostToNetU32, hsum, hbytes, BitVec.toNat_ofNat, Nat.mod_eq_of_lt (by omega)]

theorem toNat_nFirstBuffer {payloadLength ipHeaderLength currentLength : BitVec 32}
    (hle : ipHeaderLength.toNat ≤ currentLength.toNat) (hsmall : payloadLength.toNat + ipHeaderLength.toNat < 2 ^ 32) :
    (nFirstBuffer payloadLength ipHeaderLength currentLength).toNat =
      min payloadLength.toNat (currentLength.toNat - ipHeaderLength.toNat) := by
  have hsum : (payloadLength + ipHeaderLength).toNat = payloadLength.toNat + ipHeaderLength.toNat := by
    rw [BitVec.toNat_add, Nat.mod_eq_of_lt hsmall]
  rw [nFirstBuffer]
  by_cases hmore : payloadLength + ipHeaderLength > currentLength
  · have hmore' : currentLength.toNat < payloadLength.toNat + ipHeaderLength.toNat := hsum ▸ hmore
    rw [if_pos hmore]
    by_cases hlt : currentLength > ipHeaderLength
    · rw [if_pos hlt, BitVec.toNat_sub_of_le hle]
      omega
    · have hge : ¬ ipHeaderLength.toNat < currentLength.toNat := hlt
      rw [if_neg hlt]
      show 0 = _
      omega
  · have hless : ¬ currentLength.toNat < payloadLength.toNat + ipHeaderLength.toNat := hsum ▸ hmore
    rw [if_neg hmore]
    omega

/-- The sum that the loop starts with is that of the pseudo header. -/
theorem ip4TcpUdpComputeChecksum_eq (h : IsPacket p0 chain) :
    ∃ (sum0 : IpCsum) (left : BitVec 32), left.toNat = payloadLength p0.data ∧
      (sum0.toNat : Z) = leValue (pseudoHeader p0.data) ∧ (sum0 = 0 ↔ leValue (pseudoHeader p0.data) = 0) ∧
      ip4TcpUdpComputeChecksum p0 chain =
        (computeChecksumLoop sum0 left (firstSegment p0 :: chain)).map fun sum0 => ~~~ipCsumFold sum0 := by
  have hleft := toNat_payloadLength h
  have hheader := h.header
  have hcontiguous := h.contiguous
  have htotal := h.total
  rw [totalLength_cons] at htotal
  have hlength := (ip0Length p0.data).isLt
  have hpayload : payloadLength p0.data + ip4HeaderBytes p0.data = (ip0Length p0.data).toNat :=
    Nat.sub_add_cancel h.length
  have hheader' : (BitVec.ofNat 32 (ip4HeaderBytes p0.data)).toNat = ip4HeaderBytes p0.data :=
    Nat.mod_eq_of_lt (by omega)
  have hcurrent : (BitVec.ofNat 32 p0.data.length).toNat = p0.data.length := Nat.mod_eq_of_lt (by omega)
  have hsum := toNat_hostToNet (ip0Protocol p0.data) (by omega :
    ((ip0Length p0.data).setWidth 32 - BitVec.ofNat 32 (ip4HeaderBytes p0.data)).toNat < 2 ^ 16)
  rw [ip4TcpUdpComputeChecksum]
  generalize (ip0Length p0.data).setWidth 32 - BitVec.ofNat 32 (ip4HeaderBytes p0.data) = left at *
  have hfirst := @toNat_nFirstBuffer left (BitVec.ofNat 32 (ip4HeaderBytes p0.data)) (BitVec.ofNat 32 p0.data.length)
    (by omega) (by omega)
  rw [hleft, hheader', hcurrent] at hfirst
  have hsegment : (p0.data.drop (ip4HeaderBytes p0.data)).take
      (min (payloadLength p0.data) (p0.data.length - ip4HeaderBytes p0.data)) = (firstSegment p0).data := by
    rw [← List.take_take, List.take_of_length_le (Nat.le_of_eq List.length_drop)]
    rfl
  have hseven : ((p0.data.drop srcAddressOffset).take 8).length % 2 = 0 := by
    rw [List.length_take, List.length_drop, srcAddressOffset]
    omega
  have hwide : ((clibHostToNetU32 (left + (ip0Protocol p0.data).setWidth 32 <<< 16)).setWidth 64).toNat =
      leValue ([0, ip0Protocol p0.data] ++ netBytes 2 (payloadLength p0.data)) := by
    rw [BitVec.toNat_setWidth_of_le (by decide), hsum, hleft]
  refine ⟨ipCsumWithCarry ((clibHostToNetU32 (left + (ip0Protocol p0.data).setWidth 32 <<< 16)).setWidth 64)
    (load 8 (p0.data.drop srcAddressOffset)), left, hleft, ?_, ?_, ?_⟩
  · rw [cast_withCarry, hwide, toNat_load (Nat.le_refl 8), pseudoHeader, cast_leValue_append two_bytes hseven, add_comm]
  · rw [withCarry_eq_zero, word_eq_zero_iff, hwide, word_eq_zero_iff, toNat_load (Nat.le_refl 8), pseudoHeader,
      @leValue_append_eq_zero ((p0.data.drop srcAddressOffset).take 8)]
    exact and_comm
  · rw [hfirst, hsegment]
    rfl

def expectedChecksum (p0 : Segment) (chain : List Segment) : BitVec 16 :=
  ~~~onesComplementSum (pseudoHeader p0.data ++ payload p0 chain)

theorem even_pseudoHeader (h : IsPacket p0 chain) : (pseudoHeader p0.data).length % 2 = 0 := by
  have hheader := h.header
  have hcontiguous := h.contiguous
  rw [pseudoHeader, List.length_append, List.length_append, length_netBytes, List.length_take, List.length_drop,
    srcAddressOffset, show [0, ip0Protocol p0.data].length = 2 from rfl]
  omega

theorem take_take_append (d r : List Byte) (n : Nat) : (d.take n ++ r).take n = (d ++ r).take n := by
  rw [List.take_append, List.take_append, List.take_take, Nat.min_self, List.length_take]
  congr 2
  omega

theorem length_chainBytes (segments : List Segment) : (chainBytes segments).length = totalLength segments := by
  rw [chainBytes, List.length_flatten, List.map_map]
  rfl

theorem payload_eq (h : IsPacket p0 chain) (hu : Used (payloadLength p0.data) (firstSegment p0 :: chain) used) :
    payload p0 chain = chainBytes used := by
  obtain ⟨rest, hrest⟩ := hu.first
  have hall : chainBytes (firstSegment p0 :: chain) = chainBytes used ++ chainBytes rest := by
    rw [← hrest, chainBytes, List.map_append, List.flatten_append]
    rfl
  have hdrop : (chainBytes (p0 :: chain)).drop (ip4HeaderBytes p0.data) =
      p0.data.drop (ip4HeaderBytes p0.data) ++ chainBytes chain := by
    rw [chainBytes, List.map_cons, List.flatten_cons, List.drop_append_of_le_length h.contiguous]
    rfl
  have hlen : (chainBytes used).length = payloadLength p0.data := (length_chainBytes used).trans hu.length
  rw [payload, hdrop, ← take_take_append]
  show (chainBytes (firstSegment p0 :: chain)).take (payloadLength p0.data) = _
  rw [hall, List.take_left' hlen]

theorem cast_totalValue (used : List Segment) :
    (leValue (chainBytes used) : Z) = totalValue used + 255 * oddSum 0 (used.map Segment.data) := by
  have hsum := cast_flatten 0 (used.map Segment.data)
  rw [pow_zero, one_mul, List.map_map] at hsum
  exact hsum

theorem fold_eq_iff (h : IsPacket p0 chain) (hu : Used (payloadLength p0.data) (firstSegment p0 :: chain) used)
    (hcast : (sum.toNat : Z) = leValue (pseudoHeader p0.data) + totalValue used)
    (hzero : sum = 0 ↔ leValue (pseudoHeader p0.data) = 0 ∧ totalValue used = 0) :
    ~~~ipCsumFold sum = expectedChecksum p0 chain ↔ 257 ∣ oddSum 0 (used.map Segment.data) := by
  have hexpected := onesComplementSum_spec (pseudoHeader p0.data ++ payload p0 chain)
  rw [cast_leValue_append two_bytes (even_pseudoHeader h), leValue_append_eq_zero, payload_eq h hu, cast_totalValue]
    at hexpected
  have hvalue : leValue (chainBytes used) = 0 ↔ totalValue used = 0 := by
    have hflat := leValue_flatten_eq_zero (used.map Segment.data)
    rw [List.map_map] at hflat
    exact hflat
  rw [hvalue, ← hzero, ← ipCsumFold_eq_zero] at hexpected
  have hfold := cast_ipCsumFold sum
  rw [hcast] at hfold
  rw [expectedChecksum, payload_eq h hu, BitVec.not_inj, ← cast_255_mul_eq_zero]
  apply Iff.intro
  · intro heq
    rw [← heq, hfold] at hexpected
    have hsame := hexpected.1
    rwa [← add_assoc, left_eq_add] at hsame
  · intro hodd
    rw [hodd, add_zero] at hexpected
    exact eq_of_cast_eq (hfold.trans hexpected.1.symm) hexpected.2.symm

/-- The condition under which the checksum of a chain is the one of the packet. -/
def SumsUp (p0 : Segment) (chain : List Segment) : Prop :=
  ∃ used, used <+: firstSegment p0 :: chain ∧ totalLength used = payloadLength p0.data ∧
    257 ∣ oddSum 0 (used.map Segment.data)

theorem oddSum_append (ss ts : List (List Byte)) :
    oddSum offset (ss ++ ts) = oddSum offset ss + oddSum (offset + ss.flatten.length) ts := by
  induction ss generalizing offset with
  | nil => simp [oddSum]
  | cons s ss ih =>
    rw [List.cons_append, oddSum, oddSum, ih, List.flatten_cons, List.length_append, Nat.add_assoc, Nat.add_assoc]

theorem oddSum_of_empty (h : totalLength segments = 0) : oddSum offset (segments.map Segment.data) = 0 := by
  induction segments generalizing offset with
  | nil => rfl
  | cons s segments ih =>
    rw [totalLength_cons, Nat.add_eq_zero_iff, List.length_eq_zero_iff] at h
    rw [List.map_cons, oddSum, h.1, ih _ h.2]
    exact ite_self 0

theorem oddSum_of_le (h : used <+: used') (hlen : totalLength used = totalLength used') :
    oddSum 0 (used.map Segment.data) = oddSum 0 (used'.map Segment.data) := by
  obtain ⟨rest, rfl⟩ := h
  have hrest : totalLength rest = 0 := by
    rw [totalLength, totalLength, List.map_append, List.sum_append] at hlen
    exact Nat.add_eq_left.mp hlen.symm
  rw [List.map_append, oddSum_append, oddSum_of_empty _ hrest, Nat.add_zero]

theorem Used.oddSum_eq (h : Used left segments used) (h' : Used left segments used') :
    oddSum 0 (used.map Segment.data) = oddSum 0 (used'.map Segment.data) := by
  have hlen : totalLength used = totalLength used' := h.length.trans h'.length.symm
  rcases List.prefix_or_prefix_of_prefix h.first h'.first with hp | hp
  · exact oddSum_of_le hp hlen
  · exact (oddSum_of_le hp hlen.symm).symm

theorem SumsUp.exists_used (h : SumsUp p0 chain) :
    ∃ used, Used (payloadLength p0.data) (firstSegment p0 :: chain) used ∧ 257 ∣ oddSum 0 (used.map Segment.data) := by
  obtain ⟨used, hfirst, hlen, hodd⟩ := h
  cases used with
  | nil =>
    -- nothing is announced, so that the first segment is empty
    have hempty : (firstSegment p0).data = [] := by
      rw [firstSegment, ← hlen, show totalLength [] = 0 from rfl, List.take_zero]
    refine ⟨[firstSegment p0], ⟨List.prefix_append [firstSegment p0] chain, ?_, List.cons_ne_nil _ _⟩, ?_⟩
    · rw [← hlen, totalLength_cons, hempty]
      rfl
    · exact Nat.dvd_zero 257
  | cons u used => exact ⟨u :: used, ⟨hfirst, hlen, List.cons_ne_nil u used⟩, hodd⟩

theorem ip4TcpUdpComputeChecksum_iff (h : IsPacket p0 chain) :
    ip4TcpUdpComputeChecksum p0 chain = some (expectedChecksum p0 chain) ↔ SumsUp p0 chain := by
  obtain ⟨sum0, left, hleft, hcast, hzero, hrun⟩ := ip4TcpUdpComputeChecksum_eq h
  have hfirst : (firstSegment p0).data.length ≤ p0.data.length := by
    rw [firstSegment, List.length_take, List.length_drop]
    omega
  have hlen : totalLength (firstSegment p0 :: chain) < 2 ^ 32 := by
    have htotal := h.total
    rw [totalLength_cons] at htotal ⊢
    omega
  have heven : ∀ s ∈ firstSegment p0 :: chain, s.current % 2 = 0 := by
    obtain ⟨hp0, hchain⟩ := List.forall_mem_cons.mp h.even
    have hfirst' : (firstSegment p0).current % 2 = 0 := by
      rw [firstSegment, ip4HeaderBytes]
      dsimp only
      omega
    exact List.forall_mem_cons.mpr ⟨hfirst', hchain⟩
  rw [hrun]
  -- what a sum that the loop gives comes from
  have hsum {sum : IpCsum} (he : computeChecksumLoop sum0 left (firstSegment p0 :: chain) = some sum) :
      ∃ used, Used (payloadLength p0.data) (firstSegment p0 :: chain) used ∧
        (~~~ipCsumFold sum = expectedChecksum p0 chain ↔ 257 ∣ oddSum 0 (used.map Segment.data)) := by
    obtain ⟨used, hused, hcast', hzero'⟩ := computeChecksumLoop_some hlen heven he
    rw [hleft] at hused
    rw [hcast] at hcast'
    rw [hzero] at hzero'
    exact ⟨used, hused, fold_eq_iff h hused hcast' hzero'⟩
  apply Iff.intro
  · intro he
    obtain ⟨sum, hloop, hfold⟩ := Option.map_eq_some_iff.mp he
    obtain ⟨used, hused, hiff⟩ := hsum hloop
    exact ⟨used, hused.first, hused.length, hiff.mp hfold⟩
  · intro hsums
    obtain ⟨used, hused, hodd⟩ := hsums.exists_used
    obtain ⟨sum, hloop⟩ := @computeChecksumLoop_isSome _ sum0 used hlen left (hleft.symm ▸ hused)
    obtain ⟨used', hused', hiff⟩ := hsum hloop
    rw [hloop, Option.map_some, hiff.mpr (hused.oddSum_eq hused' ▸ hodd)]

def oneBuffer (p0 : Segment) (chain : List Segment) : Segment := ⟨p0.current, chainBytes (p0 :: chain)⟩

theorem field_append (i n : Nat) {d : List Byte} (h : i + n ≤ d.length) (r : List Byte) :
    ((d ++ r).drop i).take n = (d.drop i).take n := by
  rw [List.drop_append_of_le_length (by omega), List.take_append_of_le_length (by rw [List.length_drop]; omega)]

theorem header_append {d : List Byte} (h : 20 ≤ d.length) (r : List Byte) :
    ip4HeaderBytes (d ++ r) = ip4HeaderBytes d ∧ ip0Length (d ++ r) = ip0Length d ∧
      payloadLength (d ++ r) = payloadLength d ∧ pseudoHeader (d ++ r) = pseudoHeader d := by
  have hbytes : ip4HeaderBytes (d ++ r) = ip4HeaderBytes d := by
    cases d with
    | nil => exact absurd h (by decide)
    | cons b d => rfl
  have hlength : ip0Length (d ++ r) = ip0Length d := by
    rw [ip0Length, netWord, field_append 2 2 (by omega)]
    rfl
  have hprotocol : ip0Protocol (d ++ r) = ip0Protocol d := by
    rw [ip0Protocol, protocolOffset, List.getD_eq_getElem?_getD, List.getElem?_append_left (by omega),
      ← List.getD_eq_getElem?_getD]
    rfl
  have hpayload : payloadLength (d ++ r) = payloadLength d := by rw [payloadLength, hlength, hbytes, payloadLength]
  have haddresses : ((d ++ r).drop srcAddressOffset).take 8 = (d.drop srcAddressOffset).take 8 :=
    field_append 12 8 (by omega) r
  exact ⟨hbytes, hlength, hpayload, by rw [pseudoHeader, haddresses, hprotocol, hpayload, pseudoHeader]⟩

theorem isPacket_oneBuffer (h : IsPacket p0 chain) : IsPacket (oneBuffer p0 chain) [] ∧
    expectedChecksum (oneBuffer p0 chain) [] = expectedChecksum p0 chain := by
  have hdata : (oneBuffer p0 chain).data = p0.data ++ chainBytes chain := rfl
  obtain ⟨hbytes, hlength, hpayload, hpseudo⟩ :=
    header_append (h.header.trans h.contiguous) (chainBytes chain)
  rw [← hdata] at hbytes hlength hpayload hpseudo
  have hsame : totalLength [oneBuffer p0 chain] = totalLength (p0 :: chain) :=
    (totalLength_cons _ []).trans (length_chainBytes (p0 :: chain))
  have hlen : (oneBuffer p0 chain).data.length = totalLength (p0 :: chain) := length_chainBytes (p0 :: chain)
  have hcontiguous := h.contiguous
  rw [totalLength_cons] at hlen
  refine ⟨⟨hbytes ▸ h.header, by omega, by rw [hbytes, hlength]; exact h.length, ?_, ?_, hsame ▸ h.total⟩, ?_⟩
  · rw [hlength, hsame]
    exact h.holds
  · intro s hs
    rw [List.mem_singleton.mp hs]
    exact h.even p0 List.mem_cons_self
  · have hchain : chainBytes [oneBuffer p0 chain] = chainBytes (p0 :: chain) := List.append_nil _
    rw [expectedChecksum, hpseudo, payload, hchain, hbytes, hpayload]
    rfl

theorem sumsUp_one (h : IsPacket p0 []) : SumsUp p0 [] := by
  refine ⟨[firstSegment p0], List.prefix_refl _, ?_, Nat.dvd_zero 257⟩
  have hholds := h.holds
  have hlength := h.length
  have hone (s : Segment) : totalLength [s] = s.data.length := totalLength_cons s []
  rw [hone] at hholds ⊢
  rw [firstSegment, List.length_take, List.length_drop, payloadLength]
  omega

/-- The checksum is that of the packet, as held in one buffer, exactly where the bytes announced end with a buffer and
the buffers at odd offsets sum up to a multiple of 257. -/
theorem ip4_tcp_udp_compute_checksum (h : IsPacket p0 chain) :
    (ip4TcpUdpComputeChecksum p0 chain = some (expectedChecksum p0 chain) ∧
      ip4TcpUdpComputeChecksum (oneBuffer p0 chain) [] = some (expectedChecksum p0 chain)) ↔ SumsUp p0 chain := by
  obtain ⟨hone, hexpected⟩ := isPacket_oneBuffer h
  have hbuffer := (ip4TcpUdpComputeChecksum_iff hone).mpr (sumsUp_one hone)
  rw [hexpected] at hbuffer
  rw [ip4TcpUdpComputeChecksum_iff h]
  exact and_iff_left hbuffer

def udpHeader : Ip4Header := [0x45, 0, 0, 24, 0, 0, 0, 0, 64, 17, 0, 0, 10, 0, 0, 1, 10, 0, 0, 2]

theorem ip4_tcp_udp_compute_checksum_even :
    ip4TcpUdpComputeChecksum ⟨0, udpHeader ++ [1, 2]⟩ [⟨64, [3, 4]⟩] =
        some (expectedChecksum ⟨0, udpHeader ++ [1, 2]⟩ [⟨64, [3, 4]⟩]) ∧
      ip4TcpUdpComputeChecksum (oneBuffer ⟨0, udpHeader ++ [1, 2]⟩ [⟨64, [3, 4]⟩]) [] =
        some (expectedChecksum ⟨0, udpHeader ++ [1, 2]⟩ [⟨64, [3, 4]⟩]) :=
  (ip4_tcp_udp_compute_checksum ⟨by decide, by decide, by decide, by decide, by decide, by decide⟩).mpr
    ⟨[⟨20, [1, 2]⟩, ⟨64, [3, 4]⟩], ⟨[], rfl⟩, by decide, by decide⟩

/-- After a buffer with one byte of the payload the other bytes are summed up in the wrong order; with a byte of padding
after the payload the sum does not end. -/
theorem ip4_tcp_udp_compute_checksum_fails :
    ip4TcpUdpComputeChecksum ⟨0, udpHeader ++ [1]⟩ [⟨64, [2, 3, 4]⟩] ≠
        some (expectedChecksum ⟨0, udpHeader ++ [1]⟩ [⟨64, [2, 3, 4]⟩]) ∧
      ip4TcpUdpComputeChecksum ⟨0, udpHeader ++ [1, 2]⟩ [⟨64, [3, 4, 0]⟩] = none := by
  decide

end Vpp.Ip
