import Vpp.Ip.Frag

namespace Vpp.Ip
open Vpp.Lib

def flagsAndFragmentOffset (o : Nat) (b : List Byte) : Nat := get16 b (o + 6)

def fragmentId (o : Nat) (b : List Byte) : Nat := getNative16 b (o + 4)

def ip4Length (o : Nat) (b : List Byte) : Nat := get16 b (o + 2)

def ip4GetFragmentOffset (o : Nat) (b : List Byte) : Nat := flagsAndFragmentOffset o b % 2 ^ 13

def ip4GetFragmentMore (o : Nat) (b : List Byte) : Bool := (flagsAndFragmentOffset o b).testBit 13

def dontFragment (o : Nat) (b : List Byte) : Bool := (flagsAndFragmentOffset o b).testBit 14

def ip4IsFragment (o : Nat) (b : List Byte) : Bool := flagsAndFragmentOffset o b % 2 ^ 14 ≠ 0

/-- The fields of a fragment. The buffer holds its copy of the headers and its data. -/
def ip4FragFields (e : FragBuffer) (addr ipFragId ipFragOffset : Nat) (more : Bool) (ptr len rem : Nat)
    (b : List Byte) : List Byte :=
  let o := e.headerOffset
  let b := setNative16 b (o + 4) ipFragId
  let b := set16 b (o + 6) (u16 (ptr / 8 + ipFragOffset) ||| if len ≠ rem ∨ more then 2 ^ 13 else 0)
  let b := set16 b (o + 2) (u16 (len + 20))
  let b := setNative16 b (o + 10) (ip4HeaderChecksum (addr + o) (b.drop o)).toNat
  encapsulate e.flags addr b

def ip4FragLoop (e : FragBuffer) (room max ipFragId ipFragOffset : Nat) (more : Bool) :
    Nat → FragState → Option (Option IpFragError × FragState) :=
  fragLoop e.alloc (e.headerOffset + 20) room max fun i => ip4FragFields e (e.addr i) ipFragId ipFragOffset more

def FragBuffer.room (e : FragBuffer) : Nat := sub64 (sub64 e.mtu 20) e.headerOffset

/-- The buffer itself is among the fragments also when there is nothing to cut. -/
def ip4FragBuffers (packet : List Byte) (s : FragState) : List (List Byte) :=
  if s.buffer = [] then [packet] else s.buffer

/-- Nothing when the loop does not end. -/
def ip4FragDoFragment (e : FragBuffer) (runningFragmentId : BitVec 32) (packet : List Byte) : Option IpFragResult :=
  let o := e.headerOffset
  let rem := u16 (sub64 (ip4Length o packet) 20)
  let max := u16 (e.room / 8 * 8)
  if rem < sub64 (sub64 packet.length o) 20 then some ⟨some .malformed, [packet], runningFragmentId⟩
  else if e.mtu < 20 then some ⟨some .cantFragmentHeader, [packet], runningFragmentId⟩
  else if dontFragment o packet then some ⟨some .dontFragmentSet, [packet], runningFragmentId⟩
  else
    let start : FragState := ⟨packet, [], 0, rem⟩
    if ip4IsFragment o packet then
      (ip4FragLoop e e.room max (fragmentId o packet) (ip4GetFragmentOffset o packet) (ip4GetFragmentMore o packet)
        rem start).map fun r => ⟨r.1, ip4FragBuffers packet r.2, runningFragmentId⟩
    else
      (ip4FragLoop e e.room max (u16 (runningFragmentId + 1).toNat) 0 false rem start).map fun r =>
        ⟨r.1, ip4FragBuffers packet r.2, runningFragmentId + 1⟩

def FragBytes (e : FragBuffer) (j : Nat) : Prop :=
  (e.headerOffset + 2 ≤ j ∧ j < e.headerOffset + 8) ∨ (e.headerOffset + 10 ≤ j ∧ j < e.headerOffset + 12) ∨
    EncapBytes e.flags j

structure Fields4 (o ipFragId ipFragOffset : Nat) (more : Bool) (f : List Byte) (ptr len : Nat) (notLast : Bool) :
    Prop where
  id : fragmentId o f = ipFragId
  offset : ip4GetFragmentOffset o f = ptr / 8 + ipFragOffset
  more : ip4GetFragmentMore o f = (notLast || more)
  total : ip4Length o f = len + 20

theorem or_more (h : x < 2 ^ 13) (c : Prop) [Decidable c] :
    (x ||| if c then 2 ^ 13 else 0) = x + if c then 2 ^ 13 else 0 := by
  split
  · have hor := Nat.two_pow_add_eq_or_of_lt h 1
    rw [Nat.or_comm, ← Nat.mul_one (2 ^ 13), ← hor, Nat.add_comm]
  · rw [Nat.or_zero, Nat.add_zero]

section Fields
variable {e : FragBuffer} (hencap : ∀ j, EncapBytes e.flags j → j < e.headerOffset)
include hencap

theorem ip4FragFields_spec (hlen : e.headerOffset + 20 ≤ b.length) (hid : ipFragId < 2 ^ 16) (hsize : len + 20 < 2 ^ 16)
    (hoff : ptr / 8 + ipFragOffset < 2 ^ 13) (addr rem : Nat) (more : Bool) :
    let f := ip4FragFields e addr ipFragId ipFragOffset more ptr len rem b
    SameOutside (FragBytes e) b f ∧ fragmentId e.headerOffset f = ipFragId ∧
      flagsAndFragmentOffset e.headerOffset f =
        ptr / 8 + ipFragOffset + (if len ≠ rem ∨ more then 2 ^ 13 else 0) ∧
      ip4Length e.headerOffset f = len + 20 := by
  intro f
  let o := e.headerOffset
  let v := u16 (ptr / 8 + ipFragOffset) ||| if len ≠ rem ∨ more then 2 ^ 13 else 0
  let b1 := setNative16 b (o + 4) ipFragId
  let b2 := set16 b1 (o + 6) v
  let b3 := set16 b2 (o + 2) (u16 (len + 20))
  let b4 := setNative16 b3 (o + 10) (ip4HeaderChecksum (addr + o) (b3.drop o)).toNat
  have hf : f = encapsulate e.flags addr b4 := rfl
  have hv : v = ptr / 8 + ipFragOffset + if len ≠ rem ∨ more then 2 ^ 13 else 0 := by
    have hu : u16 (ptr / 8 + ipFragOffset) = ptr / 8 + ipFragOffset := Nat.mod_eq_of_lt (by omega)
    rw [← or_more hoff, ← hu]
  have hv16 : v < 2 ^ 16 := by
    rw [hv]
    split
    all_goals omega
  have h1 : SameOutside (fun j => o + 4 ≤ j ∧ j < o + 4 + 2) b b1 := sameOutside_setNative16 (by omega) _
  have h2 : SameOutside (fun j => o + 6 ≤ j ∧ j < o + 6 + 2) b1 b2 :=
    sameOutside_set16 (by rw [h1.length]; omega) _
  have h3 : SameOutside (fun j => o + 2 ≤ j ∧ j < o + 2 + 2) b2 b3 :=
    sameOutside_set16 (by rw [h2.length, h1.length]; omega) _
  have h4 : SameOutside (fun j => o + 10 ≤ j ∧ j < o + 10 + 2) b3 b4 :=
    sameOutside_setNative16 (by rw [h3.length, h2.length, h1.length]; omega) _
  have h5 : SameOutside (EncapBytes e.flags) b4 f :=
    sameOutside_encapsulate (by rw [h4.length, h3.length, h2.length, h1.length]; omega) _ _
  have hid' : SameOutside (fun j => ¬ (o + 4 ≤ j ∧ j < o + 6)) b1 f := by
    refine (h2.mono ?_).trans ((h3.mono ?_).trans ((h4.mono ?_).trans (h5.mono ?_)))
    · intro j hj
      omega
    · intro j hj
      omega
    · intro j hj
      omega
    · intro j hj
      have := hencap j hj
      omega
  have hflags' : SameOutside (fun j => ¬ (o + 6 ≤ j ∧ j < o + 8)) b2 f := by
    refine (h3.mono ?_).trans ((h4.mono ?_).trans (h5.mono ?_))
    · intro j hj
      omega
    · intro j hj
      omega
    · intro j hj
      have := hencap j hj
      omega
  have hlength' : SameOutside (fun j => ¬ (o + 2 ≤ j ∧ j < o + 4)) b3 f := by
    refine (h4.mono ?_).trans (h5.mono ?_)
    · intro j hj
      omega
    · intro j hj
      have := hencap j hj
      omega
  refine ⟨?_, ?_, ?_, ?_⟩
  · refine (h1.mono ?_).trans ((h2.mono ?_).trans ((h3.mono ?_).trans ((h4.mono ?_).trans (h5.mono ?_))))
    · intro j hj
      exact .inl (by omega)
    · intro j hj
      exact .inl (by omega)
    · intro j hj
      exact .inl (by omega)
    · intro j hj
      exact .inr (.inl (by omega))
    · intro j hj
      exact .inr (.inr hj)
  · rw [fragmentId, hid'.getNative16 (by omega) (by omega)]
    exact getNative16_setNative16 (by omega) hid
  · rw [flagsAndFragmentOffset, hflags'.get16 (by omega) (by omega), ← hv]
    exact get16_set16 (by rw [h1.length]; omega) hv16
  · rw [ip4Length, hlength'.get16 (by omega) (by omega)]
    rw [show b3 = set16 b2 (o + 2) (u16 (len + 20)) from rfl, get16_set16 (by rw [h2.length, h1.length]; omega)]
    · exact Nat.mod_eq_of_lt hsize
    · exact Nat.mod_lt _ (by decide)

theorem fragBytes_lt (h : FragBytes e j) : j < e.headerOffset + 20 := by
  obtain h1 | h2 | h3 := h
  · omega
  · omega
  · have := hencap j h3
    omega

theorem fields4_of_spec (hlen : e.headerOffset + 20 ≤ b.length) (hid : ipFragId < 2 ^ 16) (hsize : len + 20 < 2 ^ 16)
    (hoff : ptr / 8 + ipFragOffset < 2 ^ 13) (addr rem : Nat) (more : Bool) :
    let f := ip4FragFields e addr ipFragId ipFragOffset more ptr len rem b
    SameOutside (FragBytes e) b f ∧
      Fields4 e.headerOffset ipFragId ipFragOffset more f ptr len (decide (len ≠ rem)) := by
  obtain ⟨hout, hidf, hflags, htotal⟩ := ip4FragFields_spec hencap hlen hid hsize hoff addr rem more
  refine ⟨hout, hidf, ?_, ?_, htotal⟩
  · rw [ip4GetFragmentOffset, hflags]
    split
    all_goals omega
  · rw [ip4GetFragmentMore, hflags, Nat.testBit_eq_decide_div_mod_eq]
    split
    · rename_i hc
      have hdiv : (ptr / 8 + ipFragOffset + 2 ^ 13) / 2 ^ 13 % 2 = 1 := by omega
      rw [hdiv]
      simpa using hc
    · rename_i hc
      have hdiv : (ptr / 8 + ipFragOffset + 0) / 2 ^ 13 % 2 = 0 := by omega
      rw [hdiv]
      simpa using hc

end Fields

theorem room_eq {e : FragBuffer} (h : e.headerOffset + 28 ≤ e.mtu) : e.room = e.mtu - 20 - e.headerOffset := by
  have hmtu := e.mtu_lt
  have hinner : sub64 e.mtu 20 = e.mtu - 20 := sub64_of_le (by omega) (by omega)
  rw [FragBuffer.room, hinner, sub64_of_le (by omega) (by omega)]

/-- The pieces of a packet that an error did not stop. -/
abbrev IsFragment4 (e : FragBuffer) (packet : List Byte) (ipFragId ipFragOffset : Nat) (more : Bool) :
    List Byte → Nat → Nat → Bool → Prop :=
  IsPiece (e.headerOffset + 20) e.room (FragBytes e) (Fields4 e.headerOffset ipFragId ipFragOffset more) packet

theorem ip4FragLoop_cut {e : FragBuffer} {packet : List Byte}
    (hencap : ∀ j, EncapBytes e.flags j → j < e.headerOffset) (hroom : e.headerOffset + 28 ≤ e.mtu)
    (hid : ipFragId < 2 ^ 16)
    (hoff : ∀ ptr, e.headerOffset + 20 + ptr < packet.length → e.room / 8 * 8 ∣ ptr → ptr / 8 + ipFragOffset < 2 ^ 13)
    (hlen : packet.length < 2 ^ 16) (hne : rem ≠ 0) (hsum : e.headerOffset + 20 + rem = packet.length) (more : Bool) :
    ∃ r, ip4FragLoop e e.room (e.room / 8 * 8) ipFragId ipFragOffset more rem ⟨packet, [], 0, rem⟩ = some r ∧
      (r.1 = none → Cut 8 (IsFragment4 e packet ipFragId ipFragOffset more) 0 rem r.2.buffer) := by
  have hmtu := e.mtu_lt
  have hroom8 : 8 ≤ e.room := by
    rw [room_eq hroom]
    omega
  obtain ⟨r, hr, hres⟩ := fragLoop_start e.alloc (T := FragBytes e)
    (Q := Fields4 e.headerOffset ipFragId ipFragOffset more)
    (fun j hj => fragBytes_lt hencap hj) hroom8 hlen
    (fun i ptr len rem b hb hfit _ hptr hdvd => by
      rw [room_eq hroom] at hfit
      exact fields4_of_spec hencap (by omega) hid (by omega) (hoff ptr hptr hdvd) (e.addr i) rem more) hne hsum
  refine ⟨r, hr, fun hnone => ?_⟩
  obtain ⟨_, hcut⟩ | hmem := hres
  · exact hcut
  · rw [hnone] at hmem
    exact nomatch hmem

/-- A packet in one buffer, with a length field that gives its end. -/
structure IsPacket4 (o : Nat) (packet : List Byte) : Prop where
  header : o + 20 ≤ packet.length
  size : packet.length < 2 ^ 16
  length : ip4Length o packet + o = packet.length

/-- Fragments that give a packet when they are put together again. -/
structure Reassembles4 (e : FragBuffer) (packet : List Byte) (fs : List (List Byte)) : Prop where
  pieces : Pieces 8 (List.drop (e.headerOffset + 20)) (fun f => 8 * ip4GetFragmentOffset e.headerOffset f)
    (ip4GetFragmentMore e.headerOffset) (8 * ip4GetFragmentOffset e.headerOffset packet)
    (ip4GetFragmentMore e.headerOffset packet) (packet.drop (e.headerOffset + 20)) fs
  id : ∃ ipFragId, (∀ f ∈ fs, fragmentId e.headerOffset f = ipFragId) ∧
    (ip4IsFragment e.headerOffset packet = true → ipFragId = fragmentId e.headerOffset packet)
  fits : ∀ f ∈ fs, f.length ≤ e.mtu
  length : ∀ f ∈ fs, ip4Length e.headerOffset f + e.headerOffset = f.length
  same : ∀ f ∈ fs, ∀ j < e.headerOffset + 20, ¬ FragBytes e j → f.getD j 0 = packet.getD j 0

theorem reassembles4_of_cut (hcut : Cut 8 (IsFragment4 e packet ipFragId ipFragOffset more) 0 rem fs) (hne : rem ≠ 0)
    (hroom : e.headerOffset + 28 ≤ e.mtu) (hsum : e.headerOffset + 20 + rem = packet.length)
    (hoff : ip4GetFragmentOffset e.headerOffset packet = ipFragOffset)
    (hmore : ip4GetFragmentMore e.headerOffset packet = more)
    (hid : ip4IsFragment e.headerOffset packet = true → ipFragId = fragmentId e.headerOffset packet) :
    Reassembles4 e packet fs := by
  subst hoff hmore
  refine ⟨?_, ⟨ipFragId, ?_, hid⟩, ?_, ?_, ?_⟩
  · have hlen : rem = (packet.drop (e.headerOffset + 20)).length := by
      rw [List.length_drop]
      omega
    apply hcut.pieces_all hne hlen
    · intro f ptr len more hf
      rw [hf.data, List.drop_drop]
    · intro f ptr len more hf
      rw [hf.fields.offset, Nat.mul_add, Nat.mul_div_cancel' hf.aligned, Nat.add_comm]
    · intro f ptr len more hf
      exact hf.fields.more
  · exact hcut.forall fun f ptr len more hf => hf.fields.id
  · have hfits : ∀ f ptr len more, IsFragment4 e packet ipFragId (ip4GetFragmentOffset e.headerOffset packet)
        (ip4GetFragmentMore e.headerOffset packet) f ptr len more → f.length ≤ e.mtu := by
      intro f ptr len more hf
      have hfit := hf.fits
      rw [room_eq hroom] at hfit
      rw [hf.length]
      omega
    exact hcut.forall hfits
  · have htotal : ∀ f ptr len more, IsFragment4 e packet ipFragId (ip4GetFragmentOffset e.headerOffset packet)
        (ip4GetFragmentMore e.headerOffset packet) f ptr len more →
        ip4Length e.headerOffset f + e.headerOffset = f.length := by
      intro f ptr len more hf
      rw [hf.fields.total, hf.length]
      omega
    exact hcut.forall htotal
  · exact hcut.forall fun f ptr len more hf => hf.same

theorem reassembles4_single (hp : IsPacket4 e.headerOffset packet) (hroom : e.headerOffset + 28 ≤ e.mtu)
    (hempty : packet.length = e.headerOffset + 20) : Reassembles4 e packet [packet] := by
  refine ⟨Pieces.single rfl rfl rfl, ⟨fragmentId e.headerOffset packet, ?_, fun _ => rfl⟩, ?_, ?_, ?_⟩
  all_goals
    intro f hf
    obtain rfl := List.mem_singleton.mp hf
  · rfl
  · omega
  · exact hp.length
  · exact fun _ _ _ => rfl

theorem not_ip4IsFragment (h : ¬ ip4IsFragment o packet = true) :
    ip4GetFragmentOffset o packet = 0 ∧ ip4GetFragmentMore o packet = false := by
  have hz : flagsAndFragmentOffset o packet % 2 ^ 14 = 0 := by
    rw [ip4IsFragment, decide_eq_true_eq] at h
    exact not_not.mp h
  constructor
  · rw [ip4GetFragmentOffset]
    omega
  · have hdiv : flagsAndFragmentOffset o packet / 2 ^ 13 % 2 = 0 := by omega
    rw [ip4GetFragmentMore, Nat.testBit_eq_decide_div_mod_eq, hdiv]
    rfl

/-- The fragments that a packet is cut into without an error give the packet again. -/
theorem ip4Frag_reassembles (e : FragBuffer) (runningFragmentId : BitVec 32) (packet : List Byte)
    (hroom : e.headerOffset + 28 ≤ e.mtu) (hencap : ∀ j, EncapBytes e.flags j → j < e.headerOffset)
    (hp : IsPacket4 e.headerOffset packet)
    (hoff : ∀ ptr, e.headerOffset + 20 + ptr < packet.length → e.room / 8 * 8 ∣ ptr →
      ptr / 8 + ip4GetFragmentOffset e.headerOffset packet < 2 ^ 13) :
    ∃ r, ip4FragDoFragment e runningFragmentId packet = some r ∧ (r.error = none → Reassembles4 e packet r.buffer) := by
  obtain ⟨hheader, hsize, hlength⟩ := hp
  have hmtu := e.mtu_lt
  have hrem : u16 (sub64 (ip4Length e.headerOffset packet) 20) = packet.length - e.headerOffset - 20 := by
    rw [sub64_of_le (by omega) (by omega), u16, Nat.mod_eq_of_lt (by omega)]
    omega
  have hinner : sub64 packet.length e.headerOffset = packet.length - e.headerOffset :=
    sub64_of_le (by omega) (by omega)
  have hcontent : sub64 (packet.length - e.headerOffset) 20 = packet.length - e.headerOffset - 20 :=
    sub64_of_le (by omega) (by omega)
  have hmax : u16 (e.room / 8 * 8) = e.room / 8 * 8 := by
    rw [u16, Nat.mod_eq_of_lt]
    rw [room_eq hroom]
    omega
  simp only [ip4FragDoFragment, hrem, hinner, hcontent, hmax]
  generalize hremdef : packet.length - e.headerOffset - 20 = rem
  have hsum : e.headerOffset + 20 + rem = packet.length := by omega
  rw [if_neg (Nat.lt_irrefl rem), if_neg (by omega : ¬ e.mtu < 20)]
  split
  · exact ⟨_, rfl, fun hbad => nomatch hbad⟩
  · by_cases hz : rem = 0
    · have hsingle := reassembles4_single ⟨hheader, hsize, hlength⟩ hroom (by omega)
      subst hz
      split
      · exact ⟨_, rfl, fun _ => hsingle⟩
      · exact ⟨_, rfl, fun _ => hsingle⟩
    · have hbuffers : ∀ r : FragState, r.buffer ≠ [] → ip4FragBuffers packet r = r.buffer := fun r hr => if_neg hr
      split
      · have hid : fragmentId e.headerOffset packet < 2 ^ 16 := getNative16_lt packet _
        obtain ⟨r, hr, hres⟩ := ip4FragLoop_cut hencap hroom hid hoff hsize hz hsum
          (ip4GetFragmentMore e.headerOffset packet)
        rw [hr]
        refine ⟨_, rfl, fun hnone => ?_⟩
        have hcut := hres hnone
        simp only [hbuffers r.2 (hcut.rest_nonempty hz)]
        exact reassembles4_of_cut hcut hz hroom hsum rfl rfl fun _ => rfl
      · rename_i hfrag
        obtain ⟨hzero, hmore⟩ := not_ip4IsFragment hfrag
        have hid : u16 (runningFragmentId + 1).toNat < 2 ^ 16 := Nat.mod_lt _ (by decide)
        rw [hzero] at hoff
        obtain ⟨r, hr, hres⟩ := ip4FragLoop_cut hencap hroom hid hoff hsize hz hsum false
        rw [hr]
        refine ⟨_, rfl, fun hnone => ?_⟩
        have hcut := hres hnone
        simp only [hbuffers r.2 (hcut.rest_nonempty hz)]
        exact reassembles4_of_cut hcut hz hroom hsum hzero hmore fun hbad => absurd hbad hfrag

def smallMtu : FragBuffer := ⟨0, 36, by decide, 0, fun _ => true, fun _ => 0⟩

def shortPacket : List Byte :=
  [0x45, 0, 0, 40, 0, 1, 0, 0, 64, 17, 0, 0, 10, 0, 0, 1, 10, 0, 0, 2, 0, 1, 2, 3, 4, 5, 6, 7, 8, 9, 10, 11, 12, 13, 14,
    15, 16, 17, 18, 19]

theorem ip4Frag_reassembles_short :
    ∃ r, ip4FragDoFragment smallMtu 0 shortPacket = some r ∧ r.error = none ∧ r.buffer.length = 2 ∧
      Reassembles4 smallMtu shortPacket r.buffer := by
  have hencap : ∀ j, EncapBytes smallMtu.flags j → j < smallMtu.headerOffset := by
    intro j hj
    simp [EncapBytes, smallMtu, ipFragFlagIp4Header, ipFragFlagIp6Header] at hj
  have hoff : ∀ ptr, smallMtu.headerOffset + 20 + ptr < shortPacket.length → smallMtu.room / 8 * 8 ∣ ptr →
      ptr / 8 + ip4GetFragmentOffset smallMtu.headerOffset shortPacket < 2 ^ 13 := by
    intro ptr hptr _
    have hlen : smallMtu.headerOffset + 20 + ptr < 40 := hptr
    have hzero : ip4GetFragmentOffset smallMtu.headerOffset shortPacket = 0 := by decide
    rw [hzero]
    omega
  obtain ⟨r, hr, hres⟩ := ip4Frag_reassembles smallMtu 0 shortPacket (by decide) hencap
    ⟨by decide, by decide, by decide⟩ hoff
  have hrun : (ip4FragDoFragment smallMtu 0 shortPacket).map (fun r => (r.error, r.buffer.length)) =
      some (none, 2) := by
    decide
  rw [hr] at hrun
  obtain ⟨herror, hcount⟩ := Prod.mk.inj (Option.some.inj hrun)
  exact ⟨r, hr, herror, hcount, hres herror⟩

end Vpp.Ip
