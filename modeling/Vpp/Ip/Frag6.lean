import Vpp.Ip.Frag4

namespace Vpp.Ip
open Vpp.Lib List

def protocolHopByHopOptions : Byte := 0

def protocolRoute : Byte := 43

def protocolFragmentation : Byte := 44

def protocolDestinationOptions : Byte := 60

/-- The index of the field that says which header is next, and the index of that header. -/
structure Walk where
  nextHeader : Nat
  payload : Nat
deriving DecidableEq

def Walk.skip (read : Nat → Byte) (protocol : Byte) (w : Walk) : Walk :=
  if read w.nextHeader = protocol then ⟨w.payload, w.payload + (read (w.payload + 1)).toNat * 8⟩ else w

def walkHeaders (read : Nat → Byte) (o : Nat) : Walk :=
  (((⟨o + 6, o + 40⟩ : Walk).skip read protocolHopByHopOptions).skip read protocolDestinationOptions).skip read
    protocolRoute

def readFrom (past : Nat → Byte) (packet : List Byte) (i : Nat) : Byte :=
  if i < packet.length then packet.getD i 0 else past i

def fragHdrSize : Nat := 8

def fragHdr (nextHdr : Byte) (identification : BitVec 32) : List Byte :=
  [nextHdr, 0, 0, 0] ++ leBytes 4 identification.toNat

def ip6FragHdrOffsetAndMore (offset : Nat) (more : Bool) : Nat := u16 (offset * 8 + more.toNat)

def ip6FragFields (e : FragBuffer) (addr headersLen initialOffset : Nat) (hasMore : Bool) (ptr rem : Nat)
    (b : List Byte) : List Byte :=
  let o := e.headerOffset
  let b := set16 b (headersLen - fragHdrSize + 2)
    (ip6FragHdrOffsetAndMore (initialOffset + ptr / 8) (decide (rem ≠ 0) || hasMore))
  let b := set16 b (o + 4) (u16 (sub64 (sub64 b.length o) 40))
  encapsulate e.flags addr b

def ip6FragLoop (e : FragBuffer) (headersLen maxPayload initialOffset : Nat) (hasMore : Bool) :
    Nat → FragState → Option (Option IpFragError × FragState) :=
  fragLoop e.alloc headersLen maxPayload (maxPayload / 8 * 8) fun i ptr len rem =>
    ip6FragFields e (e.addr i) headersLen initialOffset hasMore ptr (rem - len)

def ip6FragPayload (e : FragBuffer) (runningFragmentId : BitVec 32) (packet : List Byte) (fragHdrAt initialOffset : Nat)
    (hasMore : Bool) : Option IpFragResult :=
  let headersLen := u16 (fragHdrAt + fragHdrSize)
  let maxPayload := u16 (e.mtu + 2 ^ 16 - headersLen)
  let rem := u16 (packet.length + 2 ^ 16 - headersLen)
  if maxPayload < 8 then some ⟨some .cantFragmentHeader, [], runningFragmentId⟩
  else
    (ip6FragLoop e headersLen maxPayload initialOffset hasMore rem ⟨packet, [], 0, rem⟩).map fun r =>
      ⟨r.1, r.2.buffer, runningFragmentId⟩

def ip6FragDoFragment (e : FragBuffer) (past : Nat → Byte) (runningFragmentId : BitVec 32) (packet : List Byte) :
    Option IpFragResult :=
  let read := readFrom past packet
  let w := walkHeaders read e.headerOffset
  if packet.length ≤ w.payload then some ⟨some .malformed, [], runningFragmentId⟩
  else if read w.nextHeader = protocolFragmentation then
    let v := (read (w.payload + 2)).toNat * 256 + (read (w.payload + 3)).toNat
    ip6FragPayload e runningFragmentId packet w.payload (v / 8) (v.testBit 0)
  else
    let nh := packet.getD w.nextHeader 0
    let packet := packet.set w.nextHeader protocolFragmentation
    let runningFragmentId := runningFragmentId + 1
    ip6FragPayload e runningFragmentId
      (packet.take w.payload ++ fragHdr nh runningFragmentId ++ packet.drop w.payload) w.payload 0 false

/-- The encapsulating header is before the one to fragment, or is that one. -/
def EncapOk (e : FragBuffer) : Prop :=
  (∀ j, EncapBytes e.flags j → j < e.headerOffset) ∨ (e.headerOffset = 0 ∧ e.flags &&& ipFragFlagIp4Header = 0)

theorem EncapOk.bytes (h : EncapOk e) (hj : EncapBytes e.flags j) :
    j < e.headerOffset ∨ (e.headerOffset + 4 ≤ j ∧ j < e.headerOffset + 6) := by
  obtain hbefore | ⟨hzero, hflag⟩ := h
  · exact .inl (hbefore j hj)
  · rw [EncapBytes, if_neg (not_not.mpr hflag)] at hj
    split at hj
    · exact .inr (by omega)
    · exact hj.elim

/-- The bytes of the headers that a fragment has of its own, with the fragment header at `u`. -/
def FragBytes6 (e : FragBuffer) (u j : Nat) : Prop :=
  (u + 2 ≤ j ∧ j < u + 4) ∨ (e.headerOffset + 4 ≤ j ∧ j < e.headerOffset + 6) ∨ EncapBytes e.flags j

structure Fields6 (o u initialOffset : Nat) (hasMore : Bool) (f : List Byte) (ptr len : Nat) (notLast : Bool) :
    Prop where
  value : get16 f (u + 2) = (initialOffset + ptr / 8) * 8 + (notLast || hasMore).toNat
  total : get16 f (o + 4) + o + 40 = f.length

theorem fields6_of_spec {e : FragBuffer} (hencap : EncapOk e) (hu : e.headerOffset + 40 ≤ u)
    (hb : b.length = u + 8 + len) (hsize : b.length < 2 ^ 16) (hoff : initialOffset + ptr / 8 < 2 ^ 13)
    (hrem : len ≤ rem) (addr : Nat) (hasMore : Bool) :
    let f := ip6FragFields e addr (u + 8) initialOffset hasMore ptr (rem - len) b
    SameOutside (FragBytes6 e u) b f ∧
      Fields6 e.headerOffset u initialOffset hasMore f ptr len (decide (len ≠ rem)) := by
  intro f
  let o := e.headerOffset
  let v := ip6FragHdrOffsetAndMore (initialOffset + ptr / 8) (decide (rem - len ≠ 0) || hasMore)
  let b1 := set16 b (u + 2) v
  let b2 := set16 b1 (o + 4) (u16 (sub64 (sub64 b1.length o) 40))
  have hf : f = encapsulate e.flags addr b2 := by
    rfl
  have hlast : decide (rem - len ≠ 0) = decide (len ≠ rem) := by
    apply decide_eq_decide.mpr
    omega
  have hbit : (decide (len ≠ rem) || hasMore).toNat ≤ 1 := Bool.toNat_le _
  have hv : v = (initialOffset + ptr / 8) * 8 + (decide (len ≠ rem) || hasMore).toNat := by
    rw [← hlast] at hbit ⊢
    exact Nat.mod_eq_of_lt (by omega)
  have h1 : SameOutside (fun j => u + 2 ≤ j ∧ j < u + 2 + 2) b b1 := sameOutside_set16 (by omega) _
  have h2 : SameOutside (fun j => o + 4 ≤ j ∧ j < o + 4 + 2) b1 b2 := sameOutside_set16 (by rw [h1.length]; omega) _
  have h3 : SameOutside (EncapBytes e.flags) b2 f :=
    sameOutside_encapsulate (by rw [h2.length, h1.length]; omega) _ _
  have hlen2 : get16 b2 (o + 4) = b.length - o - 40 := by
    have hinner : sub64 b.length o = b.length - o := sub64_of_le (by omega) (by omega)
    have hval : u16 (sub64 (sub64 b1.length o) 40) = b.length - o - 40 := by
      rw [h1.length, hinner, sub64_of_le (by omega) (by omega)]
      exact Nat.mod_eq_of_lt (by omega)
    rw [show b2 = set16 b1 (o + 4) (u16 (sub64 (sub64 b1.length o) 40)) from rfl, hval]
    exact get16_set16 (by rw [h1.length]; omega) (by omega)
  have hlenf : f.length = b.length := by
    rw [h3.length, h2.length, h1.length]
  refine ⟨?_, ?_, ?_⟩
  · refine (h1.mono ?_).trans ((h2.mono ?_).trans (h3.mono ?_))
    · intro j hj
      exact .inl (by omega)
    · intro j hj
      exact .inr (.inl (by omega))
    · intro j hj
      exact .inr (.inr hj)
  · have hkeep : SameOutside (fun j => ¬ (u + 2 ≤ j ∧ j < u + 4)) b1 f := by
      refine (h2.mono ?_).trans (h3.mono ?_)
      · intro j hj
        omega
      · intro j hj
        have := hencap.bytes hj
        omega
    rw [hkeep.get16 (by omega) (by omega), ← hv]
    exact get16_set16 (by omega) (by omega)
  · obtain hbefore | ⟨hzero, hflag⟩ := hencap
    · have hkeep : SameOutside (fun j => ¬ (o + 4 ≤ j ∧ j < o + 6)) b2 f := by
        apply h3.mono
        intro j hj
        have := hbefore j hj
        omega
      rw [hkeep.get16 (by omega) (by omega), hlen2, hlenf]
      omega
    · rw [hlenf, hf, encapsulate, if_neg (not_not.mpr hflag)]
      have ho : o = 0 := hzero
      split
      · have hval : u16 (sub64 b2.length 40) = b.length - 40 := by
          rw [h2.length, h1.length, sub64_of_le (by omega) (by omega)]
          exact Nat.mod_eq_of_lt (by omega)
        rw [hval, hzero, get16_set16 (by rw [h2.length, h1.length]; omega) (by omega)]
        omega
      · rw [hlen2]
        omega

/-- Step over an extension header, whose length does not count its first eight bytes. -/
def Walk.skipWhole (packet : List Byte) (protocol : Byte) (w : Walk) : Walk :=
  if packet.getD w.nextHeader 0 = protocol then
    ⟨w.payload, w.payload + ((packet.getD (w.payload + 1) 0).toNat + 1) * 8⟩
  else w

/-- The headers that every fragment has to carry: where they say what is next, and where they end. -/
def unfragmentable (o : Nat) (packet : List Byte) : Walk :=
  (((⟨o + 6, o + 40⟩ : Walk).skipWhole packet protocolHopByHopOptions).skipWhole packet
    protocolDestinationOptions).skipWhole packet protocolRoute

def IsFragmented (o : Nat) (packet : List Byte) : Prop :=
  packet.getD (unfragmentable o packet).nextHeader 0 = protocolFragmentation

instance : Decidable (IsFragmented o packet) := inferInstanceAs (Decidable (_ = _))

def offsetAndMore (u : Nat) (f : List Byte) : Nat := get16 f (u + 2)

def identification (u : Nat) (f : List Byte) : List Byte := (List.range 4).map fun k => f.getD (u + 4 + k) 0

/-- Where the part that can be cut starts, its offset in a larger packet and whether more of that follows. -/
def fragmentable (o : Nat) (packet : List Byte) : Nat × Nat × Bool :=
  let u := (unfragmentable o packet).payload
  if IsFragmented o packet then
    (u + fragHdrSize, offsetAndMore u packet / 8, (offsetAndMore u packet).testBit 0)
  else (u, 0, false)

/-- A packet in one buffer with room for a fragment header. When it is a fragment, its offsets fit their field. -/
structure IsPacket6 (o : Nat) (packet : List Byte) : Prop where
  header : o + 40 ≤ packet.length
  size : packet.length + fragHdrSize < 2 ^ 16
  length : get16 packet (o + 4) + o + 40 = packet.length
  chain : (fragmentable o packet).1 ≤ packet.length
  offsets : ∀ ptr, (fragmentable o packet).1 + ptr < packet.length → (fragmentable o packet).2.1 + ptr / 8 < 2 ^ 13

/-- Fragments that give a packet when they are put together again. -/
structure Reassembles6 (e : FragBuffer) (packet : List Byte) (fs : List (List Byte)) : Prop where
  nonempty : fs ≠ []
  pieces : Pieces 8 (List.drop ((unfragmentable e.headerOffset packet).payload + fragHdrSize))
    (fun f => offsetAndMore (unfragmentable e.headerOffset packet).payload f / 8 * 8)
    (fun f => (offsetAndMore (unfragmentable e.headerOffset packet).payload f).testBit 0)
    (8 * (fragmentable e.headerOffset packet).2.1) (fragmentable e.headerOffset packet).2.2
    (packet.drop (fragmentable e.headerOffset packet).1) fs
  nextHeader : ∀ f ∈ fs, f.getD (unfragmentable e.headerOffset packet).nextHeader 0 = protocolFragmentation
  carried : ∀ f ∈ fs, f.getD (unfragmentable e.headerOffset packet).payload 0 =
    packet.getD (if IsFragmented e.headerOffset packet then (unfragmentable e.headerOffset packet).payload
      else (unfragmentable e.headerOffset packet).nextHeader) 0
  id : ∃ id, (∀ f ∈ fs, identification (unfragmentable e.headerOffset packet).payload f = id) ∧
    (IsFragmented e.headerOffset packet → id = identification (unfragmentable e.headerOffset packet).payload packet)
  fits : ∀ f ∈ fs, f.length ≤ e.mtu
  length : ∀ f ∈ fs, get16 f (e.headerOffset + 4) + e.headerOffset + 40 = f.length
  intact : ∀ f ∈ fs, ∀ j < (unfragmentable e.headerOffset packet).payload,
    j ≠ (unfragmentable e.headerOffset packet).nextHeader → ¬ (e.headerOffset + 4 ≤ j ∧ j < e.headerOffset + 6) →
    ¬ EncapBytes e.flags j → f.getD j 0 = packet.getD j 0

def Plain (o : Nat) (packet : List Byte) : Prop :=
  packet.getD (o + 6) 0 ≠ protocolHopByHopOptions ∧ packet.getD (o + 6) 0 ≠ protocolDestinationOptions ∧
    packet.getD (o + 6) 0 ≠ protocolRoute

instance : Decidable (Plain o packet) := inferInstanceAs (Decidable (_ ∧ _ ∧ _))

theorem Plain.unfragmentable (h : Plain o packet) : unfragmentable o packet = ⟨o + 6, o + 40⟩ := by
  obtain ⟨h1, h2, h3⟩ := h
  simp only [Ip.unfragmentable, Walk.skipWhole, if_neg h1, if_neg h2, if_neg h3]

theorem Plain.walkHeaders (h : Plain o packet) (hlen : o + 40 ≤ packet.length) (past : Nat → Byte) :
    walkHeaders (readFrom past packet) o = ⟨o + 6, o + 40⟩ := by
  obtain ⟨h1, h2, h3⟩ := h
  have hread : readFrom past packet (o + 6) = packet.getD (o + 6) 0 := if_pos (by omega)
  simp only [Ip.walkHeaders, Walk.skip, hread, if_neg h1, if_neg h2, if_neg h3]

/-- The fragments of a packet that has its fragment header at `u`. -/
abbrev IsFragment6 (e : FragBuffer) (packet : List Byte) (u initialOffset : Nat) (hasMore : Bool) :
    List Byte → Nat → Nat → Bool → Prop :=
  IsPiece (u + fragHdrSize) (e.mtu - (u + fragHdrSize)) (FragBytes6 e u)
    (Fields6 e.headerOffset u initialOffset hasMore) packet

theorem fragBytes6_lt (hencap : EncapOk e) (hu : e.headerOffset + 40 ≤ u) (hj : FragBytes6 e u j) :
    j < u + fragHdrSize := by
  rw [fragHdrSize]
  obtain h1 | h2 | h3 := hj
  · omega
  · omega
  · have := hencap.bytes h3
    omega

theorem ip6FragPayload_cut {e : FragBuffer} {packet : List Byte} (hencap : EncapOk e) (hu : e.headerOffset + 40 ≤ u)
    (hroom : u + fragHdrSize + 8 ≤ e.mtu) (hsize : packet.length < 2 ^ 16) (hdata : u + fragHdrSize < packet.length)
    (hoff : ∀ ptr, u + fragHdrSize + ptr < packet.length → initialOffset + ptr / 8 < 2 ^ 13)
    (runningFragmentId : BitVec 32) (hasMore : Bool) :
    ∃ r, ip6FragPayload e runningFragmentId packet u initialOffset hasMore = some r ∧
      ((r.error = none ∧ Cut 8 (IsFragment6 e packet u initialOffset hasMore) 0 (packet.length - (u + fragHdrSize))
        r.buffer) ∨ r.error = some .memory) := by
  have hmtu := e.mtu_lt
  have hheaders : u16 (u + fragHdrSize) = u + fragHdrSize := Nat.mod_eq_of_lt (by omega)
  have hmax : u16 (e.mtu + 2 ^ 16 - (u + fragHdrSize)) = e.mtu - (u + fragHdrSize) := by
    rw [u16]
    omega
  have hrem : u16 (packet.length + 2 ^ 16 - (u + fragHdrSize)) = packet.length - (u + fragHdrSize) := by
    rw [u16]
    omega
  have hroom8 : 8 ≤ e.mtu - (u + fragHdrSize) := by omega
  simp only [ip6FragPayload, hheaders, hmax, hrem]
  rw [if_neg (by omega)]
  obtain ⟨r, hr, hres⟩ := fragLoop_start e.alloc (T := FragBytes6 e u)
    (Q := Fields6 e.headerOffset u initialOffset hasMore) (fun j hj => fragBytes6_lt hencap hu hj) hroom8 hsize
    (fun i ptr len rem b hb hfit hle hptr _ => by
      simp only [fragHdrSize] at hb hfit hroom
      exact fields6_of_spec hencap hu hb (by omega) (hoff ptr hptr) hle (e.addr i) hasMore)
    (by omega : packet.length - (u + fragHdrSize) ≠ 0) (by omega)
  have hr' : ip6FragLoop e (u + fragHdrSize) (e.mtu - (u + fragHdrSize)) initialOffset hasMore
      (packet.length - (u + fragHdrSize)) ⟨packet, [], 0, packet.length - (u + fragHdrSize)⟩ = some r := hr
  rw [hr']
  exact ⟨_, rfl, hres⟩

/-- The packet with its fragment header, against the packet as it came. -/
structure Inserted (o : Nat) (packet packet' : List Byte) : Prop where
  data : packet'.drop ((unfragmentable o packet).payload + fragHdrSize) = packet.drop (fragmentable o packet).1
  nextHeader : packet'.getD (unfragmentable o packet).nextHeader 0 = protocolFragmentation
  carried : packet'.getD (unfragmentable o packet).payload 0 =
    packet.getD (if IsFragmented o packet then (unfragmentable o packet).payload
      else (unfragmentable o packet).nextHeader) 0
  id : IsFragmented o packet →
    identification (unfragmentable o packet).payload packet' = identification (unfragmentable o packet).payload packet
  same : ∀ j < (unfragmentable o packet).payload, j ≠ (unfragmentable o packet).nextHeader →
    packet'.getD j 0 = packet.getD j 0

theorem reassembles6_of_cut (hplain : Plain e.headerOffset packet) (hencap : EncapOk e)
    (hins : Inserted e.headerOffset packet packet') (hroom : e.headerOffset + 40 + fragHdrSize + 8 ≤ e.mtu)
    (hdata : e.headerOffset + 40 + fragHdrSize < packet'.length)
    (hcut : Cut 8 (IsFragment6 e packet' (e.headerOffset + 40) (fragmentable e.headerOffset packet).2.1
      (fragmentable e.headerOffset packet).2.2) 0 (packet'.length - (e.headerOffset + 40 + fragHdrSize)) fs) :
    Reassembles6 e packet fs := by
  obtain ⟨hdrop, hnext, hcarried, hid, hsame⟩ := hins
  have hnh : (unfragmentable e.headerOffset packet).nextHeader = e.headerOffset + 6 := by rw [hplain.unfragmentable]
  have hpay : (unfragmentable e.headerOffset packet).payload = e.headerOffset + 40 := by rw [hplain.unfragmentable]
  rw [hpay] at hdrop hid
  rw [hnh] at hnext
  rw [hnh, hpay] at hcarried
  have houtside : ∀ j, e.headerOffset + 6 ≤ j → (j < e.headerOffset + 42 ∨ e.headerOffset + 44 ≤ j) →
      ¬ FragBytes6 e (e.headerOffset + 40) j := by
    intro j hge hnot hj
    obtain h1 | h2 | h3 := hj
    · omega
    · omega
    · have := hencap.bytes h3
      omega
  have hlen : packet'.length - (e.headerOffset + 40 + fragHdrSize) =
      (packet.drop (fragmentable e.headerOffset packet).1).length := by
    rw [← hdrop, length_drop]
  refine ⟨hcut.rest_nonempty (by omega), ?_, ?_, ?_, ⟨identification (e.headerOffset + 40) packet', ?_, ?_⟩, ?_, ?_, ?_⟩
  · rw [hpay]
    apply hcut.pieces_all (by omega) hlen
    · intro f ptr len more hf
      rw [hf.data, ← hdrop, drop_drop]
    · intro f ptr len more hf
      have hbit : (more || (fragmentable e.headerOffset packet).2.2).toNat ≤ 1 := Bool.toNat_le _
      have hptr := Nat.div_mul_cancel hf.aligned
      rw [offsetAndMore, hf.fields.value]
      omega
    · intro f ptr len more hf
      rw [offsetAndMore, hf.fields.value, Nat.testBit_zero]
      cases (more || (fragmentable e.headerOffset packet).2.2)
      · rw [Bool.toNat_false, decide_eq_false_iff_not]
        omega
      · rw [Bool.toNat_true, decide_eq_true_iff]
        omega
  · rw [hnh]
    refine hcut.forall fun f ptr len more hf => ?_
    rw [hf.same _ (by rw [fragHdrSize]; omega) (houtside _ (by omega) (by omega))]
    exact hnext
  · rw [hnh, hpay]
    refine hcut.forall fun f ptr len more hf => ?_
    rw [hf.same _ (by rw [fragHdrSize]; omega) (houtside _ (by omega) (by omega))]
    exact hcarried
  · rw [hpay]
    refine hcut.forall fun f ptr len more hf => ?_
    apply map_congr_left
    intro k hk
    have hk4 := mem_range.mp hk
    exact hf.same _ (by rw [fragHdrSize]; omega) (houtside _ (by omega) (by omega))
  · rw [hpay]
    exact hid
  · refine hcut.forall fun f ptr len more hf => ?_
    have hfits := hf.fits
    rw [hf.length]
    omega
  · exact hcut.forall fun f ptr len more hf => hf.fields.total
  · refine hcut.forall fun f ptr len more hf j hj hne h46 hen => ?_
    have hj40 : j < e.headerOffset + 40 := hpay ▸ hj
    have hnot : ¬ FragBytes6 e (e.headerOffset + 40) j := by
      intro hbytes
      obtain h1 | h2 | h3 := hbytes
      · omega
      · exact h46 h2
      · exact hen h3
    rw [hf.same j (Nat.lt_of_lt_of_le hj40 (Nat.le_add_right _ _)) hnot]
    exact hsame j hj hne

theorem inserted_self (hfrag : IsFragmented o packet) : Inserted o packet packet := by
  refine ⟨?_, hfrag, ?_, fun _ => rfl, fun _ _ _ => rfl⟩
  · rw [fragmentable, if_pos hfrag]
  · rw [if_pos hfrag]

theorem length_insert {packet : List Byte} (hlen : u ≤ packet.length) (n : Nat) (nh : Byte) (id : BitVec 32)
    (a : Byte) :
    ((packet.set n a).take u ++ fragHdr nh id ++ (packet.set n a).drop u).length = packet.length + fragHdrSize := by
  have hhdr : (fragHdr nh id).length = 8 := by
    rw [fragHdr, length_append, length_leBytes]
    rfl
  rw [length_append, length_append, hhdr, length_take, length_drop, length_set, fragHdrSize]
  omega

theorem inserted_insert (hplain : Plain o packet) (hfrag : ¬ IsFragmented o packet) (hlen : o + 40 ≤ packet.length)
    (id : BitVec 32) :
    let p := packet.set (o + 6) protocolFragmentation
    Inserted o packet (p.take (o + 40) ++ fragHdr (packet.getD (o + 6) 0) id ++ p.drop (o + 40)) := by
  intro p
  have hnh : (unfragmentable o packet).nextHeader = o + 6 := by rw [hplain.unfragmentable]
  have hpay : (unfragmentable o packet).payload = o + 40 := by rw [hplain.unfragmentable]
  have hhdr : (fragHdr (packet.getD (o + 6) 0) id).length = 8 := by
    rw [fragHdr, length_append, length_leBytes]
    rfl
  have htake : (p.take (o + 40)).length = o + 40 := by
    rw [length_take, length_set]
    omega
  have hhead : (p.take (o + 40) ++ fragHdr (packet.getD (o + 6) 0) id).length = o + 40 + 8 := by
    rw [length_append, htake, hhdr]
  have hlow : ∀ j < o + 40, (p.take (o + 40) ++ fragHdr (packet.getD (o + 6) 0) id ++ p.drop (o + 40)).getD j 0 =
      if o + 6 = j then protocolFragmentation else packet.getD j 0 := by
    intro j hj
    rw [getD_eq_getElem?_getD, List.append_assoc, getElem?_append_left (by omega),
      getElem?_take_of_lt hj, getElem?_set, if_pos (by omega : o + 6 < packet.length)]
    split
    · rfl
    · rw [getD_eq_getElem?_getD]
  constructor
  · rw [fragmentable, if_neg hfrag, hpay, fragHdrSize, drop_left' hhead]
    exact drop_set_of_lt (by omega)
  · rw [hnh, hlow _ (by omega), if_pos rfl]
  · rw [if_neg hfrag, hnh, hpay, getD_eq_getElem?_getD, List.append_assoc,
      getElem?_append_right (by omega), htake, Nat.sub_self]
    rfl
  · exact fun hbad => absurd hbad hfrag
  · intro j hj hne
    rw [hpay] at hj
    rw [hnh] at hne
    rw [hlow j hj, if_neg (Ne.symm hne)]

/-- The packet with its fragment header is cut into fragments of the packet, when there is something to cut. -/
theorem ip6FragPayload_reassembles (hplain : Plain e.headerOffset packet) (hencap : EncapOk e)
    (hp : IsPacket6 e.headerOffset packet) (hroom : e.headerOffset + 40 + fragHdrSize + 8 ≤ e.mtu)
    (hins : Inserted e.headerOffset packet packet') (hsize : packet'.length < 2 ^ 16)
    (hlen : packet'.length = e.headerOffset + 40 + fragHdrSize +
        (packet.length - (fragmentable e.headerOffset packet).1))
    (runningFragmentId : BitVec 32) :
    ∃ r, ip6FragPayload e runningFragmentId packet' (e.headerOffset + 40) (fragmentable e.headerOffset packet).2.1
        (fragmentable e.headerOffset packet).2.2 = some r ∧
      (r.error = some .memory ∨
        (Reassembles6 e packet r.buffer ↔ (fragmentable e.headerOffset packet).1 < packet.length)) := by
  by_cases hdata : (fragmentable e.headerOffset packet).1 < packet.length
  · have hdata' : e.headerOffset + 40 + fragHdrSize < packet'.length := by omega
    obtain ⟨r, hr, hres⟩ := ip6FragPayload_cut hencap (Nat.le_refl _) hroom hsize hdata'
      (fun ptr hptr => hp.offsets ptr (by omega)) runningFragmentId (fragmentable e.headerOffset packet).2.2
    refine ⟨r, hr, ?_⟩
    obtain ⟨_, hcut⟩ | hmem := hres
    · exact .inr (iff_of_true (reassembles6_of_cut hplain hencap hins hroom hdata' hcut) hdata)
    · exact .inl hmem
  · have hmtu := e.mtu_lt
    have hheaders : u16 (e.headerOffset + 40 + fragHdrSize) = e.headerOffset + 40 + fragHdrSize :=
      Nat.mod_eq_of_lt (by omega)
    have hmax : u16 (e.mtu + 2 ^ 16 - (e.headerOffset + 40 + fragHdrSize)) =
        e.mtu - (e.headerOffset + 40 + fragHdrSize) := by
      rw [u16]
      omega
    have hrem : u16 (packet'.length + 2 ^ 16 - (e.headerOffset + 40 + fragHdrSize)) = 0 := by
      rw [u16]
      omega
    simp only [ip6FragPayload, hheaders, hmax, hrem]
    rw [if_neg (by omega)]
    refine ⟨_, rfl, .inr (iff_of_false ?_ hdata)⟩
    intro hbad
    exact hbad.nonempty rfl

/-- Without an extension header in front, the fragments of a packet give the packet again exactly when it has data. -/
theorem ip6Frag_reassembles (e : FragBuffer) (past : Nat → Byte) (runningFragmentId : BitVec 32) (packet : List Byte)
    (hencap : EncapOk e) (hp : IsPacket6 e.headerOffset packet)
    (hroom : (unfragmentable e.headerOffset packet).payload + fragHdrSize + 8 ≤ e.mtu)
    (hplain : Plain e.headerOffset packet) :
    ∃ r, ip6FragDoFragment e past runningFragmentId packet = some r ∧
      (r.error = some .memory ∨
        (Reassembles6 e packet r.buffer ↔ (fragmentable e.headerOffset packet).1 < packet.length)) := by
  have hheader := hp.header
  have hsize := hp.size
  have hchain := hp.chain
  have hnh : (unfragmentable e.headerOffset packet).nextHeader = e.headerOffset + 6 := by rw [hplain.unfragmentable]
  have hpay : (unfragmentable e.headerOffset packet).payload = e.headerOffset + 40 := by rw [hplain.unfragmentable]
  have hread : ∀ i < packet.length, readFrom past packet i = packet.getD i 0 := fun i hi => if_pos hi
  have hread6 := hread (e.headerOffset + 6) (by omega)
  rw [hpay] at hroom
  simp only [ip6FragDoFragment, hplain.walkHeaders hheader past, hread6]
  by_cases hfrag : IsFragmented e.headerOffset packet
  · have hstart : fragmentable e.headerOffset packet = (e.headerOffset + 40 + fragHdrSize,
        offsetAndMore (e.headerOffset + 40) packet / 8, (offsetAndMore (e.headerOffset + 40) packet).testBit 0) := by
      rw [fragmentable, if_pos hfrag, hpay]
    have hproto : packet.getD (e.headerOffset + 6) 0 = protocolFragmentation := hnh ▸ hfrag
    rw [hstart, fragHdrSize] at hchain
    simp only at hchain
    have hins := inserted_self hfrag
    have hlen : packet.length = e.headerOffset + 40 + fragHdrSize +
        (packet.length - (fragmentable e.headerOffset packet).1) := by
      rw [hstart, fragHdrSize]
      simp only
      omega
    have hres := ip6FragPayload_reassembles hplain hencap hp hroom hins (by omega) hlen runningFragmentId
    rw [if_neg (by omega), if_pos hproto, hread _ (by omega), hread _ (by omega)]
    rw [hstart] at hres ⊢
    exact hres
  · have hstart : fragmentable e.headerOffset packet = (e.headerOffset + 40, 0, false) := by
      rw [fragmentable, if_neg hfrag, hpay]
    have hproto : ¬ packet.getD (e.headerOffset + 6) 0 = protocolFragmentation := by
      rw [IsFragmented, hnh] at hfrag
      exact hfrag
    have hins := inserted_insert hplain hfrag hheader (runningFragmentId + 1)
    have hlen := length_insert hheader (e.headerOffset + 6) (packet.getD (e.headerOffset + 6) 0) (runningFragmentId + 1)
      protocolFragmentation
    by_cases hdata : packet.length ≤ e.headerOffset + 40
    · rw [if_pos hdata]
      refine ⟨_, rfl, .inr (iff_of_false (fun hbad => hbad.nonempty rfl) ?_)⟩
      rw [hstart]
      simp only
      omega
    · rw [if_neg hdata, if_neg hproto]
      have hlen' := hlen
      rw [show packet.length + fragHdrSize = e.headerOffset + 40 + fragHdrSize +
        (packet.length - (fragmentable e.headerOffset packet).1) by rw [hstart]; simp only; omega] at hlen'
      have hres := ip6FragPayload_reassembles hplain hencap hp hroom hins (by omega) hlen' (runningFragmentId + 1)
      rw [hstart] at hres ⊢
      exact hres

def ip6Mtu (mtu : Nat) (h : mtu < 2 ^ 16) : FragBuffer := ⟨0, mtu, h, 0, fun _ => true, fun _ => 0⟩

def ip6Packet (payloadLength nextHeader : Byte) (payload : List Byte) : List Byte :=
  [0x60, 0, 0, 0, 0, payloadLength, nextHeader, 64] ++ List.replicate 32 0 ++ payload

def udpData : List Byte := [0, 1, 2, 3, 4, 5, 6, 7, 8, 9, 10, 11, 12, 13, 14, 15, 16, 17, 18, 19]

theorem ip6Frag_reassembles_udp :
    ∃ r, ip6FragDoFragment (ip6Mtu 64 (by decide)) (fun _ => 0) 0 (ip6Packet 20 17 udpData) = some r ∧
      r.buffer.length = 2 ∧ Reassembles6 (ip6Mtu 64 (by decide)) (ip6Packet 20 17 udpData) r.buffer := by
  have hp : IsPacket6 0 (ip6Packet 20 17 udpData) := by
    refine ⟨by decide, by decide, by decide, by decide, ?_⟩
    intro ptr hptr
    have hlen : (fragmentable 0 (ip6Packet 20 17 udpData)).1 + ptr < 60 := hptr
    have hzero : (fragmentable 0 (ip6Packet 20 17 udpData)).2.1 = 0 := by decide
    rw [hzero]
    omega
  obtain ⟨r, hr, hres⟩ := ip6Frag_reassembles (ip6Mtu 64 (by decide)) (fun _ => 0) 0 (ip6Packet 20 17 udpData)
    (.inr ⟨rfl, by decide⟩) hp (by decide) (by decide)
  have hrun : (ip6FragDoFragment (ip6Mtu 64 (by decide)) (fun _ => 0) 0 (ip6Packet 20 17 udpData)).map
      (fun r => (r.error, r.buffer.length)) = some (none, 2) := by
    decide
  rw [hr] at hrun
  obtain ⟨herror, hcount⟩ := Prod.mk.inj (Option.some.inj hrun)
  refine ⟨r, hr, hcount, ?_⟩
  obtain hmem | hiff := hres
  · rw [herror] at hmem
    exact nomatch hmem
  · exact hiff.mpr (by decide)

/-- A header of options for every hop comes first, and the fragment header goes before it. -/
theorem ip6Frag_reassembles_fails :
    let packet := ip6Packet 28 0 ([17, 0, 1, 4, 0, 0, 0, 0] ++ udpData)
    IsPacket6 0 packet ∧ (unfragmentable 0 packet).payload + fragHdrSize + 8 ≤ 1280 ∧
      ∃ r, ip6FragDoFragment (ip6Mtu 1280 (by decide)) (fun _ => 0) 0 packet = some r ∧ r.error = none ∧
        ¬ Reassembles6 (ip6Mtu 1280 (by decide)) packet r.buffer := by
  intro packet
  have hp : IsPacket6 0 packet := by
    refine ⟨by decide, by decide, by decide, by decide, ?_⟩
    intro ptr hptr
    have hlen : (fragmentable 0 packet).1 + ptr < 68 := hptr
    have hzero : (fragmentable 0 packet).2.1 = 0 := by decide
    rw [hzero]
    omega
  refine ⟨hp, by decide, ?_⟩
  have hrun : (ip6FragDoFragment (ip6Mtu 1280 (by decide)) (fun _ => 0) 0 packet).map
      (fun r => (r.error, r.buffer.map fun f => f.getD 40 0)) = some (none, [17]) := by
    decide
  obtain ⟨r, hr, hfields⟩ := Option.map_eq_some_iff.mp hrun
  obtain ⟨herror, hbytes⟩ := Prod.mk.inj hfields
  refine ⟨r, hr, herror, fun hbad => ?_⟩
  obtain ⟨f, hf, hbyte⟩ := List.mem_map.mp (hbytes ▸ mem_singleton_self (17 : Byte))
  have hnext := hbad.nextHeader f hf
  have h40 : (unfragmentable (ip6Mtu 1280 (by decide)).headerOffset packet).nextHeader = 40 := by decide
  rw [h40, hbyte] at hnext
  exact absurd hnext (by decide)

end Vpp.Ip
