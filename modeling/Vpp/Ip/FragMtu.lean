import Vpp.Ip.FragRun

namespace Vpp.Ip
open Vpp.Lib

section

variable {max : Nat}

/-- Every buffer in the vector has its length from a fragment, but for the first one before the first turn. -/
def FragRun.Within (pi mtu : Nat) (s : FragRun) : Prop :=
  ∀ bi ∈ s.buffer, (s.ptr = 0 → bi = pi) ∧ (s.ptr ≠ 0 → s.currentLength bi ≤ mtu)

theorem FragRun.Within.turn (hs : FragRun.Within pi mtu s) (hfirst : ∀ bi ∈ first, bi = pi)
    (ht : s.turn pi h len first = some s') (hfit : u16 (h + len) ≤ mtu) (hptr : s'.ptr ≠ 0) :
    FragRun.Within pi mtu s' := by
  intro bi hbi
  apply And.intro (fun h0 => absurd h0 hptr)
  intro _
  obtain ⟨h0, rfl⟩ | ⟨h0, bi', free, _, rfl⟩ := FragRun.turn_eq_some ht
  · have heq : bi = pi := by
      obtain hold | hnew := List.mem_append.mp hbi
      · exact (hs bi hold).1 h0
      · exact hfirst bi hnew
    rw [heq, FragRun.emit_currentLength]
    exact hfit
  · by_cases heq : bi = bi'
    · rw [heq, FragRun.emit_currentLength]
      exact hfit
    · rw [FragRun.emit_currentLength_of_ne heq]
      obtain hold | hnew := List.mem_append.mp hbi
      · exact (hs bi hold).2 h0
      · exact absurd (List.mem_singleton.mp hnew) heq

theorem fragRunLoop_within (hroom : 8 ≤ room) (hmtu : h + room ≤ mtu) (hfirst : ∀ bi ∈ first, bi = pi)
    (hsum : s.ptr + s.rem < 2 ^ 16) (hs : FragRun.Within pi mtu s)
    (hr : fragRunLoop pi h room (room / 8 * 8) first n s = some r) : FragRun.Within pi mtu r.2 := by
  have hI : FragRun.Within pi mtu r.2 ∧ r.2.ptr + r.2.rem = s.ptr + s.rem := by
    apply fragRunLoop_induct (I := fun t => FragRun.Within pi mtu t ∧ t.ptr + t.rem = s.ptr + s.rem) _ ⟨hs, rfl⟩ hr
    intro t t' hI hrem ht
    obtain ⟨hw, hkeep⟩ := hI
    obtain ⟨hpos, hle, hfit, _⟩ := cutLen_spec hroom hrem
    obtain ⟨hptr, hrem'⟩ := FragRun.turn_progress ht hle (by rw [hkeep]; exact hsum)
    have hcut : cutLen room (room / 8 * 8) t.rem = if room < t.rem then room / 8 * 8 else t.rem := rfl
    constructor
    · apply hw.turn hfirst ht
      · exact (Nat.mod_le _ _).trans ((Nat.add_le_add_left hfit h).trans hmtu)
      · rw [hptr, hcut]
        omega
    · rw [hptr, hrem', hcut]
      omega
  exact hI.1

/-- The loop ends, and without an error no buffer that is sent is longer than the mtu, whatever can be allocated. -/
def FragOk (mtu : Nat) (run : FragPool → Nat → Option (Option IpFragError × FragRun)) : Prop :=
  ∀ v, ∃ turns r, run v turns = some r ∧ (r.1 = none → ∀ bi ∈ r.2.buffer, r.2.currentLength bi ≤ mtu)

theorem fragOk_error {run : FragPool → Nat → Option (Option IpFragError × FragRun)} (e : IpFragError)
    (s : FragPool → FragRun) (hrun : ∀ v n, run v n = some (some e, s v)) : FragOk mtu run := by
  intro v
  exact ⟨0, _, hrun v 0, fun he => by cases he⟩

theorem fragOk_congr {run run' : FragPool → Nat → Option (Option IpFragError × FragRun)}
    (hrun : ∀ v n, run v n = run' v n) : FragOk mtu run ↔ FragOk mtu run' := by
  have heq : run = run' := funext fun v => funext (hrun v)
  rw [heq]

/-- The start of a loop, where the buffer to fragment comes into the vector now or with the first fragment. -/
structure StartsWith (buffer first : FragPool → List Nat) : Prop where
  whole : ∀ v, buffer v ++ first v = [v.pi]

theorem StartsWith.mem_first (h : StartsWith buffer first) (v : FragPool) : ∀ bi ∈ first v, bi = v.pi := by
  intro bi hbi
  have hmem : bi ∈ buffer v ++ first v := List.mem_append_right _ hbi
  rw [h.whole] at hmem
  exact List.mem_singleton.mp hmem

theorem StartsWith.within (h : StartsWith buffer first) (v : FragPool) (mtu length rem : Nat) :
    FragRun.Within v.pi mtu (v.start (buffer v) length rem) := by
  intro bi hbi
  have hmem : bi ∈ buffer v ++ first v := List.mem_append_left _ hbi
  rw [h.whole] at hmem
  exact ⟨fun _ => List.mem_singleton.mp hmem, fun hne => absurd rfl hne⟩

def onePool : FragPool := ⟨0, [1], by decide⟩

section Runs
variable {buffer first : FragPool → List Nat} (hstart : StartsWith buffer first)
include hstart

theorem fragOk_fits (hroom : 8 ≤ room) (hmtu : h + room ≤ mtu) (hne : rem ≠ 0) (hsize : rem < 2 ^ 16) :
    FragOk mtu fun v n =>
      fragRunLoop v.pi h room (room / 8 * 8) (first v) n (v.start (buffer v) length rem) := by
  intro v
  have hsum : (v.start (buffer v) length rem).ptr + (v.start (buffer v) length rem).rem < 2 ^ 16 := by
    rw [FragPool.start, Nat.zero_add]
    exact hsize
  have hends : ∃ r, fragRunLoop v.pi h room (room / 8 * 8) (first v) rem (v.start (buffer v) length rem) = some r :=
    fragRunLoop_ends hroom hsum (Nat.le_refl _)
  obtain ⟨r, hr⟩ := hends
  apply Exists.intro rem
  apply Exists.intro r
  apply And.intro hr
  intro _ bi hbi
  have hptr := fragRunLoop_ptr (Nat.div_mul_le_self room 8) hsum hne hr
  have hwithin := fragRunLoop_within hroom hmtu (hstart.mem_first v) hsum (hstart.within v mtu length rem) hr
  exact (hwithin bi hbi).2 hptr

/-- A packet that fits in what is taken for the room is one fragment. -/
theorem fragOk_single (hne : rem ≠ 0) (hfit : rem ≤ room) :
    (FragOk mtu fun v n => fragRunLoop v.pi h room max (first v) n (v.start (buffer v) length rem)) ↔
      u16 (h + rem) ≤ mtu := by
  have hone (v : FragPool) (n : Nat) :
      fragRunLoop v.pi h room max (first v) (n + 1) (v.start (buffer v) length rem) =
        some (none, { v.start (buffer v) length rem with buffer := buffer v ++ first v }.emit h rem v.pi) :=
    fragRunLoop_single rfl hne hfit n
  constructor
  · intro hok
    obtain ⟨turns, r, hr, hlen⟩ := hok onePool
    cases turns with
    | zero => cases (fragRunLoop_zero hne).symm.trans hr
    | succ n =>
      have heq := Option.some.inj ((hone onePool n).symm.trans hr)
      rw [← heq] at hlen
      have hmem : onePool.pi ∈ buffer onePool ++ first onePool := by
        rw [hstart.whole]
        exact List.mem_singleton_self _
      have hle := hlen rfl onePool.pi hmem
      rw [FragRun.emit_currentLength] at hle
      exact hle
  · intro hle v
    apply Exists.intro 1
    apply Exists.intro _
    apply And.intro (hone v 0)
    intro _ bi hbi
    have hpi : bi = v.pi := by
      have hmem : bi ∈ buffer v ++ first v := hbi
      rw [hstart.whole] at hmem
      exact List.mem_singleton.mp hmem
    rw [hpi, FragRun.emit_currentLength]
    exact hle

omit hstart in
/-- The second of two fragments has what the first one leaves. -/
theorem fragOk_pair (hpos : 0 < max) (hsize : rem < 2 ^ 16) (hfirst : room < rem) (hle : max < rem)
    (hfit : rem - max ≤ room)
    (hok : FragOk mtu fun v n => fragRunLoop v.pi h room max (first v) n (v.start (buffer v) length rem)) :
    u16 (h + (rem - max)) ≤ mtu := by
  let s := onePool.start (buffer onePool) length rem
  let s' := { s with buffer := s.buffer ++ first onePool }.emit h max onePool.pi
  have hne : s.rem ≠ 0 := Nat.ne_of_gt (Nat.zero_lt_of_lt hfirst)
  have hrem' : s'.rem = rem - max := by
    have hval : s'.rem = u16 (rem + 2 ^ 16 - max) := rfl
    rw [hval, u16]
    omega
  have hptr' : s'.ptr = max := by
    have hval : s'.ptr = u16 (0 + max) := rfl
    rw [hval, u16]
    omega
  have hturn : s.turn onePool.pi h (cutLen room max s.rem) (first onePool) = some s' := by
    have hlen : cutLen room max s.rem = max := if_pos hfirst
    have hzero : s.ptr = 0 := rfl
    rw [hlen, FragRun.turn, if_pos hzero]
  obtain ⟨turns, r, hr, hlen⟩ := hok onePool
  cases turns with
  | zero => cases (fragRunLoop_zero hne).symm.trans hr
  | succ n =>
    have hnext : fragRunLoop onePool.pi h room max (first onePool) n s' = some r := by
      rw [← hr]
      change _ = fragRunLoop onePool.pi h room max (first onePool) (n + 1) s
      rw [fragRunLoop, if_neg hne, hturn]
    cases n with
    | zero => cases (fragRunLoop_zero (by omega)).symm.trans hnext
    | succ m =>
      have hlast : fragRunLoop onePool.pi h room max (first onePool) (m + 1) s' =
          some (none, { s' with free := [], buffer := s'.buffer ++ [1], allocated := s'.allocated ++ [1] }.emit h
              s'.rem 1) :=
        fragRunLoop_last (by omega) (by omega) (by omega) rfl m
      have heq := Option.some.inj (hlast.symm.trans hnext)
      rw [← heq] at hlen
      have hle := hlen rfl 1 (List.mem_append_right _ (List.mem_singleton_self 1))
      rw [FragRun.emit_currentLength, hrem'] at hle
      exact hle

theorem fragOk_done (length mtu : Nat) :
    (FragOk mtu fun v n => fragRunLoop v.pi h room max (first v) n (v.start (buffer v) length 0)) ↔
      ∀ v, v.pi ∈ buffer v → length ≤ mtu := by
  have hdone (v : FragPool) (n : Nat) :
      fragRunLoop v.pi h room max (first v) n (v.start (buffer v) length 0) =
        some (none, v.start (buffer v) length 0) :=
    fragRunLoop_done rfl
  constructor
  · intro hok v hmem
    obtain ⟨n, r, hr, hlen⟩ := hok v
    have heq := Option.some.inj ((hdone v n).symm.trans hr)
    rw [← heq] at hlen
    have hle := hlen rfl v.pi hmem
    rw [FragPool.start_currentLength] at hle
    exact hle
  · intro hle v
    apply Exists.intro 0
    apply Exists.intro _
    apply And.intro (hdone v 0)
    intro _ bi hbi
    have hpi : bi = v.pi := by
      have hmem : bi ∈ buffer v ++ first v := List.mem_append_left _ hbi
      rw [hstart.whole] at hmem
      exact List.mem_singleton.mp hmem
    subst hpi
    rw [FragPool.start_currentLength]
    exact hle v hbi

end Runs

theorem startsWith4 : StartsWith (fun v => [v.pi]) (fun _ => []) := ⟨fun _ => rfl⟩

theorem startsWith6 : StartsWith (fun _ => []) (fun v => [v.pi]) := ⟨fun _ => rfl⟩

theorem not_ip4Malformed (hlen : packet.length ≤ bufferSpace) (ho : o < 2 ^ 16) (h : ¬ ip4Malformed o packet) :
    o + 20 ≤ packet.length ∧ packet.length ≤ o + 20 + ip4Rem o packet := by
  have hrem : ip4Rem o packet < 2 ^ 16 := u16_lt _
  rw [ip4Malformed, sub64, sub64] at h
  rw [bufferSpace] at hlen
  omega

theorem ip4Room_eq (ho : o < 2 ^ 16) (h20 : 20 ≤ mtu) (hmtu : mtu < 2 ^ 16) :
    ip4Room o mtu = if mtu < o + 20 then 2 ^ 64 + mtu - 20 - o else mtu - 20 - o := by
  rw [ip4Room, sub64, sub64]
  split
  · omega
  · omega

/-- What the loop of `ip4_frag_do_fragment` needs. -/
def Ip4Cuts (o mtu : Nat) (packet : List Byte) : Prop :=
  ip4Malformed o packet ∨ mtu < 20 ∨ dontFragment o packet ∨
    if mtu < o + 20 then u16 (o + 20 + ip4Rem o packet) ≤ mtu else o + 28 ≤ mtu ∨ o + 20 + ip4Rem o packet ≤ mtu

instance (o mtu : Nat) (packet : List Byte) : Decidable (Ip4Cuts o mtu packet) :=
  inferInstanceAs (Decidable (_ ∨ _ ∨ _ ∨ ite _ _ _))

theorem ip4FragRun_ok (o mtu : BitVec 16) (p : FragPacket) :
    (FragOk mtu.toNat fun v n => ip4FragRun n v o.toNat mtu.toNat p.bytes) ↔ Ip4Cuts o.toNat mtu.toNat p.bytes := by
  have ho := o.isLt
  have hmtu := mtu.isLt
  generalize o.toNat = o at ho
  generalize mtu.toNat = mtu at hmtu
  obtain ⟨packet, hfits⟩ := p
  let start (v : FragPool) : FragRun := v.start [v.pi] packet.length (ip4Rem o packet)
  by_cases hmal : ip4Malformed o packet
  · apply iff_of_true
    · apply fragOk_error .malformed start
      intro v n
      simp only [ip4FragRun, if_pos hmal, start]
    · exact .inl hmal
  by_cases h20 : mtu < 20
  · apply iff_of_true
    · apply fragOk_error .cantFragmentHeader start
      intro v n
      simp only [ip4FragRun, if_neg hmal, if_pos h20, start]
    · exact .inr (.inl h20)
  by_cases hdf : dontFragment o packet
  · apply iff_of_true
    · apply fragOk_error .dontFragmentSet start
      intro v n
      simp only [ip4FragRun, if_neg hmal, if_neg h20, if_pos hdf, start]
    · exact .inr (.inr (.inl hdf))
  rw [fragOk_congr (ip4FragRun_loop hmal h20 hdf)]
  have hcuts : Ip4Cuts o mtu packet ↔
      if mtu < o + 20 then u16 (o + 20 + ip4Rem o packet) ≤ mtu else o + 28 ≤ mtu ∨ o + 20 + ip4Rem o packet ≤ mtu := by
    rw [Ip4Cuts, or_iff_right hmal, or_iff_right h20, or_iff_right hdf]
  rw [hcuts]
  obtain ⟨hheader, hlong⟩ := not_ip4Malformed hfits ho hmal
  have hsize : ip4Rem o packet < 2 ^ 16 := u16_lt _
  have hlen : packet.length < 2 ^ 16 := Nat.lt_of_le_of_lt hfits (by decide)
  have hroom := ip4Room_eq ho (Nat.le_of_not_lt h20) hmtu
  generalize ip4Rem o packet = rem at hlong hsize
  by_cases hrem : rem = 0
  · subst hrem
    rw [fragOk_done startsWith4]
    have hval : u16 (o + 20 + 0) = packet.length := by
      rw [u16]
      omega
    constructor
    · intro hle
      have hle' := hle ⟨0, [], by decide⟩ (List.mem_singleton_self _)
      split
      · rw [hval]
        exact hle'
      · exact .inr (by omega)
    · intro hle _ _
      split at hle
      · rw [hval] at hle
        exact hle
      · omega
  · by_cases hshort : mtu < o + 20
    · rw [if_pos hshort] at hroom ⊢
      exact fragOk_single startsWith4 hrem (by omega)
    · rw [if_neg hshort] at hroom ⊢
      by_cases hfit : rem ≤ ip4Room o mtu
      · rw [fragOk_single startsWith4 hrem hfit]
        have hval : u16 (o + 20 + rem) = o + 20 + rem := by
          rw [u16]
          omega
        rw [hval]
        omega
      · by_cases h8 : 8 ≤ ip4Room o mtu
        · have hu : u16 (ip4Room o mtu / 8 * 8) = ip4Room o mtu / 8 * 8 := by
            rw [u16]
            omega
          rw [hu]
          apply iff_of_true
          · exact fragOk_fits startsWith4 h8 (by omega) hrem hsize
          · exact .inl (by omega)
        · have hu : u16 (ip4Room o mtu / 8 * 8) = 0 := by
            rw [u16]
            omega
          rw [hu]
          apply iff_of_false
          · intro hok
            obtain ⟨n, r, hr, _⟩ := hok onePool
            have hstuck : fragRunLoop onePool.pi (o + 20) (ip4Room o mtu) 0 [] n
                (onePool.start [onePool.pi] packet.length rem) = none :=
              fragRunLoop_stuck rfl (Nat.lt_of_not_le hfit) hsize n
            cases hstuck.symm.trans hr
          · omega

/-- What the loop of `ip6_frag_do_fragment` needs. -/
def Ip6Cuts (past : Nat → Byte) (o mtu : Nat) (packet : List Byte) : Prop :=
  ip6Malformed past o packet ∨ ip6MaxPayload past o mtu packet < 8 ∨ ip6HeadersLen past o packet ≤ mtu ∨
    ip6CurrentLength past o packet = ip6HeadersLen past o packet ∨
    (ip6CurrentLength past o packet < ip6HeadersLen past o packet ∧ ip6CurrentLength past o packet ≤ mtu)

instance (past : Nat → Byte) (o mtu : Nat) (packet : List Byte) : Decidable (Ip6Cuts past o mtu packet) :=
  inferInstanceAs (Decidable (_ ∨ _ ∨ _ ∨ _ ∨ _))

theorem not_ip6Malformed (hlen : packet.length ≤ bufferSpace) (h : ¬ ip6Malformed past o packet) :
    ip6HeadersLen past o packet ≤ bufferSpace + 8 ∧ ip6CurrentLength past o packet ≤ bufferSpace + 8 := by
  rw [ip6Malformed] at h
  rw [bufferSpace] at hlen ⊢
  have hheaders : ip6HeadersLen past o packet ≤ (walkHeaders (readFrom past packet) o).payload + 8 := Nat.mod_le _ _
  have hcurrent : ip6CurrentLength past o packet ≤ packet.length + 8 := by
    rw [ip6CurrentLength]
    split
    · omega
    · exact Nat.mod_le _ _
  omega

theorem ip6FragRun_ok (past : Nat → Byte) (o mtu : BitVec 16) (p : FragPacket) :
    (FragOk mtu.toNat fun v n => ip6FragRun n v past o.toNat mtu.toNat p.bytes) ↔
      Ip6Cuts past o.toNat mtu.toNat p.bytes := by
  have hmtu := mtu.isLt
  generalize o.toNat = o
  generalize mtu.toNat = mtu at hmtu
  obtain ⟨packet, hfits⟩ := p
  by_cases hmal : ip6Malformed past o packet
  · apply iff_of_true
    · apply fragOk_error .malformed fun v => v.start [] packet.length (ip6Rem past o packet)
      intro v n
      simp only [ip6FragRun, if_pos hmal]
    · exact .inl hmal
  by_cases h8 : ip6MaxPayload past o mtu packet < 8
  · apply iff_of_true
    · apply fragOk_error .cantFragmentHeader fun v =>
        v.start [] (ip6CurrentLength past o packet) (ip6Rem past o packet)
      intro v n
      simp only [ip6FragRun, if_neg hmal, if_pos h8]
    · exact .inr (.inl h8)
  rw [fragOk_congr (ip6FragRun_loop hmal h8), Ip6Cuts, or_iff_right hmal, or_iff_right h8]
  obtain ⟨hheaders, hcurrent⟩ := not_ip6Malformed hfits hmal
  rw [bufferSpace] at hheaders hcurrent
  have hmax : ip6MaxPayload past o mtu packet = u16 (mtu + 2 ^ 16 - ip6HeadersLen past o packet) := rfl
  have hrem : ip6Rem past o packet = u16 (ip6CurrentLength past o packet + 2 ^ 16 - ip6HeadersLen past o packet) := rfl
  have hsize : ip6Rem past o packet < 2 ^ 16 := u16_lt _
  generalize ip6HeadersLen past o packet = h at hheaders hmax hrem
  generalize ip6CurrentLength past o packet = length at hcurrent hrem
  generalize ip6MaxPayload past o mtu packet = room at h8 hmax
  generalize ip6Rem past o packet = rem at hrem hsize
  rw [u16] at hmax hrem
  by_cases hzero : rem = 0
  · subst hzero
    apply iff_of_true
    · rw [fragOk_done startsWith6]
      intro v hmem
      cases hmem
    · exact .inr (.inl (by omega))
  by_cases hroom : h ≤ mtu
  · apply iff_of_true
    · exact fragOk_fits startsWith6 (Nat.le_of_not_lt h8) (by omega) hzero hsize
    · exact .inl hroom
  by_cases hfit : rem ≤ room
  · rw [fragOk_single startsWith6 hzero hfit, u16]
    omega
  · -- the fragment header is cut short, and what is left wraps around
    apply iff_of_false
    · intro hok
      have hle := fragOk_pair (by omega) hsize (Nat.lt_of_not_le hfit) (by omega) (by omega) hok
      rw [u16] at hle
      omega
    · omega

/-- The loops of both functions end, and without an error nothing longer than the mtu is sent. -/
theorem ipFrag_ends (past : Nat → Byte) (o mtu : BitVec 16) (p : FragPacket) :
    ((FragOk mtu.toNat fun v n => ip4FragRun n v o.toNat mtu.toNat p.bytes) ↔ Ip4Cuts o.toNat mtu.toNat p.bytes) ∧
      ((FragOk mtu.toNat fun v n => ip6FragRun n v past o.toNat mtu.toNat p.bytes) ↔
        Ip6Cuts past o.toNat mtu.toNat p.bytes) := by
  exact ⟨ip4FragRun_ok o mtu p, ip6FragRun_ok past o mtu p⟩

/-- A packet of 40 bytes without options. -/
def packet40 : FragPacket := ⟨[0x45, 0, 0, 40] ++ List.replicate 36 0, by decide⟩

/-- A packet with 8 bytes after the header. -/
def packet48 : FragPacket := ⟨[0x60, 0, 0, 0, 0, 8, 17, 64] ++ List.replicate 40 0, by decide⟩

/-- With an mtu of 27 the first does not end, with an mtu of 40 the second sends 56 bytes. -/
theorem ipFrag_ends_fails :
    (∀ v n, ip4FragRun n v 0 27 packet40.bytes = none) ∧
      (ip6FragRun 1 onePool (fun _ => 0) 0 40 packet48.bytes).map (fun r => (r.1, r.2.buffer.map r.2.currentLength)) =
        some (none, [56]) ∧
      ¬ ∀ (past : Nat → Byte) (o mtu : BitVec 16) (p : FragPacket),
        (FragOk mtu.toNat fun v n => ip4FragRun n v o.toNat mtu.toNat p.bytes) ∧
          FragOk mtu.toNat fun v n => ip6FragRun n v past o.toNat mtu.toNat p.bytes := by
  apply And.intro
  · intro v n
    have hmal : ¬ ip4Malformed 0 packet40.bytes := by decide
    have hdf : ¬ dontFragment 0 packet40.bytes := by decide
    have hrem : ip4Rem 0 packet40.bytes = 20 := by decide
    rw [ip4FragRun_loop hmal (by decide) hdf, hrem]
    exact fragRunLoop_stuck rfl (by decide : ip4Room 0 27 < 20) (by decide : 20 < 2 ^ 16) n
  · apply And.intro
    · decide
    · intro hall
      have hcuts := (ip4FragRun_ok 0 27 packet40).mp (hall (fun _ => 0) 0 27 packet40).1
      exact absurd hcuts (by decide)

end

variable {max : Nat}

/-- The vector has the buffer to fragment and all that were allocated, each once. -/
structure FragRun.Owns (v : FragPool) (s : FragRun) : Prop where
  pool : s.allocated ++ s.free = v.free
  all : s.buffer.Perm (v.pi :: s.allocated)
  once : s.buffer.Nodup

theorem FragRun.owns_of_eq (hpool : s.allocated ++ s.free = v.free) (hbuffer : s.buffer = v.pi :: s.allocated) :
    FragRun.Owns v s := by
  have hnodup := v.nodup
  rw [← hpool, ← List.cons_append, ← hbuffer] at hnodup
  exact ⟨hpool, List.Perm.of_eq hbuffer, (List.nodup_append.mp hnodup).1⟩

theorem FragRun.turn_pool (ht : FragRun.turn pi h len first s = some s') :
    s'.allocated ++ s'.free = s.allocated ++ s.free := by
  obtain ⟨_, rfl⟩ | ⟨_, bi, free, hfree, rfl⟩ := FragRun.turn_eq_some ht
  · rfl
  · rw [hfree]
    exact List.append_cons s.allocated bi free |>.symm

theorem fragRunLoop_pool (hr : fragRunLoop pi h room max first n s = some r) :
    r.2.allocated ++ r.2.free = s.allocated ++ s.free := by
  apply fragRunLoop_induct (I := fun t => t.allocated ++ t.free = s.allocated ++ s.free) _ rfl hr
  intro t t' hI _ ht
  exact (FragRun.turn_pool ht).trans hI

theorem FragRun.turn_buffer (ht : FragRun.turn pi h len first s = some s') (hptr : s.ptr ≠ 0)
    (hs : s.buffer = pi :: s.allocated) : s'.buffer = pi :: s'.allocated := by
  obtain ⟨h0, _⟩ | ⟨_, bi, free, _, rfl⟩ := FragRun.turn_eq_some ht
  · exact absurd h0 hptr
  · exact congrArg (· ++ [bi]) hs

theorem FragRun.turn_first (ht : FragRun.turn pi h len first s = some s') (hptr : s.ptr = 0) :
    s'.buffer = s.buffer ++ first ∧ s'.allocated = s.allocated := by
  obtain ⟨_, rfl⟩ | ⟨hne, _⟩ := FragRun.turn_eq_some ht
  · exact ⟨rfl, rfl⟩
  · exact absurd hptr hne

theorem fragRunLoop_buffer4 (hs : s.buffer = pi :: s.allocated)
    (hr : fragRunLoop pi h room max [] n s = some r) : r.2.buffer = pi :: r.2.allocated := by
  apply fragRunLoop_induct (I := fun t => t.buffer = pi :: t.allocated) _ hs hr
  intro t t' hI _ ht
  by_cases hptr : t.ptr = 0
  · obtain ⟨hbuffer, halloc⟩ := FragRun.turn_first ht hptr
    rw [hbuffer, halloc, List.append_nil]
    exact hI
  · exact FragRun.turn_buffer ht hptr hI

/-- The buffer to fragment comes into the vector in the first turn. -/
theorem fragRunLoop_buffer6 (hroom : 8 ≤ room) (hsum : s.ptr + s.rem < 2 ^ 16) (hptr : s.ptr = 0)
    (hempty : s.buffer = [])
    (halloc : s.allocated = []) (hr : fragRunLoop pi h room (room / 8 * 8) [pi] n s = some r) :
    if r.2.ptr = 0 then r.2.buffer = [] else r.2.buffer = pi :: r.2.allocated := by
  have hI := fragRunLoop_induct
    (I := fun t => t.ptr + t.rem = s.ptr + s.rem ∧
      if t.ptr = 0 then t.buffer = [] ∧ t.allocated = [] else t.buffer = pi :: t.allocated)
    ?_ ⟨rfl, ?_⟩ hr
  · obtain ⟨_, hbuffer⟩ := hI
    split at hbuffer
    · rename_i h0
      rw [if_pos h0]
      exact hbuffer.1
    · rename_i h0
      rw [if_neg h0]
      exact hbuffer
  · intro t t' hI hrem ht
    obtain ⟨hkeep, hbuffer⟩ := hI
    have hpos : 0 < cutLen room (room / 8 * 8) t.rem := cutLen_pos hroom hrem
    have hle : cutLen room (room / 8 * 8) t.rem ≤ t.rem := cutLen_le (Nat.div_mul_le_self room 8)
    obtain ⟨hptr', hrem'⟩ := FragRun.turn_progress ht hle (by rw [hkeep]; exact hsum)
    apply And.intro
    · rw [hptr', hrem']
      omega
    · rw [if_neg (by omega)]
      by_cases h0 : t.ptr = 0
      · rw [if_pos h0] at hbuffer
        obtain ⟨hb, ha⟩ := FragRun.turn_first ht h0
        rw [hb, ha, hbuffer.1, hbuffer.2]
        rfl
      · rw [if_neg h0] at hbuffer
        exact FragRun.turn_buffer ht h0 hbuffer
  · rw [if_pos hptr]
    exact ⟨hempty, halloc⟩

theorem ip4FragRun_owns (hr : ip4FragRun n v o mtu packet = some r) : r.2.Owns v := by
  have hstart : (v.start [v.pi] packet.length (ip4Rem o packet)).Owns v := FragRun.owns_of_eq rfl rfl
  rw [ip4FragRun] at hr
  split at hr
  · cases hr
    exact hstart
  · split at hr
    · cases hr
      exact hstart
    · split at hr
      · cases hr
        exact hstart
      · exact FragRun.owns_of_eq (fragRunLoop_pool hr) (fragRunLoop_buffer4 rfl hr)

def Ip6Keeps (past : Nat → Byte) (o mtu : Nat) (packet : List Byte) : Prop :=
  ¬ ip6Malformed past o packet ∧ 8 ≤ ip6MaxPayload past o mtu packet ∧ ip6Rem past o packet ≠ 0

theorem not_owns_nil (hbuffer : s.buffer = []) : ¬ FragRun.Owns v s := by
  intro h
  have hperm := h.all
  rw [hbuffer] at hperm
  exact absurd hperm.nil_eq (List.cons_ne_nil _ _).symm

theorem ip6FragRun_ends (hmal : ¬ ip6Malformed past o packet) (h8 : ¬ ip6MaxPayload past o mtu packet < 8)
    (v : FragPool) : ∃ r, ip6FragRun (ip6Rem past o packet) v past o mtu packet = some r := by
  rw [ip6FragRun_loop hmal h8]
  apply fragRunLoop_ends (Nat.le_of_not_lt h8)
  · rw [FragPool.start, Nat.zero_add]
    exact u16_lt _
  · exact Nat.le_refl _

theorem ip6FragRun_owns (past : Nat → Byte) (o mtu : Nat) (packet : List Byte) (v : FragPool) :
    ((∃ n r, ip6FragRun n v past o mtu packet = some r) ∧
        ∀ n r, ip6FragRun n v past o mtu packet = some r → r.2.Owns v) ↔
      Ip6Keeps past o mtu packet := by
  by_cases hmal : ip6Malformed past o packet
  · apply iff_of_false
    · intro hall
      have hr : ip6FragRun 0 v past o mtu packet =
          some (some .malformed, v.start [] packet.length (ip6Rem past o packet)) := by
        simp only [ip6FragRun, if_pos hmal]
      exact not_owns_nil rfl (hall.2 0 _ hr)
    · intro hkeeps
      exact hkeeps.1 hmal
  by_cases h8 : ip6MaxPayload past o mtu packet < 8
  · apply iff_of_false
    · intro hall
      have hr : ip6FragRun 0 v past o mtu packet =
          some (some .cantFragmentHeader, v.start [] (ip6CurrentLength past o packet) (ip6Rem past o packet)) := by
        simp only [ip6FragRun, if_neg hmal, if_pos h8]
      exact not_owns_nil rfl (hall.2 0 _ hr)
    · intro hkeeps
      exact Nat.not_lt.mpr hkeeps.2.1 h8
  have hsum : (v.start [] (ip6CurrentLength past o packet) (ip6Rem past o packet)).ptr +
      (v.start [] (ip6CurrentLength past o packet) (ip6Rem past o packet)).rem < 2 ^ 16 := by
    rw [FragPool.start, Nat.zero_add]
    exact u16_lt _
  by_cases hrem : ip6Rem past o packet = 0
  · apply iff_of_false
    · intro hall
      have hr : ip6FragRun 0 v past o mtu packet =
          some (none, v.start [] (ip6CurrentLength past o packet) (ip6Rem past o packet)) := by
        rw [ip6FragRun_loop hmal h8]
        exact fragRunLoop_done hrem
      exact not_owns_nil rfl (hall.2 0 _ hr)
    · intro hkeeps
      exact hkeeps.2.2 hrem
  · apply iff_of_true
    · constructor
      · obtain ⟨r, hr⟩ := ip6FragRun_ends hmal h8 v
        exact ⟨_, r, hr⟩
      · intro n r hr
        rw [ip6FragRun_loop hmal h8] at hr
        have hbuffer := fragRunLoop_buffer6 (Nat.le_of_not_lt h8) hsum rfl rfl rfl hr
        have hptr := fragRunLoop_ptr (Nat.div_mul_le_self _ 8) hsum hrem hr
        rw [if_neg hptr] at hbuffer
        exact FragRun.owns_of_eq (fragRunLoop_pool hr) hbuffer
    · exact ⟨hmal, Nat.le_of_not_lt h8, hrem⟩

/-- The ip4 function loses no buffer. The ip6 function loses the one to fragment when it stops before the first turn. -/
theorem ipFrag_owns (past : Nat → Byte) (o mtu : BitVec 16) (packet : List Byte) (v : FragPool) :
    (∀ n r, ip4FragRun n v o.toNat mtu.toNat packet = some r → r.2.Owns v) ∧
      (((∃ n r, ip6FragRun n v past o.toNat mtu.toNat packet = some r) ∧
          ∀ n r, ip6FragRun n v past o.toNat mtu.toNat packet = some r → r.2.Owns v) ↔
        Ip6Keeps past o.toNat mtu.toNat packet) := by
  apply And.intro
  · intro n r hr
    exact ip4FragRun_owns hr
  · exact ip6FragRun_owns past o.toNat mtu.toNat packet v

/-- With an mtu of 48 the packet is given up, and the vector is empty. -/
theorem ipFrag_owns_fails :
    ∃ r, ip6FragRun 0 onePool (fun _ => 0) 0 48 packet48.bytes = some r ∧ r.1 = some .cantFragmentHeader ∧
      r.2.buffer = [] ∧ ¬ r.2.Owns onePool := by
  have hmal : ¬ ip6Malformed (fun _ => 0) 0 packet48.bytes := by decide
  have h8 : ip6MaxPayload (fun _ => 0) 0 48 packet48.bytes < 8 := by decide
  apply Exists.intro (some .cantFragmentHeader, onePool.start [] (ip6CurrentLength (fun _ => 0) 0 packet48.bytes)
    (ip6Rem (fun _ => 0) 0 packet48.bytes))
  apply And.intro
  · simp only [ip6FragRun, if_neg hmal, if_pos h8]
  · exact ⟨rfl, rfl, not_owns_nil rfl⟩

end Vpp.Ip
