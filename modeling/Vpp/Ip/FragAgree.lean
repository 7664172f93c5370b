import Vpp.Ip.FragRun

namespace Vpp.Ip
open Vpp.Lib

variable {max : Nat}

/-- The loop over bytes and the loop over indices are at the same place, with as many fragments. -/
structure SameRun (n : Nat) (first : List Nat) (s : FragState) (t : FragRun) : Prop where
  ptr : s.ptr = t.ptr
  rem : s.rem = t.rem
  start : t.ptr = 0 → s.buffer = [] ∧ t.free.length = n ∧ (t.buffer ++ first).length = 1
  later : t.ptr ≠ 0 → s.buffer.length = t.buffer.length ∧ t.free.length + t.buffer.length = n + 1

theorem SameRun.turn (hs : SameRun n first s t) (ht : t.turn pi h len first = some t') (hpos : 0 < len)
    (hle : len ≤ t.rem) (hsum : t.ptr + t.rem < 2 ^ 16) (packet b : List Byte) :
    SameRun n first { packet := packet, buffer := s.buffer ++ [b], ptr := u16 (s.ptr + len), rem :=
      s.rem - len } t' := by
  obtain ⟨hptr, hrem⟩ := FragRun.turn_progress ht hle hsum
  have hne : t'.ptr ≠ 0 := by omega
  apply SameRun.mk
  · rw [FragRun.turn_ptr ht, ← hs.ptr]
  · rw [hrem, ← hs.rem]
  · intro h0
    exact absurd h0 hne
  · intro _
    obtain ⟨h0, rfl⟩ | ⟨h0, bi, free, hfree, rfl⟩ := FragRun.turn_eq_some ht
    · obtain ⟨hempty, hlen, hone⟩ := hs.start h0
      have hone' : (FragRun.emit h len pi { t with buffer := t.buffer ++ first }).buffer.length = 1 := hone
      have hlen' : (FragRun.emit h len pi { t with buffer := t.buffer ++ first }).free.length = n := hlen
      rw [hone', hlen', hempty]
      exact ⟨rfl, rfl⟩
    · obtain ⟨hsame, hcount⟩ := hs.later h0
      rw [hfree, List.length_cons] at hcount
      have hbuffer : (FragRun.emit h len bi { t with
          free := free, buffer := t.buffer ++ [bi], allocated := t.allocated ++ [bi] }).buffer.length =
          t.buffer.length + 1 := List.length_append
      have hleft : (FragRun.emit h len bi { t with
          free := free, buffer := t.buffer ++ [bi], allocated := t.allocated ++ [bi] }).free.length = free.length := rfl
      rw [hbuffer, hleft, List.length_append, hsame]
      apply And.intro
      · rfl
      · omega

theorem SameRun.alloc (hs : SameRun n first s t) (h0 : t.ptr ≠ 0) : s.buffer.length ≤ n ↔ t.free ≠ [] := by
  obtain ⟨hsame, hcount⟩ := hs.later h0
  rw [hsame, ← List.length_pos_iff_ne_nil]
  omega

theorem fragLoop_sameRun (halloc : ∀ i, alloc i = true ↔ i ≤ m) (hroom : 8 ≤ room) (hsum : t.ptr + t.rem < 2 ^ 16)
    (hs : SameRun m first s t) (hr : fragLoop alloc h room (room / 8 * 8) fields n s = some r) :
    ∃ r', fragRunLoop pi h room (room / 8 * 8) first n t = some r' ∧ r'.1 = r.1 ∧ SameRun m first r.2 r'.2 := by
  induction n generalizing s t with
  | zero =>
    rw [fragLoop] at hr
    split at hr
    · rename_i hrem
      cases hr
      exact ⟨_, fragRunLoop_done (hs.rem.symm.trans hrem), rfl, hs⟩
    · cases hr
  | succ n ih =>
    rw [fragLoop] at hr
    split at hr
    · rename_i hrem
      cases hr
      exact ⟨_, fragRunLoop_done (hs.rem.symm.trans hrem), rfl, hs⟩
    · rename_i hrem
      have hrem' : t.rem ≠ 0 := hs.rem ▸ hrem
      have hpos := cutLen_pos hroom hrem'
      have hle : cutLen room (room / 8 * 8) t.rem ≤ t.rem := cutLen_le (Nat.div_mul_le_self room 8)
      have hlen : (if room < s.rem then room / 8 * 8 else s.rem) = cutLen room (room / 8 * 8) t.rem := by
        rw [hs.rem, cutLen]
      rw [fragRunLoop, if_neg hrem']
      simp only [hlen] at hr
      cases hturn : t.turn pi h (cutLen room (room / 8 * 8) t.rem) first with
      | none =>
        obtain ⟨h0, hfree⟩ := FragRun.turn_eq_none hturn
        have hno : ¬ alloc s.buffer.length = true := by
          rw [halloc, hs.alloc h0]
          exact fun hne => hne hfree
        rw [if_neg (hs.ptr ▸ h0), if_neg hno] at hr
        cases hr
        exact ⟨_, rfl, rfl, hs⟩
      | some t' =>
        obtain ⟨hptr', hrem''⟩ := FragRun.turn_progress hturn hle hsum
        split at hr
        · exact ih (by omega) (hs.turn hturn hpos hle hsum _ _) hr
        · split at hr
          · exact ih (by omega) (hs.turn hturn hpos hle hsum _ _) hr
          · rename_i h0 hno
            obtain ⟨hzero, _⟩ | ⟨hne, bi, free, hfree, _⟩ := FragRun.turn_eq_some hturn
            · exact absurd (hs.ptr.trans hzero) h0
            · apply absurd ((halloc _).mpr ((hs.alloc hne).mpr _)) hno
              rw [hfree]
              exact List.cons_ne_nil _ _

theorem fragRunLoop_buffer_ne (hr : fragRunLoop pi h room max first n s = some r) (hs : s.buffer ≠ []) :
    r.2.buffer ≠ [] := by
  apply fragRunLoop_induct (I := fun t => t.buffer ≠ []) _ hs hr
  intro t t' hI _ ht
  obtain ⟨_, rfl⟩ | ⟨_, bi, free, _, rfl⟩ := FragRun.turn_eq_some ht
  · exact List.append_ne_nil_of_left_ne_nil hI first
  · exact List.append_ne_nil_of_left_ne_nil hI [bi]

def SameOutcome (r : IpFragResult) (r' : Option IpFragError × FragRun) : Prop :=
  r'.1 = r.error ∧ r'.2.buffer.length = r.buffer.length

section Functions
variable {e : FragBuffer} {v : FragPool} (halloc : ∀ i, e.alloc i = true ↔ i ≤ v.free.length)
include halloc

theorem ip4FragLoop_agree (hroom : 8 ≤ e.room) (hrem : rem < 2 ^ 16) (packet : List Byte)
    (hr : (ip4FragLoop e e.room (e.room / 8 * 8) ipFragId ipFragOffset more rem ⟨packet, [], 0, rem⟩).map
      (fun r => (⟨r.1, ip4FragBuffers packet r.2, nextId⟩ : IpFragResult)) = some r) :
    ∃ r', fragRunLoop v.pi (e.headerOffset + 20) e.room (e.room / 8 * 8) [] rem (v.start [v.pi] packet.length rem) =
      some r' ∧ SameOutcome r r' := by
  obtain ⟨q, hq, rfl⟩ := Option.map_eq_some_iff.mp hr
  have hstart : SameRun v.free.length [] ⟨packet, [], 0, rem⟩ (v.start [v.pi] packet.length rem) :=
    ⟨rfl, rfl, fun _ => ⟨rfl, rfl, rfl⟩, fun hne => absurd rfl hne⟩
  have hsum : (v.start [v.pi] packet.length rem).ptr + (v.start [v.pi] packet.length rem).rem < 2 ^ 16 := by
    rw [FragPool.start, Nat.zero_add]
    exact hrem
  obtain ⟨r', hr', herror, hsame⟩ := fragLoop_sameRun halloc hroom hsum hstart hq
  refine ⟨r', hr', herror, ?_⟩
  rw [ip4FragBuffers]
  by_cases h0 : r'.2.ptr = 0
  · obtain ⟨hempty, _, hone⟩ := hsame.start h0
    rw [List.append_nil] at hone
    rw [if_pos hempty, hone]
    rfl
  · obtain ⟨hlen, hcount⟩ := hsame.later h0
    have hbuffer := fragRunLoop_buffer_ne hr' (List.cons_ne_nil _ _)
    have hne : q.2.buffer ≠ [] := by
      rw [← List.length_pos_iff_ne_nil, hlen, List.length_pos_iff_ne_nil]
      exact hbuffer
    rw [if_neg hne, hlen]

/-- Whatever the fragments are, the function over indices ends with the same error and as many buffers. -/
theorem ip4FragDoFragment_agree (hmtu : e.headerOffset + 28 ≤ e.mtu)
    (hr : ip4FragDoFragment e runningFragmentId packet = some r) :
    ∃ n r', ip4FragRun n v e.headerOffset e.mtu packet = some r' ∧ SameOutcome r r' := by
  have hlt := e.mtu_lt
  have hroom : e.room = e.mtu - 20 - e.headerOffset := room_eq hmtu
  have hmax : u16 (e.room / 8 * 8) = e.room / 8 * 8 := by
    rw [u16]
    omega
  have h20 : ¬ e.mtu < 20 := by omega
  rw [ip4FragDoFragment] at hr
  simp only [hmax, if_neg h20] at hr
  by_cases hmal : ip4Malformed e.headerOffset packet
  · have hbad : u16 (sub64 (ip4Length e.headerOffset packet) 20) < sub64 (sub64 packet.length e.headerOffset) 20 := hmal
    rw [if_pos hbad] at hr
    cases hr
    apply Exists.intro 0
    rw [ip4FragRun]
    simp only [if_pos hmal]
    exact ⟨_, rfl, rfl, rfl⟩
  · have hgood : ¬ u16 (sub64 (ip4Length e.headerOffset packet) 20) < sub64 (sub64 packet.length e.headerOffset) 20 :=
      hmal
    rw [if_neg hgood] at hr
    by_cases hdf : dontFragment e.headerOffset packet
    · rw [if_pos hdf] at hr
      cases hr
      apply Exists.intro 0
      rw [ip4FragRun]
      simp only [if_neg hmal, if_neg h20, if_pos hdf]
      exact ⟨_, rfl, rfl, rfl⟩
    · rw [if_neg hdf] at hr
      have hmax' : u16 (ip4Room e.headerOffset e.mtu / 8 * 8) = e.room / 8 * 8 := hmax
      apply Exists.intro (ip4Rem e.headerOffset packet)
      rw [ip4FragRun_loop hmal h20 hdf, hmax']
      split at hr
      · exact ip4FragLoop_agree halloc (by omega) (u16_lt _) packet hr
      · exact ip4FragLoop_agree halloc (by omega) (u16_lt _) packet hr

/-- The part after the fragment header is in its place. -/
theorem ip6FragPayload_agree (hmal : ¬ ip6Malformed past e.headerOffset packet)
    (hlen : packet'.length = ip6CurrentLength past e.headerOffset packet)
    (hr : ip6FragPayload e runningFragmentId packet' (walkHeaders (readFrom past packet) e.headerOffset).payload
      initialOffset hasMore = some r) :
    ∃ n r', ip6FragRun n v past e.headerOffset e.mtu packet = some r' ∧ SameOutcome r r' := by
  rw [ip6FragPayload, hlen] at hr
  by_cases h8 : ip6MaxPayload past e.headerOffset e.mtu packet < 8
  · have hshort : u16 (e.mtu + 2 ^ 16 -
        u16 ((walkHeaders (readFrom past packet) e.headerOffset).payload + fragHdrSize)) < 8 := h8
    simp only [if_pos hshort] at hr
    cases hr
    apply Exists.intro 0
    rw [ip6FragRun]
    simp only [if_neg hmal, if_pos h8]
    exact ⟨_, rfl, rfl, rfl⟩
  · have hlong : ¬ u16 (e.mtu + 2 ^ 16 -
        u16 ((walkHeaders (readFrom past packet) e.headerOffset).payload + fragHdrSize)) < 8 := h8
    simp only [if_neg hlong] at hr
    obtain ⟨q, hq, rfl⟩ := Option.map_eq_some_iff.mp hr
    let start := v.start [] (ip6CurrentLength past e.headerOffset packet) (ip6Rem past e.headerOffset packet)
    have hstart : SameRun v.free.length [v.pi] ⟨packet', [], 0, ip6Rem past e.headerOffset packet⟩ start :=
      ⟨rfl, rfl, fun _ => ⟨rfl, rfl, rfl⟩, fun hne => absurd rfl hne⟩
    have hsum : start.ptr + start.rem < 2 ^ 16 := by
      have hzero : start.ptr = 0 := rfl
      rw [hzero, Nat.zero_add]
      exact u16_lt _
    obtain ⟨r', hr', herror, hsame⟩ := fragLoop_sameRun halloc (Nat.le_of_not_lt h8) hsum hstart hq
    apply Exists.intro (ip6Rem past e.headerOffset packet)
    rw [ip6FragRun_loop hmal h8]
    refine ⟨r', hr', herror, ?_⟩
    by_cases h0 : r'.2.ptr = 0
    · obtain ⟨hempty, _, hone⟩ := hsame.start h0
      rw [hempty]
      rw [List.length_append] at hone
      exact Nat.add_right_cancel hone
    · exact (hsame.later h0).1.symm

theorem ip6FragDoFragment_agree (hsize : packet.length + fragHdrSize < 2 ^ 16)
    (hr : ip6FragDoFragment e past runningFragmentId packet = some r) :
    ∃ n r', ip6FragRun n v past e.headerOffset e.mtu packet = some r' ∧ SameOutcome r r' := by
  rw [ip6FragDoFragment] at hr
  by_cases hmal : ip6Malformed past e.headerOffset packet
  · have hbad : packet.length ≤ (walkHeaders (readFrom past packet) e.headerOffset).payload := hmal
    simp only [if_pos hbad] at hr
    cases hr
    apply Exists.intro 0
    rw [ip6FragRun]
    simp only [if_pos hmal]
    exact ⟨_, rfl, rfl, rfl⟩
  · have hgood : ¬ packet.length ≤ (walkHeaders (readFrom past packet) e.headerOffset).payload := hmal
    simp only [if_neg hgood] at hr
    split at hr
    · rename_i hthere
      apply ip6FragPayload_agree halloc hmal _ hr
      rw [ip6CurrentLength]
      exact (if_pos hthere).symm
    · rename_i hnew
      apply ip6FragPayload_agree halloc hmal _ hr
      have hlen : ip6CurrentLength past e.headerOffset packet = u16 (packet.length + fragHdrSize) := if_neg hnew
      rw [hlen, u16, Nat.mod_eq_of_lt hsize, List.length_append, List.length_append, List.length_take, List.length_drop,
        List.length_set]
      have hhdr (nextHdr : Byte) (identification : BitVec 32) : (fragHdr nextHdr identification).length = 8 := by
        rw [fragHdr, List.length_append, length_leBytes]
        rfl
      rw [hhdr, fragHdrSize]
      omega

end Functions

end Vpp.Ip
