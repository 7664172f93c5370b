import Vpp.Acl.Match

namespace Vpp.Acl
open BitVec

/-- The memory from the current position of a buffer on. The packet is its first `currentLength` bytes. -/
structure Buffer where
  mem : Nat → BitVec 8
  currentLength : BitVec 16

variable {b : Buffer}

def Buffer.ntohs (b : Buffer) (offset : Nat) : BitVec 16 := b.mem offset ++ b.mem (offset + 1)

def Buffer.ip4 (b : Buffer) (offset : Nat) : Ip46Address :=
  (b.mem offset ++ b.mem (offset + 1) ++ b.mem (offset + 2) ++ b.mem (offset + 3)).setWidth 128

def Buffer.ip6 (b : Buffer) (offset : Nat) : Ip46Address :=
  ((List.range 16).map fun i => b.mem (offset + i)).foldl (fun a byte => a <<< 8 ||| byte.setWidth 128) 0

/-- At least eight bytes come after it. -/
def offsetWithinPacket (b : Buffer) (offset : Nat) : Bool := decide ((offset : Int) < (b.currentLength.toNat : Int) - 8)

def foreachAclEh : List (BitVec 8) := [0, 43, 60, 44, 135, 139, 140, 253, 254]

def aclEhFragment : BitVec 8 := 44

def knownEh (proto : BitVec 8) : Bool := foreachAclEh.contains proto

def fragOffset (b : Buffer) (l4Offset : Nat) : BitVec 16 := b.ntohs (2 + l4Offset) >>> 3

/-- The loop over the extension headers: the protocol behind them, where it begins and if there is a fragment other than
the first. Nothing when the passes are not enough. -/
def skipEh (b : Buffer) : (passes : Nat) → BitVec 8 → Nat → Bool → Option (BitVec 8 × Nat × Bool)
  | 0, _, _, _ => none
  | passes + 1, proto, l4Offset, nonfirst =>
    if knownEh proto && offsetWithinPacket b l4Offset then
      if proto = aclEhFragment then
        if fragOffset b l4Offset ≠ 0 then skipEh b passes (b.mem l4Offset) (l4Offset + b.currentLength.toNat) true
        else skipEh b passes (b.mem l4Offset) (l4Offset + 8) nonfirst
      else skipEh b passes (b.mem l4Offset) (l4Offset + 8 * (1 + (b.mem (1 + l4Offset)).toNat)) nonfirst
    else some (proto, l4Offset, nonfirst)

def ipprotoIcmp : BitVec 8 := 1
def ipprotoTcp : BitVec 8 := 6
def ipprotoUdp : BitVec 8 := 17
def ipprotoIcmp6 : BitVec 8 := 58

def icmpProto (isIp6 : Bool) : BitVec 8 := if isIp6 then ipprotoIcmp6 else ipprotoIcmp

def fillL4 (b : Buffer) (isIp6 : Bool) (src dst : Ip46Address) (proto : BitVec 8) (l4Offset : Nat) (nonfirst : Bool) :
    Fa5tuple :=
  let t : Fa5tuple := ⟨src, dst, 0, 0, proto.setWidth 16, 0, false, false, nonfirst⟩
  if offsetWithinPacket b l4Offset then
    let t := { t with l4Valid := true }
    if icmpProto isIp6 = proto then
      { t with srcPort := (b.mem l4Offset).setWidth 16, dstPort := (b.mem (l4Offset + 1)).setWidth 16 }
    else if ipprotoTcp = proto ∨ ipprotoUdp = proto then
      { t with
        srcPort := b.ntohs l4Offset
        dstPort := b.ntohs (l4Offset + 2)
        tcpFlags := b.mem (l4Offset + 13)
        tcpFlagsValid := proto == ipprotoTcp }
    else t
  else t

def l3Offset (isInput isL2Path : Bool) : Nat := if isInput && !isL2Path then 0 else 14

def flagsAndFragmentOffset (b : Buffer) (l3 : Nat) : BitVec 16 := b.ntohs (6 + l3)

def aclFill5tuple (b : Buffer) (isIp6 isInput isL2Path : Bool) : Option Fa5tuple :=
  let l3 := l3Offset isInput isL2Path
  if isIp6 then
    (skipEh b (b.currentLength.toNat + 1) (b.mem (6 + l3)) (l3 + 40) false).map fun r =>
      fillL4 b isIp6 (b.ip6 (8 + l3)) (b.ip6 (24 + l3)) r.1 r.2.1 r.2.2
  else
    let nonfirst := flagsAndFragmentOffset b l3 &&& 0xfff != 0
    let l4Offset := if nonfirst then l3 + 20 + b.currentLength.toNat else l3 + 20
    some (fillL4 b isIp6 (b.ip4 (12 + l3)) (b.ip4 (16 + l3)) (b.mem (9 + l3)) l4Offset nonfirst)

/-- A fragment other than the first, or a transport header of a protocol at an offset. -/
inductive Transport where
  | nonfirst
  | header (proto : BitVec 8) (offset : Nat)

def ip4HeaderBytes (b : Buffer) (l3 : Nat) : Nat := 4 * (b.mem l3 &&& 0xf).toNat

def ip4FragmentOffset (b : Buffer) (l3 : Nat) : BitVec 16 := flagsAndFragmentOffset b l3 &&& 0x1fff

def ip4Transport (b : Buffer) (l3 : Nat) : Transport :=
  if ip4FragmentOffset b l3 ≠ 0 then .nonfirst else .header (b.mem (9 + l3)) (l3 + ip4HeaderBytes b l3)

/-- The chain of extension headers from one with this number on, up to nine bytes of a transport header or to a byte of
a fragment. -/
inductive Ip6Chain (b : Buffer) : BitVec 8 → Nat → Transport → Prop
  | transport (hproto : knownEh proto = false) (hlen : offset + 9 ≤ b.currentLength.toNat) :
    Ip6Chain b proto offset (.header proto offset)
  | nonfirst (hfrag : fragOffset b offset ≠ 0) (hlen : offset + 9 ≤ b.currentLength.toNat) :
    Ip6Chain b aclEhFragment offset .nonfirst
  | first (hfrag : fragOffset b offset = 0) (hrest : Ip6Chain b (b.mem offset) (offset + 8) t) :
    Ip6Chain b aclEhFragment offset t
  | skip (hknown : knownEh proto = true) (hne : proto ≠ aclEhFragment)
    (hrest : Ip6Chain b (b.mem offset) (offset + 8 * (1 + (b.mem (1 + offset)).toNat)) t) : Ip6Chain b proto offset t

inductive WellFormed (b : Buffer) (l3 : Nat) : (isIp6 : Bool) → Transport → Prop
  | ip4 (hlen : 20 ≤ ip4HeaderBytes b l3)
    (hfits : ip4FragmentOffset b l3 = 0 → l3 + ip4HeaderBytes b l3 + 9 ≤ b.currentLength.toNat) :
    WellFormed b l3 false (ip4Transport b l3)
  | ip6 (hchain : Ip6Chain b (b.mem (6 + l3)) (l3 + 40) t) : WellFormed b l3 true t

/-- What is read where the transport header is. -/
structure ReadsL4 (b : Buffer) (isIp6 : Bool) (proto : BitVec 8) (offset : Nat) (t : Fa5tuple) : Prop where
  icmp : proto = icmpProto isIp6 →
    t.srcPort = (b.mem offset).setWidth 16 ∧ t.dstPort = (b.mem (offset + 1)).setWidth 16
  ports : proto = ipprotoTcp ∨ proto = ipprotoUdp → t.srcPort = b.ntohs offset ∧ t.dstPort = b.ntohs (offset + 2)
  flags : proto = ipprotoTcp → t.tcpFlags = b.mem (offset + 13) ∧ t.tcpFlagsValid = true

def Agrees (b : Buffer) (isIp6 : Bool) (t : Fa5tuple) : Transport → Prop
  | .nonfirst => t.isNonfirstFragment = true ∧ t.l4Valid = false
  | .header proto offset => t.isNonfirstFragment = false ∧ t.l4Valid = true ∧ t.proto = proto.setWidth 16 ∧
      ReadsL4 b isIp6 proto offset t

/-- Where the code reads stands the same as at the transport header. -/
structure SameL4 (b : Buffer) (proto : BitVec 8) (offset offset' : Nat) : Prop where
  icmp : proto = ipprotoIcmp → b.mem offset = b.mem offset' ∧ b.mem (offset + 1) = b.mem (offset' + 1)
  ports : proto = ipprotoTcp ∨ proto = ipprotoUdp →
    b.ntohs offset = b.ntohs offset' ∧ b.ntohs (offset + 2) = b.ntohs (offset' + 2)
  flags : proto = ipprotoTcp → b.mem (offset + 13) = b.mem (offset' + 13)

/-- A packet of IPv4 has another fragment offset than 4096, and when that is zero no options or options that do not
matter. -/
def ReadRight4 (b : Buffer) (l3 : Nat) : Prop :=
  ip4FragmentOffset b l3 ≠ 0x1000 ∧
    (ip4FragmentOffset b l3 = 0 → SameL4 b (b.mem (9 + l3)) (l3 + 20) (l3 + ip4HeaderBytes b l3))

theorem offsetWithinPacket_iff : offsetWithinPacket b offset = true ↔ offset + 9 ≤ b.currentLength.toNat := by
  rw [offsetWithinPacket, decide_eq_true_iff]
  omega

theorem icmpProto_ne (isIp6 : Bool) : icmpProto isIp6 ≠ ipprotoTcp ∧ icmpProto isIp6 ≠ ipprotoUdp := by
  revert isIp6
  decide

variable {isIp6 : Bool} {src dst : Ip46Address} {proto : BitVec 8} {offset : Nat} {nonfirst : Bool}

theorem fillL4_nonfirst : (fillL4 b isIp6 src dst proto offset nonfirst).isNonfirstFragment = nonfirst := by
  rw [fillL4]
  split
  · dsimp only
    split
    · rfl
    · split
      · rfl
      · rfl
  · rfl

theorem fillL4_proto : (fillL4 b isIp6 src dst proto offset nonfirst).proto = proto.setWidth 16 := by
  rw [fillL4]
  split
  · dsimp only
    split
    · rfl
    · split
      · rfl
      · rfl
  · rfl

theorem fillL4_l4Valid : (fillL4 b isIp6 src dst proto offset nonfirst).l4Valid = offsetWithinPacket b offset := by
  rw [fillL4]
  split
  · next hw =>
    dsimp only
    split
    · exact hw.symm
    · split
      · exact hw.symm
      · exact hw.symm
  · next hw => exact (Bool.eq_false_iff.mpr hw).symm

theorem fillL4_reads (hw : offsetWithinPacket b offset = true) :
    ReadsL4 b isIp6 proto offset (fillL4 b isIp6 src dst proto offset nonfirst) := by
  rw [fillL4, if_pos hw]
  dsimp only
  apply ReadsL4.mk
  · intro hp
    rw [if_pos hp.symm]
    exact ⟨rfl, rfl⟩
  · intro hp
    have hne : icmpProto isIp6 ≠ proto := by
      intro he
      obtain ⟨htcp, hudp⟩ := icmpProto_ne isIp6
      rw [he] at htcp hudp
      exact hp.elim htcp hudp
    rw [if_neg hne, if_pos (hp.imp Eq.symm Eq.symm)]
    exact ⟨rfl, rfl⟩
  · intro hp
    have hne : icmpProto isIp6 ≠ proto := by
      rw [hp]
      exact (icmpProto_ne isIp6).1
    rw [if_neg hne, if_pos (.inl hp.symm)]
    exact ⟨rfl, beq_iff_eq.mpr hp⟩

/-- What is read at one place stands at another if the two are the same. -/
theorem ReadsL4.same_iff {t : Fa5tuple} (h : ReadsL4 b false proto offset t) :
    ReadsL4 b false proto offset' t ↔ SameL4 b proto offset offset' := by
  have hwidth : ∀ x y : BitVec 8, x.setWidth 16 = y.setWidth 16 ↔ x = y := by
    intro x y
    apply Iff.intro
    · intro he
      have hback := congrArg (BitVec.setWidth 8) he
      rwa [setWidth_setWidth_of_le _ (by decide), setWidth_setWidth_of_le _ (by decide),
        setWidth_eq, setWidth_eq] at hback
    · intro he
      rw [he]
  apply Iff.intro
  · intro h'
    apply SameL4.mk
    · intro hp
      have hr := h.icmp hp
      have hr' := h'.icmp hp
      exact ⟨(hwidth _ _).mp (hr.1.symm.trans hr'.1), (hwidth _ _).mp (hr.2.symm.trans hr'.2)⟩
    · intro hp
      have hr := h.ports hp
      have hr' := h'.ports hp
      exact ⟨hr.1.symm.trans hr'.1, hr.2.symm.trans hr'.2⟩
    · intro hp
      exact (h.flags hp).1.symm.trans (h'.flags hp).1
  · intro hs
    apply ReadsL4.mk
    · intro hp
      obtain ⟨h0, h1⟩ := hs.icmp hp
      rw [← h0, ← h1]
      exact h.icmp hp
    · intro hp
      obtain ⟨h0, h2⟩ := hs.ports hp
      rw [← h0, ← h2]
      exact h.ports hp
    · intro hp
      rw [← hs.flags hp]
      exact h.flags hp

theorem Ip6Chain.fits (h : Ip6Chain b proto offset t) : offset + 9 ≤ b.currentLength.toNat := by
  induction h with
  | transport _ hlen => exact hlen
  | nonfirst _ hlen => exact hlen
  | first _ _ ih => omega
  | skip _ _ _ ih => omega

theorem Ip6Chain.within (h : Ip6Chain b proto offset t) : offsetWithinPacket b offset = true :=
  offsetWithinPacket_iff.mpr h.fits

theorem passes_rest (h : n < passes + 1 + offset) (k : Nat) : n < passes + (offset + 8 * (1 + k)) := by
  omega

/-- Where the loop ends. -/
def EndsAt (b : Buffer) (nonfirst : Bool) : Transport → Option (BitVec 8 × Nat × Bool) → Prop
  | .header proto offset, r => r = some (proto, offset, nonfirst)
  | .nonfirst, r => ∃ proto offset, r = some (proto, offset, true) ∧ offsetWithinPacket b offset = false

theorem skipEh_stop (h : knownEh proto = false ∨ offsetWithinPacket b offset = false) (passes : Nat) :
    skipEh b (passes + 1) proto offset nonfirst = some (proto, offset, nonfirst) := by
  rw [skipEh, if_neg]
  intro hboth
  rw [Bool.and_eq_true] at hboth
  cases h with
  | inl hk => exact Bool.false_ne_true (hk.symm.trans hboth.1)
  | inr hw => exact Bool.false_ne_true (hw.symm.trans hboth.2)

/-- The loop follows the chain, every pass at least eight bytes. -/
theorem skipEh_chain (h : Ip6Chain b proto offset t) (hp : b.currentLength.toNat < passes + offset) :
    EndsAt b nonfirst t (skipEh b passes proto offset nonfirst) := by
  cases passes with
  | zero =>
    have hfits := h.fits
    omega
  | succ passes =>
    induction h generalizing passes with
    | transport hproto hlen => exact skipEh_stop (.inl hproto) passes
    | @nonfirst offset hfrag hlen =>
      have hw := (Ip6Chain.nonfirst hfrag hlen).within
      rw [skipEh, hw, if_pos (by decide), if_pos rfl, if_pos hfrag]
      have hout : offsetWithinPacket b (offset + b.currentLength.toNat) = false := by
        apply Bool.eq_false_iff.mpr
        intro hin
        have hle := offsetWithinPacket_iff.mp hin
        omega
      cases passes with
      | zero => omega
      | succ passes => exact ⟨_, _, skipEh_stop (.inr hout) passes, hout⟩
    | first hfrag hrest ih =>
      have hw := (Ip6Chain.first hfrag hrest).within
      rw [skipEh, hw, if_pos (by decide), if_pos rfl, if_neg (not_not.mpr hfrag)]
      have hrestp := passes_rest hp 0
      cases passes with
      | zero =>
        have hfits := hrest.fits
        omega
      | succ passes => exact ih passes hrestp
    | @skip _ offset _ hknown hne hrest ih =>
      have hw := (Ip6Chain.skip hknown hne hrest).within
      rw [skipEh, hknown, hw, if_pos (by decide), if_neg hne]
      have hrestp := passes_rest hp (b.mem (1 + offset)).toNat
      cases passes with
      | zero =>
        have hfits := hrest.fits
        omega
      | succ passes => exact ih passes hrestp

theorem Ip6Chain.end_within (h : Ip6Chain b proto offset (.header proto' offset')) :
    offsetWithinPacket b offset' = true := by
  generalize ht : Transport.header proto' offset' = t at h
  induction h with
  | transport _ hlen =>
    cases ht
    exact offsetWithinPacket_iff.mpr hlen
  | nonfirst _ _ => cases ht
  | first _ _ ih => exact ih ht
  | skip _ _ _ ih => exact ih ht

theorem fill_ip6 (h : Ip6Chain b (b.mem (6 + l3Offset isInput isL2Path)) (l3Offset isInput isL2Path + 40) t) :
    ∃ tuple, aclFill5tuple b true isInput isL2Path = some tuple ∧ Agrees b true tuple t := by
  have hpasses : b.currentLength.toNat < b.currentLength.toNat + 1 + (l3Offset isInput isL2Path + 40) := by omega
  have hends : EndsAt b false t (skipEh b (b.currentLength.toNat + 1) (b.mem (6 + l3Offset isInput isL2Path))
      (l3Offset isInput isL2Path + 40) false) := skipEh_chain h hpasses
  rw [aclFill5tuple, if_pos rfl]
  cases t with
  | nonfirst =>
    obtain ⟨proto, offset, hrun, hout⟩ := hends
    rw [hrun]
    exact ⟨_, rfl, fillL4_nonfirst, fillL4_l4Valid.trans hout⟩
  | header proto offset =>
    have hrun : skipEh b (b.currentLength.toNat + 1) (b.mem (6 + l3Offset isInput isL2Path))
        (l3Offset isInput isL2Path + 40) false = some (proto, offset, false) := hends
    have hw := h.end_within
    rw [hrun]
    exact ⟨_, rfl, fillL4_nonfirst, fillL4_l4Valid.trans hw, fillL4_proto, fillL4_reads hw⟩

theorem and_fff_eq_zero (w : BitVec 16) : w &&& 0xfff = 0 ↔ w &&& 0x1fff = 0 ∨ w &&& 0x1fff = 0x1000 := by
  have hlow : (w &&& 0xfff).toNat = w.toNat % 4096 := by
    rw [toNat_and]
    exact Nat.and_two_pow_sub_one_eq_mod _ 12
  have hall : (w &&& 0x1fff).toNat = w.toNat % 8192 := by
    rw [toNat_and]
    exact Nat.and_two_pow_sub_one_eq_mod _ 13
  have hzero : (0 : BitVec 16).toNat = 0 := rfl
  have htop : (0x1000 : BitVec 16).toNat = 4096 := rfl
  rw [toNat_eq, toNat_eq, toNat_eq, hlow, hall, hzero, htop]
  omega

theorem fillL4_agrees_iff (hw : offsetWithinPacket b offset = true) :
    Agrees b false (fillL4 b false src dst proto offset false) (.header proto offset') ↔
        SameL4 b proto offset offset' := by
  have hreads : ReadsL4 b false proto offset (fillL4 b false src dst proto offset false) := fillL4_reads hw
  rw [← hreads.same_iff]
  apply Iff.intro
  · intro h
    exact h.2.2.2
  · intro h
    exact ⟨fillL4_nonfirst, fillL4_l4Valid.trans hw, fillL4_proto, h⟩

theorem fill_ip4_iff (hlen : 20 ≤ ip4HeaderBytes b (l3Offset isInput isL2Path))
    (hfits : ip4FragmentOffset b (l3Offset isInput isL2Path) = 0 →
      l3Offset isInput isL2Path + ip4HeaderBytes b (l3Offset isInput isL2Path) + 9 ≤ b.currentLength.toNat) :
    (∃ tuple, aclFill5tuple b false isInput isL2Path = some tuple ∧
      Agrees b false tuple (ip4Transport b (l3Offset isInput isL2Path))) ↔
          ReadRight4 b (l3Offset isInput isL2Path) := by
  generalize hl3 : l3Offset isInput isL2Path = l3 at hlen hfits ⊢
  rw [aclFill5tuple, if_neg Bool.false_ne_true, hl3, ip4Transport, ReadRight4]
  simp only [Option.some.injEq, exists_eq_left']
  have hbits : flagsAndFragmentOffset b l3 &&& 0xfff = 0 ↔
      ip4FragmentOffset b l3 = 0 ∨ ip4FragmentOffset b l3 = 0x1000 := and_fff_eq_zero _
  by_cases hlow : flagsAndFragmentOffset b l3 &&& 0xfff = 0
  · have hnf : ((0 : BitVec 16) != 0) = false := rfl
    rw [hlow, hnf, if_neg Bool.false_ne_true]
    by_cases hzero : ip4FragmentOffset b l3 = 0
    · have hw : offsetWithinPacket b (l3 + 20) = true := by
        apply offsetWithinPacket_iff.mpr
        have hle := hfits hzero
        omega
      have hne : ip4FragmentOffset b l3 ≠ 0x1000 := by
        rw [hzero]
        decide
      rw [if_neg (not_not.mpr hzero), fillL4_agrees_iff hw]
      exact ⟨fun h => ⟨hne, fun _ => h⟩, fun h => h.2 hzero⟩
    · have htop := (hbits.mp hlow).resolve_left hzero
      rw [if_pos hzero]
      apply iff_of_false
      · intro h
        exact Bool.false_ne_true (fillL4_nonfirst.symm.trans h.1)
      · intro h
        exact h.1 htop
  · have hzero : ip4FragmentOffset b l3 ≠ 0 := fun he => hlow (hbits.mpr (.inl he))
    have htop : ip4FragmentOffset b l3 ≠ 0x1000 := fun he => hlow (hbits.mpr (.inr he))
    have hnf : (flagsAndFragmentOffset b l3 &&& 0xfff != 0) = true := bne_iff_ne.mpr hlow
    rw [hnf, if_pos rfl, if_pos hzero]
    apply iff_of_true
    · refine ⟨fillL4_nonfirst, fillL4_l4Valid.trans ?_⟩
      apply Bool.eq_false_iff.mpr
      intro hin
      have hle := offsetWithinPacket_iff.mp hin
      omega
    · exact ⟨htop, fun he => absurd he hzero⟩

/-- The tuple is that of a well-formed packet, of IPv6 always and of IPv4 when it has another fragment offset than 4096
and, if it is no later fragment, no options that move what is read. -/
theorem acl_fill_5tuple (h : WellFormed b (l3Offset isInput isL2Path) isIp6 t) :
    (∃ tuple, aclFill5tuple b isIp6 isInput isL2Path = some tuple ∧ Agrees b isIp6 tuple t) ↔
      (isIp6 = true ∨ ReadRight4 b (l3Offset isInput isL2Path)) := by
  cases h with
  | ip4 hlen hfits =>
    rw [fill_ip4_iff hlen hfits]
    simp
  | ip6 hchain => exact iff_of_true (fill_ip6 hchain) (.inl rfl)

/-- A packet of UDP from port 1000 to 53, without options. -/
def plainUdp : Buffer where
  mem i := [0x45, 0, 0, 29, 0, 0, 0, 0, 64, 17, 0, 0, 10, 0, 0, 1, 10, 0, 0, 2, 3, 232, 0, 53, 0, 9, 0, 0, 0].getD i 0
  currentLength := 29

theorem acl_fill_5tuple_plain :
    (∃ tuple, aclFill5tuple plainUdp false true false = some tuple ∧
      Agrees plainUdp false tuple (ip4Transport plainUdp (l3Offset true false))) ↔
      (false = true ∨ ReadRight4 plainUdp (l3Offset true false)) := by
  exact acl_fill_5tuple (.ip4 (by decide) (fun _ => by decide))

/-- The same packet as the fragment at 8 * 4096. -/
def farFragment : Buffer where
  mem i := [0x45, 0, 0, 29, 0, 0, 0x10, 0, 64, 17, 0, 0, 10, 0, 0, 1, 10, 0, 0, 2, 3, 232, 0, 53, 0, 9, 0, 0,
      0].getD i 0
  currentLength := 29

theorem acl_fill_5tuple_fails :
    ¬ ∀ (b : Buffer) (isIp6 isInput isL2Path : Bool) (t : Transport), WellFormed b (l3Offset isInput isL2Path) isIp6 t →
      ∃ tuple, aclFill5tuple b isIp6 isInput isL2Path = some tuple ∧ Agrees b isIp6 tuple t := by
  intro hall
  have hne : ip4FragmentOffset farFragment (l3Offset true false) ≠ 0 := by decide
  obtain ⟨tuple, hrun, hagrees⟩ :=
    hall farFragment false true false _ (.ip4 (by decide) (fun hzero => absurd hzero hne))
  rw [ip4Transport, if_pos hne] at hagrees
  have hflag : (aclFill5tuple farFragment false true false).map Fa5tuple.isNonfirstFragment = some false := by decide
  rw [hrun, Option.map_some, hagrees.1] at hflag
  exact absurd hflag (by decide)

end Vpp.Acl
