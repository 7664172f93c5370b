import Mathlib.Data.BitVec
import Vpp.Lib.Pool

namespace Vpp.Acl
open Vpp.Lib List

/-- An address in network order. One of IPv4 is in the last four bytes. -/
abbrev Ip46Address := BitVec 128

structure AclRule where
  isPermit : BitVec 8
  isIpv6 : Bool
  src : Ip46Address
  srcPrefixlen : BitVec 8
  dst : Ip46Address
  dstPrefixlen : BitVec 8
  proto : BitVec 8
  srcPortOrTypeFirst : BitVec 16
  srcPortOrTypeLast : BitVec 16
  dstPortOrCodeFirst : BitVec 16
  dstPortOrCodeLast : BitVec 16
  tcpFlagsValue : BitVec 8
  tcpFlagsMask : BitVec 8
deriving DecidableEq, Inhabited

structure Fa5tuple where
  src : Ip46Address
  dst : Ip46Address
  srcPort : BitVec 16
  dstPort : BitVec 16
  proto : BitVec 16
  tcpFlags : BitVec 8
  tcpFlagsValid : Bool
  l4Valid : Bool
  isNonfirstFragment : Bool
deriving DecidableEq

structure AclMain where
  acls : Pool (List AclRule)
  l4MatchNonfirstFragment : Bool

structure MatchOut where
  action : BitVec 8
  aclMatch : Nat
  ruleMatch : Int
  traceBitmap : BitVec 32
deriving DecidableEq

/-- A byte from the start of an address on, with the byte in memory behind it. -/
def byteAt (a : Ip46Address) (behind : BitVec 8) (i : Nat) : BitVec 8 :=
  if i < 16 then a.extractLsb' (8 * (15 - i)) 8 else behind

/-- The first `n` bytes are the same. -/
def sameBytes (a₁ a₂ : Ip46Address) (n : Nat) : Bool := (List.range n).all fun i => byteAt a₁ 0 i == byteAt a₂ 0 i

def byteMask (prefixlen : Nat) : BitVec 8 := 0xff#8 - ((1#8 <<< (8 - prefixlen % 8)) - 1)

def ip4Mask (prefixlen : Nat) : BitVec 32 := 0xffffffff#32 - ((1#32 <<< (32 - prefixlen)) - 1)

def faAclMatchAddr (addr₁ : Ip46Address) (behind₁ : BitVec 8) (addr₂ : Ip46Address) (behind₂ : BitVec 8)
    (prefixlen : Nat) (isIp6 : Bool) : Bool :=
  if prefixlen = 0 then true
  else if isIp6 then
    if !sameBytes addr₁ addr₂ (prefixlen / 8) then false
    else if prefixlen % 8 ≠ 0 then
      let b₁ := byteAt addr₁ behind₁ (1 + prefixlen / 8)
      let b₂ := byteAt addr₂ behind₂ (1 + prefixlen / 8)
      b₁ &&& byteMask prefixlen == b₂
    else true
  else addr₁.setWidth 32 &&& ip4Mask prefixlen == addr₂.setWidth 32

def faAclMatchPort (port portFirst portLast : BitVec 16) : Bool := portFirst.ule port && port.ule portLast

/-- Behind the source of a packet is its destination, behind that its first port, and behind an address of a rule is the
length of the prefix. -/
def matchAddrs (pkt : Fa5tuple) (isIp6 : Bool) (r : AclRule) : Bool :=
  faAclMatchAddr pkt.dst (pkt.srcPort.setWidth 8) r.dst r.dstPrefixlen r.dstPrefixlen.toNat isIp6 &&
    faAclMatchAddr pkt.src (byteAt pkt.dst 0 0) r.src r.srcPrefixlen r.srcPrefixlen.toNat isIp6

def matchPorts (pkt : Fa5tuple) (r : AclRule) : Bool :=
  pkt.l4Valid && faAclMatchPort pkt.srcPort r.srcPortOrTypeFirst r.srcPortOrTypeLast &&
    faAclMatchPort pkt.dstPort r.dstPortOrCodeFirst r.dstPortOrCodeLast &&
    !(pkt.tcpFlagsValid && pkt.tcpFlags &&& r.tcpFlagsMask != r.tcpFlagsValue)

def matchFragment (am : AclMain) (pkt : Fa5tuple) (r : AclRule) : Bool :=
  r.proto != 0 && pkt.isNonfirstFragment && am.l4MatchNonfirstFragment

def matchRule (am : AclMain) (pkt : Fa5tuple) (isIp6 : Bool) (r : AclRule) : Bool :=
  if isIp6 != r.isIpv6 then false
  else if !matchAddrs pkt isIp6 r then false
  else if r.proto != 0 then
    if pkt.proto != r.proto.setWidth 16 then false
    else if pkt.isNonfirstFragment && am.l4MatchNonfirstFragment then true
    else matchPorts pkt r
  else true

/-- The rules of a list from rule `i` on. -/
def matchRules (am : AclMain) (aclIndex : Nat) (pkt : Fa5tuple) (isIp6 : Bool) :
    Nat → List AclRule → MatchOut → Bool × MatchOut
  | _, [], out => (false, out)
  | i, r :: rules, out =>
    if matchRule am pkt isIp6 r then
      let trace := if matchFragment am pkt r then out.traceBitmap ||| 0x80000000 else out.traceBitmap
      (true, ⟨r.isPermit, aclIndex, i, trace⟩)
    else matchRules am aclIndex pkt isIp6 (i + 1) rules out

def aclMatch5tuple (am : AclMain) (aclIndex : Nat) (pkt : Fa5tuple) (isIp6 : Bool) (out : MatchOut) : Bool × MatchOut :=
  if am.acls.Live aclIndex then matchRules am aclIndex pkt isIp6 0 (am.acls.eltAt aclIndex) out
  else (false, { out with aclMatch := aclIndex, ruleMatch := -1 })

def matchAcls (am : AclMain) (pkt : Fa5tuple) (isIp6 : Bool) : List Nat → MatchOut → Bool × MatchOut
  | [], out => (false, out)
  | aclIndex :: aclVector, out =>
    let (found, out) := aclMatch5tuple am aclIndex pkt isIp6 out
    if found then (true, out) else matchAcls am pkt isIp6 aclVector out

def fullAclMatch5tuple (am : AclMain) (aclVector : List Nat) (pkt : Fa5tuple) (isIp6 : Bool) (out : MatchOut) :
    BitVec 8 :=
  let (found, out) := matchAcls am pkt isIp6 aclVector out
  if found then out.action else 0

/-- The first `len` bits of an address are those of a prefix. -/
def inPrefix (a net : Ip46Address) (len : Nat) (isIp6 : Bool) : Prop :=
  if isIp6 then ∀ k < len, a.getMsbD k = net.getMsbD k
  else ∀ k < len, (a.setWidth 32).getMsbD k = (net.setWidth 32).getMsbD k

instance (a net : Ip46Address) (len : Nat) (isIp6 : Bool) : Decidable (inPrefix a net len isIp6) :=
  inferInstanceAs (Decidable (if isIp6 then ∀ k < len, a.getMsbD k = net.getMsbD k
    else ∀ k < len, (a.setWidth 32).getMsbD k = (net.setWidth 32).getMsbD k))

/-- A prefix has a length for its family and no bits beyond it. -/
def PrefixOk (net : Ip46Address) (len : Nat) (isIp6 : Bool) : Prop :=
  if isIp6 then len ≤ 128 ∧ ∀ k < 128, len ≤ k → net.getMsbD k = false
  else len ≤ 32 ∧ ∀ k < 32, len ≤ k → (net.setWidth 32).getMsbD k = false

instance (net : Ip46Address) (len : Nat) (isIp6 : Bool) : Decidable (PrefixOk net len isIp6) :=
  inferInstanceAs (Decidable (if isIp6 then len ≤ 128 ∧ ∀ k < 128, len ≤ k → net.getMsbD k = false
    else len ≤ 32 ∧ ∀ k < 32, len ≤ k → (net.setWidth 32).getMsbD k = false))

def RuleOk (r : AclRule) : Prop :=
  PrefixOk r.src r.srcPrefixlen.toNat r.isIpv6 ∧ PrefixOk r.dst r.dstPrefixlen.toNat r.isIpv6

instance (r : AclRule) : Decidable (RuleOk r) := inferInstanceAs (Decidable (_ ∧ _))

def Admits (am : AclMain) (pkt : Fa5tuple) (r : AclRule) : Prop :=
  r.proto ≠ 0 → pkt.proto = r.proto.setWidth 16 ∧
    (pkt.isNonfirstFragment ∧ am.l4MatchNonfirstFragment ∨
      pkt.l4Valid ∧ (r.srcPortOrTypeFirst ≤ pkt.srcPort ∧ pkt.srcPort ≤ r.srcPortOrTypeLast) ∧
        (r.dstPortOrCodeFirst ≤ pkt.dstPort ∧ pkt.dstPort ≤ r.dstPortOrCodeLast) ∧
        (pkt.tcpFlagsValid → pkt.tcpFlags &&& r.tcpFlagsMask = r.tcpFlagsValue))

instance (am : AclMain) (pkt : Fa5tuple) (r : AclRule) : Decidable (Admits am pkt r) :=
  inferInstanceAs (Decidable (_ → _))

def Matches (am : AclMain) (pkt : Fa5tuple) (isIp6 : Bool) (r : AclRule) : Prop :=
  isIp6 = r.isIpv6 ∧ (inPrefix pkt.src r.src r.srcPrefixlen.toNat isIp6 ∧
    inPrefix pkt.dst r.dst r.dstPrefixlen.toNat isIp6) ∧ Admits am pkt r

instance (am : AclMain) (pkt : Fa5tuple) (isIp6 : Bool) (r : AclRule) : Decidable (Matches am pkt isIp6 r) :=
  inferInstanceAs (Decidable (_ ∧ _))

theorem getMsbD_byteAt (a : Ip46Address) (behind : BitVec 8) (hi : i < 16) (hj : j < 8) :
    (byteAt a behind i).getMsbD j = a.getMsbD (8 * i + j) := by
  rw [byteAt, if_pos hi]
  simp only [BitVec.getMsbD, BitVec.getLsbD_extractLsb', hj, decide_true, Bool.true_and]
  have hlt : 8 - 1 - j < 8 := by omega
  have hlt' : 8 * i + j < 128 := by omega
  have hidx : 8 * (15 - i) + (8 - 1 - j) = 128 - 1 - (8 * i + j) := by omega
  simp only [hlt, hlt', decide_true, Bool.true_and, hidx]

theorem byte_eq_iff {x y : BitVec 8} : x = y ↔ ∀ j < 8, x.getMsbD j = y.getMsbD j := by
  constructor
  · rintro rfl j _
    rfl
  · intro h
    exact BitVec.eq_of_getMsbD_eq h

theorem sameBytes_iff (hn : n ≤ 16) :
    sameBytes a b n = true ↔ ∀ k < 8 * n, a.getMsbD k = b.getMsbD k := by
  rw [sameBytes, List.all_eq_true]
  constructor
  · intro h k hk
    have hi : k / 8 < n := Nat.div_lt_of_lt_mul hk
    have hbyte := eq_of_beq (h (k / 8) (mem_range.mpr hi))
    have hbit := byte_eq_iff.mp hbyte (k % 8) (Nat.mod_lt k (by decide))
    rwa [getMsbD_byteAt a 0 (by omega) (Nat.mod_lt k (by decide)), getMsbD_byteAt b 0 (by omega)
      (Nat.mod_lt k (by decide)), Nat.div_add_mod] at hbit
  · intro h i hi
    have hi := mem_range.mp hi
    rw [beq_iff_eq, byte_eq_iff]
    intro j hj
    rw [getMsbD_byteAt a 0 (by omega) hj, getMsbD_byteAt b 0 (by omega) hj]
    exact h _ (by omega)

theorem getMsbD_byteMask : ∀ r < 8, 0 < r → ∀ j < 8, (byteMask r).getMsbD j = decide (j < r) := by
  decide

theorem getMsbD_ip4Mask : ∀ len ≤ 32, 0 < len → ∀ k < 32, (ip4Mask len).getMsbD k = decide (k < len) := by
  decide

theorem and_mask_eq_iff {x y m : BitVec w} (hm : ∀ k < w, m.getMsbD k = decide (k < n)) :
    x &&& m = y ↔ (∀ k < w, k < n → x.getMsbD k = y.getMsbD k) ∧ ∀ k < w, n ≤ k → y.getMsbD k = false := by
  have hbit : ∀ k < w, (x &&& m).getMsbD k = (x.getMsbD k && decide (k < n)) := by
    intro k hk
    rw [BitVec.getMsbD_and, hm k hk]
  constructor
  · rintro rfl
    constructor
    · intro k hk hn
      rw [hbit k hk, decide_eq_true hn, Bool.and_true]
    · intro k hk hn
      rw [hbit k hk, decide_eq_false (Nat.not_lt.mpr hn), Bool.and_false]
  · intro ⟨hin, hout⟩
    apply BitVec.eq_of_getMsbD_eq
    intro k hk
    rw [hbit k hk]
    by_cases hn : k < n
    · rw [decide_eq_true hn, Bool.and_true, hin k hk hn]
    · rw [decide_eq_false hn, Bool.and_false, hout k hk (Nat.not_lt.mp hn)]

theorem faAclMatchAddr_ip4 (hok : PrefixOk net len false) :
    faAclMatchAddr a x net y len false = true ↔ inPrefix a net len false := by
  obtain ⟨hlen, hzero⟩ := hok
  rw [faAclMatchAddr]
  by_cases h0 : len = 0
  · subst h0
    simp [inPrefix]
  · rw [if_neg h0, if_neg Bool.false_ne_true, beq_iff_eq,
      and_mask_eq_iff (getMsbD_ip4Mask len hlen (Nat.pos_of_ne_zero h0))]
    constructor
    · intro ⟨hin, _⟩ k hk
      exact hin k (by omega) hk
    · intro h
      exact ⟨fun k _ hk => h k hk, hzero⟩

/-- What the test of an address of IPv6 reads for the last bits of a prefix: the first bits of the byte behind them,
which are zero in the prefix. The last byte has none behind it in the address, but the length of the prefix, which
is never it. -/
def tailTest (a : Ip46Address) (len : Nat) : Prop :=
  len % 8 = 0 ∨ len < 120 ∧ ∀ j < len % 8, a.getMsbD (8 * (1 + len / 8) + j) = false

instance (a : Ip46Address) (len : Nat) : Decidable (tailTest a len) := inferInstanceAs (Decidable (_ ∨ _))

theorem faAclMatchAddr_ip6 (hok : PrefixOk net len true) :
    faAclMatchAddr a x net (BitVec.ofNat 8 len) len true = true ↔
      (∀ k < 8 * (len / 8), a.getMsbD k = net.getMsbD k) ∧ tailTest a len := by
  obtain ⟨hlen, hzero⟩ := hok
  have hbytes := sameBytes_iff (a := a) (b := net) (n := len / 8) (by omega)
  have hmask : byteMask len = byteMask (len % 8) := by rw [byteMask, byteMask, Nat.mod_mod]
  rw [faAclMatchAddr, tailTest]
  by_cases h0 : len = 0
  · subst h0
    simp
  · rw [if_neg h0, if_pos rfl]
    by_cases hs : sameBytes a net (len / 8) = true
    · rw [hs, Bool.not_true, if_neg Bool.false_ne_true, and_iff_right (hbytes.mp hs)]
      by_cases hr : len % 8 = 0
      · rw [if_neg (not_not_intro hr)]
        exact iff_of_true rfl (.inl hr)
      · have hpos := Nat.pos_of_ne_zero hr
        have hlt := Nat.mod_lt len (y := 8) (by decide)
        rw [if_pos hr, or_iff_right hr, beq_iff_eq, hmask, and_mask_eq_iff (getMsbD_byteMask _ hlt hpos)]
        by_cases hlast : len < 120
        · have hi : 1 + len / 8 < 16 := by omega
          have hnet : ∀ j < 8, (byteAt net (BitVec.ofNat 8 len) (1 + len / 8)).getMsbD j = false := by
            intro j hj
            rw [getMsbD_byteAt _ _ hi hj]
            exact hzero _ (by omega) (by omega)
          rw [and_iff_right hlast]
          constructor
          · intro ⟨hin, _⟩ j hj
            rw [← getMsbD_byteAt a x hi (by omega), hin j (by omega) hj, hnet j (by omega)]
          · intro h
            refine ⟨fun j hj hjr => ?_, fun j hj _ => hnet j hj⟩
            rw [getMsbD_byteAt a x hi hj, hnet j hj, h j hjr]
        · have hi : ¬ 1 + len / 8 < 16 := by omega
          refine iff_of_false ?_ fun h => hlast h.1
          intro ⟨_, hout⟩
          rw [byteAt, if_neg hi] at hout
          have hnever : ∀ len < 128, 120 ≤ len → len % 8 ≠ 0 →
              ¬ ∀ j < 8, len % 8 ≤ j → (BitVec.ofNat 8 len).getMsbD j = false := by decide
          exact hnever len (by omega) (by omega) hr hout
    · refine iff_of_false ?_ fun h => hs (hbytes.mpr h.1)
      rw [Bool.eq_false_iff.mpr hs, Bool.not_false, if_pos rfl]
      exact Bool.false_ne_true

/-- An address as the test reads it: for IPv6 the last bits of a prefix that does not end with a byte are taken a
byte too late. -/
def readsIn (a net : Ip46Address) (len : Nat) (isIp6 : Bool) : Prop :=
  if isIp6 then (∀ k < 8 * (len / 8), a.getMsbD k = net.getMsbD k) ∧ tailTest a len else inPrefix a net len false

instance (a net : Ip46Address) (len : Nat) (isIp6 : Bool) : Decidable (readsIn a net len isIp6) :=
  inferInstanceAs (Decidable (if isIp6 then (∀ k < 8 * (len / 8), a.getMsbD k = net.getMsbD k) ∧ tailTest a len
    else inPrefix a net len false))

theorem faAclMatchAddr_iff (hok : PrefixOk net len.toNat isIp6) :
    faAclMatchAddr a x net len len.toNat isIp6 = true ↔ readsIn a net len.toNat isIp6 := by
  cases isIp6 with
  | false => exact faAclMatchAddr_ip4 hok
  | true =>
    have h := faAclMatchAddr_ip6 (a := a) (x := x) hok
    rw [BitVec.ofNat_toNat, BitVec.setWidth_eq] at h
    exact h

theorem matchPorts_iff (pkt : Fa5tuple) (r : AclRule) :
    matchPorts pkt r = true ↔ pkt.l4Valid ∧ (r.srcPortOrTypeFirst ≤ pkt.srcPort ∧ pkt.srcPort ≤ r.srcPortOrTypeLast) ∧
        (r.dstPortOrCodeFirst ≤ pkt.dstPort ∧ pkt.dstPort ≤ r.dstPortOrCodeLast) ∧
        (pkt.tcpFlagsValid → pkt.tcpFlags &&& r.tcpFlagsMask = r.tcpFlagsValue) := by
  simp only [matchPorts, faAclMatchPort, Bool.and_eq_true, BitVec.ule_iff_le, and_assoc]
  cases pkt.tcpFlagsValid with
  | false => simp
  | true => simp

def Reads (am : AclMain) (pkt : Fa5tuple) (isIp6 : Bool) (r : AclRule) : Prop :=
  isIp6 = r.isIpv6 ∧ (readsIn pkt.src r.src r.srcPrefixlen.toNat isIp6 ∧
    readsIn pkt.dst r.dst r.dstPrefixlen.toNat isIp6) ∧ Admits am pkt r

theorem matchRule_iff (hok : RuleOk r) : matchRule am pkt isIp6 r = true ↔ Reads am pkt isIp6 r := by
  rw [matchRule, Reads]
  by_cases hfam : isIp6 = r.isIpv6
  · subst hfam
    have haddrs : matchAddrs pkt r.isIpv6 r = true ↔ readsIn pkt.src r.src r.srcPrefixlen.toNat r.isIpv6 ∧
        readsIn pkt.dst r.dst r.dstPrefixlen.toNat r.isIpv6 := by
      rw [matchAddrs, Bool.and_eq_true, faAclMatchAddr_iff hok.1, faAclMatchAddr_iff hok.2, and_comm]
    rw [bne_self_eq_false, if_neg Bool.false_ne_true, and_iff_right rfl, ← haddrs]
    cases matchAddrs pkt r.isIpv6 r with
    | false => simp
    | true =>
      rw [Bool.not_true, if_neg Bool.false_ne_true, and_iff_right rfl, Admits]
      by_cases hproto : r.proto = 0
      · rw [hproto, bne_self_eq_false, if_neg Bool.false_ne_true]
        exact iff_of_true rfl fun h => absurd rfl h
      · rw [if_pos (bne_iff_ne.mpr hproto), forall_prop_of_true hproto, ← matchPorts_iff]
        by_cases hp : pkt.proto = r.proto.setWidth 16
        · rw [hp, bne_self_eq_false, if_neg Bool.false_ne_true, and_iff_right rfl]
          cases pkt.isNonfirstFragment <;> cases am.l4MatchNonfirstFragment <;> simp
        · rw [if_pos (bne_iff_ne.mpr hp)]
          exact iff_of_false Bool.false_ne_true fun h => hp h.1
  · rw [if_pos (bne_iff_ne.mpr hfam)]
    exact iff_of_false Bool.false_ne_true fun h => hfam h.1

def consulted (am : AclMain) (aclVector : List Nat) : List (Nat × Nat × AclRule) :=
  aclVector.flatMap fun a => if am.acls.Live a then (am.acls.eltAt a).zipIdx.map fun (r, i) => (a, i, r) else []

def firstRule (am : AclMain) (aclVector : List Nat) (pkt : Fa5tuple) (isIp6 : Bool) : Option (Nat × Nat × AclRule) :=
  (consulted am aclVector).find? fun (_, _, r) => decide (Matches am pkt isIp6 r)

abbrev Decision := Nat × Int × BitVec 8

def verdict : Nat × Nat × AclRule → Decision
  | (a, i, r) => (a, i, r.isPermit)

def decision (res : Bool × MatchOut) : Option Decision :=
  if res.1 then some (res.2.aclMatch, res.2.ruleMatch, res.2.action) else none

theorem decision_matchRules (am : AclMain) (a : Nat) (pkt : Fa5tuple) (isIp6 : Bool) (i : Nat) (rules : List AclRule)
    (out : MatchOut) :
    decision (matchRules am a pkt isIp6 i rules out) =
      (((rules.zipIdx i).map fun (r, i) => (a, i, r)).find? fun (_, _, r) => matchRule am pkt isIp6 r).map verdict := by
  induction rules generalizing i with
  | nil => rfl
  | cons r rules ih =>
    rw [matchRules, zipIdx_cons, map_cons, find?_cons]
    cases hr : matchRule am pkt isIp6 r with
    | false =>
      simp only [hr, Bool.false_eq_true, if_false]
      exact ih (i + 1)
    | true =>
      simp only [hr, if_true]
      rfl

theorem decision_matchAcls (am : AclMain) (pkt : Fa5tuple) (isIp6 : Bool) (aclVector : List Nat) (out : MatchOut) :
    decision (matchAcls am pkt isIp6 aclVector out) =
      ((consulted am aclVector).find? fun (_, _, r) => matchRule am pkt isIp6 r).map verdict := by
  induction aclVector generalizing out with
  | nil => rfl
  | cons a aclVector ih =>
    rw [matchAcls, consulted, flatMap_cons, find?_append, ← consulted]
    have hone : decision (aclMatch5tuple am a pkt isIp6 out) =
        ((if am.acls.Live a then (am.acls.eltAt a).zipIdx.map fun (r, i) => (a, i, r) else []).find?
          fun (_, _, r) => matchRule am pkt isIp6 r).map verdict := by
      rw [aclMatch5tuple]
      split
      · exact decision_matchRules am a pkt isIp6 0 _ out
      · rfl
    rw [Option.map_or, ← hone]
    obtain ⟨found, out'⟩ := aclMatch5tuple am a pkt isIp6 out
    cases found with
    | false => exact ih out'
    | true => rfl

theorem verdict_injOn (hx : x ∈ consulted am aclVector) (hy : y ∈ consulted am aclVector)
    (h : verdict x = verdict y) : x = y := by
  have hplace : ∀ z ∈ consulted am aclVector, (am.acls.eltAt z.1)[z.2.1]? = some z.2.2 := by
    intro z hz
    obtain ⟨a, _, hz⟩ := mem_flatMap.mp hz
    split at hz
    · obtain ⟨⟨r, i⟩, hmem, rfl⟩ := List.mem_map.mp hz
      exact mem_zipIdx_iff_getElem?.mp hmem
    · exact absurd hz not_mem_nil
  obtain ⟨a, i, r⟩ := x
  obtain ⟨a', i', r'⟩ := y
  obtain ⟨rfl, hi⟩ := Prod.mk.inj h
  obtain rfl := Int.ofNat.inj (Prod.mk.inj hi).1
  have hr : some r = some r' := (hplace (a, i, r) hx).symm.trans (hplace (a, i, r') hy)
  rw [Option.some.inj hr]

/-- Two searches find the same when they agree up to where the second ends. -/
theorem find?_eq_find?_iff (l : List α) (p q : α → Bool) :
    l.find? p = l.find? q ↔ ∀ xs x ys, l = xs ++ x :: ys → (∀ y ∈ xs, q y = false) → p x = q x := by
  constructor
  · intro h xs x ys hl hxs
    have hq : xs.find? q = none := find?_eq_none.mpr fun y hy => by simp [hxs y hy]
    rw [hl, find?_append, find?_append, hq, Option.none_or, find?_cons, find?_cons] at h
    cases hqx : q x with
    | true =>
      rw [hqx] at h
      cases hp : xs.find? p with
      | none =>
        rw [hp, Option.none_or] at h
        cases hpx : p x with
        | true => rfl
        | false =>
          rw [hpx] at h
          exact absurd (find?_some h) (by simp [hpx])
      | some y =>
        rw [hp, Option.some_or] at h
        rw [← Option.some.inj h]
        exact find?_some hp
    | false =>
      cases hpx : p x with
      | false => rfl
      | true =>
        rw [hqx, hpx] at h
        cases hp : xs.find? p with
        | none =>
          rw [hp, Option.none_or] at h
          exact absurd (find?_some h.symm) (by simp [hqx])
        | some y =>
          rw [hp, Option.some_or] at h
          exact absurd (find?_some h.symm) (by simp [hxs y (mem_of_find?_eq_some hp)])
  · intro h
    induction l with
    | nil => rfl
    | cons x l ih =>
      have hx := h [] x l rfl (fun y hy => absurd hy not_mem_nil)
      rw [find?_cons, find?_cons, hx]
      cases hqx : q x with
      | true => rfl
      | false =>
        apply ih
        intro xs y ys hl hxs
        apply h (x :: xs) y ys (by rw [hl]; rfl)
        intro z hz
        obtain rfl | hz := mem_cons.mp hz
        · exact hqx
        · exact hxs z hz

def ReadRight (am : AclMain) (pkt : Fa5tuple) (isIp6 : Bool) (r : AclRule) : Prop :=
  isIp6 = r.isIpv6 → Admits am pkt r →
    (readsIn pkt.src r.src r.srcPrefixlen.toNat isIp6 ∧ readsIn pkt.dst r.dst r.dstPrefixlen.toNat isIp6 ↔
      inPrefix pkt.src r.src r.srcPrefixlen.toNat isIp6 ∧ inPrefix pkt.dst r.dst r.dstPrefixlen.toNat isIp6)

instance (am : AclMain) (pkt : Fa5tuple) (isIp6 : Bool) (r : AclRule) : Decidable (ReadRight am pkt isIp6 r) :=
  inferInstanceAs (Decidable (_ → _ → (_ ↔ _)))

theorem readRight_iff : ReadRight am pkt isIp6 r ↔ (Reads am pkt isIp6 r ↔ Matches am pkt isIp6 r) := by
  rw [Reads, Matches, ReadRight]
  constructor
  · intro h
    constructor
    · intro ⟨hf, haddr, ha⟩
      exact ⟨hf, (h hf ha).mp haddr, ha⟩
    · intro ⟨hf, haddr, ha⟩
      exact ⟨hf, (h hf ha).mpr haddr, ha⟩
  · intro h hf ha
    constructor
    · intro haddr
      exact (h.mp ⟨hf, haddr, ha⟩).2.1
    · intro haddr
      exact (h.mpr ⟨hf, haddr, ha⟩).2.1

/-- The packet is decided by the first rule that matches, just when every rule up to that one is read as it is meant. -/
theorem full_acl_match_first_iff (am : AclMain) (aclVector : List Nat) (pkt : Fa5tuple) (isIp6 : Bool) (out : MatchOut)
    (hok : ∀ x ∈ consulted am aclVector, RuleOk x.2.2) :
    ((decision (matchAcls am pkt isIp6 aclVector out) = (firstRule am aclVector pkt isIp6).map verdict ∧
        fullAclMatch5tuple am aclVector pkt isIp6 out =
          ((firstRule am aclVector pkt isIp6).map fun (_, _, r) => r.isPermit).getD 0) ↔
      ∀ xs x ys, consulted am aclVector = xs ++ x :: ys → (∀ y ∈ xs, ¬ Matches am pkt isIp6 y.2.2) →
        ReadRight am pkt isIp6 x.2.2) := by
  have hcode := decision_matchAcls am pkt isIp6 aclVector out
  have haction : fullAclMatch5tuple am aclVector pkt isIp6 out =
      ((decision (matchAcls am pkt isIp6 aclVector out)).map fun (_, _, action) => action).getD 0 := by
    rw [fullAclMatch5tuple]
    obtain ⟨found, out'⟩ := matchAcls am pkt isIp6 aclVector out
    cases found with
    | false => rfl
    | true => rfl
  have hspec : decision (matchAcls am pkt isIp6 aclVector out) = (firstRule am aclVector pkt isIp6).map verdict ↔
      (consulted am aclVector).find? (fun (_, _, r) => matchRule am pkt isIp6 r) =
          firstRule am aclVector pkt isIp6 := by
    rw [hcode]
    constructor
    · intro h
      cases hp : (consulted am aclVector).find? fun (_, _, r) => matchRule am pkt isIp6 r with
      | none =>
        rw [hp] at h
        exact (Option.map_eq_none_iff.mp h.symm).symm
      | some x =>
        rw [hp] at h
        obtain ⟨y, hy, hxy⟩ := Option.map_eq_some_iff.mp h.symm
        rw [hy, verdict_injOn (mem_of_find?_eq_some hp) (mem_of_find?_eq_some hy) hxy.symm]
    · intro h
      rw [h]
  have hrule : ∀ x ∈ consulted am aclVector,
      (matchRule am pkt isIp6 x.2.2 = decide (Matches am pkt isIp6 x.2.2) ↔ ReadRight am pkt isIp6 x.2.2) := by
    intro x hx
    rw [readRight_iff, ← matchRule_iff (hok x hx), Bool.eq_iff_iff, decide_eq_true_iff]
  have hfirst : (consulted am aclVector).find? (fun (_, _, r) => matchRule am pkt isIp6 r) =
      firstRule am aclVector pkt isIp6 ↔ ∀ xs x ys, consulted am aclVector = xs ++ x :: ys →
        (∀ y ∈ xs, ¬ Matches am pkt isIp6 y.2.2) → ReadRight am pkt isIp6 x.2.2 := by
    rw [firstRule, find?_eq_find?_iff]
    apply forall_congr'
    intro xs
    apply forall_congr'
    intro x
    apply forall_congr'
    intro ys
    apply forall_congr'
    intro hl
    rw [← hrule x (hl ▸ mem_append_right xs mem_cons_self)]
    simp only [decide_eq_false_iff_not]
  rw [← hfirst, ← hspec, and_iff_left_iff_imp]
  intro h
  rw [haction, h, Option.map_map]
  rfl

/-- One list, that permits what goes to `2000::/3` and nothing else. -/
def globalUnicast : AclMain where
  acls := .ofElts
    [[{ (default : AclRule) with isPermit := 1, isIpv6 := true, dst := 0x2000 <<< 112, dstPrefixlen := 3 }]]
  l4MatchNonfirstFragment := false

def packetTo (dst : Ip46Address) : Fa5tuple :=
  { src := 0, dst := dst, srcPort := 0, dstPort := 0, proto := 58, tcpFlags := 0, tcpFlagsValid :=
    false, l4Valid := true
    isNonfirstFragment := false }

/-- A packet to `2620::1` is in the prefix, and is denied. One to `::1` is not, and is permitted. -/
theorem full_acl_match_first_fails :
    (fullAclMatch5tuple globalUnicast [0] (packetTo (0x2620 <<< 112 + 1)) true ⟨0, 0, 0, 0⟩ = 0 ∧
      firstRule globalUnicast [0] (packetTo (0x2620 <<< 112 + 1)) true =
        some (0, 0, (globalUnicast.acls.eltAt 0).headD default) ∧
      ((globalUnicast.acls.eltAt 0).headD default).isPermit = 1) ∧
    fullAclMatch5tuple globalUnicast [0] (packetTo 1) true ⟨0, 0, 0, 0⟩ = 1 ∧
      firstRule globalUnicast [0] (packetTo 1) true = none := by
  decide

/-- To `2001:db8::1`, where the byte behind the prefix has no bits either, the rule is read as it is meant. -/
theorem full_acl_match_first_documentation :
    decision (matchAcls globalUnicast (packetTo (0x20010db8 <<< 96 + 1)) true [0] ⟨0, 0, 0, 0⟩) =
        (firstRule globalUnicast [0] (packetTo (0x20010db8 <<< 96 + 1)) true).map verdict ∧
      fullAclMatch5tuple globalUnicast [0] (packetTo (0x20010db8 <<< 96 + 1)) true ⟨0, 0, 0, 0⟩ =
        ((firstRule globalUnicast [0] (packetTo (0x20010db8 <<< 96 + 1)) true).map fun (_, _, r) =>
          r.isPermit).getD 0 := by
  refine (full_acl_match_first_iff globalUnicast [0] (packetTo (0x20010db8 <<< 96 + 1)) true ⟨0, 0, 0, 0⟩
    (by decide)).mpr ?_
  intro xs x ys hl _
  have hx : x ∈ consulted globalUnicast [0] := hl ▸ mem_append_right xs mem_cons_self
  have hall : ∀ x ∈ consulted globalUnicast [0],
      ReadRight globalUnicast (packetTo (0x20010db8 <<< 96 + 1)) true x.2.2 := by decide
  exact hall x hx

end Vpp.Acl
