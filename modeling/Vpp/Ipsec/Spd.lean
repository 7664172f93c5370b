import Mathlib.Data.BitVec
import Vpp.Lib.Pool
import Vpp.Lib.SortedVec

namespace Vpp.Ipsec
open Vpp.Lib Function

inductive PolicyAction where
  | bypass
  | discard
  | resolve
  | protect
deriving DecidableEq, Inhabited

structure PortRange where
  start : BitVec 16
  stop : BitVec 16
deriving DecidableEq, Inhabited

/-- The bytes of the addresses in order; an IPv4 address is at the end. -/
structure AddressRange where
  start : BitVec 128
  stop : BitVec 128
deriving DecidableEq, Inhabited

def asIp4 (a : BitVec 128) : BitVec 32 := a.setWidth 32

def asU64 (a : BitVec 128) : BitVec 64 × BitVec 64 := ((a >>> 64).setWidth 64, a.setWidth 64)

structure IpsecPolicy where
  id : BitVec 32
  priority : BitVec 32
  isOutbound : BitVec 8
  isIpv6 : BitVec 8
  laddr : AddressRange
  raddr : AddressRange
  protocol : BitVec 8
  lport : PortRange
  rport : PortRange
  policy : PolicyAction
  saId : BitVec 32
  saIndex : Nat
deriving DecidableEq, Inhabited

inductive PolicyVec where
  | ipv4Outbound
  | ipv6Outbound
  | ipv4InboundProtect
  | ipv4InboundDiscardAndBypass
  | ipv6InboundProtect
  | ipv6InboundDiscardAndBypass
deriving DecidableEq

structure IpsecSpd where
  policies : Pool IpsecPolicy
  indices : PolicyVec → List Nat

instance : Inhabited IpsecSpd := ⟨.empty, fun _ => []⟩

structure SadSa where
  id : BitVec 32
  spi : BitVec 32
deriving DecidableEq, Inhabited

structure IpsecTunnelIf where
  inputSaIndex : Nat
  outputSaIndex : Nat
deriving DecidableEq, Inhabited

structure IpsecMain where
  spds : Pool IpsecSpd
  sad : Pool SadSa
  tunnelInterfaces : Pool IpsecTunnelIf
  spdIndexBySpdId : BitVec 32 → Option Nat
  saIndexBySaId : BitVec 32 → Option Nat
  addDelSaSessCb : Option (Nat → Bool → Int)

def syscallError1 : Int := -11

def IpsecPolicy.vec (p : IpsecPolicy) : PolicyVec :=
  if p.isOutbound ≠ 0 then
    if p.isIpv6 ≠ 0 then .ipv6Outbound else .ipv4Outbound
  else if p.isIpv6 ≠ 0 then
    if p.policy = .protect then .ipv6InboundProtect else .ipv6InboundDiscardAndBypass
  else
    if p.policy = .protect then .ipv4InboundProtect else .ipv4InboundDiscardAndBypass

def liveIndices [Inhabited α] (p : Pool α) : List Nat := (List.range p.elts.length).filter fun i => p.Live i

/-- The address of a policy, which is null at the start of no vector. Where there is no policy, zeroes are read. -/
def IpsecSpd.policyAt (spd : IpsecSpd) (id : Nat) : Option IpsecPolicy :=
  if spd.policies.elts = [] ∧ id = 0 then none else some (spd.policies.eltAt id)

/-- The comparison looks at the first SPD, whichever is sorted. -/
def ipsecSpdEntrySort (im : IpsecMain) (id1 id2 : Nat) : BitVec 32 :=
  let differences := (liveIndices im.spds).findSome? fun s =>
    match (im.spds.eltAt s).policyAt id1, (im.spds.eltAt s).policyAt id2 with
    | some p1, some p2 => some (p2.priority - p1.priority)
    | _, _ => none
  differences.getD 0

def IpsecPolicy.SameSelector (vp policy : IpsecPolicy) : Prop :=
  vp.priority = policy.priority ∧ vp.isOutbound = policy.isOutbound ∧ vp.policy = policy.policy ∧
    vp.saId = policy.saId ∧ vp.protocol = policy.protocol ∧ vp.lport = policy.lport ∧ vp.rport = policy.rport ∧
    vp.isIpv6 = policy.isIpv6

def IpsecPolicy.SameIp6 (vp policy : IpsecPolicy) : Prop :=
  (asU64 vp.laddr.start).1 = (asU64 policy.laddr.start).1 ∧ (asU64 vp.laddr.start).2 = (asU64 policy.laddr.start).2 ∧
    (asU64 vp.laddr.stop).1 = (asU64 policy.laddr.stop).1 ∧ (asU64 vp.laddr.stop).2 = (asU64 policy.laddr.stop).2 ∧
    (asU64 vp.raddr.start).1 = (asU64 policy.raddr.start).1 ∧ (asU64 vp.raddr.start).2 = (asU64 policy.raddr.start).2 ∧
    (asU64 vp.raddr.stop).1 = (asU64 policy.raddr.stop).1 ∧ (asU64 vp.laddr.stop).2 = (asU64 policy.laddr.stop).2

def IpsecPolicy.SameIp4 (vp policy : IpsecPolicy) : Prop :=
  asIp4 vp.laddr.start = asIp4 policy.laddr.start ∧ asIp4 vp.laddr.stop = asIp4 policy.laddr.stop ∧
    asIp4 vp.raddr.start = asIp4 policy.raddr.start ∧ asIp4 vp.raddr.stop = asIp4 policy.raddr.stop

instance (vp policy : IpsecPolicy) : Decidable (vp.SameSelector policy) := inferInstanceAs (Decidable (_ ∧ _))

instance (vp policy : IpsecPolicy) : Decidable (vp.SameIp6 policy) := inferInstanceAs (Decidable (_ ∧ _))

instance (vp policy : IpsecPolicy) : Decidable (vp.SameIp4 policy) := inferInstanceAs (Decidable (_ ∧ _))

def delIndex (v : List Nat) (i : Nat) : List Nat :=
  if i ∈ v then delSwap v (v.idxOf i) else v

def IpsecSpd.delFrom (spd : IpsecSpd) (policy : IpsecPolicy) (i : Nat) : IpsecSpd :=
  { spd with indices := update spd.indices policy.vec (delIndex (spd.indices policy.vec) i) }

def IpsecSpd.remove (spd : IpsecSpd) (policy : IpsecPolicy) (i : Nat) : IpsecSpd :=
  { spd.delFrom policy i with policies := spd.policies.put i }

/-- The policies from the first index on. The `break` behind an IPv4 policy ends the body of the walk only, so the
search goes on behind it, as behind an IPv6 policy, which leaves its vector only. -/
def delPolicy (policy : IpsecPolicy) : List Nat → IpsecSpd → IpsecSpd
  | [], spd => spd
  | i :: is, spd =>
    let vp := spd.policies.eltAt i
    if ¬ vp.SameSelector policy then delPolicy policy is spd
    else if policy.isIpv6 ≠ 0 then
      if ¬ vp.SameIp6 policy then delPolicy policy is spd
      else delPolicy policy is (spd.delFrom policy i)
    else
      if ¬ vp.SameIp4 policy then delPolicy policy is spd
      else delPolicy policy is (spd.remove policy i)

/-- The index of the SA, where the policy has one to find. -/
def findSa (im : IpsecMain) (policy : IpsecPolicy) : Option IpsecPolicy :=
  if policy.policy = .protect then
    (im.saIndexBySaId policy.saId).map fun saIndex => { policy with saIndex }
  else some policy

section
variable (sort : (Nat → Nat → BitVec 32) → List Nat → List Nat)

def addPolicy (im : IpsecMain) (spdIndex : Nat) (policy : IpsecPolicy) : IpsecMain :=
  let spd := im.spds.eltAt spdIndex
  let (policies, policyIndex) := spd.policies.get
  let spd := { spd with policies := policies.set policyIndex policy }
  let compared := { im with spds := im.spds.set spdIndex spd }
  let indices := sort (ipsecSpdEntrySort compared) (spd.indices policy.vec ++ [policyIndex])
  let spd := { spd with indices := update spd.indices policy.vec indices }
  { im with spds := im.spds.set spdIndex spd }

def ipsecAddDelPolicy (im : IpsecMain) (policy : IpsecPolicy) (isAdd : Bool) : Int × IpsecMain :=
  match findSa im policy, im.spdIndexBySpdId policy.id with
  | some policy, some spdIndex =>
    if isAdd then (0, addPolicy sort im spdIndex policy)
    else
      let spd := im.spds.eltAt spdIndex
      (0, { im with spds := im.spds.set spdIndex (delPolicy policy (liveIndices spd.policies) spd) })
  | _, _ => (syscallError1, im)

end

def ipsecIsSaUsed (im : IpsecMain) (saIndex : Nat) : Bool :=
  ((liveIndices im.spds).any fun s =>
    let policies := (im.spds.eltAt s).policies
    (liveIndices policies).any fun i =>
      let p := policies.eltAt i
      p.policy = .protect ∧ p.saIndex = saIndex) ||
  (liveIndices im.tunnelInterfaces).any fun t =>
    let tunnel := im.tunnelInterfaces.eltAt t
    tunnel.inputSaIndex = saIndex ∨ tunnel.outputSaIndex = saIndex

def addDelSaSess (im : IpsecMain) (saIndex : Nat) (isAdd : Bool) : Int :=
  match im.addDelSaSessCb with
  | some cb => cb saIndex isAdd
  | none => 0

def ipsecAddDelSa (im : IpsecMain) (newSa : SadSa) (isAdd : Bool) : Int × IpsecMain :=
  match im.saIndexBySaId newSa.id, isAdd with
  | some _, true => (syscallError1, im)
  | none, false => (syscallError1, im)
  | some saIndex, false =>
    if ipsecIsSaUsed im saIndex then (syscallError1, im)
    else
      let sa := im.sad.eltAt saIndex
      let im := { im with saIndexBySaId := update im.saIndexBySaId sa.id none }
      if addDelSaSess im saIndex false < 0 then (syscallError1, im)
      else (0, { im with sad := im.sad.put saIndex })
  | none, true =>
    let (sad, saIndex) := im.sad.get
    let im := { im with
      sad := sad.set saIndex newSa
      saIndexBySaId := update im.saIndexBySaId newSa.id (some saIndex) }
    if addDelSaSess im saIndex true < 0 then (syscallError1, im) else (0, im)

def ipProtocolTcp : BitVec 8 := 6
def ipProtocolUdp : BitVec 8 := 17

def IpsecPolicy.Matches (p : IpsecPolicy) (pr : BitVec 8) (la ra : BitVec 32) (lp rp : BitVec 16) : Prop :=
  (p.protocol = 0 ∨ p.protocol = pr) ∧ asIp4 p.laddr.start ≤ la ∧ la ≤ asIp4 p.laddr.stop ∧
    asIp4 p.raddr.start ≤ ra ∧ ra ≤ asIp4 p.raddr.stop ∧
    (pr ≠ ipProtocolTcp ∧ pr ≠ ipProtocolUdp ∨
      p.lport.start ≤ lp ∧ lp ≤ p.lport.stop ∧ p.rport.start ≤ rp ∧ rp ≤ p.rport.stop)

instance (p : IpsecPolicy) (pr : BitVec 8) (la ra : BitVec 32) (lp rp : BitVec 16) :
    Decidable (p.Matches pr la ra lp rp) := inferInstanceAs (Decidable (_ ∧ _))

def ipsecOutputPolicyMatch (spd : IpsecSpd) (pr : BitVec 8) (la ra : BitVec 32) (lp rp : BitVec 16) : Option Nat :=
  (spd.indices .ipv4Outbound).find? fun i => (spd.policies.eltAt i).Matches pr la ra lp rp

end Vpp.Ipsec
