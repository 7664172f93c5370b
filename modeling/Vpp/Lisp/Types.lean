import Mathlib.Data.BitVec
import Vpp.Lib.NetBytes

namespace Vpp.Lisp
open Vpp.Lib

/-- The members of a union are fields of their own: each is written before it is read. -/
inductive IpAddressType where
  | ip4
  | ip6
  deriving DecidableEq

structure IpAddress where
  v4 : BitVec 32
  v6 : BitVec 128
  version : IpAddressType

structure IpPrefix where
  addr : IpAddress
  len : BitVec 8

/-- The last one is the `~0` of an AFI that has no type. -/
inductive FidAddrType where
  | ipPref
  | mac
  | nsh
  | invalid
  deriving DecidableEq

structure FidAddress where
  ippref : IpPrefix
  mac : BitVec 48
  type : FidAddrType

structure SourceDest where
  src : FidAddress
  dst : FidAddress

structure Lcaf where
  vniMaskLen : BitVec 8
  type : BitVec 8

inductive GidAddressType where
  | ipPrefix
  | lcaf
  | mac
  | srcDst
  | nsh
  | noAddress
  deriving DecidableEq

structure GidAddress where
  ippref : IpPrefix
  lcaf : Lcaf
  mac : BitVec 48
  sd : SourceDest
  type : GidAddressType
  vni : BitVec 32
  vniMask : BitVec 8

def lispAfiNoAddr : BitVec 16 := 0
def lispAfiIp : BitVec 16 := 1
def lispAfiIp6 : BitVec 16 := 2
def lispAfiLcaf : BitVec 16 := 16387
def lispAfiMac : BitVec 16 := 16389

def lcafNullBody : BitVec 8 := 0
def lcafInstanceId : BitVec 8 := 2
def lcafSourceDest : BitVec 8 := 12

def sizeofU16 : BitVec 16 := 2
def sizeofU32 : BitVec 16 := 4
def sizeofLcafHdr : BitVec 16 := 6
def sizeofLcafSrcDstHdr : BitVec 16 := 4

def ipAddressSize : IpAddressType → BitVec 16
  | .ip4 => 4
  | .ip6 => 16

def ipPrefixSizeToWrite (a : IpPrefix) : BitVec 16 := ipAddressSize a.addr.version + sizeofU16

def macSizeToWrite : BitVec 16 := sizeofU16 + 6

def nshSizeToWrite : BitVec 16 := sizeofU16 + 4

def fidAddrSizeToWrite (a : FidAddress) : BitVec 16 :=
  match a.type with
  | .ipPref => ipPrefixSizeToWrite a.ippref
  | .mac => macSizeToWrite
  | _ => 0

def sdSizeToWrite (sd : SourceDest) : BitVec 16 :=
  sizeofU16 + sizeofLcafHdr + sizeofLcafSrcDstHdr + fidAddrSizeToWrite sd.src + fidAddrSizeToWrite sd.dst

/-- The table has no function for an address that is missing. An LCAF is only there while one is parsed,
and its functions are left out. -/
def gidAddressSizeToPutNoVni (gid : GidAddress) : Option (BitVec 16) :=
  match gid.type with
  | .ipPrefix => some (ipPrefixSizeToWrite gid.ippref)
  | .mac => some macSizeToWrite
  | .srcDst => some (sdSizeToWrite gid.sd)
  | .nsh => some nshSizeToWrite
  | .lcaf => none
  | .noAddress => none

def vniSizeToWrite (g : GidAddress) : Option (BitVec 16) :=
  let lcafSize := sizeofU32 + sizeofU16 + sizeofLcafHdr
  if g.type = .srcDst then some (lcafSize + sdSizeToWrite g.sd)
  else (gidAddressSizeToPutNoVni g).map (lcafSize + ·)

def gidAddressSizeToPut (gid : GidAddress) : Option (BitVec 16) :=
  if gid.vni ≠ 0 then vniSizeToWrite gid else gidAddressSizeToPutNoVni gid

/-- A writer returns what it takes for the number of bytes that it wrote. -/
def ipVersionToIanaAfi : IpAddressType → BitVec 16
  | .ip4 => lispAfiIp
  | .ip6 => lispAfiIp6

def ip4AddressPut (m : Memory) (b : Nat) (a : BitVec 32) : Memory × BitVec 16 :=
  let m := m.store b (netBytes 2 (ipVersionToIanaAfi .ip4).toNat)
  (m.store (b + sizeofU16.toNat) (netBytes 4 a.toNat), 6)

def ip6AddressPut (m : Memory) (b : Nat) (a : BitVec 128) : Memory × BitVec 16 :=
  let m := m.store b (netBytes 2 (ipVersionToIanaAfi .ip6).toNat)
  (m.store (b + sizeofU16.toNat) (netBytes 16 a.toNat), 18)

def ipPrefixWrite (m : Memory) (p : Nat) (a : IpPrefix) : Memory × BitVec 16 :=
  match a.addr.version with
  | .ip4 => ip4AddressPut m p a.addr.v4
  | .ip6 => ip6AddressPut m p a.addr.v6

def macWrite (m : Memory) (p : Nat) (a : BitVec 48) : Memory × BitVec 16 :=
  let m := m.store p (netBytes 2 lispAfiMac.toNat)
  (m.store (p + sizeofU16.toNat) (netBytes 6 a.toNat), macSizeToWrite)

def fidAddrWrite (m : Memory) (p : Nat) (a : FidAddress) : Memory × BitVec 16 :=
  match a.type with
  | .ipPref => ipPrefixWrite m p a.ippref
  | .mac => macWrite m p a.mac
  | _ => (m, BitVec.allOnes 16)

def fidAddressLength (a : FidAddress) : BitVec 8 :=
  match a.type with
  | .ipPref => a.ippref.len
  | _ => 0

def lcafHdr (type reserved2 : BitVec 8) (len : BitVec 16) : List (BitVec 8) :=
  [0, 0, type, reserved2] ++ netBytes 2 len.toNat

def sdWrite (m : Memory) (p : Nat) (sd : SourceDest) : Memory × BitVec 16 :=
  let m := m.store p (netBytes 2 lispAfiLcaf.toNat)
  let size := sizeofU16
  let lcafLen := sizeofLcafSrcDstHdr + fidAddrSizeToWrite sd.src + fidAddrSizeToWrite sd.dst
  let m := m.store (p + size.toNat) (lcafHdr lcafSourceDest 0 lcafLen)
  let size := size + sizeofLcafHdr
  let m := m.store (p + size.toNat) [0, 0, fidAddressLength sd.src, fidAddressLength sd.dst]
  let size := size + sizeofLcafSrcDstHdr
  let (m, len) := fidAddrWrite m (p + size.toNat) sd.src
  if len = BitVec.allOnes 16 then (m, BitVec.allOnes 16)
  else
    let size := size + len
    let (m, len) := fidAddrWrite m (p + size.toNat) sd.dst
    if len = BitVec.allOnes 16 then (m, BitVec.allOnes 16)
    else (m, size + len)

def nshWrite (m : Memory) : Memory × BitVec 16 := (m, 0)

def gidAddressPutNoVni (m : Memory) (b : Nat) (gid : GidAddress) : Option (Memory × BitVec 16) :=
  match gid.type with
  | .ipPrefix => some (ipPrefixWrite m b gid.ippref)
  | .mac => some (macWrite m b gid.mac)
  | .srcDst => some (sdWrite m b gid.sd)
  | .nsh => some (nshWrite m)
  | .lcaf => none
  | .noAddress => none

def vniWrite (m : Memory) (p : Nat) (g : GidAddress) : Option (Memory × BitVec 16) := do
  let m := m.store p (netBytes 2 lispAfiLcaf.toNat)
  let size := sizeofU16
  let lcafLen := sizeofU32 + (← gidAddressSizeToPutNoVni g)
  let m := m.store (p + size.toNat) (lcafHdr lcafInstanceId g.vniMask lcafLen)
  let size := size + sizeofLcafHdr
  let m := m.store (p + size.toNat) (netBytes 4 g.vni.toNat)
  let size := size + sizeofU32
  let (m, len) ← (if g.type = .srcDst then some (sdWrite m (p + size.toNat) g.sd)
    else gidAddressPutNoVni m (p + size.toNat) g)
  if len = BitVec.allOnes 16 then some (m, BitVec.allOnes 16)
  else some (m, size + len)

def gidAddressPut (m : Memory) (b : Nat) (gid : GidAddress) : Option (Memory × BitVec 16) :=
  if gid.vni ≠ 0 then vniWrite m b gid else gidAddressPutNoVni m b gid

def afiAt (m : Memory) (p : Nat) : BitVec 16 := m.word 2 p

def ipIanaAfiToVersion (afi : BitVec 16) : IpAddressType :=
  if afi = lispAfiIp6 then .ip6 else .ip4

def ipAddressParse (m : Memory) (offset : Nat) (ianaAfi : BitVec 16) (dst : IpAddress) : BitVec 32 × IpAddress :=
  let dst := { dst with version := ipIanaAfiToVersion ianaAfi }
  let size := (ipAddressSize dst.version).setWidth 32
  let dst :=
    match dst.version with
    | .ip4 => { dst with v4 := m.word 4 (offset + sizeofU16.toNat) }
    | .ip6 => { dst with v6 := m.word 16 (offset + sizeofU16.toNat) }
  (sizeofU16.setWidth 32 + size, dst)

def macParse (m : Memory) (offset : Nat) : BitVec 32 × BitVec 48 :=
  (sizeofU16.setWidth 32 + 6, m.word 6 (offset + sizeofU16.toNat))

def ianaAfiToFidAddrType (type : BitVec 16) : FidAddrType :=
  if type = lispAfiIp ∨ type = lispAfiIp6 then .ipPref
  else if type = lispAfiMac then .mac
  else .invalid

def fidAddrParse (m : Memory) (p : Nat) (a : FidAddress) : BitVec 16 × FidAddress :=
  let afi := afiAt m p
  let a := { a with type := ianaAfiToFidAddrType afi }
  match a.type with
  | .mac =>
    let (len, mac) := macParse m p
    (len.setWidth 16, { a with mac := mac })
  | .ipPref =>
    let (len, addr) := ipAddressParse m p afi a.ippref.addr
    (len.setWidth 16, { a with ippref := { a.ippref with addr := addr } })
  | _ => (BitVec.allOnes 16, a)

def FidAddress.setLen (a : FidAddress) (len : BitVec 8) : FidAddress :=
  if a.type = .ipPref then { a with ippref := { a.ippref with len := len } } else a

def sdParse (m : Memory) (p : Nat) (g : GidAddress) : BitVec 16 × GidAddress :=
  let size := sizeofLcafSrcDstHdr
  let (len, src) := fidAddrParse m (p + size.toNat) g.sd.src
  let size := size + len
  let (len, dst) := fidAddrParse m (p + size.toNat) g.sd.dst
  let size := size + len
  (size, { g with type := .srcDst, sd := ⟨src.setLen (m (p + 2)), dst.setLen (m (p + 3))⟩ })

/-- The instance ID is the only LCAF that uses the second reserved byte. -/
def lcafHdrParse (m : Memory) (offset : Nat) : BitVec 32 × Lcaf :=
  (sizeofLcafHdr.setWidth 32, ⟨m (offset + 3), m (offset + 2)⟩)

def tryParseSrcDstLcaf (m : Memory) (p : Nat) (a : GidAddress) : BitVec 16 × GidAddress :=
  let size := sizeofU16
  let (len, lcaf) := lcafHdrParse m (p + size.toNat)
  let size := size + len.setWidth 16
  if lcaf.type ≠ lcafSourceDest then (BitVec.allOnes 16, a)
  else
    let (len, a) := sdParse m (p + size.toNat) a
    (size + len, a)

mutual

/-- The address is not cleared first, since `vniParse` calls this too. -/
def gidAddressParse (m : Memory) (offset : Nat) (a : GidAddress) : BitVec 32 × GidAddress :=
  let afi := afiAt m offset
  if afi = lispAfiNoAddr then (sizeofU16.setWidth 32, { a with type := .noAddress })
  else if afi = lispAfiIp then
    let (len, addr) := ipAddressParse m offset afi a.ippref.addr
    (len, { a with type := .ipPrefix, ippref := ⟨addr, 32⟩ })
  else if afi = lispAfiIp6 then
    let (len, addr) := ipAddressParse m offset afi a.ippref.addr
    (len, { a with type := .ipPrefix, ippref := ⟨addr, 128⟩ })
  else if h : afiAt m offset = lispAfiLcaf then lcafParse m offset { a with type := .lcaf }
  else if afi = lispAfiMac then
    let (len, mac) := macParse m offset
    (len, { a with type := .mac, mac := mac })
  else (BitVec.allOnes 32, a)
termination_by if afiAt m offset = lispAfiLcaf then 3 else 0
decreasing_by simp [h]

def lcafParse (m : Memory) (offset : Nat) (addr : GidAddress) : BitVec 32 × GidAddress :=
  let offset := offset + sizeofU16.toNat
  let (size, lcaf) := lcafHdrParse m offset
  let addr := { addr with lcaf := lcaf }
  if lcaf.type = lcafInstanceId then
    let (len, addr) := vniParse m (offset + size.toNat) addr
    (sizeofU16.setWidth 32 + (size + len.setWidth 32), addr)
  else if lcaf.type = lcafSourceDest then
    let (len, addr) := sdParse m (offset + size.toNat) addr
    (sizeofU16.setWidth 32 + (size + len.setWidth 32), addr)
  -- no_addr_parse does nothing
  else if lcaf.type = lcafNullBody then (sizeofU16.setWidth 32 + size, addr)
  -- the rest of the table is null, and the types after its end are taken so too
  else (BitVec.allOnes 32, addr)
termination_by 2

/-- An LCAF is not nested in this one, but for a source and destination. -/
def vniParse (m : Memory) (p : Nat) (g : GidAddress) : BitVec 16 × GidAddress :=
  let g := { g with vni := m.word 4 p, vniMask := g.lcaf.vniMaskLen }
  let size := sizeofU32
  if h : afiAt m (p + sizeofU32.toNat) = lispAfiLcaf then
    let (len, g) := tryParseSrcDstLcaf m (p + size.toNat) g
    if len = BitVec.allOnes 16 then (BitVec.allOnes 16, g) else (size + len, g)
  else
    let (len, g) := gidAddressParse m (p + sizeofU32.toNat) g
    (size + len.setWidth 16, g)
termination_by 1
decreasing_by simp [h]

end

def memcmp (a b : BitVec w) : Int := if a < b then -1 else if b < a then 1 else 0

def ipAddressCmp (ip1 ip2 : IpAddress) : Int :=
  if ip1.version ≠ ip2.version then -1
  else
    let res :=
      match ip1.version with
      | .ip4 => memcmp ip1.v4 ip2.v4
      | .ip6 => memcmp ip1.v6 ip2.v6
    if res < 0 then 2 else if res > 0 then 1 else res

def ipPrefixNormalizeIp4 (ip4 : BitVec 32) (preflen : BitVec 8) : BitVec 32 :=
  if 32 ≤ preflen.toNat then ip4
  else ip4 &&& BitVec.ofNat 32 ((2 ^ preflen.toNat - 1) <<< (32 - preflen.toNat))

def mask6Word (preflen j : Nat) : BitVec 32 :=
  if j < preflen / 32 then BitVec.allOnes 32
  else if j = preflen / 32 ∧ preflen % 32 ≠ 0 then BitVec.ofNat 32 ((2 ^ (preflen % 32) - 1) <<< (32 - preflen % 32))
  else 0

def ipPrefixNormalizeIp6 (ip6 : BitVec 128) (preflen : BitVec 8) : BitVec 128 :=
  if 128 ≤ preflen.toNat then ip6
  else ip6 &&& (mask6Word preflen.toNat 0 ++ mask6Word preflen.toNat 1 ++
    (mask6Word preflen.toNat 2 ++ mask6Word preflen.toNat 3))

def ipPrefixNormalize (a : IpPrefix) : IpPrefix :=
  match a.addr.version with
  | .ip4 => { a with addr := { a.addr with v4 := ipPrefixNormalizeIp4 a.addr.v4 a.len } }
  | .ip6 => { a with addr := { a.addr with v6 := ipPrefixNormalizeIp6 a.addr.v6 a.len } }

def ipPrefixCmp (p1 p2 : IpPrefix) : Int :=
  let p1 := ipPrefixNormalize p1
  let p2 := ipPrefixNormalize p2
  let cmp := ipAddressCmp p1.addr p2.addr
  if cmp = 0 then if p1.len < p2.len then 1 else if p2.len < p1.len then 2 else cmp
  else cmp

def fidAddrCmp (a1 a2 : FidAddress) : Int :=
  if a1.type ≠ a2.type then -1
  else
    match a1.type with
    | .ipPref => ipPrefixCmp a1.ippref a2.ippref
    | .mac => memcmp a1.mac a2.mac
    | _ => -1

def sdCmp (sd1 sd2 : SourceDest) : Int :=
  if fidAddrCmp sd1.dst sd2.dst ≠ 0 then -1
  else if fidAddrCmp sd1.src sd2.src ≠ 0 then -1
  else 0

/-- Two missing addresses are two pointers here, and an LCAF is not compared. -/
def gidAddressCmp (a1 a2 : GidAddress) : Int :=
  if a1.type ≠ a2.type then -1
  else if a1.vni ≠ a2.vni then -1
  else
    match a1.type with
    | .noAddress => 2
    | .ipPrefix => ipPrefixCmp a1.ippref a2.ippref
    | .mac => memcmp a1.mac a2.mac
    | .srcDst => sdCmp a1.sd a2.sd
    | _ => -1

def GidAddress.setEidPlen (eid : GidAddress) (plen : BitVec 8) : GidAddress :=
  if eid.type = .ipPrefix then { eid with ippref := { eid.ippref with len := plen } } else eid

end Vpp.Lisp
