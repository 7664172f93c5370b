import Vpp.Fib.Ip6Lookup
import Vpp.Lisp.Types
import Vpp.Mtrie.Mask

namespace Vpp.Lisp
open Vpp.Lib Function BitVec

abbrev Key := BitVec 64 × BitVec 64 × BitVec 64

def ip4Key (vni : BitVec 32) (addr : BitVec 32) : Key := (vni.setWidth 64 <<< 32 ||| addr.setWidth 64, 0, 0)

def ip6Key (vni : BitVec 32) (addr : BitVec 128) : Key :=
  (addr.extractLsb' 64 64, addr.extractLsb' 0 64, vni.setWidth 64)

/-- Without a source its word is 0. -/
def makeMacSdKey (vni : BitVec 32) (srcMac : Option (BitVec 48)) (dstMac : BitVec 48) : Key :=
  (vni.setWidth 64, dstMac.setWidth 64, (srcMac.getD 0).setWidth 64)

theorem toNat_ip4Key (vni addr : BitVec 32) :
    (vni.setWidth 64 <<< 32 ||| addr.setWidth 64).toNat = vni.toNat * 2 ^ 32 + addr.toNat := by
  have hv := vni.isLt
  have ha := addr.isLt
  have hvw : (vni.setWidth 64).toNat = vni.toNat := by
    rw [toNat_setWidth]
    omega
  have hw : (addr.setWidth 64).toNat = addr.toNat := by
    rw [toNat_setWidth]
    omega
  rw [toNat_pack (by rw [hvw]; omega) (by rw [hw]; exact ha), hvw, hw]

theorem ip4Key_inj (h : ip4Key vni addr = ip4Key vni' addr') : vni = vni' ∧ addr = addr' := by
  have h := congrArg BitVec.toNat (Prod.mk.inj h).1
  rw [toNat_ip4Key, toNat_ip4Key] at h
  have ha := addr.isLt
  have ha' := addr'.isLt
  exact ⟨eq_of_toNat_eq (by omega), eq_of_toNat_eq (by omega)⟩

theorem setWidth_inj {a b : BitVec v} (hle : v ≤ w) (h : a.setWidth w = b.setWidth w) : a = b := by
  have h := congrArg (BitVec.setWidth v) h
  rwa [setWidth_setWidth_of_le _ hle, setWidth_setWidth_of_le _ hle, setWidth_eq,
    setWidth_eq] at h

theorem ip6Key_inj (h : ip6Key vni addr = ip6Key vni' addr') : vni = vni' ∧ addr = addr' := by
  obtain ⟨hhigh, h⟩ := Prod.mk.inj h
  obtain ⟨hlow, hvni⟩ := Prod.mk.inj h
  refine ⟨setWidth_inj (by decide) hvni, ?_⟩
  have hsplit (a : BitVec 128) : a.extractLsb' 64 64 ++ a.extractLsb' 0 64 = a := by
    apply eq_of_getLsbD_eq
    intro i hi
    rw [getLsbD_append, getLsbD_extractLsb', getLsbD_extractLsb']
    by_cases hlt : i < 64
    · simp [hlt]
    · simp [hlt, show i - 64 < 64 by omega, show 64 + (i - 64) = i by omega]
  rw [← hsplit addr, ← hsplit addr', hhigh, hlow]

theorem makeMacSdKey_inj (h : makeMacSdKey vni src dst = makeMacSdKey vni' src' dst') :
    vni = vni' ∧ dst = dst' ∧ src.getD 0 = src'.getD 0 := by
  obtain ⟨hvni, h⟩ := Prod.mk.inj h
  obtain ⟨hdst, hsrc⟩ := Prod.mk.inj h
  exact ⟨setWidth_inj (by decide) hvni, setWidth_inj (by decide) hdst, setWidth_inj (by decide) hsrc⟩

/-- The functions for the two versions differ in the width of an address, its key and its masks, and in the
width of the counters. -/
structure Family (w cw : Nat) where
  key : BitVec 32 → BitVec w → Key
  mask : Nat → BitVec w
  key_inj : ∀ {vni vni' addr addr'}, key vni addr = key vni' addr' → vni = vni' ∧ addr = addr'
  mask_mask : ∀ {i j}, i ≤ j → j ≤ w → ∀ a, a &&& mask j &&& mask i = a &&& mask i
  mask_zero : ∀ a, a &&& mask 0 = 0

def ip4Family : Family 32 32 where
  key := ip4Key
  mask := Mtrie.fibMask
  key_inj := ip4Key_inj
  mask_mask := fun hij hj a => Mtrie.and_fibMask_of_le (Mtrie.and_fibMask_idem a) hij hj
  mask_zero := Mtrie.and_fibMask_zero

def ip6Family : Family 128 64 where
  key := ip6Key
  mask := Fib.fibMasks
  key_inj := ip6Key_inj
  mask_mask := Fib.and_fibMasks
  mask_zero := fun a => by
    rw [Fib.fibMasks_eq 0 (Nat.zero_le _)]
    exact BitVec.and_zero

structure GidIpTable (cw : Nat) (β : Type) where
  lookupTable : Key → Option β
  nonEmptyDstAddressLengthBitmap : Finset Nat
  prefixLengthsInSearchOrder : List Nat
  prefixLenRefcount : Nat → BitVec cw
  count : BitVec cw

instance : Inhabited (GidIpTable cw β) := ⟨⟨fun _ => none, ∅, [], fun _ => 0, 0⟩⟩

/-- The masks and the sizes are left out: they are the same for all tables. -/
def lookupInit (db : GidIpTable cw β) : GidIpTable cw β :=
  { db with lookupTable := fun _ => none, prefixLenRefcount := fun _ => 0 }

/-- A lookup gives `GID_LOOKUP_MISS` for nothing. The index of a table is never that number. -/
def lookupExactMatch (f : Family w cw) (db : GidIpTable cw β) (vni : BitVec 32) (addr : BitVec w) (len : Nat) :
    Option β :=
  db.lookupTable (f.key vni (addr &&& f.mask len))

/-- The length of the looked up prefix is not used. -/
def lookup (f : Family w cw) (db : GidIpTable cw β) (vni : BitVec 32) (addr : BitVec w) : Option β :=
  db.prefixLengthsInSearchOrder.findSome? fun len => db.lookupTable (f.key vni (addr &&& f.mask len))

def computePrefixLengthsInSearchOrder (w : Nat) (db : GidIpTable cw β) : GidIpTable cw β :=
  { db with prefixLengthsInSearchOrder := searchOrder w db.nonEmptyDstAddressLengthBitmap }

/-- A value is added, nothing deletes. The old value is returned. -/
def addDelKey (f : Family w cw) (db : GidIpTable cw β) (vni : BitVec 32) (addr : BitVec w) (plen : Nat)
    (val : Option β) : GidIpTable cw β × Option β :=
  let db := match val with
    | some _ =>
      let db := computePrefixLengthsInSearchOrder w
        { db with nonEmptyDstAddressLengthBitmap := insert (w - plen) db.nonEmptyDstAddressLengthBitmap }
      { db with prefixLenRefcount := update db.prefixLenRefcount plen (db.prefixLenRefcount plen + 1) }
    | none =>
      let db := { db with
        prefixLenRefcount := update db.prefixLenRefcount plen (db.prefixLenRefcount plen - 1) }
      if db.prefixLenRefcount plen = 0 then
        computePrefixLengthsInSearchOrder w
          { db with nonEmptyDstAddressLengthBitmap := db.nonEmptyDstAddressLengthBitmap.erase (w - plen) }
      else db
  let key := f.key vni (addr &&& f.mask plen)
  let oldVal := db.lookupTable key
  ({ db with lookupTable := update db.lookupTable key val
             count := if val.isSome then db.count + 1 else db.count - 1 }, oldVal)

/-- The destinations of a family, and its tables of sources. -/
structure SdTables (cw : Nat) where
  dst : GidIpTable cw Nat
  srcPool : Pool (GidIpTable cw (BitVec 32))

/-- Without a source the prefix of length 0 stands for all. -/
def addDelSdKey (f : Family w cw) (t : SdTables cw) (vni : BitVec 32) (dst : BitVec w × Nat)
    (src : Option (BitVec w × Nat)) (val : Option (BitVec 32)) : SdTables cw × Option (BitVec 32) :=
  let sfi := lookupExactMatch f t.dst vni dst.1 dst.2
  let src := src.getD (0, 0)
  match val, sfi with
  | some val, none =>
    let (pool, i) := t.srcPool.get
    let pool := pool.modify i lookupInit
    let dstTable := (addDelKey f t.dst vni dst.1 dst.2 (some i)).1
    (⟨dstTable, pool.modify i fun sfib => (addDelKey f sfib 0 src.1 src.2 (some val)).1⟩, none)
  | some val, some i =>
    let (sfib, oldVal) := addDelKey f (t.srcPool.eltAt i) 0 src.1 src.2 (some val)
    (⟨t.dst, t.srcPool.set i sfib⟩, oldVal)
  | none, some i =>
    let (sfib, oldVal) := addDelKey f (t.srcPool.eltAt i) 0 src.1 src.2 none
    let dstTable := if sfib.count = 0 then (addDelKey f t.dst vni dst.1 dst.2 none).1 else t.dst
    (⟨dstTable, t.srcPool.set i sfib⟩, oldVal)
  | none, none => (t, none)

def sdLookup (f : Family w cw) (t : SdTables cw) (vni : BitVec 32) (dst : BitVec w) (src : Option (BitVec w)) :
    Option (BitVec 32) :=
  match lookup f t.dst vni dst with
  | none => none
  | some sfi =>
    match src with
    | none => lookupExactMatch f (t.srcPool.eltAt sfi) 0 0 0
    | some src => lookup f (t.srcPool.eltAt sfi) 0 src

structure GidMacTable where
  macLookupTable : Key → Option (BitVec 32)
  count : BitVec 64

def macSdLookup (db : GidMacTable) (vni : BitVec 32) (dst : BitVec 48) (src : Option (BitVec 48)) :
    Option (BitVec 32) :=
  match db.macLookupTable (makeMacSdKey vni src dst) with
  | some value => some value
  | none => db.macLookupTable (makeMacSdKey vni none dst)

def addDelMac (db : GidMacTable) (vni : BitVec 32) (dstMac : BitVec 48) (srcMac : Option (BitVec 48))
    (val : Option (BitVec 32)) : GidMacTable × Option (BitVec 32) :=
  let key := makeMacSdKey vni srcMac dstMac
  (⟨update db.macLookupTable key val, if val.isSome then db.count + 1 else db.count - 1⟩,
    db.macLookupTable key)

structure GidDictionary where
  ip4 : SdTables 32
  ip6 : SdTables 64
  sdMacTable : GidMacTable

def gidDictionaryInit : GidDictionary :=
  ⟨⟨lookupInit default, .empty⟩, ⟨lookupInit default, .empty⟩, ⟨fun _ => none, 0⟩⟩

def gidLookupMiss : BitVec 32 := ~~~0

/-- The bytes that `sd_dst_mac` and `sd_src_mac` read: a MAC shares its place with a prefix. The two bytes
past an IPv4 address are those of the IPv6 address in the same place. -/
def sdMac (a : FidAddress) : BitVec 48 :=
  match a.type with
  | .ipPref =>
    match a.ippref.addr.version with
    | .ip4 => a.ippref.addr.v4 ++ a.ippref.addr.v6.extractLsb' 80 16
    | .ip6 => a.ippref.addr.v6.extractLsb' 80 48
  | _ => a.mac

def addDelIp (db : GidDictionary) (vni : BitVec 32) (dst : IpPrefix) (src : Option IpPrefix)
    (val : Option (BitVec 32)) : GidDictionary × Option (BitVec 32) :=
  match dst.addr.version with
  | .ip4 =>
    let (t, oldVal) := addDelSdKey ip4Family db.ip4 vni (dst.addr.v4, dst.len.toNat)
      (src.map fun p => (p.addr.v4, p.len.toNat)) val
    ({ db with ip4 := t }, oldVal)
  | .ip6 =>
    let (t, oldVal) := addDelSdKey ip6Family db.ip6 vni (dst.addr.v6, dst.len.toNat)
      (src.map fun p => (p.addr.v6, p.len.toNat)) val
    ({ db with ip6 := t }, oldVal)

def addDelSdMac (db : GidDictionary) (vni : BitVec 32) (dst : BitVec 48) (src : Option (BitVec 48))
    (val : Option (BitVec 32)) : GidDictionary × Option (BitVec 32) :=
  let (t, oldVal) := addDelMac db.sdMacTable vni dst src val
  ({ db with sdMacTable := t }, oldVal)

def addDelSd (db : GidDictionary) (vni : BitVec 32) (key : SourceDest) (val : Option (BitVec 32)) :
    GidDictionary × Option (BitVec 32) :=
  match key.dst.type with
  | .ipPref =>
    let db := (addDelIp db vni key.dst.ippref (some key.src.ippref) val).1
    addDelSdMac db vni (sdMac key.dst) (some (sdMac key.src)) val
  | .mac => addDelSdMac db vni (sdMac key.dst) (some (sdMac key.src)) val
  | _ => (db, none)

def gidDictionaryAddDel (db : GidDictionary) (key : GidAddress) (val : Option (BitVec 32)) :
    GidDictionary × Option (BitVec 32) :=
  match key.type with
  | .ipPrefix => addDelIp db key.vni key.ippref none val
  | .mac => addDelSdMac db key.vni key.mac none val
  | .srcDst => addDelSd db key.vni key.sd val
  | _ => (db, none)

def ipSdLookup (db : GidDictionary) (vni : BitVec 32) (dst : IpPrefix) (src : Option IpPrefix) :
    Option (BitVec 32) :=
  match dst.addr.version with
  | .ip4 => sdLookup ip4Family db.ip4 vni dst.addr.v4 (src.map (·.addr.v4))
  | .ip6 => sdLookup ip6Family db.ip6 vni dst.addr.v6 (src.map (·.addr.v6))

def gidDictionaryLookup (db : GidDictionary) (key : GidAddress) : BitVec 32 :=
  let r := match key.type with
    | .ipPrefix => ipSdLookup db key.vni key.ippref none
    | .mac => macSdLookup db.sdMacTable key.vni key.mac none
    | .srcDst =>
      match key.sd.dst.type with
      | .ipPref => ipSdLookup db key.vni key.sd.dst.ippref (some key.sd.src.ippref)
      | .mac => macSdLookup db.sdMacTable key.vni (sdMac key.sd.dst) (some (sdMac key.sd.src))
      | _ => none
    | _ => none
  r.getD gidLookupMiss

end Vpp.Lisp
