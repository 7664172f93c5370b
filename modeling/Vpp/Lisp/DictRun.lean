import Vpp.Lisp.DictSources

namespace Vpp.Lisp
open Vpp.Lib Function List

/-- The values of the installed EIDs. A MAC alone is one with the source 0. -/
structure Eids where
  ip4 : IpEids 32
  ip6 : IpEids 128
  mac : BitVec 32 → BitVec 48 → BitVec 48 → Option (BitVec 32)

/-- A call of `gid_dictionary_add_del`: a value to add, or nothing to delete. -/
structure Call where
  key : GidAddress
  val : Option (BitVec 32)

def Eids.setIp (m : Eids) (vni : BitVec 32) (dst : IpPrefix) (src : Option IpPrefix) (val : Option (BitVec 32)) :
    Eids :=
  match dst.addr.version with
  | .ip4 =>
    let src := (src.map fun p => (p.addr.v4, p.len.toNat)).getD (0, 0)
    ⟨m.ip4.set vni dst.len.toNat (dst.addr.v4 &&& ip4Family.mask dst.len.toNat) src.2
      (src.1 &&& ip4Family.mask src.2) val, m.ip6, m.mac⟩
  | .ip6 =>
    let src := (src.map fun p => (p.addr.v6, p.len.toNat)).getD (0, 0)
    ⟨m.ip4, m.ip6.set vni dst.len.toNat (dst.addr.v6 &&& ip6Family.mask dst.len.toNat) src.2
      (src.1 &&& ip6Family.mask src.2) val, m.mac⟩

def Eids.setMac (m : Eids) (vni : BitVec 32) (dst src : BitVec 48) (val : Option (BitVec 32)) : Eids :=
  { m with mac := fun vni' dst' src' => if vni' = vni ∧ dst' = dst ∧ src' = src then val else m.mac vni' dst' src' }

def Eids.call (m : Eids) (c : Call) : Eids :=
  match c.key.type with
  | .ipPrefix => m.setIp c.key.vni c.key.ippref none c.val
  | .mac => m.setMac c.key.vni c.key.mac 0 c.val
  | .srcDst =>
    match c.key.sd.dst.type with
    | .ipPref => m.setIp c.key.vni c.key.sd.dst.ippref (some c.key.sd.src.ippref) c.val
    | .mac => m.setMac c.key.vni (sdMac c.key.sd.dst) (sdMac c.key.sd.src) c.val
    | _ => m
  | _ => m

def installed (calls : List Call) : Eids :=
  calls.foldl Eids.call ⟨fun _ _ _ _ _ => none, fun _ _ _ _ _ => none, fun _ _ _ => none⟩

def dictionaryAfter (calls : List Call) : GidDictionary :=
  calls.foldl (fun db c => (gidDictionaryAddDel db c.key c.val).1) gidDictionaryInit

/-- The longest installed prefix that covers the EID. A MAC without the source is found for all of them. -/
def LookupSpec (m : Eids) (key : GidAddress) (r : Option (BitVec 32)) : Prop :=
  match key.type with
  | .ipPrefix =>
    match key.ippref.addr.version with
    | .ip4 => IsLongest (fun l => m.ip4 key.vni l (key.ippref.addr.v4 &&& ip4Family.mask l) 0 0) key.ippref.len.toNat r
    | .ip6 => IsLongest (fun l => m.ip6 key.vni l (key.ippref.addr.v6 &&& ip6Family.mask l) 0 0) key.ippref.len.toNat r
  | .mac => r = m.mac key.vni key.mac 0
  | .srcDst =>
    match key.sd.dst.type with
    | .ipPref =>
      match key.sd.dst.ippref.addr.version with
      | .ip4 => SdLongest ip4Family m.ip4 key.vni key.sd.dst.ippref.addr.v4 key.sd.dst.ippref.len.toNat
        key.sd.src.ippref.addr.v4 key.sd.src.ippref.len.toNat r
      | .ip6 => SdLongest ip6Family m.ip6 key.vni key.sd.dst.ippref.addr.v6 key.sd.dst.ippref.len.toNat
        key.sd.src.ippref.addr.v6 key.sd.src.ippref.len.toNat r
    | .mac => r = (m.mac key.vni (sdMac key.sd.dst) (sdMac key.sd.src)).or (m.mac key.vni (sdMac key.sd.dst) 0)
    | _ => r = none
  | _ => r = none

/-- The EID of a MAC, by identifier, destination and source. -/
abbrev MacEid := BitVec 32 × BitVec 48 × BitVec 48

/-- The MACs whose place a pair of prefixes has taken since they were added or deleted themselves. -/
def spoil (spoiled : Finset MacEid) (c : Call) : Finset MacEid :=
  match c.key.type with
  | .mac => spoiled.erase (c.key.vni, c.key.mac, 0)
  | .srcDst =>
    match c.key.sd.dst.type with
    | .ipPref => insert (c.key.vni, sdMac c.key.sd.dst, sdMac c.key.sd.src) spoiled
    | .mac => spoiled.erase (c.key.vni, sdMac c.key.sd.dst, sdMac c.key.sd.src)
    | _ => spoiled
  | _ => spoiled

def spoiledBy (calls : List Call) : Finset MacEid := calls.foldl spoil ∅

def PrefixOk (m : Eids) (vni : BitVec 32) (p : IpPrefix) : Prop :=
  match p.addr.version with
  | .ip4 => DstOk ip4Family m.ip4 vni p.addr.v4 p.len.toNat ∧ PlainOk ip4Family m.ip4 vni p.addr.v4 p.len.toNat
  | .ip6 => DstOk ip6Family m.ip6 vni p.addr.v6 p.len.toNat ∧ PlainOk ip6Family m.ip6 vni p.addr.v6 p.len.toNat

def PairOk (m : Eids) (vni : BitVec 32) (dst src : IpPrefix) : Prop :=
  match dst.addr.version with
  | .ip4 => DstOk ip4Family m.ip4 vni dst.addr.v4 dst.len.toNat ∧
    SourceOk ip4Family m.ip4 vni dst.addr.v4 dst.len.toNat src.addr.v4 src.len.toNat
  | .ip6 => DstOk ip6Family m.ip6 vni dst.addr.v6 dst.len.toNat ∧
    SourceOk ip6Family m.ip6 vni dst.addr.v6 dst.len.toNat src.addr.v6 src.len.toNat

def MacOk (m : Eids) (spoiled : Finset MacEid) (vni : BitVec 32) (dst src : BitVec 48) : Prop :=
  (vni, dst, src) ∉ spoiled ∧ (m.mac vni dst src = none → (vni, dst, 0) ∉ spoiled)

def KeyOk (m : Eids) (spoiled : Finset MacEid) (key : GidAddress) : Prop :=
  match key.type with
  | .ipPrefix => PrefixOk m key.vni key.ippref
  | .mac => MacOk m spoiled key.vni key.mac 0
  | .srcDst =>
    match key.sd.dst.type with
    | .ipPref => PairOk m key.vni key.sd.dst.ippref key.sd.src.ippref
    | .mac => MacOk m spoiled key.vni (sdMac key.sd.dst) (sdMac key.sd.src)
    | _ => True
  | _ => True

def IpOk (db : GidDictionary) (m : Eids) (vni : BitVec 32) (dst : IpPrefix) (src : Option IpPrefix)
    (val : Option (BitVec 32)) : Prop :=
  match dst.addr.version with
  | .ip4 => SdOk ip4Family db.ip4 m.ip4 vni (dst.addr.v4, dst.len.toNat)
    ((src.map fun p => (p.addr.v4, p.len.toNat)).getD (0, 0)) val
  | .ip6 => SdOk ip6Family db.ip6 m.ip6 vni (dst.addr.v6, dst.len.toNat)
    ((src.map fun p => (p.addr.v6, p.len.toNat)).getD (0, 0)) val

def CallOk (db : GidDictionary) (m : Eids) (c : Call) : Prop :=
  match c.key.type with
  | .ipPrefix => IpOk db m c.key.vni c.key.ippref none c.val
  | .srcDst =>
    match c.key.sd.dst.type with
    | .ipPref => IpOk db m c.key.vni c.key.sd.dst.ippref (some c.key.sd.src.ippref) c.val
    | _ => True
  | _ => True

def RunOk (calls : List Call) : Prop :=
  ∀ i (h : i < calls.length), CallOk (dictionaryAfter (calls.take i)) (installed (calls.take i)) calls[i]

/-- The table holds what is installed, but in the places of pairs of prefixes. -/
def MacInv (t : GidMacTable) (m : Eids) (spoiled : Finset MacEid) : Prop :=
  ∀ vni dst src, (vni, dst, src.getD 0) ∉ spoiled →
    t.macLookupTable (makeMacSdKey vni src dst) = m.mac vni dst (src.getD 0)

theorem makeMacSdKey_eq_iff : makeMacSdKey vni' src' dst' = makeMacSdKey vni src dst ↔
    (vni', dst', src'.getD 0) = (vni, dst, src.getD 0) := by
  constructor
  · intro he
    obtain ⟨hv, hd, hs⟩ := makeMacSdKey_inj he
    rw [hv, hd, hs]
  · intro he
    simp only [Prod.mk.injEq] at he
    obtain ⟨rfl, rfl, hs⟩ := he
    rw [makeMacSdKey, makeMacSdKey, hs]

theorem MacInv.call (h : MacInv t m spoiled) (vni : BitVec 32) (dst : BitVec 48) (src : Option (BitVec 48))
    (val : Option (BitVec 32)) : MacInv (addDelMac t vni dst src val).1 (m.setMac vni dst (src.getD 0) val)
      (spoiled.erase (vni, dst, src.getD 0)) := by
  intro vni' dst' src' hout
  show update t.macLookupTable (makeMacSdKey vni src dst) val (makeMacSdKey vni' src' dst') =
    if vni' = vni ∧ dst' = dst ∧ src'.getD 0 = src.getD 0 then val else m.mac vni' dst' (src'.getD 0)
  by_cases hk : makeMacSdKey vni' src' dst' = makeMacSdKey vni src dst
  · rw [hk, update_self, if_pos (makeMacSdKey_inj hk)]
  · have hne := mt makeMacSdKey_eq_iff.mpr hk
    rw [update_of_ne hk, if_neg, h]
    · exact fun hm => hout (Finset.mem_erase.mpr ⟨hne, hm⟩)
    · rintro ⟨rfl, rfl, hs⟩
      exact hne (by rw [hs])

/-- A pair of prefixes takes the place of its bytes and leaves the others alone. -/
theorem MacInv.pair (h : MacInv t m spoiled) (vni : BitVec 32) (dst src : BitVec 48) (val : Option (BitVec 32)) :
    MacInv (addDelMac t vni dst (some src) val).1 m (insert (vni, dst, src) spoiled) := by
  intro vni' dst' src' hout
  have hk : makeMacSdKey vni' src' dst' ≠ makeMacSdKey vni (some src) dst :=
    fun he => hout (Finset.mem_insert.mpr (.inl (makeMacSdKey_eq_iff.mp he)))
  show update t.macLookupTable (makeMacSdKey vni (some src) dst) val (makeMacSdKey vni' src' dst') = _
  rw [update_of_ne hk]
  exact h vni' dst' src' fun hm => hout (Finset.mem_insert_of_mem hm)

theorem MacInv.lookup (h : MacInv t m spoiled) (src : Option (BitVec 48))
    (hkey : MacOk m spoiled vni dst (src.getD 0)) :
    macSdLookup t vni dst src = (m.mac vni dst (src.getD 0)).or (m.mac vni dst 0) := by
  rw [macSdLookup, h vni dst src hkey.1]
  cases hm : m.mac vni dst (src.getD 0) with
  | none => exact h vni dst none (hkey.2 hm)
  | some v => rfl

structure DictInv (db : GidDictionary) (m : Eids) (spoiled : Finset MacEid) : Prop where
  ip4 : ∃ index keys, SdInv ip4Family db.ip4 m.ip4 index keys
  ip6 : ∃ index keys, SdInv ip6Family db.ip6 m.ip6 index keys
  mac : MacInv db.sdMacTable m spoiled

theorem dictInv_init : DictInv gidDictionaryInit (installed []) ∅ :=
  ⟨⟨_, _, sdInv_init ip4Family⟩, ⟨_, _, sdInv_init ip6Family⟩, fun _ _ _ _ => rfl⟩

section Call
variable {db : GidDictionary} {m : Eids} {spoiled : Finset MacEid} (h : DictInv db m spoiled)
include h

theorem DictInv.setMac (vni : BitVec 32) (dst : BitVec 48) (src : Option (BitVec 48)) (val : Option (BitVec 32)) :
    DictInv (addDelSdMac db vni dst src val).1 (m.setMac vni dst (src.getD 0) val)
      (spoiled.erase (vni, dst, src.getD 0)) :=
  ⟨h.ip4, h.ip6, h.mac.call vni dst src val⟩

theorem DictInv.setIp (hok : IpOk db m vni dst src val) :
    DictInv (addDelIp db vni dst src val).1 (m.setIp vni dst src val) spoiled := by
  rw [IpOk] at hok
  rw [addDelIp, Eids.setIp]
  cases hv : dst.addr.version with
  | ip4 =>
    rw [hv] at hok
    obtain ⟨index, keys, hi⟩ := h.ip4
    exact ⟨hi.call _ hok, h.ip6, h.mac⟩
  | ip6 =>
    rw [hv] at hok
    obtain ⟨index, keys, hi⟩ := h.ip6
    exact ⟨h.ip4, hi.call _ hok, h.mac⟩

theorem DictInv.pair (hok : IpOk db m vni dst (some src) val) (dstMac srcMac : BitVec 48) :
    DictInv (addDelSdMac (addDelIp db vni dst (some src) val).1 vni dstMac (some srcMac) val).1
      (m.setIp vni dst (some src) val) (insert (vni, dstMac, srcMac) spoiled) := by
  have hset := h.setIp hok
  exact ⟨hset.ip4, hset.ip6, hset.mac.pair vni dstMac srcMac val⟩

theorem DictInv.call (hok : CallOk db m c) :
    DictInv (gidDictionaryAddDel db c.key c.val).1 (m.call c) (spoil spoiled c) := by
  rw [gidDictionaryAddDel, Eids.call, spoil]
  rw [CallOk] at hok
  cases ht : c.key.type with
  | ipPrefix =>
    rw [ht] at hok
    exact h.setIp hok
  | mac => exact h.setMac c.key.vni c.key.mac none c.val
  | srcDst =>
    rw [ht] at hok
    dsimp only at hok ⊢
    rw [addDelSd]
    cases hd : c.key.sd.dst.type with
    | ipPref =>
      rw [hd] at hok
      exact h.pair hok (sdMac c.key.sd.dst) (sdMac c.key.sd.src)
    | mac => exact h.setMac c.key.vni (sdMac c.key.sd.dst) (some (sdMac c.key.sd.src)) c.val
    | nsh => exact h
    | invalid => exact h
  | lcaf => exact h
  | nsh => exact h
  | noAddress => exact h

theorem DictInv.ip_lookup {p : IpPrefix} (hkey : PrefixOk m vni p) : match p.addr.version with
    | .ip4 => IsLongest (fun l => m.ip4 vni l (p.addr.v4 &&& ip4Family.mask l) 0 0) p.len.toNat
        (ipSdLookup db vni p none)
    | .ip6 =>
      IsLongest (fun l => m.ip6 vni l (p.addr.v6 &&& ip6Family.mask l) 0 0) p.len.toNat (ipSdLookup db vni p none) := by
  rw [PrefixOk] at hkey
  rw [ipSdLookup]
  cases hv : p.addr.version with
  | ip4 =>
    rw [hv] at hkey
    obtain ⟨index, keys, hi⟩ := h.ip4
    exact hi.plain_lookup hkey.1 hkey.2
  | ip6 =>
    rw [hv] at hkey
    obtain ⟨index, keys, hi⟩ := h.ip6
    exact hi.plain_lookup hkey.1 hkey.2

theorem DictInv.pair_lookup {p src : IpPrefix} (hkey : PairOk m vni p src) : match p.addr.version with
    | .ip4 => SdLongest ip4Family m.ip4 vni p.addr.v4 p.len.toNat src.addr.v4 src.len.toNat
        (ipSdLookup db vni p (some src))
    | .ip6 =>
      SdLongest ip6Family m.ip6 vni p.addr.v6 p.len.toNat src.addr.v6 src.len.toNat
          (ipSdLookup db vni p (some src)) := by
  rw [PairOk] at hkey
  rw [ipSdLookup]
  cases hv : p.addr.version with
  | ip4 =>
    rw [hv] at hkey
    obtain ⟨index, keys, hi⟩ := h.ip4
    exact hi.sd_lookup hkey.1 hkey.2
  | ip6 =>
    rw [hv] at hkey
    obtain ⟨index, keys, hi⟩ := h.ip6
    exact hi.sd_lookup hkey.1 hkey.2

theorem DictInv.lookup (hkey : KeyOk m spoiled key) :
    ∃ r, LookupSpec m key r ∧ gidDictionaryLookup db key = r.getD gidLookupMiss := by
  refine ⟨_, ?_, rfl⟩
  rw [KeyOk] at hkey
  rw [LookupSpec]
  cases ht : key.type with
  | ipPrefix =>
    rw [ht] at hkey
    exact h.ip_lookup hkey
  | mac =>
    rw [ht] at hkey
    dsimp only
    rw [h.mac.lookup none hkey, Option.getD_none, Option.or_self]
  | srcDst =>
    rw [ht] at hkey
    dsimp only at hkey ⊢
    cases hd : key.sd.dst.type with
    | ipPref =>
      rw [hd] at hkey
      exact h.pair_lookup hkey
    | mac =>
      rw [hd] at hkey
      exact h.mac.lookup (some (sdMac key.sd.src)) hkey
    | nsh => rfl
    | invalid => rfl
  | lcaf => rfl
  | nsh => rfl
  | noAddress => rfl

end Call

theorem RunOk.concat (h : RunOk (calls ++ [c])) : RunOk calls ∧ CallOk (dictionaryAfter calls) (installed calls) c := by
  constructor
  · intro i hi
    have hlt : i < (calls ++ [c]).length := by
      rw [length_append]
      exact Nat.lt_add_right 1 hi
    have hok := h i hlt
    rwa [getElem_append_left hi, take_append_of_le_length (Nat.le_of_lt hi)] at hok
  · have hlt : calls.length < (calls ++ [c]).length := by
      rw [length_append]
      exact Nat.lt_succ_self _
    have hok := h calls.length hlt
    rwa [getElem_concat_length rfl, take_left] at hok

theorem dictInv_run (hok : RunOk calls) : DictInv (dictionaryAfter calls) (installed calls) (spoiledBy calls) := by
  induction calls using List.reverseRecOn with
  | nil => exact dictInv_init
  | append_singleton calls c ih =>
    obtain ⟨hcalls, hc⟩ := hok.concat
    rw [dictionaryAfter, installed, spoiledBy, foldl_append, foldl_append, foldl_append]
    exact (ih hcalls).call hc

/-- A lookup gives the value of the longest installed destination, and of its longest source, as long as no network is
its own under a shorter mask in use and no destination stays without a source. -/
theorem gid_dictionary_longest_match (calls : List Call) (hok : RunOk calls) (key : GidAddress)
    (hkey : KeyOk (installed calls) (spoiledBy calls) key) :
    ∃ r, LookupSpec (installed calls) key r ∧
      gidDictionaryLookup (dictionaryAfter calls) key = r.getD gidLookupMiss :=
  (dictInv_run hok).lookup hkey

def ip4Pref (addr : BitVec 32) (len : BitVec 8) : IpPrefix := ⟨⟨addr, 0, .ip4⟩, len⟩

def zeroEid (type : GidAddressType) : GidAddress :=
  ⟨ip4Pref 0 0, ⟨0, 0⟩, 0, ⟨⟨ip4Pref 0 0, 0, .ipPref⟩, ⟨ip4Pref 0 0, 0, .ipPref⟩⟩, type, 0, 0⟩

def ip4Eid (addr : BitVec 32) (len : BitVec 8) : GidAddress := { zeroEid .ipPrefix with ippref := ip4Pref addr len }

/-- A destination with a source. -/
def ip4PairEid (dst : BitVec 32) (dlen : BitVec 8) (src : BitVec 32) (slen : BitVec 8) : GidAddress :=
  { zeroEid .srcDst with sd := ⟨⟨ip4Pref src slen, 0, .ipPref⟩, ⟨ip4Pref dst dlen, 0, .ipPref⟩⟩ }

/-- A prefix for all sources, and a longer one inside of it for a source and for a longer one inside of that. -/
def nestedCalls : List Call :=
  [⟨ip4Eid 0x0a000000 8, some 1⟩, ⟨ip4PairEid 0x0a010000 16 0xc0a80000 16, some 2⟩,
    ⟨ip4PairEid 0x0a010000 16 0xc0a80100 24, some 3⟩]

theorem entry_of_set {m : IpEids w} (hm : m.set vni len net slen snet v vni' len' net' slen' snet' ≠ none) :
    (vni' = vni ∧ len' = len ∧ net' = net ∧ slen' = slen ∧ snet' = snet) ∨ m vni' len' net' slen' snet' ≠ none := by
  rw [IpEids.set] at hm
  split at hm
  · next he => exact .inl he
  · exact .inr hm

theorem dst_of_set {m : IpEids w} (hd : (m.set vni len net slen snet v).Dst vni' len' net') :
    (len' = len ∧ net' = net) ∨ m.Dst vni' len' net' := by
  obtain ⟨k, s, hm⟩ := hd
  obtain ⟨-, hl, hn, -⟩ | hm := entry_of_set hm
  · exact .inl ⟨hl, hn⟩
  · exact .inr ⟨k, s, hm⟩

theorem installed_one : (installed (nestedCalls.take 1)).ip4 =
    IpEids.set (fun _ _ _ _ _ => none) 0 8 0x0a000000 0 0 (some 1) := rfl

theorem installed_two : (installed (nestedCalls.take 2)).ip4 =
    (installed (nestedCalls.take 1)).ip4.set 0 16 0x0a010000 16 0xc0a80000 (some 2) := rfl

theorem installed_nested : (installed nestedCalls).ip4 =
    (installed (nestedCalls.take 2)).ip4.set 0 16 0x0a010000 24 0xc0a80100 (some 3) := rfl

theorem dst_one (hd : (installed (nestedCalls.take 1)).ip4.Dst vni len net) : len = 8 ∧ net = 0x0a000000 := by
  rw [installed_one] at hd
  obtain he | ⟨_, _, hm⟩ := dst_of_set hd
  · exact he
  · exact absurd rfl hm

theorem dst_two (hd : (installed (nestedCalls.take 2)).ip4.Dst vni len net) :
    len = 16 ∧ net = 0x0a010000 ∨ len = 8 ∧ net = 0x0a000000 := by
  rw [installed_two] at hd
  exact (dst_of_set hd).imp_right dst_one

theorem dst_nested (hd : (installed nestedCalls).ip4.Dst vni len net) :
    len = 16 ∧ net = 0x0a010000 ∨ len = 8 ∧ net = 0x0a000000 := by
  rw [installed_nested] at hd
  exact (dst_of_set hd).elim .inl dst_two

theorem nestedCalls_ok : RunOk nestedCalls := by
  have hfirst : SdOk ip4Family (dictionaryAfter []).ip4 (installed []).ip4 0 (0x0a000000, 8) (0, 0) (some 1) := by
    have hroom : ((dictionaryAfter []).ip4.dst.prefixLenRefcount 8).toNat + 1 < 2 ^ 32 := by decide
    refine ⟨by decide, by decide, ⟨by decide, ?_⟩, hroom⟩
    exact fun _ _ _ ⟨_, _, hm⟩ => absurd rfl hm
  have hsecond : SdOk ip4Family (dictionaryAfter (nestedCalls.take 1)).ip4 (installed (nestedCalls.take 1)).ip4 0
      (0x0a010000, 16) (0xc0a80000, 16) (some 2) := by
    have hroom : ((dictionaryAfter (nestedCalls.take 1)).ip4.dst.prefixLenRefcount 16).toNat + 1 < 2 ^ 32 := by decide
    refine ⟨by decide, by decide, ⟨by decide, ?_⟩, hroom⟩
    intro vni len net hd hlt
    obtain ⟨rfl, -⟩ := dst_one hd
    exact absurd hlt (by decide)
  have hsource : SrcOk ip4Family ((dictionaryAfter (nestedCalls.take 2)).ip4.srcPool.eltAt 1)
      ((installed (nestedCalls.take 2)).ip4 0 16 0x0a010000) 24 0xc0a80100 := by
    refine ⟨⟨by decide, ?_⟩, by decide, by decide⟩
    intro _ k net hm hlt
    rw [installed_two, installed_one] at hm
    obtain ⟨-, -, -, rfl, -⟩ | hm := entry_of_set hm
    · exact absurd hlt (by decide)
    · obtain ⟨-, hl, -⟩ | hm := entry_of_set hm
      · exact absurd hl (by decide)
      · exact absurd rfl hm
  have hthird : SdOk ip4Family (dictionaryAfter (nestedCalls.take 2)).ip4 (installed (nestedCalls.take 2)).ip4 0
      (0x0a010000, 16) (0xc0a80100, 24) (some 3) := by
    refine ⟨by decide, by decide, ⟨by decide, ?_⟩, hsource⟩
    intro vni len net hd hlt
    obtain ⟨rfl, -⟩ | ⟨rfl, -⟩ := dst_two hd
    · exact absurd hlt (by decide)
    · exact absurd hlt (by decide)
  intro i hi
  match i, hi with
  | 0, _ => exact hfirst
  | 1, _ => exact hsecond
  | 2, _ => exact hthird

theorem gid_dictionary_longest_match_nested :
    RunOk nestedCalls ∧ gidDictionaryLookup (dictionaryAfter nestedCalls) (ip4PairEid 0x0a010001 32 0xc0a80105 32) = 3 ∧
      gidDictionaryLookup (dictionaryAfter nestedCalls) (ip4Eid 0x0a020001 32) = 1 := by
  have hout (d : BitVec 32) : DstOk ip4Family (installed nestedCalls).ip4 0 d 32 := by
    intro l hl hd
    obtain ⟨rfl, -⟩ | ⟨rfl, -⟩ := dst_nested hd
    · exact absurd hl (by decide)
    · exact absurd hl (by decide)
  have hlong : (installed nestedCalls).ip4.LongestDst ip4Family 0 0x0a010001 32 16 := by
    refine ⟨by decide, ⟨24, 0xc0a80100, by decide⟩, ?_⟩
    intro l hlt _ hd
    obtain ⟨rfl, -⟩ | ⟨rfl, -⟩ := dst_nested hd
    · exact absurd hlt (by decide)
    · exact absurd hlt (by decide)
  have hshort : (installed nestedCalls).ip4.LongestDst ip4Family 0 0x0a020001 32 8 := by
    refine ⟨by decide, ⟨0, 0, by decide⟩, ?_⟩
    intro l hlt _ hd
    obtain ⟨rfl, hnet⟩ | ⟨rfl, -⟩ := dst_nested hd
    · exact absurd hnet (by decide)
    · exact absurd hlt (by decide)
  have hsources (k : Nat) (s : BitVec 32) (hk : 24 < k) : (installed nestedCalls).ip4 0 16 0x0a010000 k s = none := by
    by_contra hm
    rw [installed_nested, installed_two, installed_one] at hm
    obtain ⟨-, -, -, rfl, -⟩ | hm := entry_of_set hm
    · exact absurd hk (by decide)
    · obtain ⟨-, -, -, rfl, -⟩ | hm := entry_of_set hm
      · exact absurd hk (by decide)
      · obtain ⟨-, hl, -⟩ | hm := entry_of_set hm
        · exact absurd hl (by decide)
        · exact absurd rfl hm
  have hpair : KeyOk (installed nestedCalls) (spoiledBy nestedCalls) (ip4PairEid 0x0a010001 32 0xc0a80105 32) := by
    refine ⟨hout _, ?_⟩
    intro l hl k hk
    obtain rfl := hl.unique hlong
    have hk : 32 < k := hk
    exact hsources k _ (by omega)
  have hplain : KeyOk (installed nestedCalls) (spoiledBy nestedCalls) (ip4Eid 0x0a020001 32) := by
    refine ⟨hout _, ?_⟩
    intro l hl
    obtain rfl := hl.unique hshort
    exact .inl (by decide)
  obtain ⟨r, hr, hres⟩ := gid_dictionary_longest_match nestedCalls nestedCalls_ok _ hpair
  obtain ⟨r', hr', hres'⟩ := gid_dictionary_longest_match nestedCalls nestedCalls_ok _ hplain
  have hthree : SdLongest ip4Family (installed nestedCalls).ip4 0 0x0a010001 32 0xc0a80105 32 (some 3) :=
    .inr ⟨16, hlong, 24, by decide, by decide, fun k hk _ => hsources k _ hk⟩
  have hone : IsLongest (fun l => (installed nestedCalls).ip4 0 l (0x0a020001 &&& ip4Family.mask l) 0 0) 32
      (some 1) := by
    refine ⟨8, by decide, by decide, ?_⟩
    intro l hlt hle
    by_contra hm
    exact hshort.2.2 l hlt hle ⟨0, 0, hm⟩
  have hr : SdLongest ip4Family (installed nestedCalls).ip4 0 0x0a010001 32 0xc0a80105 32 r := hr
  have hr' : IsLongest (fun l => (installed nestedCalls).ip4 0 l (0x0a020001 &&& ip4Family.mask l) 0 0) 32 r' := hr'
  rw [hres, hres', hr.unique hthree, hr'.unique hone]
  exact ⟨nestedCalls_ok, rfl, rfl⟩

def sameNetwork : List Call := [⟨ip4Eid 0x0a000000 8, some 1⟩, ⟨ip4Eid 0x0a000000 16, some 2⟩]

/-- A prefix whose network the mask of another one leaves alone. -/
def shorterMask : List Call := [⟨ip4Eid 0x0b000000 8, some 2⟩, ⟨ip4Eid 0x0a000000 16, some 1⟩]

def addedTwice : List Call :=
  [⟨ip4Eid 0x0a000000 8, some 1⟩, ⟨ip4Eid 0x0a010000 16, some 2⟩, ⟨ip4Eid 0x0a010000 16, some 2⟩,
    ⟨ip4Eid 0x0a010000 16, none⟩]

/-- A destination for every source, as a pair. -/
def pairCall : List Call := [⟨ip4PairEid 0x0a000000 8 0 0, some 1⟩]

theorem searchOrder_pair (hij : i < j) : searchOrder w {i, j} = [w - i, w - j] := by
  have hle : ∀ b ∈ ({j} : Finset Nat), i ≤ b := by
    intro b hb
    rw [Finset.mem_singleton] at hb
    exact hb ▸ Nat.le_of_lt hij
  have hnot : i ∉ ({j} : Finset Nat) := by
    rw [Finset.mem_singleton]
    exact Nat.ne_of_lt hij
  rw [searchOrder, Finset.sort_insert _ hle hnot, Finset.sort_singleton]
  rfl

theorem lookup_ip4Eid {db : GidDictionary} (horder : db.ip4.dst.prefixLengthsInSearchOrder = order) (addr : BitVec 32)
    (len : BitVec 8) : gidDictionaryLookup db (ip4Eid addr len) =
      (match order.findSome? fun l => db.ip4.dst.lookupTable (ip4Key 0 (addr &&& ip4Family.mask l)) with
        | none => none
        | some sfi => lookupExactMatch ip4Family (db.ip4.srcPool.eltAt sfi) 0 0 0).getD gidLookupMiss := by
  rw [← horder]
  rfl

theorem order_two {db : GidDictionary} (hdb : db.ip4.dst.prefixLengthsInSearchOrder = searchOrder 32 {16, 24}) :
    db.ip4.dst.prefixLengthsInSearchOrder = [16, 8] := by
  rw [hdb, searchOrder_pair (by decide)]

/-- Addresses in a prefix that another prefix hides, in no prefix at all, in a prefix hidden by a deleted one, and
a MAC that was never added. -/
theorem gid_dictionary_longest_match_fails :
    (LookupSpec (installed sameNetwork) (ip4Eid 0x0a010001 32) (some 1) ∧
      gidDictionaryLookup (dictionaryAfter sameNetwork) (ip4Eid 0x0a010001 32) = 2) ∧
    (LookupSpec (installed shorterMask) (ip4Eid 0x0a010001 32) none ∧
      gidDictionaryLookup (dictionaryAfter shorterMask) (ip4Eid 0x0a010001 32) = 1) ∧
    (LookupSpec (installed addedTwice) (ip4Eid 0x0a010001 32) (some 1) ∧
      gidDictionaryLookup (dictionaryAfter addedTwice) (ip4Eid 0x0a010001 32) = gidLookupMiss) ∧
    LookupSpec (installed pairCall) { zeroEid .mac with mac := 0x0a0000000000 } none ∧
      gidDictionaryLookup (dictionaryAfter pairCall) { zeroEid .mac with mac := 0x0a0000000000 } = 1 := by
  refine ⟨⟨?_, ?_⟩, ⟨?_, ?_⟩, ⟨?_, ?_⟩, by rfl, by decide⟩
  · have hnone : ∀ k ≤ 32, 8 < k → (installed sameNetwork).ip4 0 k (0x0a010001 &&& ip4Family.mask k) 0 0 = none := by
      decide
    exact ⟨8, by decide, by decide, fun k hk hle => hnone k hle hk⟩
  · decide +kernel
  · have hnone : ∀ k ≤ 32, (installed shorterMask).ip4 0 k (0x0a010001 &&& ip4Family.mask k) 0 0 = none := by
      decide
    exact hnone
  · have hord : (dictionaryAfter shorterMask).ip4.dst.prefixLengthsInSearchOrder = [16, 8] := order_two rfl
    rw [lookup_ip4Eid hord]
    decide
  · have hnone : ∀ k ≤ 32, 8 < k → (installed addedTwice).ip4 0 k (0x0a010001 &&& ip4Family.mask k) 0 0 = none := by
      decide
    exact ⟨8, by decide, by decide, fun k hk hle => hnone k hle hk⟩
  · have hord : (dictionaryAfter addedTwice).ip4.dst.prefixLengthsInSearchOrder = [16, 8] := order_two rfl
    rw [lookup_ip4Eid hord]
    decide

end Vpp.Lisp
