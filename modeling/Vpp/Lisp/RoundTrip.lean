import Vpp.Lisp.Types

namespace Vpp.Lisp
open Vpp.Lib List BitVec

def ipBytes (a : IpAddress) : List (BitVec 8) :=
  match a.version with
  | .ip4 => netBytes 2 lispAfiIp.toNat ++ netBytes 4 a.v4.toNat
  | .ip6 => netBytes 2 lispAfiIp6.toNat ++ netBytes 16 a.v6.toNat

def macBytes (mac : BitVec 48) : List (BitVec 8) := netBytes 2 lispAfiMac.toNat ++ netBytes 6 mac.toNat

def fidBytes (f : FidAddress) : List (BitVec 8) :=
  match f.type with
  | .ipPref => ipBytes f.ippref.addr
  | .mac => macBytes f.mac
  | _ => []

def sdBytes (sd : SourceDest) : List (BitVec 8) :=
  netBytes 2 lispAfiLcaf.toNat ++
    (lcafHdr lcafSourceDest 0 (BitVec.ofNat 16 (4 + (fidBytes sd.src).length + (fidBytes sd.dst).length)) ++
      ([0, 0, fidAddressLength sd.src, fidAddressLength sd.dst] ++ (fidBytes sd.src ++ fidBytes sd.dst)))

def bodyBytes (g : GidAddress) : List (BitVec 8) :=
  match g.type with
  | .ipPrefix => ipBytes g.ippref.addr
  | .mac => macBytes g.mac
  | .srcDst => sdBytes g.sd
  | _ => []

def gidBytes (g : GidAddress) : List (BitVec 8) :=
  if g.vni ≠ 0 then
    netBytes 2 lispAfiLcaf.toNat ++
      (lcafHdr lcafInstanceId g.vniMask (BitVec.ofNat 16 (4 + (bodyBytes g).length)) ++
        (netBytes 4 g.vni.toNat ++ bodyBytes g))
  else bodyBytes g

def FidAddress.OnWire (f : FidAddress) : Prop := f.type = .ipPref ∨ f.type = .mac

def GidAddress.OnWire (g : GidAddress) : Prop :=
  g.type = .ipPrefix ∨ g.type = .mac ∨ g.type = .srcDst ∧ g.sd.src.OnWire ∧ g.sd.dst.OnWire

theorem toNat_add_ofNat {a : BitVec 16} (h : a.toNat + n < 2 ^ 16) : (a + BitVec.ofNat 16 n).toNat = a.toNat + n := by
  rw [toNat_add, toNat_ofNat]
  omega

theorem length_ipBytes (a : IpAddress) : (ipBytes a).length = (ipAddressSize a.version).toNat + 2 := by
  rw [ipBytes]
  cases a.version with
  | ip4 => rw [length_append, length_netBytes, length_netBytes]; rfl
  | ip6 => rw [length_append, length_netBytes, length_netBytes]; rfl

theorem length_macBytes (mac : BitVec 48) : (macBytes mac).length = 8 := by
  rw [macBytes, length_append, length_netBytes, length_netBytes]

theorem length_ipBytes_le (a : IpAddress) : (ipBytes a).length ≤ 18 := by
  rw [length_ipBytes]
  cases a.version with
  | ip4 => decide
  | ip6 => decide

theorem length_fidBytes_le (f : FidAddress) : (fidBytes f).length ≤ 18 := by
  rw [fidBytes]
  cases f.type with
  | ipPref => exact length_ipBytes_le _
  | mac => exact (length_macBytes _).trans_le (by decide)
  | nsh => exact Nat.zero_le _
  | invalid => exact Nat.zero_le _

theorem length_sdBytes (sd : SourceDest) :
    (sdBytes sd).length = 12 + (fidBytes sd.src).length + (fidBytes sd.dst).length := by
  simp only [sdBytes, lcafHdr, length_append, length_netBytes, length_cons, length_nil]
  omega

theorem length_bodyBytes_le (g : GidAddress) : (bodyBytes g).length ≤ 48 := by
  have hsrc := length_fidBytes_le g.sd.src
  have hdst := length_fidBytes_le g.sd.dst
  have hsd := length_sdBytes g.sd
  have hip := length_ipBytes_le g.ippref.addr
  have hmac := length_macBytes g.mac
  rw [bodyBytes]
  cases g.type with
  | ipPrefix => show (ipBytes g.ippref.addr).length ≤ 48; omega
  | mac => show (macBytes g.mac).length ≤ 48; omega
  | srcDst => show (sdBytes g.sd).length ≤ 48; omega
  | lcaf => exact Nat.zero_le _
  | nsh => exact Nat.zero_le _
  | noAddress => exact Nat.zero_le _

theorem ipPrefixSizeToWrite_eq (a : IpPrefix) : ipPrefixSizeToWrite a = BitVec.ofNat 16 (ipBytes a.addr).length := by
  rw [ipPrefixSizeToWrite, length_ipBytes]
  cases a.addr.version with
  | ip4 => rfl
  | ip6 => rfl

theorem macSizeToWrite_eq (mac : BitVec 48) : macSizeToWrite = BitVec.ofNat 16 (macBytes mac).length := by
  rw [length_macBytes]
  rfl

theorem fidAddrSizeToWrite_eq (f : FidAddress) : fidAddrSizeToWrite f = BitVec.ofNat 16 (fidBytes f).length := by
  rw [fidAddrSizeToWrite, fidBytes]
  cases f.type with
  | ipPref => exact ipPrefixSizeToWrite_eq _
  | mac => exact macSizeToWrite_eq _
  | nsh => rfl
  | invalid => rfl

theorem sdSizeToWrite_eq (sd : SourceDest) : sdSizeToWrite sd = BitVec.ofNat 16 (sdBytes sd).length := by
  rw [sdSizeToWrite, fidAddrSizeToWrite_eq, fidAddrSizeToWrite_eq, length_sdBytes, ofNat_add, ofNat_add]
  rfl

theorem gidAddressSizeToPutNoVni_eq (hg : g.OnWire) :
    gidAddressSizeToPutNoVni g = some (BitVec.ofNat 16 (bodyBytes g).length) := by
  obtain ht | ht | ⟨ht, -⟩ := hg
  · rw [gidAddressSizeToPutNoVni, bodyBytes, ht, ← ipPrefixSizeToWrite_eq]
  · rw [gidAddressSizeToPutNoVni, bodyBytes, ht, ← macSizeToWrite_eq]
  · rw [gidAddressSizeToPutNoVni, bodyBytes, ht, ← sdSizeToWrite_eq]

theorem length_gidBytes_of_vni {g : GidAddress} (h : g.vni ≠ 0) : (gidBytes g).length = 12 + (bodyBytes g).length := by
  rw [gidBytes, if_pos h]
  simp only [lcafHdr, length_append, length_netBytes, length_cons, length_nil]
  omega

theorem length_gidBytes_le (g : GidAddress) : (gidBytes g).length ≤ 60 := by
  have hbody := length_bodyBytes_le g
  by_cases hvni : g.vni ≠ 0
  · rw [length_gidBytes_of_vni hvni]
    omega
  · rw [gidBytes, if_neg hvni]
    omega

theorem gidAddressSizeToPut_eq (hg : g.OnWire) :
    gidAddressSizeToPut g = some (BitVec.ofNat 16 (gidBytes g).length) := by
  have hbody := gidAddressSizeToPutNoVni_eq hg
  rw [gidAddressSizeToPut]
  by_cases hvni : g.vni ≠ 0
  · rw [if_pos hvni, length_gidBytes_of_vni hvni, ofNat_add, vniSizeToWrite, hbody, Option.map_some]
    by_cases ht : g.type = .srcDst
    · rw [if_pos ht, bodyBytes, ht, sdSizeToWrite_eq]
      rfl
    · rw [if_neg ht]
      rfl
  · rw [if_neg hvni, hbody, gidBytes, if_neg hvni]

variable {m : Memory}

theorem store_at (hn : n = p + xs.length) (ys : List (BitVec 8)) :
    (m.store p xs).store n ys = m.store p (xs ++ ys) := by
  rw [hn, m.store_store]

theorem store_two (m : Memory) (p : Nat) (xs ys : List (BitVec 8)) (hx : xs.length = sizeofU16.toNat) :
    (m.store p xs).store (p + sizeofU16.toNat) ys = m.store p (xs ++ ys) := by
  rw [← hx, m.store_store]

theorem ipPrefixWrite_eq (m : Memory) (p : Nat) (a : IpPrefix) :
    ipPrefixWrite m p a = (m.store p (ipBytes a.addr), BitVec.ofNat 16 (ipBytes a.addr).length) := by
  rw [ipPrefixWrite, length_ipBytes, ipBytes]
  cases a.addr.version with
  | ip4 => exact congrArg₂ Prod.mk (store_two m p _ _ rfl) rfl
  | ip6 => exact congrArg₂ Prod.mk (store_two m p _ _ rfl) rfl

theorem macWrite_eq (m : Memory) (p : Nat) (a : BitVec 48) :
    macWrite m p a = (m.store p (macBytes a), BitVec.ofNat 16 (macBytes a).length) := by
  rw [← macSizeToWrite_eq]
  exact congrArg₂ Prod.mk (store_two m p _ _ rfl) rfl

theorem fidAddrWrite_eq (m : Memory) (p : Nat) (hf : f.OnWire) :
    fidAddrWrite m p f = (m.store p (fidBytes f), BitVec.ofNat 16 (fidBytes f).length) := by
  obtain ht | ht := hf
  · rw [fidAddrWrite, fidBytes, ht]
    exact ipPrefixWrite_eq m p _
  · rw [fidAddrWrite, fidBytes, ht]
    exact macWrite_eq m p _

theorem ofNat_ne_allOnes (hn : n < 65535) : BitVec.ofNat 16 n ≠ BitVec.allOnes 16 := by
  intro h
  have := congrArg BitVec.toNat h
  rw [toNat_ofNat, toNat_allOnes] at this
  omega

theorem sdWrite_eq (m : Memory) (p : Nat) (hsrc : sd.src.OnWire) (hdst : sd.dst.OnWire) :
    sdWrite m p sd = (m.store p (sdBytes sd), BitVec.ofNat 16 (sdBytes sd).length) := by
  have hls := length_fidBytes_le sd.src
  have hld := length_fidBytes_le sd.dst
  have hsize : (sizeofU16 + sizeofLcafHdr + sizeofLcafSrcDstHdr + BitVec.ofNat 16 (fidBytes sd.src).length).toNat =
      12 + (fidBytes sd.src).length := toNat_add_ofNat (by show 12 + _ < _; omega)
  have hlen : sizeofLcafSrcDstHdr + fidAddrSizeToWrite sd.src + fidAddrSizeToWrite sd.dst =
      BitVec.ofNat 16 (4 + (fidBytes sd.src).length + (fidBytes sd.dst).length) := by
    rw [fidAddrSizeToWrite_eq, fidAddrSizeToWrite_eq, ofNat_add, ofNat_add]
    rfl
  simp only [sdWrite, fidAddrWrite_eq _ _ hsrc, fidAddrWrite_eq _ _ hdst, hlen, hsize,
    if_neg (ofNat_ne_allOnes (show (fidBytes sd.src).length < 65535 by omega)),
    if_neg (ofNat_ne_allOnes (show (fidBytes sd.dst).length < 65535 by omega))]
  refine congrArg₂ Prod.mk ?_ ?_
  · rw [store_at, store_at, store_at, store_at, sdBytes]
    · rfl
    · rfl
    · rfl
    · rw [← Nat.add_assoc]
      rfl
  · rw [length_sdBytes, ofNat_add, ofNat_add]
    rfl

theorem gidAddressPutNoVni_eq (m : Memory) (p : Nat) (hg : g.OnWire) :
    gidAddressPutNoVni m p g = some (m.store p (bodyBytes g), BitVec.ofNat 16 (bodyBytes g).length) := by
  obtain ht | ht | ⟨ht, hsrc, hdst⟩ := hg
  · rw [gidAddressPutNoVni, bodyBytes, ht]
    exact congrArg some (ipPrefixWrite_eq m p _)
  · rw [gidAddressPutNoVni, bodyBytes, ht]
    exact congrArg some (macWrite_eq m p _)
  · rw [gidAddressPutNoVni, bodyBytes, ht]
    exact congrArg some (sdWrite_eq m p hsrc hdst)

theorem putBody_eq (m : Memory) (p : Nat) (hg : g.OnWire) :
    (if g.type = .srcDst then some (sdWrite m p g.sd) else gidAddressPutNoVni m p g) =
      some (m.store p (bodyBytes g), BitVec.ofNat 16 (bodyBytes g).length) := by
  rw [← gidAddressPutNoVni_eq m p hg]
  by_cases ht : g.type = .srcDst
  · rw [if_pos ht, gidAddressPutNoVni, ht]
  · rw [if_neg ht]

theorem gidAddressPut_eq (m : Memory) (p : Nat) (hg : g.OnWire) :
    gidAddressPut m p g = some (m.store p (gidBytes g), BitVec.ofNat 16 (gidBytes g).length) := by
  rw [gidAddressPut]
  by_cases hvni : g.vni ≠ 0
  · have hbody := length_bodyBytes_le g
    have hne := ofNat_ne_allOnes (show (bodyBytes g).length < 65535 by omega)
    have hlen : sizeofU32 + BitVec.ofNat 16 (bodyBytes g).length = BitVec.ofNat 16 (4 + (bodyBytes g).length) := by
      rw [ofNat_add]
      rfl
    rw [if_pos hvni, vniWrite]
    simp only [gidAddressSizeToPutNoVni_eq hg, putBody_eq _ _ hg, Option.bind_eq_bind, Option.bind_some,
        if_neg hne, hlen]
    refine congrArg some (congrArg₂ Prod.mk ?_ ?_)
    · rw [store_at, store_at, store_at, gidBytes, if_pos hvni]
      · rfl
      · rfl
      · rfl
    · rw [length_gidBytes_of_vni hvni, ofNat_add]
      rfl
  · rw [if_neg hvni, gidAddressPutNoVni_eq m p hg, gidBytes, if_neg hvni]

def IpAddress.Same (a b : IpAddress) : Prop :=
  b.version = a.version ∧ (a.version = .ip4 → b.v4 = a.v4) ∧ (a.version = .ip6 → b.v6 = a.v6)

def FidAddress.Same (a b : FidAddress) : Prop :=
  b.type = a.type ∧ (a.type = .ipPref → a.ippref.addr.Same b.ippref.addr) ∧ (a.type = .mac → b.mac = a.mac)

theorem afiAt_eq {afi : BitVec 16} (h : m.Holds p (netBytes 2 afi.toNat)) : afiAt m p = afi := h.word (w := 2)

theorem ipAddressParse_eq (h : m.Holds p (ipBytes a)) (dst : IpAddress) :
    afiAt m p = ipVersionToIanaAfi a.version ∧
    ∃ a', ipAddressParse m p (ipVersionToIanaAfi a.version) dst = (BitVec.ofNat 32 (ipBytes a).length, a') ∧
      a.Same a' := by
  rw [length_ipBytes]
  rw [ipBytes] at h
  cases hv : a.version with
  | ip4 =>
    rw [hv] at h
    obtain ⟨hafi, haddr⟩ := Memory.holds_append.mp h
    refine ⟨afiAt_eq hafi, ⟨m.word 4 (p + 2), dst.v6, .ip4⟩, rfl, hv.symm, fun _ => ?_, fun h6 => ?_⟩
    · exact haddr.word (w := 4)
    · rw [hv] at h6
      cases h6
  | ip6 =>
    rw [hv] at h
    obtain ⟨hafi, haddr⟩ := Memory.holds_append.mp h
    refine ⟨afiAt_eq hafi, ⟨dst.v4, m.word 16 (p + 2), .ip6⟩, rfl, hv.symm, fun h4 => ?_, fun _ => ?_⟩
    · rw [hv] at h4
      cases h4
    · exact haddr.word (w := 16)

theorem macParse_eq (h : m.Holds p (macBytes mac)) :
    afiAt m p = lispAfiMac ∧ macParse m p = (BitVec.ofNat 32 (macBytes mac).length, mac) := by
  rw [length_macBytes]
  obtain ⟨hafi, haddr⟩ := Memory.holds_append.mp h
  exact ⟨afiAt_eq hafi, congrArg (Prod.mk 8) (haddr.word (w := 6))⟩

theorem fidAddrParse_eq (hf : f.OnWire) (h : m.Holds p (fidBytes f)) (a : FidAddress) :
    ∃ a', fidAddrParse m p a = (BitVec.ofNat 16 (fidBytes f).length, a') ∧ f.Same a' := by
  obtain ht | ht := hf
  · rw [fidBytes, ht] at h ⊢
    obtain ⟨hafi, addr, hparse, hsame⟩ := ipAddressParse_eq h a.ippref.addr
    have htype : ianaAfiToFidAddrType (ipVersionToIanaAfi f.ippref.addr.version) = .ipPref := by
      cases f.ippref.addr.version with
      | ip4 => rfl
      | ip6 => rfl
    refine ⟨⟨⟨addr, a.ippref.len⟩, a.mac, .ipPref⟩, ?_, ht.symm, fun _ => hsame, fun hm => ?_⟩
    · simp only [fidAddrParse, hafi, htype, hparse]
      exact congrArg₂ Prod.mk (setWidth_ofNat_of_le (by decide) _) rfl
    · rw [ht] at hm
      cases hm
  · rw [fidBytes, ht] at h ⊢
    obtain ⟨hafi, hparse⟩ := macParse_eq h
    have htype : ianaAfiToFidAddrType lispAfiMac = .mac := rfl
    refine ⟨⟨a.ippref, f.mac, .mac⟩, ?_, ht.symm, fun hi => ?_, fun _ => rfl⟩
    · simp only [fidAddrParse, hafi, htype, hparse]
      exact congrArg₂ Prod.mk (setWidth_ofNat_of_le (by decide) _) rfl
    · rw [ht] at hi
      cases hi

def FidAddress.SameLen (a b : FidAddress) : Prop := a.Same b ∧ (a.type = .ipPref → b.ippref.len = a.ippref.len)

theorem FidAddress.Same.setLen {a b : FidAddress} (h : a.Same b) : a.SameLen (b.setLen (fidAddressLength a)) := by
  obtain ⟨htype, haddr, hmac⟩ := h
  rw [FidAddress.setLen]
  by_cases hip : b.type = .ipPref
  · rw [if_pos hip]
    refine ⟨⟨htype, haddr, hmac⟩, fun ha => ?_⟩
    rw [fidAddressLength, ha]
  · rw [if_neg hip]
    exact ⟨⟨htype, haddr, hmac⟩, fun ha => absurd (htype.trans ha) hip⟩

structure GidAddress.Found (g a : GidAddress) : Prop where
  type : a.type = g.type
  addr : g.type = .ipPrefix → g.ippref.addr.Same a.ippref.addr
  mac : g.type = .mac → a.mac = g.mac
  sd : g.type = .srcDst → g.sd.src.SameLen a.sd.src ∧ g.sd.dst.SameLen a.sd.dst

theorem sdParse_eq {g : GidAddress} (hsrc : g.sd.src.OnWire) (hdst : g.sd.dst.OnWire) (ht : g.type = .srcDst)
    (h : m.Holds p ([0, 0, fidAddressLength g.sd.src, fidAddressLength g.sd.dst] ++
        (fidBytes g.sd.src ++ fidBytes g.sd.dst)))
    (a : GidAddress) :
    ∃ sd, sdParse m p a = (BitVec.ofNat 16 (4 + (fidBytes g.sd.src).length + (fidBytes g.sd.dst).length),
      { a with type := .srcDst, sd := sd }) ∧ g.Found { a with type := .srcDst, sd := sd } := by
  obtain ⟨hml, haddrs⟩ := Memory.holds_append.mp h
  obtain ⟨hs, hd⟩ := Memory.holds_append.mp haddrs
  rw [Nat.add_assoc] at hd
  have hls := length_fidBytes_le g.sd.src
  have hsize : (sizeofLcafSrcDstHdr + BitVec.ofNat 16 (fidBytes g.sd.src).length).toNat =
      4 + (fidBytes g.sd.src).length := toNat_add_ofNat (by show 4 + _ < _; omega)
  have hsl : m (p + 2) = fidAddressLength g.sd.src := hml 2 (Nat.lt_of_sub_eq_succ rfl)
  have hdl : m (p + 3) = fidAddressLength g.sd.dst := hml 3 (Nat.lt_of_sub_eq_succ rfl)
  obtain ⟨src, hparse, hsame⟩ := fidAddrParse_eq hsrc hs a.sd.src
  obtain ⟨dst, hparse', hsame'⟩ := fidAddrParse_eq hdst hd a.sd.dst
  have hparse : fidAddrParse m (p + sizeofLcafSrcDstHdr.toNat) a.sd.src = _ := hparse
  have hparse' : fidAddrParse m (p + (4 + (fidBytes g.sd.src).length)) a.sd.dst = _ := hparse'
  refine ⟨⟨src.setLen (fidAddressLength g.sd.src), dst.setLen (fidAddressLength g.sd.dst)⟩, ?_, ht.symm, ?_, ?_, ?_⟩
  · simp only [sdParse, hparse, hsize, hparse', hsl, hdl]
    rw [ofNat_add, ofNat_add]
    rfl
  · intro hip
    rw [ht] at hip
    cases hip
  · intro hmac
    rw [ht] at hmac
    cases hmac
  · intro _
    exact ⟨hsame.setLen, hsame'.setLen⟩

theorem lcafHdrParse_eq (h : m.Holds p (lcafHdr type res len)) :
    lcafHdrParse m p = (6, ⟨res, type⟩) := by
  have hfirst := (Memory.holds_append.mp h).1
  exact congrArg (Prod.mk 6)
      (congrArg₂ Lcaf.mk (hfirst 3 (Nat.lt_of_sub_eq_succ rfl)) (hfirst 2 (Nat.lt_of_sub_eq_succ rfl)))

theorem holds_sdBytes (h : m.Holds p (sdBytes sd)) :
    afiAt m p = lispAfiLcaf ∧ lcafHdrParse m (p + sizeofU16.toNat) = (6, ⟨0, lcafSourceDest⟩) ∧
    m.Holds (p + 8) ([0, 0, fidAddressLength sd.src, fidAddressLength sd.dst] ++
        (fidBytes sd.src ++ fidBytes sd.dst)) := by
  obtain ⟨hafi, hrest⟩ := Memory.holds_append.mp h
  obtain ⟨hhdr, hrest⟩ := Memory.holds_append.mp hrest
  refine ⟨afiAt_eq hafi, lcafHdrParse_eq hhdr, ?_⟩
  exact hrest

theorem tryParseSrcDstLcaf_eq {g : GidAddress} (hsrc : g.sd.src.OnWire) (hdst : g.sd.dst.OnWire) (ht : g.type = .srcDst)
    (h : m.Holds p (sdBytes g.sd)) (a : GidAddress) :
    ∃ sd, tryParseSrcDstLcaf m p a = (BitVec.ofNat 16 (sdBytes g.sd).length, { a with type := .srcDst, sd := sd }) ∧
      g.Found { a with type := .srcDst, sd := sd } := by
  obtain ⟨-, hhdr, hrest⟩ := holds_sdBytes h
  obtain ⟨sd, hparse, hfound⟩ := sdParse_eq hsrc hdst ht hrest a
  refine ⟨sd, ?_, hfound⟩
  have hat : p + (sizeofU16 + BitVec.setWidth 16 (6 : BitVec 32)).toNat = p + 8 := rfl
  simp only [tryParseSrcDstLcaf, hhdr, ne_eq, not_true_eq_false, if_false, hat, hparse]
  rw [length_sdBytes, Nat.add_assoc 12, Nat.add_assoc 4, ofNat_add 12, ofNat_add 4, ← BitVec.add_assoc]
  rfl

/-- An address without an instance ID leaves what is there of one. -/
theorem gidAddressParse_body (hg : g.OnWire) (h : m.Holds p (bodyBytes g)) (a : GidAddress) :
    ∃ a', gidAddressParse m p a = (BitVec.ofNat 32 (bodyBytes g).length, a') ∧ g.Found a' ∧ a'.vni = a.vni ∧
      a'.vniMask = a.vniMask := by
  obtain ht | ht | ⟨ht, hsrc, hdst⟩ := hg
  · rw [bodyBytes, ht] at h ⊢
    obtain ⟨hafi, addr, hparse, hsame⟩ := ipAddressParse_eq h a.ippref.addr
    have hfound : ∀ len, g.Found { a with type := .ipPrefix, ippref := ⟨addr, len⟩ } := by
      intro len
      refine ⟨ht.symm, fun _ => hsame, fun hm => ?_, fun hs => ?_⟩
      · rw [ht] at hm
        cases hm
      · rw [ht] at hs
        cases hs
    rw [gidAddressParse]
    cases hv : g.ippref.addr.version with
    | ip4 =>
      rw [hv] at hafi hparse
      simp only [hafi, hparse]
      exact ⟨_, rfl, hfound 32, rfl, rfl⟩
    | ip6 =>
      rw [hv] at hafi hparse
      simp only [hafi, hparse]
      exact ⟨_, rfl, hfound 128, rfl, rfl⟩
  · rw [bodyBytes, ht] at h ⊢
    obtain ⟨hafi, hparse⟩ := macParse_eq h
    rw [gidAddressParse]
    simp only [hafi, hparse]
    refine ⟨{ a with type := .mac, mac := g.mac }, rfl, ⟨ht.symm, fun hi => ?_, fun _ => rfl, fun hs => ?_⟩, rfl, rfl⟩
    · rw [ht] at hi
      cases hi
    · rw [ht] at hs
      cases hs
  · rw [bodyBytes, ht] at h ⊢
    obtain ⟨hafi, hhdr, hrest⟩ := holds_sdBytes h
    obtain ⟨sd, hparse, hfound⟩ := sdParse_eq hsrc hdst ht hrest { a with type := .lcaf, lcaf := ⟨0, lcafSourceDest⟩ }
    have hls := length_fidBytes_le g.sd.src
    have hld := length_fidBytes_le g.sd.dst
    have hat : p + sizeofU16.toNat + (6 : BitVec 32).toNat = p + 8 := rfl
    rw [gidAddressParse]
    simp only [hafi]
    refine ⟨_, ?_, hfound, rfl, rfl⟩
    show lcafParse m p { a with type := .lcaf } = _
    rw [lcafParse]
    simp only [hhdr, hat, hparse]
    refine congrArg₂ Prod.mk ?_ rfl
    rw [setWidth_ofNat_of_le_of_lt (by decide) (by omega), length_sdBytes, Nat.add_assoc 12, Nat.add_assoc 4,
      ofNat_add 12, ofNat_add 4, ← BitVec.add_assoc, ← BitVec.add_assoc]
    rfl

theorem vniParse_eq (hg : g.OnWire) (h : m.Holds p (netBytes 4 g.vni.toNat ++ bodyBytes g))
    (a : GidAddress) :
    ∃ a', vniParse m p a = (BitVec.ofNat 16 (4 + (bodyBytes g).length), a') ∧ g.Found a' ∧ a'.vni = g.vni ∧
      a'.vniMask = a.lcaf.vniMaskLen := by
  obtain ⟨hvni, hbody⟩ := Memory.holds_append.mp h
  rw [length_netBytes] at hbody
  have hlen := length_bodyBytes_le g
  have hword : m.word 4 p = g.vni := hvni.word (w := 4)
  rw [vniParse]
  by_cases ht : g.type = .srcDst
  · obtain ⟨hsrc, hdst⟩ : g.sd.src.OnWire ∧ g.sd.dst.OnWire := by
      obtain h' | h' | h' := hg
      · rw [ht] at h'
        cases h'
      · rw [ht] at h'
        cases h'
      · exact h'.2
    rw [bodyBytes, ht] at hbody hlen ⊢
    have hafi : afiAt m (p + sizeofU32.toNat) = lispAfiLcaf := (holds_sdBytes hbody).1
    obtain ⟨sd, hparse, hfound⟩ := tryParseSrcDstLcaf_eq hsrc hdst ht hbody
      { a with vni := m.word 4 p, vniMask := a.lcaf.vniMaskLen }
    have hparse : tryParseSrcDstLcaf m (p + sizeofU32.toNat) _ = _ := hparse
    have hne := ofNat_ne_allOnes (show (sdBytes g.sd).length < 65535 by exact hlen.trans_lt (by decide))
    simp only [dif_pos hafi, hparse, if_neg hne]
    refine ⟨_, ?_, hfound, hword, rfl⟩
    rw [ofNat_add]
    rfl
  · have hafi : afiAt m (p + sizeofU32.toNat) ≠ lispAfiLcaf := by
      obtain h' | h' | h' := hg
      · rw [bodyBytes, h'] at hbody
        have := (ipAddressParse_eq hbody a.ippref.addr).1
        rw [show p + sizeofU32.toNat = p + 4 from rfl, this]
        cases g.ippref.addr.version with
        | ip4 => decide
        | ip6 => decide
      · rw [bodyBytes, h'] at hbody
        rw [show p + sizeofU32.toNat = p + 4 from rfl, (macParse_eq hbody).1]
        decide
      · exact absurd h'.1 ht
    obtain ⟨a', hparse, hfound, hvni', hmask⟩ := gidAddressParse_body hg hbody
      { a with vni := m.word 4 p, vniMask := a.lcaf.vniMaskLen }
    have hparse : gidAddressParse m (p + sizeofU32.toNat) _ = _ := hparse
    simp only [dif_neg hafi, hparse]
    refine ⟨a', ?_, hfound, hvni'.trans hword, hmask⟩
    rw [setWidth_ofNat_of_le (by decide), ofNat_add]
    rfl

theorem gidAddressParse_eq (hg : g.OnWire) (h : m.Holds p (gidBytes g)) (a : GidAddress) :
    ∃ a', gidAddressParse m p a = (BitVec.ofNat 32 (gidBytes g).length, a') ∧ g.Found a' ∧
      (g.vni ≠ 0 → a'.vni = g.vni ∧ a'.vniMask = g.vniMask) ∧
          (g.vni = 0 → a'.vni = a.vni ∧ a'.vniMask = a.vniMask) := by
  by_cases hvni : g.vni = 0
  · rw [gidBytes, if_neg (not_not_intro hvni)] at h ⊢
    obtain ⟨a', hparse, hfound, hkeep⟩ := gidAddressParse_body hg h a
    exact ⟨a', hparse, hfound, fun hne => absurd hvni hne, fun _ => hkeep⟩
  · have hlen := length_bodyBytes_le g
    rw [length_gidBytes_of_vni hvni]
    rw [gidBytes, if_pos hvni] at h
    obtain ⟨hafi, hrest⟩ := Memory.holds_append.mp h
    obtain ⟨hhdr, hrest⟩ := Memory.holds_append.mp hrest
    have hafi := afiAt_eq hafi
    have hhdr : lcafHdrParse m (p + sizeofU16.toNat) = _ := lcafHdrParse_eq hhdr
    obtain ⟨a', hparse, hfound, hkeep⟩ := vniParse_eq hg hrest
        { a with type := .lcaf, lcaf := ⟨g.vniMask, lcafInstanceId⟩ }
    have hparse : vniParse m (p + sizeofU16.toNat + (6 : BitVec 32).toNat) _ = _ := hparse
    refine ⟨a', ?_, hfound, fun _ => hkeep, fun hz => absurd hz hvni⟩
    rw [gidAddressParse]
    simp only [hafi]
    show lcafParse m p { a with type := .lcaf } = _
    rw [lcafParse]
    simp only [hhdr, if_true, hparse]
    refine congrArg₂ Prod.mk ?_ rfl
    rw [setWidth_ofNat_of_le_of_lt (by decide) (by omega), ofNat_add 4, ofNat_add 12,
      ← BitVec.add_assoc, ← BitVec.add_assoc]
    rfl

theorem memcmp_self (a : BitVec w) : memcmp a a = 0 := by
  rw [memcmp, if_neg (BitVec.lt_irrefl a), if_neg (BitVec.lt_irrefl a)]

theorem ipPrefixCmp_eq_zero {a b : IpPrefix} (h : a.addr.Same b.addr) (hlen : b.len = a.len) : ipPrefixCmp a b = 0 := by
  obtain ⟨hv, h4, h6⟩ := h
  rw [ipPrefixCmp, ipPrefixNormalize, ipPrefixNormalize, hv, hlen]
  cases ha : a.addr.version with
  | ip4 => simp [ipAddressCmp, hv, ha, h4 ha, memcmp_self]
  | ip6 => simp [ipAddressCmp, hv, ha, h6 ha, memcmp_self]

theorem fidAddrCmp_eq_zero {a b : FidAddress} (ha : a.OnWire) (h : a.SameLen b) : fidAddrCmp a b = 0 := by
  obtain ⟨⟨htype, haddr, hmac⟩, hlen⟩ := h
  rw [fidAddrCmp, htype, if_neg (not_not_intro rfl)]
  obtain ht | ht := ha
  · rw [ht]
    exact ipPrefixCmp_eq_zero (haddr ht) (hlen ht)
  · rw [ht, hmac ht]
    exact memcmp_self _

theorem GidAddress.Found.cmp (hg : g.OnWire) (h : g.Found a) (hvni : a.vni = g.vni) :
    gidAddressCmp g (a.setEidPlen g.ippref.len) = 0 := by
  have htype : (a.setEidPlen g.ippref.len).type = g.type := by
    rw [setEidPlen, ← h.type]
    split <;> rfl
  have hsame : (a.setEidPlen g.ippref.len).vni = g.vni := by
    rw [setEidPlen, ← hvni]
    split <;> rfl
  rw [gidAddressCmp, htype, hsame, if_neg (not_not_intro rfl), if_neg (not_not_intro rfl), setEidPlen, h.type]
  obtain ht | ht | ⟨ht, hsrc, hdst⟩ := hg
  · rw [ht]
    exact ipPrefixCmp_eq_zero (h.addr ht) rfl
  · rw [ht]
    show memcmp g.mac a.mac = 0
    rw [h.mac ht, memcmp_self]
  · rw [ht]
    obtain ⟨hs, hd⟩ := h.sd ht
    show sdCmp g.sd a.sd = 0
    rw [sdCmp, fidAddrCmp_eq_zero hdst hd, fidAddrCmp_eq_zero hsrc hs]
    rfl

/-- The bytes that an address is written to are the ones that it is sized at, and they parse back to it. Without an
instance ID the parser leaves the one that the caller has cleared. -/
theorem gid_address_round_trip (g : GidAddress) (hg : g.OnWire) (m : Memory) (p : Nat) :
    ∃ m' n, gidAddressPut m p g = some (m', n) ∧ gidAddressSizeToPut g = some n ∧
      (∀ i, i < p ∨ p + n.toNat ≤ i → m' i = m i) ∧
      (∀ other, ∃ m'', gidAddressPut other p g = some (m'', n) ∧ ∀ i < n.toNat, m'' (p + i) = m' (p + i)) ∧
      ∀ buf q a, (∀ i < n.toNat, buf (q + i) = m' (p + i)) →
        ∃ a', gidAddressParse buf q a = (n.setWidth 32, a') ∧ a'.type = g.type ∧
          (g.vni ≠ 0 → a'.vni = g.vni ∧ a'.vniMask = g.vniMask) ∧
          (g.vni = 0 → a'.vni = a.vni ∧ a'.vniMask = a.vniMask) ∧
          (g.vni ≠ 0 ∨ a.vni = 0 → gidAddressCmp g (a'.setEidPlen g.ippref.len) = 0) := by
  have hlen := length_gidBytes_le g
  have hn : (BitVec.ofNat 16 (gidBytes g).length).toNat = (gidBytes g).length := by
    rw [toNat_ofNat]
    omega
  have hw : (BitVec.ofNat 16 (gidBytes g).length).setWidth 32 = BitVec.ofNat 32 (gidBytes g).length :=
    setWidth_ofNat_of_le_of_lt (by decide) (by omega)
  refine ⟨_, _, gidAddressPut_eq m p hg, gidAddressSizeToPut_eq hg, ?_, ?_, ?_⟩
  · intro i hi
    rw [hn] at hi
    exact m.store_of_outside hi
  · intro other
    refine ⟨_, gidAddressPut_eq other p hg, fun i hi => ?_⟩
    rw [hn] at hi
    rw [other.store_holds p _ i hi, m.store_holds p _ i hi]
  · intro buf q a hbuf
    have hholds : buf.Holds q (gidBytes g) := by
      intro i hi
      rw [hbuf i (hn.symm ▸ hi), m.store_holds p _ i hi]
    obtain ⟨a', hparse, hfound, hset, hkeep⟩ := gidAddressParse_eq hg hholds a
    refine ⟨a', hw ▸ hparse, hfound.type, hset, hkeep, fun hvni => ?_⟩
    apply hfound.cmp hg
    by_cases hz : g.vni = 0
    · rw [(hkeep hz).1, hvni.resolve_left (not_not_intro hz), hz]
    · exact (hset hz).1

/-- A prefix in the instance 9. -/
def prefixInNine : GidAddress :=
  ⟨⟨⟨0x10bbccdd, 0, .ip4⟩, 24⟩, ⟨0, 0⟩, 0, ⟨⟨⟨⟨0, 0, .ip4⟩, 0⟩, 0, .ipPref⟩, ⟨⟨⟨0, 0, .ip4⟩, 0⟩, 0, .ipPref⟩⟩,
      .ipPrefix, 9, 0x18⟩

theorem gid_address_round_trip_prefix :
    prefixInNine.OnWire ∧ ∃ m' n, gidAddressPut (fun _ => 0) 0 prefixInNine = some (m', n) ∧
      ∃ a', gidAddressParse m' 0 { prefixInNine with vni := 0 } = (n.setWidth 32, a') ∧
        gidAddressCmp prefixInNine (a'.setEidPlen 24) = 0 := by
  obtain ⟨m', n, hput, -, -, -, hparse⟩ := gid_address_round_trip prefixInNine (.inl rfl) (fun _ => 0) 0
  obtain ⟨a', hp, -, -, -, hcmp⟩ := hparse m' 0 { prefixInNine with vni := 0 } (fun _ _ => rfl)
  exact ⟨.inl rfl, m', n, hput, a', hp, hcmp (.inr rfl)⟩

/-- A source and destination with an NSH address in it is sized, but not written. -/
theorem gid_address_round_trip_nsh :
    let g : GidAddress :=
      { prefixInNine with type := .srcDst, sd := ⟨prefixInNine.sd.src, { prefixInNine.sd.dst with type := .nsh }⟩ }
    gidAddressSizeToPut g = some 30 ∧ ∃ m, gidAddressPut (fun _ => 0) 0 g = some (m, 65535) := by
  exact ⟨by decide, _, rfl⟩

end Vpp.Lisp
