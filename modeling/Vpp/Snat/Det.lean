import Mathlib.Data.BitVec
import Mathlib.Data.Nat.Bitwise

namespace Vpp.Snat
open BitVec

abbrev Ip4Address := BitVec 32

def fibMasks (plen : Nat) : BitVec 32 := if plen < 32 then BitVec.ofNat 32 ((2 ^ plen - 1) <<< (32 - plen)) else ~~~0

structure SnatDetMap where
  inAddr : Ip4Address
  inPlen : Nat
  outAddr : Ip4Address
  outPlen : Nat
  sharingRatio : BitVec 32
  portsPerHost : BitVec 16
deriving DecidableEq

def valueExist : Int := -81

def noSuchEntry : Int := -6

def snatDetMap (inCmp : Ip4Address) (inPlen : Nat) (outCmp : Ip4Address) (outPlen : Nat) : SnatDetMap :=
  let sharingRatio := ((1 : BitVec 32) <<< (32 - inPlen)).sdiv ((1 : BitVec 32) <<< (32 - outPlen))
  let portsPerHost := ((65535 - 1023 : BitVec 32) / sharingRatio).setWidth 16
  ⟨inCmp, inPlen, outCmp, outPlen, sharingRatio, portsPerHost⟩

def vecDel1 (v : List α) (i : Nat) : List α :=
  match v.getLast? with
  | none => v
  | some t => (v.set i t).dropLast

/-- The return value and the maps. The sessions of a map and the entries in the FIB are left out. -/
def snatDetAddMap (detMaps : List SnatDetMap) (inAddr : Ip4Address) (inPlen : Nat) (outAddr : Ip4Address)
    (outPlen : Nat) (isAdd : Bool) : Int × List SnatDetMap :=
  let inCmp := inAddr &&& fibMasks inPlen
  let outCmp := outAddr &&& fibMasks outPlen
  let found := detMaps.findIdx? fun detMap => detMap.inAddr == inCmp && detMap.inPlen == inPlen &&
    detMap.outAddr == outCmp && detMap.outPlen == outPlen
  match found, isAdd with
  | some _, true => (valueExist, detMaps)
  | none, false => (noSuchEntry, detMaps)
  | none, true => (0, detMaps ++ [snatDetMap inCmp inPlen outCmp outPlen])
  | some i, false => (0, vecDel1 detMaps i)

def isAddrInNet (addr net : Ip4Address) (plen : Nat) : Bool := net == addr &&& fibMasks plen

def snatDetForward (dm : SnatDetMap) (inAddr : Ip4Address) : Ip4Address × BitVec 16 :=
  let inOffset := inAddr - dm.inAddr
  let outOffset := inOffset / dm.sharingRatio
  (dm.outAddr + outOffset, (1024 + dm.portsPerHost.setWidth 32 * (inOffset % dm.sharingRatio)).setWidth 16)

def snatDetReverse (dm : SnatDetMap) (outAddr : Ip4Address) (outPort : BitVec 16) : Ip4Address :=
  let outOffset := outAddr - dm.outAddr
  let inOffset1 := outOffset * dm.sharingRatio
  let inOffset2 := (outPort.setWidth 32 - 1024).sdiv (dm.portsPerHost.setWidth 32)
  dm.inAddr + inOffset1 + inOffset2

theorem toNat_and_fibMasks (a : Ip4Address) (hp : plen ≤ 32) :
    (a &&& fibMasks plen).toNat = a.toNat / 2 ^ (32 - plen) * 2 ^ (32 - plen) := by
  apply Nat.eq_of_testBit_eq
  intro i
  rw [testBit_toNat, getLsbD_and, Nat.testBit_mul_two_pow, Nat.testBit_div_two_pow, ← testBit_toNat]
  by_cases hi : i < 32
  · have hmask : (fibMasks plen).getLsbD i = decide (32 - plen ≤ i) := by
      rw [fibMasks]
      by_cases h32 : plen < 32
      · rw [if_pos h32, getLsbD_ofNat, Nat.testBit_shiftLeft, Nat.testBit_two_pow_sub_one]
        simp only [hi, decide_true, Bool.true_and]
        by_cases hge : 32 - plen ≤ i
        · have hlt : i - (32 - plen) < plen := by omega
          simp [hge, hlt]
        · simp [hge]
      · have h0 : 32 - plen = 0 := by omega
        rw [if_neg h32, h0, getLsbD_not]
        simp [hi]
    rw [hmask]
    by_cases hge : 32 - plen ≤ i
    · rw [Nat.sub_add_cancel hge]
      simp [hge]
    · simp [hge]
  · have hlt : a.toNat < 2 ^ i := Nat.lt_of_lt_of_le a.isLt (Nat.pow_le_pow_right (by decide) (Nat.not_lt.mp hi))
    rw [Nat.testBit_lt_two_pow hlt]
    by_cases hge : 32 - plen ≤ i
    · rw [Nat.sub_add_cancel hge, Nat.testBit_lt_two_pow hlt]
      simp
    · simp [hge]

theorem isAddrInNet_iff (hp : plen ≤ 32) (hnet : net.toNat % 2 ^ (32 - plen) = 0) :
    isAddrInNet a net plen = true ↔ net.toNat ≤ a.toNat ∧ a.toNat < net.toNat + 2 ^ (32 - plen) := by
  have hpos := Nat.two_pow_pos (32 - plen)
  have hmask := toNat_and_fibMasks a hp
  have hdiv := Nat.div_add_mod a.toNat (2 ^ (32 - plen))
  have hmod := Nat.mod_lt a.toNat hpos
  have hnd := Nat.div_add_mod net.toNat (2 ^ (32 - plen))
  rw [isAddrInNet, beq_iff_eq, ← toNat_inj, hmask]
  constructor
  · intro he
    rw [he, Nat.mul_comm]
    omega
  · intro ⟨hlo, hhi⟩
    have hq : a.toNat / 2 ^ (32 - plen) = net.toNat / 2 ^ (32 - plen) := by
      apply Nat.div_eq_of_lt_le
      · rw [Nat.mul_comm]
        omega
      · rw [Nat.add_mul, Nat.one_mul, Nat.mul_comm]
        omega
    rw [hq, Nat.mul_comm]
    omega

theorem snatDetMap_ratio (h1 : 1 ≤ inPlen) (hle : inPlen ≤ outPlen) (h32 : outPlen ≤ 32) :
    (snatDetMap i inPlen o outPlen).sharingRatio = BitVec.ofNat 32 (2 ^ (outPlen - inPlen)) ∨
      (snatDetMap i inPlen o outPlen).portsPerHost = 0 := by
  have hall : ∀ i ≤ 32, ∀ o ≤ 32, 1 ≤ i → i ≤ o →
      (((1 : BitVec 32) <<< (32 - i)).sdiv ((1 : BitVec 32) <<< (32 - o)) = BitVec.ofNat 32 (2 ^ (o - i)) ∨
        ((65535 - 1023 : BitVec 32) / (((1 : BitVec 32) <<< (32 - i)).sdiv ((1 : BitVec 32) <<< (32 - o)))).setWidth
            16 =
          0#16) := by decide
  exact hall inPlen (by omega) outPlen h32 h1 hle

theorem snatDetMap_ports (hr : (snatDetMap i inPlen o outPlen).sharingRatio = BitVec.ofNat 32 r) (hpos : 0 < r)
    (hle : r ≤ 64512) : (snatDetMap i inPlen o outPlen).portsPerHost.toNat = 64512 / r := by
  have hports : (snatDetMap i inPlen o outPlen).portsPerHost =
      ((65535 - 1023 : BitVec 32) / (snatDetMap i inPlen o outPlen).sharingRatio).setWidth 16 := rfl
  have hrn : (BitVec.ofNat 32 r).toNat = r := Nat.mod_eq_of_lt (by omega)
  have hdiv : 64512 / r ≤ 64512 := Nat.div_le_self _ _
  rw [hports, hr, toNat_setWidth, toNat_udiv, hrn]
  exact Nat.mod_eq_of_lt (by simp; omega)

section Shared
variable {dm : SnatDetMap} {r : Nat}

/-- The parts of an offset inside: the outside offset and the place of the ports. -/
theorem snatDetForward_eq (hr : dm.sharingRatio = BitVec.ofNat 32 r) (hpos : 0 < r)
    (hports : dm.portsPerHost.toNat = 64512 / r) (hr16 : r ≤ 64512) (hlo : dm.inAddr.toNat ≤ a.toNat)
    (hfit : dm.outAddr.toNat + (a.toNat - dm.inAddr.toNat) / r < 2 ^ 32) :
    (snatDetForward dm a).1.toNat = dm.outAddr.toNat + (a.toNat - dm.inAddr.toNat) / r ∧
      (snatDetForward dm a).2.toNat = 1024 + 64512 / r * ((a.toNat - dm.inAddr.toNat) % r) ∧
      1024 + 64512 / r * ((a.toNat - dm.inAddr.toNat) % r) + 64512 / r ≤ 65536 := by
  have hrn : (BitVec.ofNat 32 r).toNat = r := Nat.mod_eq_of_lt (by omega)
  have hoff : (a - dm.inAddr).toNat = a.toNat - dm.inAddr.toNat := toNat_sub_of_le hlo
  have hmod := Nat.mod_lt (a.toNat - dm.inAddr.toNat) hpos
  have hblock : 64512 / r * ((a.toNat - dm.inAddr.toNat) % r) + 64512 / r ≤ 64512 := by
    calc 64512 / r * ((a.toNat - dm.inAddr.toNat) % r) + 64512 / r
        = 64512 / r * ((a.toNat - dm.inAddr.toNat) % r + 1) := by rw [Nat.mul_add, Nat.mul_one]
      _ ≤ 64512 / r * r := Nat.mul_le_mul_left _ hmod
      _ ≤ 64512 := Nat.div_mul_le_self _ _
  refine ⟨?_, ?_, by omega⟩
  · rw [snatDetForward, toNat_add, toNat_udiv, hr, hrn, hoff]
    exact Nat.mod_eq_of_lt hfit
  · have hp16 := dm.portsPerHost.isLt
    have hp1 : 0 < 64512 / r := Nat.div_pos hr16 hpos
    rw [snatDetForward, toNat_setWidth, toNat_add, toNat_mul, toNat_umod, hr, hrn, hoff,
      toNat_setWidth, hports]
    have h32 : 64512 / r % 2 ^ 32 = 64512 / r := Nat.mod_eq_of_lt (by omega)
    rw [h32, Nat.mod_eq_of_lt (show 64512 / r * ((a.toNat - dm.inAddr.toNat) % r) < 2 ^ 32 by omega)]
    have h1024 : (1024 : BitVec 32).toNat = 1024 := rfl
    rw [h1024]
    omega

theorem snatDetReverse_eq (hr : dm.sharingRatio = BitVec.ofNat 32 r) (hr32 : r < 2 ^ 32)
    (hpos : 0 < dm.portsPerHost.toNat)
    (hlo : dm.outAddr.toNat ≤ out.toNat) (hport : 1024 ≤ port.toNat)
    (hfit : dm.inAddr.toNat + (out.toNat - dm.outAddr.toNat) * r + (port.toNat - 1024) / dm.portsPerHost.toNat <
        2 ^ 32) :
    (snatDetReverse dm out port).toNat =
      dm.inAddr.toNat + (out.toNat - dm.outAddr.toNat) * r + (port.toNat - 1024) / dm.portsPerHost.toNat := by
  have hrn : (BitVec.ofNat 32 r).toNat = r := Nat.mod_eq_of_lt hr32
  have hoff : (out - dm.outAddr).toNat = out.toNat - dm.outAddr.toNat := toNat_sub_of_le hlo
  have hp16 := port.isLt
  have hh16 := dm.portsPerHost.isLt
  have hpw : (port.setWidth 32).toNat = port.toNat := by
    rw [toNat_setWidth]
    omega
  have hhw : (dm.portsPerHost.setWidth 32).toNat = dm.portsPerHost.toNat := by
    rw [toNat_setWidth]
    omega
  have h1024 : (1024 : BitVec 32).toNat = 1024 := rfl
  have hsub : (port.setWidth 32 - 1024).toNat = port.toNat - 1024 := by
    rw [toNat_sub_of_le (show (1024 : BitVec 32) ≤ port.setWidth 32 by rw [le_def, h1024, hpw]; exact hport),
      hpw, h1024]
  have hdiv : ((port.setWidth 32 - 1024).sdiv (dm.portsPerHost.setWidth 32)).toNat =
      (port.toNat - 1024) / dm.portsPerHost.toNat := by
    have hm1 : (port.setWidth 32 - 1024).msb = false := by
      rw [msb_eq_false_iff_two_mul_lt, hsub]
      omega
    have hm2 : (dm.portsPerHost.setWidth 32).msb = false := by
      rw [msb_eq_false_iff_two_mul_lt, hhw]
      omega
    rw [sdiv_eq, hm1, hm2]
    simp only
    rw [udiv_eq, toNat_udiv, hsub, hhw]
  rw [snatDetReverse, toNat_add, toNat_add, toNat_mul, hdiv, hr, hrn, hoff]
  rw [Nat.mod_eq_of_lt (show (out.toNat - dm.outAddr.toNat) * r < 2 ^ 32 by omega),
    Nat.mod_eq_of_lt (show dm.inAddr.toNat + (out.toNat - dm.outAddr.toNat) * r < 2 ^ 32 by omega)]
  exact Nat.mod_eq_of_lt hfit

end Shared

theorem add_le_of_multiple (hx : x % 2 ^ (32 - plen) = 0) (h32 : plen ≤ 32) (hlt : x < 2 ^ 32) :
    x + 2 ^ (32 - plen) ≤ 2 ^ 32 := by
  obtain ⟨k, rfl⟩ := Nat.dvd_of_mod_eq_zero hx
  have hpow : 2 ^ 32 = 2 ^ (32 - plen) * 2 ^ plen := by
    rw [← Nat.pow_add]
    congr 1
    omega
  rw [hpow] at hlt ⊢
  have hk : k < 2 ^ plen := Nat.lt_of_mul_lt_mul_left hlt
  rw [← Nat.mul_succ]
  exact Nat.mul_le_mul_left _ hk

theorem snatDetAddMap_created (hadd : snatDetAddMap maps inAddr inPlen outAddr outPlen true = (0, maps')) :
    maps' = maps ++ [snatDetMap (inAddr &&& fibMasks inPlen) inPlen (outAddr &&& fibMasks outPlen) outPlen] := by
  simp only [snatDetAddMap] at hadd
  split at hadd
  · exact absurd (Prod.mk.inj hadd).1 (by decide)
  · cases ‹true = false›
  · exact (Prod.mk.inj hadd).2.symm
  · cases ‹true = false›

structure Bijective (dm : SnatDetMap) : Prop where
  forward : ∀ a, isAddrInNet a dm.inAddr dm.inPlen = true → ∀ p < dm.portsPerHost.toNat,
    isAddrInNet (snatDetForward dm a).1 dm.outAddr dm.outPlen = true ∧
      1024 ≤ (snatDetForward dm a).2.toNat + p ∧ (snatDetForward dm a).2.toNat + p ≤ 65535 ∧
      snatDetReverse dm (snatDetForward dm a).1 ((snatDetForward dm a).2 + BitVec.ofNat 16 p) = a
  apart : ∀ a b, isAddrInNet a dm.inAddr dm.inPlen = true → isAddrInNet b dm.inAddr dm.inPlen = true → a ≠ b →
    (snatDetForward dm a).1 = (snatDetForward dm b).1 →
    (snatDetForward dm a).2.toNat + dm.portsPerHost.toNat ≤ (snatDetForward dm b).2.toNat ∨
      (snatDetForward dm b).2.toNat + dm.portsPerHost.toNat ≤ (snatDetForward dm a).2.toNat

theorem bijective_of_ratio {dm : SnatDetMap} (hr : dm.sharingRatio = BitVec.ofNat 32 (2 ^ (dm.outPlen - dm.inPlen)))
    (hports : dm.portsPerHost.toNat = 64512 / 2 ^ (dm.outPlen - dm.inPlen)) (hle : dm.inPlen ≤ dm.outPlen)
    (h32 : dm.outPlen ≤ 32) (hr16 : 2 ^ (dm.outPlen - dm.inPlen) ≤ 64512)
    (hin : dm.inAddr.toNat % 2 ^ (32 - dm.inPlen) = 0) (hout : dm.outAddr.toNat % 2 ^ (32 - dm.outPlen) = 0) :
    Bijective dm := by
  generalize hrdef : 2 ^ (dm.outPlen - dm.inPlen) = r at hr hports hr16
  have hpos : 0 < r := hrdef ▸ Nat.two_pow_pos _
  have hsize : 2 ^ (32 - dm.inPlen) = 2 ^ (32 - dm.outPlen) * r := by
    rw [← hrdef, ← Nat.pow_add]
    congr 1
    omega
  have hfwd (a : Ip4Address) (ha : isAddrInNet a dm.inAddr dm.inPlen = true) :
      dm.inAddr.toNat ≤ a.toNat ∧ (a.toNat - dm.inAddr.toNat) / r < 2 ^ (32 - dm.outPlen) ∧
        dm.outAddr.toNat + (a.toNat - dm.inAddr.toNat) / r < 2 ^ 32 := by
    obtain ⟨hlo, hhi⟩ := (isAddrInNet_iff (Nat.le_trans hle h32) hin).mp ha
    have hq : (a.toNat - dm.inAddr.toNat) / r < 2 ^ (32 - dm.outPlen) := by
      apply (Nat.div_lt_iff_lt_mul hpos).mpr
      omega
    have htop := add_le_of_multiple hout h32 dm.outAddr.isLt
    exact ⟨hlo, hq, by omega⟩
  constructor
  · intro a ha p hp
    obtain ⟨hlo, hq, hfit⟩ := hfwd a ha
    obtain ⟨h1, h2, h3⟩ := snatDetForward_eq hr hpos hports hr16 hlo hfit
    rw [hports] at hp
    have hmod := Nat.mod_lt (a.toNat - dm.inAddr.toNat) hpos
    refine ⟨?_, by omega, by omega, ?_⟩
    · rw [isAddrInNet_iff h32 hout, h1]
      exact ⟨Nat.le_add_right _ _, Nat.add_lt_add_left hq _⟩
    · have hport : ((snatDetForward dm a).2 + BitVec.ofNat 16 p).toNat = (snatDetForward dm a).2.toNat + p := by
        rw [toNat_add, toNat_ofNat]
        omega
      have hback : ((snatDetForward dm a).2.toNat + p - 1024) / (64512 / r) = (a.toNat - dm.inAddr.toNat) % r := by
        rw [h2]
        apply Nat.div_eq_of_lt_le
        · rw [Nat.mul_comm]
          omega
        · rw [Nat.add_mul, Nat.one_mul, Nat.mul_comm]
          omega
      have hsum := Nat.div_add_mod (a.toNat - dm.inAddr.toNat) r
      rw [Nat.mul_comm] at hsum
      have ha32 := a.isLt
      have hout' : (snatDetForward dm a).1.toNat - dm.outAddr.toNat = (a.toNat - dm.inAddr.toNat) / r := by
        rw [h1, Nat.add_sub_cancel_left]
      have hge : dm.outAddr.toNat ≤ (snatDetForward dm a).1.toNat := h1 ▸ Nat.le_add_right _ _
      have hpp : 0 < dm.portsPerHost.toNat := hports ▸ Nat.div_pos hr16 hpos
      apply eq_of_toNat_eq
      rw [snatDetReverse_eq hr (by omega) hpp hge (by omega)]
      · rw [hport, hports, hback, hout']
        omega
      · rw [hport, hports, hback, hout']
        omega
  · intro a b ha hb hab heq
    obtain ⟨hloa, hqa, hfita⟩ := hfwd a ha
    obtain ⟨hlob, hqb, hfitb⟩ := hfwd b hb
    obtain ⟨ha1, ha2, -⟩ := snatDetForward_eq hr hpos hports hr16 hloa hfita
    obtain ⟨hb1, hb2, -⟩ := snatDetForward_eq hr hpos hports hr16 hlob hfitb
    have hquot : (a.toNat - dm.inAddr.toNat) / r = (b.toNat - dm.inAddr.toNat) / r := by
      rw [heq] at ha1
      omega
    have hrem : (a.toNat - dm.inAddr.toNat) % r ≠ (b.toNat - dm.inAddr.toNat) % r := by
      intro hm
      have hsa := Nat.div_add_mod (a.toNat - dm.inAddr.toNat) r
      have hsb := Nat.div_add_mod (b.toNat - dm.inAddr.toNat) r
      rw [hquot, hm] at hsa
      exact hab (eq_of_toNat_eq (by omega))
    rw [ha2, hb2, hports]
    rcases Nat.lt_or_gt_of_ne hrem with hlt | hgt
    · left
      have hmul := Nat.mul_le_mul_left (64512 / r) hlt
      rw [Nat.mul_succ] at hmul
      omega
    · right
      have hmul := Nat.mul_le_mul_left (64512 / r) hgt
      rw [Nat.mul_succ] at hmul
      omega

theorem snatDet_bijective (h1 : 1 ≤ inPlen) (hle : inPlen ≤ outPlen) (h32 : outPlen ≤ 32)
    (hr16 : 2 ^ (outPlen - inPlen) ≤ 64512)
    (hadd : snatDetAddMap maps inAddr inPlen outAddr outPlen true = (0, maps')) :
    ∃ dm, maps' = maps ++ [dm] ∧ isAddrInNet inAddr dm.inAddr inPlen = true ∧
        isAddrInNet outAddr dm.outAddr outPlen = true ∧
      dm.inPlen = inPlen ∧ dm.outPlen = outPlen ∧ Bijective dm := by
  refine ⟨_, snatDetAddMap_created hadd, ?_, ?_, rfl, rfl, ?_⟩
  · exact beq_self_eq_true _
  · exact beq_self_eq_true _
  obtain hr | hzero := snatDetMap_ratio (i := inAddr &&& fibMasks inPlen) (o := outAddr &&& fibMasks outPlen) h1 hle h32
  · apply bijective_of_ratio hr (snatDetMap_ports hr (Nat.two_pow_pos _) hr16) hle h32 hr16
    · have hm := toNat_and_fibMasks inAddr (Nat.le_trans hle h32)
      exact hm ▸ Nat.mul_mod_left _ _
    · have hm := toNat_and_fibMasks outAddr h32
      exact hm ▸ Nat.mul_mod_left _ _
  · have hz : (snatDetMap (inAddr &&& fibMasks inPlen) inPlen
        (outAddr &&& fibMasks outPlen) outPlen).portsPerHost.toNat = 0 := by
      rw [hzero]
      rfl
    constructor
    · intro a _ p hp
      rw [hz] at hp
      exact absurd hp (Nat.not_lt_zero p)
    · intro a b _ _ _ _
      rw [hz]
      omega

theorem snatDet_bijective_sixteen : ∃ dm, snatDetAddMap [] 0x0a000000 16 0x01010000 24 true = (0, [dm]) ∧
    dm.portsPerHost = 252 ∧ Bijective dm := by
  have hadd : snatDetAddMap [] 0x0a000000 16 0x01010000 24 true =
      (0, [snatDetMap 0x0a000000 16 0x01010000 24]) := by decide
  obtain ⟨dm, hdm, -, -, -, -, hb⟩ := snatDet_bijective (by decide) (by decide) (by decide) (by decide) hadd
  obtain rfl : snatDetMap 0x0a000000 16 0x01010000 24 = dm := by simpa using hdm
  exact ⟨_, hadd, by decide, hb⟩

end Vpp.Snat
