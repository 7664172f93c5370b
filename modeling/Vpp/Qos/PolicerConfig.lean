import Vpp.Qos.Policer
import Mathlib.Data.Rat.Floor

namespace Vpp.Qos
open Vpp.Lib

inductive PolicerType where
  | oneRateTwoColor
  | oneRateThreeColorRfc2697
  | twoRateThreeColorRfc2698
  | twoRateThreeColorRfc4115
  | twoRateThreeColorRfcMef5cf1
  | unknown
  deriving DecidableEq

/-- The configuration, with its rates in kilobits per second and its bursts in bytes. -/
structure CfgParams where
  cirKbps : BitVec 32
  eirKbps : BitVec 32
  cbBytes : BitVec 64
  ebBytes : BitVec 64
  rfc : PolicerType

def bytesPerKbit : Nat := 1000 / 8

def policerTicksPerPeriod : Nat := 2 ^ 17

def maxRateShift : Nat := 10

def maxU32 (x y : BitVec 32) : BitVec 32 := if x > y then x else y

/-- A conversion to 32 bits; `undef` is what it gives for a number that does not fit. -/
def toU32 (undef : ℚ → BitVec 32) (x : ℚ) : BitVec 32 := if x < 2 ^ 32 then BitVec.ofNat 32 ⌊x⌋₊ else undef x

def bytesPerPeriod (hz : BitVec 64) (rate : Nat) : ℚ := rate / ((hz.toNat : ℚ) / policerTicksPerPeriod)

def atLeastOne (x : ℚ) : ℚ := if x < 1 then 1 else x

/-- The rates and the two limits, scaled as far as they fit in 32 bits. -/
def computePolicerParams (undef : ℚ → BitVec 32) (hz : BitVec 64) (cirRate pirRate : Nat) (hw : Policer) : Policer :=
  let internalCir := bytesPerPeriod hz cirRate
  let internalPir := bytesPerPeriod hz pirRate
  let m := maxU32 hw.currentLimit hw.extendedLimit
  let m := maxU32 m (toU32 undef internalCir <<< maxRateShift)
  let m := maxU32 m (toU32 undef internalPir <<< maxRateShift)
  let scaleShift := m.clz
  { hw with
    scale := scaleShift
    currentLimit := hw.currentLimit <<< scaleShift
    extendedLimit := hw.extendedLimit <<< scaleShift
    cirTokensPerPeriod := toU32 undef (atLeastOne (internalCir * 2 ^ scaleShift.toNat))
    pirTokensPerPeriod := toU32 undef (atLeastOne (internalPir * 2 ^ scaleShift.toNat)) }

/-- The bursts are capped at 32 bits. -/
def capBurst (bytes : BitVec 64) : BitVec 32 := if bytes > 0xFFFFFFFF then 0xFFFFFFFF else bytes.setWidth 32

def x86PolComputeHwParams (undef : ℚ → BitVec 32) (hz : BitVec 64) (cfg : CfgParams) (hw : Policer) : Option Policer :=
  let hw := { hw with
    lastUpdateTime := 0
    currentLimit := capBurst cfg.cbBytes
    extendedLimit := capBurst cfg.ebBytes }
  let fillBuckets (hw : Policer) : Policer := { hw with
    currentBucket := hw.currentLimit
    extendedBucket := hw.extendedLimit }
  -- an uninitialized policer, for which every packet is a violation
  if cfg.cirKbps = 0 ∧ cfg.cbBytes = 0 ∧ cfg.ebBytes = 0 then
    some { hw with singleRate := 1, cirTokensPerPeriod := 0 }
  else match cfg.rfc with
    | .oneRateTwoColor | .oneRateThreeColorRfc2697 =>
      let hw := { hw with singleRate := 1 }
      if cfg.rfc = .oneRateTwoColor ∧ cfg.ebBytes ≠ 0 then none
      else if cfg.cirKbps = 0 ∨ cfg.eirKbps ≠ 0 ∨ cfg.cbBytes = 0 ∧ cfg.ebBytes = 0 then none
      else some (fillBuckets (computePolicerParams undef hz (cfg.cirKbps.toNat * bytesPerKbit) 0 hw))
    | .twoRateThreeColorRfc2698 | .twoRateThreeColorRfc4115 =>
      if cfg.cirKbps = 0 ∨ cfg.eirKbps = 0 ∨ cfg.eirKbps < cfg.cirKbps ∨ cfg.cbBytes = 0 ∨ cfg.ebBytes = 0 then none
      else some (fillBuckets (computePolicerParams undef hz (cfg.cirKbps.toNat * bytesPerKbit)
        (cfg.eirKbps.toNat * bytesPerKbit) hw))
    | _ => none

variable {undef : ℚ → BitVec 32} {hz : BitVec 64} {cfg : CfgParams} {hw p : Policer}

def CfgParams.Uninitialized (cfg : CfgParams) : Prop := cfg.cirKbps = 0 ∧ cfg.cbBytes = 0 ∧ cfg.ebBytes = 0

def wholeBytes (undef : ℚ → BitVec 32) (hz : BitVec 64) (kbps : BitVec 32) : Nat :=
  (toU32 undef (bytesPerPeriod hz (kbps.toNat * bytesPerKbit))).toNat

def CfgParams.largest (undef : ℚ → BitVec 32) (hz : BitVec 64) (cfg : CfgParams) : BitVec 32 :=
  maxU32 (maxU32 (maxU32 (capBurst cfg.cbBytes) (capBurst cfg.ebBytes))
    (toU32 undef (bytesPerPeriod hz (cfg.cirKbps.toNat * bytesPerKbit)) <<< maxRateShift))
    (toU32 undef (bytesPerPeriod hz (cfg.eirKbps.toNat * bytesPerKbit)) <<< maxRateShift)

theorem toNat_maxU32 (x y : BitVec 32) : (maxU32 x y).toNat = max x.toNat y.toNat := by
  rw [maxU32]
  split
  · next h => exact (Nat.max_eq_left (Nat.le_of_lt h)).symm
  · next h => exact (Nat.max_eq_right (Nat.le_of_not_lt h)).symm

theorem toNat_capBurst (bytes : BitVec 64) : (capBurst bytes).toNat = min bytes.toNat (2 ^ 32 - 1) := by
  rw [capBurst]
  split
  · next h =>
    have hlt : 0xFFFFFFFF < bytes.toNat := h
    exact (Nat.min_eq_right (Nat.le_of_lt hlt)).symm
  · next h =>
    have hle : ¬ 0xFFFFFFFF < bytes.toNat := h
    rw [BitVec.toNat_setWidth]
    omega

theorem toNat_wholeBytes_shift (kbps : BitVec 32) :
    (toU32 undef (bytesPerPeriod hz (kbps.toNat * bytesPerKbit)) <<< maxRateShift).toNat =
      wholeBytes undef hz kbps % 2 ^ 22 * 2 ^ 10 := by
  rw [BitVec.toNat_shiftLeft, Nat.shiftLeft_eq, wholeBytes]
  exact Nat.mul_mod_mul_right (2 ^ 10) _ (2 ^ 22)

theorem toNat_largest : (cfg.largest undef hz).toNat =
    max (max (max (min cfg.cbBytes.toNat (2 ^ 32 - 1)) (min cfg.ebBytes.toNat (2 ^ 32 - 1)))
      (wholeBytes undef hz cfg.cirKbps % 2 ^ 22 * 2 ^ 10)) (wholeBytes undef hz cfg.eirKbps % 2 ^ 22 * 2 ^ 10) := by
  rw [CfgParams.largest, toNat_maxU32, toNat_maxU32, toNat_maxU32, toNat_capBurst, toNat_capBurst,
    toNat_wholeBytes_shift, toNat_wholeBytes_shift]

structure Scaled (undef : ℚ → BitVec 32) (hz : BitVec 64) (cfg : CfgParams) (p : Policer) : Prop where
  burst : cfg.cbBytes ≠ 0 ∨ cfg.ebBytes ≠ 0
  scale : p.scale = (cfg.largest undef hz).clz
  current : p.currentLimit = capBurst cfg.cbBytes <<< p.scale
  extended : p.extendedLimit = capBurst cfg.ebBytes <<< p.scale

theorem scaled_computePolicerParams (hburst : cfg.cbBytes ≠ 0 ∨ cfg.ebBytes ≠ 0)
    (hcurrent : hw.currentLimit = capBurst cfg.cbBytes) (hextended : hw.extendedLimit = capBurst cfg.ebBytes)
    (hpir : pirRate = cfg.eirKbps.toNat * bytesPerKbit) (b e : BitVec 32) :
    Scaled undef hz cfg { computePolicerParams undef hz (cfg.cirKbps.toNat * bytesPerKbit) pirRate hw with
      currentBucket := b
      extendedBucket := e } := by
  have hscale : (computePolicerParams undef hz (cfg.cirKbps.toNat * bytesPerKbit) pirRate hw).scale =
      (cfg.largest undef hz).clz := by
    rw [hpir, CfgParams.largest, ← hcurrent, ← hextended]
    rfl
  refine ⟨hburst, hscale, ?_, ?_⟩
  · rw [← hcurrent]
    rfl
  · rw [← hextended]
    rfl

theorem x86PolComputeHwParams_scaled (h : x86PolComputeHwParams undef hz cfg hw = some p) (hcfg : ¬ cfg.Uninitialized) :
    Scaled undef hz cfg p := by
  have hfirst : ¬ (cfg.cirKbps = 0 ∧ cfg.cbBytes = 0 ∧ cfg.ebBytes = 0) := hcfg
  rw [x86PolComputeHwParams] at h
  dsimp only at h
  rw [if_neg hfirst] at h
  have hone (hrate : ¬ (cfg.cirKbps = 0 ∨ cfg.eirKbps ≠ 0 ∨ cfg.cbBytes = 0 ∧ cfg.ebBytes = 0)) :
      (cfg.cbBytes ≠ 0 ∨ cfg.ebBytes ≠ 0) ∧ 0 = cfg.eirKbps.toNat * bytesPerKbit := by
    rw [not_or, not_or, not_and_or, not_not] at hrate
    obtain ⟨-, heir, hburst⟩ := hrate
    exact ⟨hburst, by rw [heir]; rfl⟩
  have htwo (hrate : ¬ (cfg.cirKbps = 0 ∨ cfg.eirKbps = 0 ∨ cfg.eirKbps < cfg.cirKbps ∨ cfg.cbBytes = 0 ∨
      cfg.ebBytes = 0)) : cfg.cbBytes ≠ 0 := by
    rw [not_or, not_or, not_or, not_or] at hrate
    exact hrate.2.2.2.1
  cases hr : cfg.rfc with
  | oneRateTwoColor | oneRateThreeColorRfc2697 =>
    rw [hr] at h
    dsimp only at h
    split at h
    · cases h
    split at h
    · cases h
    next hrate =>
      obtain ⟨hburst, hpir⟩ := hone hrate
      obtain rfl := Option.some.inj h
      exact scaled_computePolicerParams hburst rfl rfl hpir _ _
  | twoRateThreeColorRfc2698 | twoRateThreeColorRfc4115 =>
    rw [hr] at h
    dsimp only at h
    split at h
    · cases h
    next hrate =>
      obtain rfl := Option.some.inj h
      exact scaled_computePolicerParams (.inl (htwo hrate)) rfl rfl rfl _ _
  | twoRateThreeColorRfcMef5cf1 | unknown =>
    rw [hr] at h
    cases h

theorem clz_bounds {x : BitVec 32} (hx : x ≠ 0) :
    ∃ s < 32, x.clz.toNat = s ∧ 2 ^ 31 ≤ x.toNat * 2 ^ s ∧ x.toNat * 2 ^ s < 2 ^ 32 := by
  have hlt : x.clz.toNat < 32 := BitVec.clz_lt_iff_ne_zero.mpr hx
  have hlow := BitVec.two_pow_sub_clz_le_toNat_of_ne_zero (by decide) hx
  have hhigh := BitVec.toNat_lt_two_pow_sub_clz (x := x)
  generalize x.clz.toNat = s at *
  have hpos : 0 < 2 ^ s := Nat.two_pow_pos s
  refine ⟨s, hlt, rfl, ?_, ?_⟩
  · calc 2 ^ 31 = 2 ^ (32 - 1 - s) * 2 ^ s := by rw [← Nat.pow_add, Nat.sub_add_cancel (Nat.le_of_lt_succ hlt)]
      _ ≤ x.toNat * 2 ^ s := Nat.mul_le_mul_right _ hlow
  · calc x.toNat * 2 ^ s < 2 ^ (32 - s) * 2 ^ s := Nat.mul_lt_mul_of_pos_right hhigh hpos
      _ = 2 ^ 32 := by rw [← Nat.pow_add, Nat.sub_add_cancel (Nat.le_of_lt hlt)]

/-- The lengths of all packets fit when the largest number has at least 16 bits. -/
theorem scale_fits_iff {m s : Nat} (hlow : 2 ^ 31 ≤ m * 2 ^ s) (hhigh : m * 2 ^ s < 2 ^ 32) :
    65535 * 2 ^ s < 2 ^ 32 ↔ 2 ^ 15 ≤ m := by
  apply Iff.intro
  · intro h
    apply Nat.le_of_not_lt
    intro hm
    have hs : s < 17 := by
      apply Nat.lt_of_not_le
      intro hs
      have hpow : 2 ^ 17 ≤ 2 ^ s := Nat.pow_le_pow_right (by decide) hs
      omega
    have hpow : 2 ^ s ≤ 2 ^ 16 := Nat.pow_le_pow_right (by decide) (Nat.le_of_lt_succ hs)
    have hmul : m * 2 ^ s ≤ (2 ^ 15 - 1) * 2 ^ 16 := Nat.mul_le_mul (Nat.le_pred_of_lt hm) hpow
    omega
  · intro hm
    apply Nat.lt_of_not_le
    intro h
    have hs : 17 ≤ s := by
      apply Nat.le_of_not_lt
      intro hs
      have hpow : 2 ^ s ≤ 2 ^ 16 := Nat.pow_le_pow_right (by decide) (Nat.le_of_lt_succ hs)
      omega
    have hpow : 2 ^ 17 ≤ 2 ^ s := Nat.pow_le_pow_right (by decide) hs
    have hmul : 2 ^ 15 * 2 ^ 17 ≤ m * 2 ^ s := Nat.mul_le_mul hm hpow
    omega

/-- The condition for the lengths to fit, on the configuration and the clock alone. -/
def CfgParams.Coarse (undef : ℚ → BitVec 32) (hz : BitVec 64) (cfg : CfgParams) : Prop :=
  2 ^ 15 ≤ cfg.cbBytes.toNat ∨ 2 ^ 15 ≤ cfg.ebBytes.toNat ∨
    2 ^ 5 ≤ wholeBytes undef hz cfg.cirKbps % 2 ^ 22 ∨ 2 ^ 5 ≤ wholeBytes undef hz cfg.eirKbps % 2 ^ 22

theorem largest_ge_iff : 2 ^ 15 ≤ (cfg.largest undef hz).toNat ↔ cfg.Coarse undef hz := by
  rw [toNat_largest, CfgParams.Coarse]
  omega

theorem tokens_le (bucket limit tokensPerPeriod : BitVec 32) (nPeriods : BitVec 64) :
    (tokens bucket limit tokensPerPeriod nPeriods).toNat ≤ limit.toNat := by
  have hlimit : (limit.setWidth 64).toNat = limit.toNat := BitVec.toNat_setWidth_of_le (by decide)
  rw [tokens]
  split
  · exact Nat.le_of_eq hlimit
  · next h => exact (Nat.le_of_not_lt h).trans_eq hlimit

theorem vnetPolicePacket_violate (k : Packet) (hc : p.currentLimit.toNat < (k.packetLength <<< p.scale).toNat)
    (he : p.extendedLimit.toNat < (k.packetLength <<< p.scale).toNat) : (vnetPolicePacket p k).2 = .violate := by
  have hlength : ((k.packetLength <<< p.scale).setWidth 64).toNat = (k.packetLength <<< p.scale).toNat :=
    BitVec.toNat_setWidth_of_le (by decide)
  have hshort (bucket limit rate : BitVec 32) (n : BitVec 64) (hl : limit.toNat < (k.packetLength <<< p.scale).toNat) :
      ¬ (k.packetLength <<< p.scale).setWidth 64 ≤ tokens bucket limit rate n := by
    rw [BitVec.le_def, hlength]
    exact Nat.not_le.mpr ((tokens_le bucket limit rate n).trans_lt hl)
  rw [vnetPolicePacket]
  dsimp only
  by_cases hs : p.singleRate ≠ 0
  · rw [if_pos hs, if_neg fun h => hshort _ _ _ _ hc h.2, if_neg fun h => hshort _ _ _ _ he h.2]
  · rw [if_neg hs, if_pos (.inr (BitVec.not_le.mp (hshort _ _ _ _ he)))]

theorem toNat_shift_scale {x : BitVec 32} (hx : x.toNat * 2 ^ p.scale.toNat < 2 ^ 32) :
    (x <<< p.scale).toNat = x.toNat * 2 ^ p.scale.toNat := by
  rw [BitVec.shiftLeft_eq', BitVec.toNat_shiftLeft, Nat.shiftLeft_eq, Nat.mod_eq_of_lt hx]

/-- The lengths of all packets can be scaled, and packets longer than both bursts are violations. -/
def ScalesPackets (cfg : CfgParams) (p : Policer) : Prop :=
  (∀ length : BitVec 32, length.toNat ≤ 65535 → length.toNat * 2 ^ p.scale.toNat < 2 ^ 32) ∧
  ∀ (currentBucket extendedBucket : BitVec 32) (lastUpdateTime : BitVec 64) (k : Packet),
    k.packetLength.toNat ≤ 65535 → cfg.cbBytes.toNat < k.packetLength.toNat → cfg.ebBytes.toNat < k.packetLength.toNat →
    (vnetPolicePacket { p with currentBucket, extendedBucket, lastUpdateTime } k).2 = .violate

theorem capBurst_shift_lt {bytes : BitVec 64} {length : BitVec 32} (h : bytes.toNat < length.toNat)
    (hfit : length.toNat * 2 ^ p.scale.toNat < 2 ^ 32) :
    (capBurst bytes <<< p.scale).toNat < (length <<< p.scale).toNat := by
  have hcap : (capBurst bytes).toNat < length.toNat := by
    rw [toNat_capBurst]
    exact (Nat.min_le_left _ _).trans_lt h
  have hlt := Nat.mul_lt_mul_of_pos_right hcap (Nat.two_pow_pos p.scale.toNat)
  rw [toNat_shift_scale hfit, toNat_shift_scale (hlt.trans hfit)]
  exact hlt

theorem scalesPackets_iff (hc : p.currentLimit = capBurst cfg.cbBytes <<< p.scale)
    (he : p.extendedLimit = capBurst cfg.ebBytes <<< p.scale) :
    ScalesPackets cfg p ↔ 65535 * 2 ^ p.scale.toNat < 2 ^ 32 := by
  apply Iff.intro
  · intro h
    exact h.1 65535 (Nat.le_refl _)
  · intro h
    have hfit (length : BitVec 32) (hlength : length.toNat ≤ 65535) : length.toNat * 2 ^ p.scale.toNat < 2 ^ 32 :=
      (Nat.mul_le_mul_right _ hlength).trans_lt h
    refine ⟨hfit, ?_⟩
    intro currentBucket extendedBucket lastUpdateTime k hlength hcb heb
    apply vnetPolicePacket_violate
    · dsimp only
      rw [hc]
      exact capBurst_shift_lt hcb (hfit _ hlength)
    · dsimp only
      rw [he]
      exact capBurst_shift_lt heb (hfit _ hlength)

theorem Scaled.largest_ne_zero (h : Scaled undef hz cfg p) : cfg.largest undef hz ≠ 0 := by
  intro h0
  have hnat : (cfg.largest undef hz).toNat = 0 := congrArg BitVec.toNat h0
  rw [toNat_largest] at hnat
  rcases h.burst with hb | hb
  · exact hb (BitVec.eq_of_toNat_eq (by omega : cfg.cbBytes.toNat = 0))
  · exact hb (BitVec.eq_of_toNat_eq (by omega : cfg.ebBytes.toNat = 0))

/-- The lengths of all packets fit exactly where a burst or a rate is large enough to keep the scale small, and in a
policer without rate and bursts. -/
theorem policer_scale (h : x86PolComputeHwParams undef hz cfg hw = some p) (hscale : hw.scale = 0) :
    ScalesPackets cfg p ↔ cfg.Uninitialized ∨ cfg.Coarse undef hz := by
  by_cases hcfg : cfg.Uninitialized
  · have hfirst : cfg.cirKbps = 0 ∧ cfg.cbBytes = 0 ∧ cfg.ebBytes = 0 := hcfg
    rw [x86PolComputeHwParams] at h
    dsimp only at h
    rw [if_pos hfirst] at h
    obtain rfl := Option.some.inj h
    apply iff_of_true _ (.inl hcfg)
    apply (scalesPackets_iff _ _).mpr
    · rw [hscale]
      decide
    · rw [hscale, hfirst.2.1]
      rfl
    · rw [hscale, hfirst.2.2]
      rfl
  · have hs := x86PolComputeHwParams_scaled h hcfg
    obtain ⟨s, -, hclz, hlow, hhigh⟩ := clz_bounds hs.largest_ne_zero
    rw [scalesPackets_iff hs.current hs.extended, hs.scale, hclz, scale_fits_iff hlow hhigh, largest_ge_iff]
    exact (or_iff_right hcfg).symm

def zeroPolicer : Policer := ⟨0, 0, 0, 0, 0, 0, 0, 0, 0, 0⟩

/-- Two megabits per second with a burst of 64 kilobytes. -/
def wideBurst : CfgParams := ⟨2000, 0, 65536, 0, .oneRateTwoColor⟩

theorem policer_scale_wideBurst : ∃ p, x86PolComputeHwParams (fun _ => 0) 1000000000 wideBurst zeroPolicer = some p ∧
    ScalesPackets wideBurst p :=
  ⟨_, rfl, (policer_scale rfl rfl).mpr (.inr (.inl (by decide)))⟩

def narrowBurst : CfgParams := ⟨8, 0, 1500, 0, .oneRateTwoColor⟩

theorem wholeBytes_narrowBurst :
    wholeBytes (fun _ => 0) 1000000000 8 = 0 ∧ wholeBytes (fun _ => 0) 1000000000 0 = 0 := by
  have hz : (1000000000 : BitVec 64).toNat = 1000000000 := rfl
  have hnone : bytesPerPeriod 1000000000 ((0 : BitVec 32).toNat * bytesPerKbit) = 0 := by
    rw [bytesPerPeriod, show (0 : BitVec 32).toNat * bytesPerKbit = 0 from rfl, Nat.cast_zero, zero_div]
  have hslow : bytesPerPeriod 1000000000 ((8 : BitVec 32).toNat * bytesPerKbit) < 1 := by
    rw [bytesPerPeriod, show (8 : BitVec 32).toNat * bytesPerKbit = 1000 from rfl, hz, policerTicksPerPeriod]
    norm_num
  apply And.intro
  · rw [wholeBytes, toU32, if_pos (hslow.trans (by norm_num)), Nat.floor_eq_zero.mpr hslow]
    rfl
  · rw [wholeBytes, hnone, toU32, if_pos (by norm_num), Nat.floor_zero]
    rfl

theorem scale_narrowBurst : (narrowBurst.largest (fun _ => 0) 1000000000).clz = 21 := by
  obtain ⟨hcir, heir⟩ := wholeBytes_narrowBurst
  have hlargest : narrowBurst.largest (fun _ => 0) 1000000000 = 1500 := by
    apply BitVec.eq_of_toNat_eq
    rw [toNat_largest]
    show max (max (max (min 1500 _) (min 0 _)) (wholeBytes _ _ 8 % 2 ^ 22 * 2 ^ 10))
        (wholeBytes _ _ 0 % 2 ^ 22 * 2 ^ 10) = _
    rw [hcir, heir]
    rfl
  rw [hlargest]
  decide

theorem vnetPolicePacket_zero (k : Packet) (hs : p.singleRate ≠ 0) (hc : p.colorAware = 0)
    (h0 : k.packetLength <<< p.scale = 0) : (vnetPolicePacket p k).2 = .conform := by
  have hle (t : BitVec 64) : (0 : BitVec 32).setWidth 64 ≤ t := Nat.zero_le _
  rw [vnetPolicePacket]
  dsimp only
  rw [if_pos hs, if_pos ⟨.inl hc, h0 ▸ hle _⟩]

/-- The scaled length of a packet of 2048 bytes is zero, so that it conforms to an empty bucket. -/
theorem policer_scale_fails : ∃ p, x86PolComputeHwParams (fun _ => 0) 1000000000 narrowBurst zeroPolicer = some p ∧
    ¬ 2048 * 2 ^ p.scale.toNat < 2 ^ 32 ∧ narrowBurst.cbBytes.toNat < 2048 ∧ narrowBurst.ebBytes.toNat < 2048 ∧
    (vnetPolicePacket { p with currentBucket := 0, extendedBucket := 0 } ⟨2048, .conform, 0⟩).2 = .conform := by
  have hrun := fun p (h : x86PolComputeHwParams (fun _ => 0) 1000000000 narrowBurst zeroPolicer = some p) =>
    (x86PolComputeHwParams_scaled h fun hcfg => absurd hcfg.1 (by decide)).scale.trans scale_narrowBurst
  refine ⟨_, rfl, ?_, by decide, by decide, ?_⟩
  · rw [hrun _ rfl]
    decide
  · apply vnetPolicePacket_zero
    · exact (by decide : (1 : BitVec 32) ≠ 0)
    · rfl
    · dsimp only
      rw [hrun _ rfl]
      decide

end Vpp.Qos
