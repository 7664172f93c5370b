import Mathlib.Data.BitVec
import Vpp.Lib.TokenBucket

namespace Vpp.Qos
open Vpp.Lib

inductive PolicerResult where
  | conform
  | exceed
  | violate
  deriving DecidableEq

/-- The hardware representation of a policer, without its lock and its actions. -/
structure Policer where
  singleRate : BitVec 32
  colorAware : BitVec 32
  scale : BitVec 32
  cirTokensPerPeriod : BitVec 32
  pirTokensPerPeriod : BitVec 32
  currentLimit : BitVec 32
  currentBucket : BitVec 32
  extendedLimit : BitVec 32
  extendedBucket : BitVec 32
  lastUpdateTime : BitVec 64

structure Packet where
  packetLength : BitVec 32
  packetColor : PolicerResult
  time : BitVec 64

/-- The tokens for this time period, in 64 bits and capped at the limit. -/
def tokens (bucket limit tokensPerPeriod : BitVec 32) (nPeriods : BitVec 64) : BitVec 64 :=
  let tokens := bucket.setWidth 64 + nPeriods * tokensPerPeriod.setWidth 64
  if limit.setWidth 64 < tokens then limit.setWidth 64 else tokens

def vnetPolicePacket (policer : Policer) (packet : Packet) : Policer × PolicerResult :=
  let packetLength := (packet.packetLength <<< policer.scale).setWidth 64
  let nPeriods := packet.time - policer.lastUpdateTime
  let policer := { policer with lastUpdateTime := packet.time }
  let currentTokens :=
    tokens policer.currentBucket policer.currentLimit policer.cirTokensPerPeriod nPeriods
  if policer.singleRate ≠ 0 then
    let extendedTokens :=
      tokens policer.extendedBucket policer.extendedLimit policer.cirTokensPerPeriod nPeriods
    if (policer.colorAware = 0 ∨ packet.packetColor = .conform) ∧ packetLength ≤ currentTokens then
      ({ policer with
          currentBucket := (currentTokens - packetLength).setWidth 32
          extendedBucket := (extendedTokens - packetLength).setWidth 32 }, .conform)
    else if (policer.colorAware = 0 ∨ packet.packetColor ≠ .violate) ∧
        packetLength ≤ extendedTokens then
      ({ policer with
          currentBucket := currentTokens.setWidth 32
          extendedBucket := (extendedTokens - packetLength).setWidth 32 }, .exceed)
    else
      ({ policer with
          currentBucket := currentTokens.setWidth 32
          extendedBucket := extendedTokens.setWidth 32 }, .violate)
  else
    let extendedTokens :=
      tokens policer.extendedBucket policer.extendedLimit policer.pirTokensPerPeriod nPeriods
    if (policer.colorAware ≠ 0 ∧ packet.packetColor = .violate) ∨ extendedTokens < packetLength then
      ({ policer with
          currentBucket := currentTokens.setWidth 32
          extendedBucket := extendedTokens.setWidth 32 }, .violate)
    else if (policer.colorAware ≠ 0 ∧ packet.packetColor = .exceed) ∨
        currentTokens < packetLength then
      ({ policer with
          currentBucket := currentTokens.setWidth 32
          extendedBucket := (extendedTokens - packetLength).setWidth 32 }, .exceed)
    else
      ({ policer with
          currentBucket := (currentTokens - packetLength).setWidth 32
          extendedBucket := (extendedTokens - packetLength).setWidth 32 }, .conform)

def Policer.extendedRate (p : Policer) : Nat :=
  if p.singleRate ≠ 0 then p.cirTokensPerPeriod.toNat else p.pirTokensPerPeriod.toNat

def Policer.periods (p : Policer) (k : Packet) : Nat := k.time.toNat - p.lastUpdateTime.toNat

def Policer.scaledLength (p : Policer) (k : Packet) : Nat :=
  k.packetLength.toNat * 2 ^ p.scale.toNat

def Policer.currentTokens (p : Policer) (k : Packet) : Nat :=
  min p.currentLimit.toNat (p.currentBucket.toNat + p.cirTokensPerPeriod.toNat * p.periods k)

def Policer.extendedTokens (p : Policer) (k : Packet) : Nat :=
  min p.extendedLimit.toNat (p.extendedBucket.toNat + p.extendedRate * p.periods k)

/-- Time does not go back, and neither the scaled length nor the tokens leave their width. -/
structure Policer.NoOverflow (p : Policer) (k : Packet) : Prop where
  time : p.lastUpdateTime.toNat ≤ k.time.toNat
  length : p.scaledLength k < 2 ^ 32
  current : p.currentBucket.toNat + p.cirTokensPerPeriod.toNat * p.periods k < 2 ^ 64
  extended : p.extendedBucket.toNat + p.extendedRate * p.periods k < 2 ^ 64

/-- A packet that a single-rate policer lets conform finds its tokens in the extended bucket too. -/
def Policer.Covered (p : Policer) (k : Packet) : Prop :=
  p.singleRate ≠ 0 → p.colorAware = 0 ∨ k.packetColor = .conform →
    p.scaledLength k ≤ p.currentTokens k → p.scaledLength k ≤ p.extendedTokens k

theorem toNat_tokens (h : bucket.toNat + rate.toNat * n.toNat < 2 ^ 64) :
    (tokens bucket limit rate n).toNat = min limit.toNat (bucket.toNat + rate.toNat * n.toNat) := by
  have hsum : (bucket.setWidth 64 + n * rate.setWidth 64).toNat =
      bucket.toNat + rate.toNat * n.toNat := by
    have hmul : n.toNat * rate.toNat = rate.toNat * n.toNat := Nat.mul_comm _ _
    rw [BitVec.toNat_add, BitVec.toNat_mul, BitVec.toNat_setWidth, BitVec.toNat_setWidth,
      Nat.mod_eq_of_lt (show bucket.toNat < 2 ^ 64 by omega),
      Nat.mod_eq_of_lt (show rate.toNat < 2 ^ 64 by omega), hmul,
      Nat.mod_eq_of_lt (show rate.toNat * n.toNat < 2 ^ 64 by omega), Nat.mod_eq_of_lt h]
  have hlim : (limit.setWidth 64).toNat = limit.toNat := by
    rw [BitVec.toNat_setWidth, Nat.mod_eq_of_lt (by omega)]
  simp only [tokens, BitVec.lt_def, hsum, hlim]
  split
  · rw [hlim]
    omega
  · rw [hsum]
    omega

theorem toNat_spend {a b : BitVec 64} (hb : b.toNat ≤ a.toNat) (ha : a.toNat < 2 ^ 32) :
    ((a - b).setWidth 32).toNat = a.toNat - b.toNat := by
  rw [BitVec.toNat_setWidth, BitVec.toNat_sub_of_le (BitVec.le_def.mpr hb),
    Nat.mod_eq_of_lt (by omega)]

theorem toNat_keep {a : BitVec 64} (ha : a.toNat < 2 ^ 32) : (a.setWidth 32).toNat = a.toNat := by
  rw [BitVec.toNat_setWidth, Nat.mod_eq_of_lt ha]

def PolicerResult.currentSpent (r : PolicerResult) (length : Nat) : Nat :=
  if r = .conform then length else 0

def PolicerResult.extendedSpent (r : PolicerResult) (length : Nat) : Nat :=
  if r = .violate then 0 else length

structure Policer.Spends (p : Policer) (k : Packet) (p' : Policer) (r : PolicerResult) : Prop where
  config : p' = { p with
    currentBucket := p'.currentBucket, extendedBucket := p'.extendedBucket, lastUpdateTime := k.time }
  current : p'.currentBucket.toNat + r.currentSpent (p.scaledLength k) = p.currentTokens k
  extended : p'.extendedBucket.toNat + r.extendedSpent (p.scaledLength k) = p.extendedTokens k

theorem vnetPolicePacket_spends {p : Policer} {k : Packet} (h : p.NoOverflow k) (hc : p.Covered k) :
    p.Spends k (vnetPolicePacket p k).1 (vnetPolicePacket p k).2 := by
  have hperiods : (k.time - p.lastUpdateTime).toNat = p.periods k :=
    BitVec.toNat_sub_of_le (BitVec.le_def.mpr h.time)
  have hlen : ((k.packetLength <<< p.scale).setWidth 64).toNat = p.scaledLength k := by
    have hshift : (k.packetLength <<< p.scale).toNat = p.scaledLength k := by
      rw [BitVec.shiftLeft_eq', BitVec.toNat_shiftLeft, Nat.shiftLeft_eq]
      exact Nat.mod_eq_of_lt h.length
    rw [BitVec.toNat_setWidth, hshift, Nat.mod_eq_of_lt (Nat.lt_trans h.length (by decide))]
  have hcur : (tokens p.currentBucket p.currentLimit p.cirTokensPerPeriod
      (k.time - p.lastUpdateTime)).toNat = p.currentTokens k := by
    rw [toNat_tokens (by rw [hperiods]; exact h.current), hperiods]
    rfl
  have hcurLt : p.currentTokens k < 2 ^ 32 :=
    Nat.lt_of_le_of_lt (Nat.min_le_left ..) p.currentLimit.isLt
  have hextLt : p.extendedTokens k < 2 ^ 32 :=
    Nat.lt_of_le_of_lt (Nat.min_le_left ..) p.extendedLimit.isLt
  have hrate : (p.singleRate ≠ 0 → p.extendedRate = p.cirTokensPerPeriod.toNat) ∧
      (¬ p.singleRate ≠ 0 → p.extendedRate = p.pirTokensPerPeriod.toNat) :=
    ⟨fun hs => if_pos hs, fun hs => if_neg hs⟩
  have hext (rate : BitVec 32) (hr : p.extendedRate = rate.toNat) :
      (tokens p.extendedBucket p.extendedLimit rate (k.time - p.lastUpdateTime)).toNat =
        p.extendedTokens k := by
    have hno := h.extended
    rw [hr] at hno
    rw [toNat_tokens (by rw [hperiods]; exact hno), hperiods, Policer.extendedTokens, hr]
  have hspend {a b : BitVec 64} {x y : Nat} (ha : a.toNat = x) (hb : b.toNat = y) (hle : y ≤ x)
      (hlt : x < 2 ^ 32) : ((a - b).setWidth 32).toNat + y = x := by
    rw [toNat_spend (by omega) (by omega)]
    omega
  have hkeep {a : BitVec 64} {x : Nat} (ha : a.toNat = x) (hlt : x < 2 ^ 32) :
      (a.setWidth 32).toNat + 0 = x := by
    rw [toNat_keep (by omega), ha]
    rfl
  by_cases hs : p.singleRate ≠ 0
  · have hE := hext _ (hrate.1 hs)
    simp only [vnetPolicePacket, if_pos hs, BitVec.le_def, hcur, hlen, hE]
    split
    · next hconf =>
      exact ⟨rfl, hspend hcur hlen hconf.2 hcurLt, hspend hE hlen (hc hs hconf.1 hconf.2) hextLt⟩
    · split
      · next hex => exact ⟨rfl, hkeep hcur hcurLt, hspend hE hlen hex.2 hextLt⟩
      · exact ⟨rfl, hkeep hcur hcurLt, hkeep hE hextLt⟩
  · have hE := hext _ (hrate.2 hs)
    simp only [vnetPolicePacket, if_neg hs, BitVec.lt_def, hcur, hlen, hE]
    split
    · exact ⟨rfl, hkeep hcur hcurLt, hkeep hE hextLt⟩
    · next hviol =>
      rw [not_or, Nat.not_lt] at hviol
      split
      · exact ⟨rfl, hkeep hcur hcurLt, hspend hE hlen hviol.2 hextLt⟩
      · next hex =>
        rw [not_or, Nat.not_lt] at hex
        exact ⟨rfl, hspend hcur hlen hex.2 hcurLt, hspend hE hlen hviol.2 hextLt⟩

def Policer.run (p : Policer) (ks : List Packet) : Policer :=
  ks.foldl (fun p k => (vnetPolicePacket p k).1) p

def Policer.RunNoOverflow : Policer → List Packet → Prop
  | _, [] => True
  | p, k :: ks => p.NoOverflow k ∧ (vnetPolicePacket p k).1.RunNoOverflow ks

def Policer.RunCovered : Policer → List Packet → Prop
  | _, [] => True
  | p, k :: ks => p.Covered k ∧ (vnetPolicePacket p k).1.RunCovered ks

def Policer.trace (spent : PolicerResult → Nat → Nat) : Policer → List Packet → List (Nat × Nat)
  | _, [] => []
  | p, k :: ks =>
    (p.periods k, spent (vnetPolicePacket p k).2 (p.scaledLength k)) ::
      (vnetPolicePacket p k).1.trace spent ks

def Policer.conformBytes (p : Policer) (ks : List Packet) : Nat :=
  spentIn (p.trace PolicerResult.currentSpent ks)

def Policer.passedBytes (p : Policer) (ks : List Packet) : Nat :=
  spentIn (p.trace PolicerResult.extendedSpent ks)

def elapsed : List Packet → Nat
  | [] => 0
  | k :: ks => (ks.getLastD k).time.toNat - k.time.toNat

/-- No bucket is ever above its limit, and no contiguous part of the packets gets more than a burst and
what its rate gives. -/
structure Policer.RateBound (p : Policer) (ks : List Packet) : Prop where
  bucket : ∀ pre post, ks = pre ++ post →
    (p.run pre).currentBucket ≤ p.currentLimit ∧ (p.run pre).extendedBucket ≤ p.extendedLimit
  conform : ∀ pre part post, ks = pre ++ part ++ post →
    (p.run pre).conformBytes part ≤ p.currentLimit.toNat + p.cirTokensPerPeriod.toNat * elapsed part
  passed : ∀ pre part post, ks = pre ++ part ++ post →
    (p.run pre).passedBytes part ≤
      max p.currentLimit.toNat p.extendedLimit.toNat + p.extendedRate * elapsed part

variable {p p' : Policer} {ks : List Packet}

structure Policer.SameConfig (p p' : Policer) : Prop where
  currentLimit : p'.currentLimit = p.currentLimit
  extendedLimit : p'.extendedLimit = p.extendedLimit
  cir : p'.cirTokensPerPeriod = p.cirTokensPerPeriod
  extendedRate : p'.extendedRate = p.extendedRate

theorem Policer.SameConfig.trans (h : p.SameConfig p') (h' : p'.SameConfig p'') : p.SameConfig p'' :=
  ⟨h'.currentLimit.trans h.currentLimit, h'.extendedLimit.trans h.extendedLimit, h'.cir.trans h.cir,
    h'.extendedRate.trans h.extendedRate⟩

theorem Policer.Spends.sameConfig (h : p.Spends k p' r) : p.SameConfig p' := by
  rw [h.config]
  exact ⟨rfl, rfl, rfl, rfl⟩

/-- Along a run, each bucket is a token bucket with its own limit and rate. -/
structure Policer.Buckets (p : Policer) (ks : List Packet) : Prop where
  config : p.SameConfig (p.run ks)
  current : Bucket p.currentLimit.toNat p.cirTokensPerPeriod.toNat p.currentBucket.toNat
    (p.trace PolicerResult.currentSpent ks) (p.run ks).currentBucket.toNat
  extended : Bucket p.extendedLimit.toNat p.extendedRate p.extendedBucket.toNat
    (p.trace PolicerResult.extendedSpent ks) (p.run ks).extendedBucket.toNat

theorem Policer.run_buckets (hno : p.RunNoOverflow ks) (hc : p.RunCovered ks) : p.Buckets ks := by
  induction ks generalizing p with
  | nil => exact ⟨⟨rfl, rfl, rfl, rfl⟩, .nil, .nil⟩
  | cons k ks ih =>
    obtain ⟨hno, hnos⟩ := hno
    obtain ⟨hc, hcs⟩ := hc
    have hs := vnetPolicePacket_spends hno hc
    have hsame := hs.sameConfig
    obtain ⟨hconfig, hcur, hext⟩ := ih hnos hcs
    rw [hsame.currentLimit, hsame.cir] at hcur
    rw [hsame.extendedLimit, hsame.extendedRate] at hext
    refine ⟨hsame.trans hconfig, .cons ?_ ?_ hcur, .cons ?_ ?_ hext⟩
    · rw [hs.current]
      exact Nat.min_le_left ..
    · rw [hs.current]
      exact Nat.min_le_right ..
    · rw [hs.extended]
      exact Nat.min_le_left ..
    · rw [hs.extended]
      exact Nat.min_le_right ..

theorem Policer.RunNoOverflow.append (h : p.RunNoOverflow (ks ++ ks')) :
    p.RunNoOverflow ks ∧ (p.run ks).RunNoOverflow ks' := by
  induction ks generalizing p with
  | nil => exact ⟨trivial, h⟩
  | cons k ks ih =>
    obtain ⟨h₁, h₂⟩ := ih h.2
    exact ⟨⟨h.1, h₁⟩, h₂⟩

theorem Policer.RunCovered.append (h : p.RunCovered (ks ++ ks')) :
    p.RunCovered ks ∧ (p.run ks).RunCovered ks' := by
  induction ks generalizing p with
  | nil => exact ⟨trivial, h⟩
  | cons k ks ih =>
    obtain ⟨h₁, h₂⟩ := ih h.2
    exact ⟨⟨h.1, h₁⟩, h₂⟩

theorem lastUpdateTime_vnetPolicePacket (p : Policer) (k : Packet) :
    (vnetPolicePacket p k).1.lastUpdateTime = k.time := by
  simp only [vnetPolicePacket]
  split
  · split
    · rfl
    · split <;> rfl
  · split
    · rfl
    · split <;> rfl

theorem Policer.RunNoOverflow.periodsIn_trace (h : p.RunNoOverflow ks) (hk : p.lastUpdateTime = k.time)
    (spent : PolicerResult → Nat → Nat) :
    periodsIn (p.trace spent ks) = (ks.getLastD k).time.toNat - k.time.toNat ∧
      k.time.toNat ≤ (ks.getLastD k).time.toNat := by
  induction ks generalizing p k with
  | nil => exact ⟨(Nat.sub_self _).symm, Nat.le_refl _⟩
  | cons k' ks ih =>
    obtain ⟨hperiods, hle⟩ := ih h.2 (lastUpdateTime_vnetPolicePacket p k')
    have htime := h.1.time
    rw [hk] at htime
    simp only [periodsIn] at hperiods
    simp only [periodsIn, Policer.trace, List.map_cons, List.sum_cons, hperiods, Policer.periods, hk,
      List.getLastD_cons]
    omega

theorem Policer.RunNoOverflow.spentIn_le (hno : p.RunNoOverflow ks)
    (h : Bucket limit rate level (p.trace spent ks) last) : spentIn (p.trace spent ks) ≤ limit + rate * elapsed ks := by
  cases ks with
  | nil => exact Nat.zero_le _
  | cons k ks =>
    have hle := h.burst_le
    have hperiods := (hno.2.periodsIn_trace (lastUpdateTime_vnetPolicePacket p k) spent).1
    rw [hperiods] at hle
    exact Nat.le_trans (Nat.le_add_left ..) hle

/-- From full buckets, the rate bound holds on every run in which each packet that a single-rate
policer lets conform is covered by the extended bucket. -/
theorem policer_rate_bound (p : Policer) (ks : List Packet)
    (hfull : p.currentBucket = p.currentLimit ∧ p.extendedBucket = p.extendedLimit)
    (hno : p.RunNoOverflow ks) (hc : p.RunCovered ks) : p.RateBound ks := by
  have hpart (pre part post : List Packet) (he : ks = pre ++ part ++ post) :
      p.SameConfig (p.run pre) ∧ (p.run pre).RunNoOverflow part ∧ (p.run pre).Buckets part := by
    subst he
    obtain ⟨hno, _⟩ := hno.append
    obtain ⟨hnoPre, hnoPart⟩ := hno.append
    obtain ⟨hc, _⟩ := hc.append
    obtain ⟨hcPre, hcPart⟩ := hc.append
    exact ⟨(p.run_buckets hnoPre hcPre).config, hnoPart, (p.run pre).run_buckets hnoPart hcPart⟩
  constructor
  case bucket =>
    intro pre post he
    subst he
    have hb := p.run_buckets hno.append.1 hc.append.1
    refine ⟨hb.current.last_le ?_, hb.extended.last_le ?_⟩
    · rw [hfull.1]
    · rw [hfull.2]
  case conform =>
    intro pre part post he
    obtain ⟨hsame, hno, hb⟩ := hpart pre part post he
    have hle := hno.spentIn_le hb.current
    rwa [hsame.currentLimit, hsame.cir] at hle
  case passed =>
    intro pre part post he
    obtain ⟨hsame, hno, hb⟩ := hpart pre part post he
    have hle := hno.spentIn_le hb.extended
    rw [hsame.extendedLimit, hsame.extendedRate] at hle
    exact Nat.le_trans hle (Nat.add_le_add_right (Nat.le_max_right ..) _)

/-- A single-rate policer with a burst of 100 and an excess burst of 150. -/
def burstPolicer : Policer := ⟨1, 0, 0, 1, 0, 100, 100, 150, 150, 0⟩

theorem policer_rate_bound_burst : burstPolicer.RateBound
    [⟨90, .conform, 5⟩, ⟨60, .conform, 6⟩, ⟨30, .conform, 40⟩] := by
  apply policer_rate_bound
  · decide
  · refine ⟨⟨?_, ?_, ?_, ?_⟩, ⟨?_, ?_, ?_, ?_⟩, ⟨?_, ?_, ?_, ?_⟩, trivial⟩ <;> decide
  · refine ⟨?_, ?_, ?_, trivial⟩ <;> (unfold Policer.Covered; decide)

/-- With an excess burst below the burst, a conforming packet makes the extended bucket wrap, and the
next call fills it again. -/
theorem policer_extended_bucket_wraps :
    let p : Policer := ⟨1, 0, 0, 1, 0, 100, 100, 50, 50, 0⟩
    let ks : List Packet := [⟨60, .conform, 0⟩, ⟨50, .conform, 0⟩]
    p.RunNoOverflow ks ∧ (p.run [⟨60, .conform, 0⟩]).extendedBucket = 0xfffffff6 ∧
      p.passedBytes ks = 110 ∧ ¬ p.RateBound ks := by
  refine ⟨⟨⟨?_, ?_, ?_, ?_⟩, ⟨?_, ?_, ?_, ?_⟩, trivial⟩, ?_, ?_, ?_⟩
  case refine_11 =>
    intro h
    have hp := h.passed [] [⟨60, .conform, 0⟩, ⟨50, .conform, 0⟩] [] rfl
    revert hp
    decide
  all_goals decide

end Vpp.Qos
