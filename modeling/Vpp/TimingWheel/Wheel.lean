import Mathlib.Data.List.Perm.Basic
import Vpp.Lib.WheelLevels

namespace Vpp.TimingWheel
open Vpp.Lib

/-- An element of a bin, with its time as a 32-bit word after the wheel's base. -/
structure Elt where
  cpuTimeRelativeToBase : Nat
  userData : Nat
  deriving DecidableEq

structure OverflowElt where
  cpuTime : Nat
  userData : Nat
  deriving DecidableEq

structure Filed where
  level : Nat
  bin : Nat
  elt : Elt
  deriving DecidableEq

/-- The vectors of the bins are kept in one list, each in its order. A bit of an occupancy bitmap is set
just when the vector of its bin is not empty, and is not kept. -/
structure Wheel where
  log2ClocksPerBin : Nat
  log2BinsPerWheel : Nat
  nWheelEltTimeBits : Nat
  nLevels : Nat
  elts : List Filed
  overflowPool : List OverflowElt
  deletedUserDataHash : List Nat
  currentTimeIndex : Nat
  cpuTimeBase : Nat
  timeIndexNextCpuTimeBaseUpdate : Nat
  cachedMinCpuTimeOnWheel : Nat

def timingWheelInit (log2ClocksPerBin log2BinsPerWheel nWheelEltTimeBits currentCpuTime : Nat) : Wheel :=
  let currentTimeIndex := currentCpuTime >>> log2ClocksPerBin
  { log2ClocksPerBin, log2BinsPerWheel, nWheelEltTimeBits, nLevels := 0, elts := [], overflowPool := []
    deletedUserDataHash := [], currentTimeIndex, cpuTimeBase := currentCpuTime
    timeIndexNextCpuTimeBaseUpdate := currentTimeIndex + 2 ^ (nWheelEltTimeBits - log2ClocksPerBin)
    cachedMinCpuTimeOnWheel := 0 }

namespace Wheel

def binsPerWheel (w : Wheel) : Nat := 2 ^ w.log2BinsPerWheel

/-- The loop over the levels, which at each one subtracts the reach of the level before. -/
def levelLoop (log2BinsPerWheel : Nat) : (fuel levelIndex rtime : Nat) → Nat × Nat
  | 0, levelIndex, rtime => (levelIndex, rtime)
  | fuel + 1, levelIndex, rtime =>
    if rtime >>> log2BinsPerWheel ≠ 0 then
      levelLoop log2BinsPerWheel fuel (levelIndex + 1) (rtime >>> log2BinsPerWheel - 1)
    else (levelIndex, rtime)

/-- The level and the offset in it. Time does not go back. -/
def getLevelAndRelativeTime (w : Wheel) (cpuTime : Nat) : Nat × Nat :=
  let dt := cpuTime >>> w.log2ClocksPerBin - w.currentTimeIndex
  levelLoop w.log2BinsPerWheel dt 0 dt

def currentTimeWheelIndex (w : Wheel) (levelIndex : Nat) : Nat :=
  (w.currentTimeIndex >>> (levelIndex * w.log2BinsPerWheel)) % w.binsPerWheel

def rtimeToWheelIndex (w : Wheel) (levelIndex rtime : Nat) : Nat :=
  (w.currentTimeWheelIndex levelIndex + rtime) % w.binsPerWheel

def inBin (levelIndex wheelIndex : Nat) (f : Filed) : Bool := f.level = levelIndex ∧ f.bin = wheelIndex

def bin (w : Wheel) (levelIndex wheelIndex : Nat) : List Elt :=
  (w.elts.filter (inBin levelIndex wheelIndex)).map Filed.elt

def clearBin (w : Wheel) (levelIndex wheelIndex : Nat) : Wheel :=
  { w with elts := w.elts.filter fun f => !inBin levelIndex wheelIndex f }

def insertHelper (w : Wheel) (levelIndex rtime : Nat) (e : Elt) : Wheel :=
  { w with
    nLevels := max w.nLevels (levelIndex + 1)
    elts := w.elts ++ [⟨levelIndex, w.rtimeToWheelIndex levelIndex rtime, e⟩] }

/-- A time before the base is a difference of almost 2^64, too far in the future for 32 bits like one that
lies 2^32 clocks or more after it. -/
def fits (w : Wheel) (cpuTime : Nat) : Prop := w.cpuTimeBase ≤ cpuTime ∧ cpuTime - w.cpuTimeBase < 2 ^ 32

instance (w : Wheel) (cpuTime : Nat) : Decidable (w.fits cpuTime) := inferInstanceAs (Decidable (_ ∧ _))

def timingWheelInsertHelper (w : Wheel) (insertCpuTime userData : Nat) : Wheel :=
  let (levelIndex, rtime) := w.getLevelAndRelativeTime insertCpuTime
  if w.fits insertCpuTime then
    let w := w.insertHelper levelIndex rtime ⟨insertCpuTime - w.cpuTimeBase, userData⟩
    { w with cachedMinCpuTimeOnWheel :=
        if insertCpuTime < w.cachedMinCpuTimeOnWheel then insertCpuTime else w.cachedMinCpuTimeOnWheel }
  else { w with overflowPool := w.overflowPool ++ [⟨insertCpuTime, userData⟩] }

def eltIsDeleted (w : Wheel) (userData : Nat) : Bool := userData ∈ w.deletedUserDataHash

/-- Elements that were deleted are only removed when their user data is inserted again. -/
def removeDeleted (w : Wheel) (userData : Nat) : Wheel :=
  if w.eltIsDeleted userData then
    { w with
      elts := w.elts.filter fun f => f.elt.userData ≠ userData
      overflowPool := w.overflowPool.filter fun oe => oe.userData ≠ userData
      deletedUserDataHash := w.deletedUserDataHash.filter fun u => u ≠ userData }
  else w

def timingWheelInsert (w : Wheel) (insertCpuTime userData : Nat) : Wheel :=
  (w.removeDeleted userData).timingWheelInsertHelper insertCpuTime userData

def timingWheelDelete (w : Wheel) (userData : Nat) : Wheel :=
  { w with deletedUserDataHash := if w.eltIsDeleted userData then w.deletedUserDataHash
                                  else userData :: w.deletedUserDataHash }

def eltCpuTime (w : Wheel) (e : Elt) : Nat := w.cpuTimeBase + e.cpuTimeRelativeToBase

def eltTimeIndex (w : Wheel) (e : Elt) : Nat := w.eltCpuTime e >>> w.log2ClocksPerBin

structure Moving where
  wheel : Wheel
  unexpiredEltsPendingInsert : List Elt
  expiredUserData : List Nat

namespace Moving

/-- The user data of elements that are not deleted is returned. -/
def expire (s : Moving) (es : List Elt) : Moving :=
  { s with expiredUserData := s.expiredUserData ++ (es.map Elt.userData).filter fun u => !s.wheel.eltIsDeleted u }

def expireBin (levelIndex : Nat) (s : Moving) (wheelIndex : Nat) : Moving :=
  { s.expire (s.wheel.bin levelIndex wheelIndex) with wheel := s.wheel.clearBin levelIndex wheelIndex }

def refillBin (advanceTimeIndex levelIndex : Nat) (s : Moving) (wheelIndex : Nat) : Moving :=
  let es := s.wheel.bin levelIndex wheelIndex
  { s.expire (es.filter fun e => s.wheel.eltTimeIndex e ≤ advanceTimeIndex) with
    wheel := s.wheel.clearBin levelIndex wheelIndex
    unexpiredEltsPendingInsert := s.unexpiredEltsPendingInsert ++
      es.filter fun e => ¬ s.wheel.eltTimeIndex e ≤ advanceTimeIndex }

def refillLevel (s : Moving) (levelIndex advanceTimeIndex fromWheelIndex toWheelIndex : Nat) : Moving :=
  (turnBins s.wheel.binsPerWheel s.wheel.binsPerWheel fromWheelIndex toWheelIndex).foldl
    (refillBin advanceTimeIndex (levelIndex + 1)) s

/-- A level is refilled from the next one when the two times differ there in their last digit. -/
def refillLevels (advanceTimeIndex : Nat) : (fuel : Nat) → Moving → (levelIndex currentTi advanceTi : Nat) → Moving
  | 0, s, _, _, _ => s
  | fuel + 1, s, levelIndex, currentTi, advanceTi =>
    if currentTi ≠ advanceTi then
      let c := currentTi % s.wheel.binsPerWheel
      let a := advanceTi % s.wheel.binsPerWheel
      refillLevels advanceTimeIndex fuel
        (if c ≠ a then s.refillLevel levelIndex advanceTimeIndex c a else s) (levelIndex + 1)
        (currentTi >>> s.wheel.log2BinsPerWheel) (advanceTi >>> s.wheel.log2BinsPerWheel)
    else s

def expireLevel (s : Moving) (levelIndex : Nat) : Moving :=
  (List.range s.wheel.binsPerWheel).foldl (expireBin levelIndex) s

def expirePassed (s : Moving) (advanceLevelIndex advanceWheelIndex : Nat) : Moving :=
  let s := (List.range (min advanceLevelIndex s.wheel.nLevels)).foldl expireLevel s
  if advanceLevelIndex < s.wheel.nLevels then
    (turnBins s.wheel.binsPerWheel s.wheel.binsPerWheel (s.wheel.currentTimeWheelIndex advanceLevelIndex)
      advanceWheelIndex).foldl (expireBin advanceLevelIndex) s
  else s

def insertPending (s : Moving) : Moving :=
  { s with
    wheel := s.unexpiredEltsPendingInsert.foldl
      (fun w e => w.timingWheelInsertHelper (w.eltCpuTime e) e.userData) s.wheel
    unexpiredEltsPendingInsert := [] }

/-- An overflow element that fits now goes on the wheel or expires; the others stay. -/
def fitOverflow (s : Moving) (oe : OverflowElt) : Moving :=
  if s.wheel.fits oe.cpuTime then
    if oe.cpuTime >>> s.wheel.log2ClocksPerBin ≤ s.wheel.currentTimeIndex then
      { s with expiredUserData := s.expiredUserData ++ if s.wheel.eltIsDeleted oe.userData then [] else [oe.userData] }
    else { s with wheel := s.wheel.timingWheelInsertHelper oe.cpuTime oe.userData }
  else { s with wheel := { s.wheel with overflowPool := s.wheel.overflowPool ++ [oe] } }

def rebaseElt (delta : Nat) (f : Filed) : Filed :=
  { f with elt := ⟨(f.elt.cpuTimeRelativeToBase + 2 ^ 32 - delta) % 2 ^ 32, f.elt.userData⟩ }

def rebase (w : Wheel) : Wheel :=
  let delta := 2 ^ w.nWheelEltTimeBits
  { w with
    cpuTimeBase := w.cpuTimeBase + delta
    timeIndexNextCpuTimeBaseUpdate := w.timeIndexNextCpuTimeBaseUpdate + delta >>> w.log2ClocksPerBin
    elts := w.elts.map (rebaseElt delta) }

def advanceCpuTimeBase (s : Moving) : Moving :=
  s.wheel.overflowPool.foldl fitOverflow { s with wheel := { rebase s.wheel with overflowPool := [] } }

def advanceBases : (fuel : Nat) → Moving → Moving
  | 0, s => s
  | fuel + 1, s =>
    if s.wheel.currentTimeIndex ≥ s.wheel.timeIndexNextCpuTimeBaseUpdate then advanceBases fuel s.advanceCpuTimeBase
    else s

end Moving

/-- The first part of an advance: the wheel at the new time and what has expired. -/
def move (w : Wheel) (advanceCpuTime : Nat) : Wheel × List Nat :=
  let advanceTimeIndex := advanceCpuTime >>> w.log2ClocksPerBin
  let s := Moving.refillLevels advanceTimeIndex (advanceTimeIndex + 1) ⟨w, [], []⟩ 0
    (w.currentTimeIndex >>> w.log2BinsPerWheel) (advanceTimeIndex >>> w.log2BinsPerWheel)
  let (advanceLevelIndex, advanceRtime) := w.getLevelAndRelativeTime advanceCpuTime
  let s := s.expirePassed advanceLevelIndex (w.rtimeToWheelIndex advanceLevelIndex advanceRtime)
  let s := Moving.insertPending { s with wheel := { s.wheel with currentTimeIndex := advanceTimeIndex } }
  let s := Moving.advanceBases (advanceTimeIndex + 1) s
  (s.wheel, s.expiredUserData)

def minDt (es : List Elt) (dt : Nat) : Nat := es.foldl (fun dt e => min dt e.cpuTimeRelativeToBase) dt

def firstOccupied (w : Wheel) (levelIndex : Nat) : Option Nat :=
  (List.range w.binsPerWheel).find? fun p => w.bin levelIndex (w.rtimeToWheelIndex levelIndex p) ≠ []

/-- The least time in the first occupied bin of a level and, unless that is the current bin, in the
current bin of the next level. -/
def levelMin (w : Wheel) (levelIndex : Nat) : Option Nat :=
  (w.firstOccupied levelIndex).map fun p =>
    let dt := minDt (w.bin levelIndex (w.rtimeToWheelIndex levelIndex p)) (2 ^ 32 - 1)
    if p ≠ 0 ∧ levelIndex + 1 < w.nLevels then
      minDt (w.bin (levelIndex + 1) (w.currentTimeWheelIndex (levelIndex + 1))) dt
    else dt

def timingWheelNextExpiringEltTime (w : Wheel) : Nat :=
  match (List.range w.nLevels).findSome? w.levelMin with
  | some dt => w.cpuTimeBase + dt
  | none => w.overflowPool.foldl (fun t oe => min t oe.cpuTime) (2 ^ 64 - 1)

/-- The second part: the next time is looked for if something has expired or none is known. -/
def nextExpiry (w : Wheel) (expired : List Nat) : Nat :=
  if expired = [] ∧ w.cachedMinCpuTimeOnWheel ≠ 0 then w.cachedMinCpuTimeOnWheel
  else w.timingWheelNextExpiringEltTime

def timingWheelAdvance (w : Wheel) (advanceCpuTime : Nat) : Wheel × List Nat × Nat :=
  let (w, expired) := w.move advanceCpuTime
  let minT := w.nextExpiry expired
  ({ w with cachedMinCpuTimeOnWheel := minT }, expired, minT)

end Wheel

end Vpp.TimingWheel
