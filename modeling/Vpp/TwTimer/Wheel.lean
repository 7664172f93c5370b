import Mathlib.Algebra.Order.Ring.Rat
import Mathlib.Data.BitVec
import Vpp.Lib.Pool

namespace Vpp.TwTimer
open Vpp.Lib

def twSlotsPerRing : Nat := 512

def twRingShift : Nat := 9

def twRingMask : Nat := twSlotsPerRing - 1

def log2TwTimersPerObject : Nat := 4

/-- A 32-bit `~0`. It is stored in links that are not in use and never read. -/
def noIndex : Nat := 2 ^ 32 - 1

structure TwTimer where
  next : Nat
  prev : Nat
  fastRingOffset : Nat
  userHandle : BitVec 32
  deriving DecidableEq, Repr, Inhabited

inductive TwRing where
  | fast
  | slow
  deriving DecidableEq, Repr

/-- A two-ring wheel. Times are exact and `w` gives the list head of each slot. `ticks` is what `currentTick` would be
with no end of its 32 bits: the client's timers and reports are labelled with it. -/
structure Wheel where
  timers : Pool TwTimer
  nextRunTime : ℚ
  lastRunTime : ℚ
  ticksPerSecond : ℚ
  timerInterval : ℚ
  currentTick : BitVec 32
  ticks : Nat
  currentFast : Nat
  currentSlow : Nat
  w : TwRing → Nat → Nat
  maxExpirations : Nat

def makeInternalTimerHandle (poolIndex timerId : BitVec 32) : BitVec 32 :=
  (timerId <<< (32 - log2TwTimersPerObject)) ||| poolIndex

def timerAddhead (pool : Pool TwTimer) (headIndex newIndex : Nat) : Pool TwTimer :=
  if (pool.eltAt headIndex).next = headIndex then
    let pool := pool.modify headIndex fun t => { t with next := newIndex, prev := newIndex }
    pool.modify newIndex fun t => { t with next := headIndex, prev := headIndex }
  else
    let oldFirst := (pool.eltAt headIndex).next
    let pool := pool.modify newIndex fun t =>
      { t with next := oldFirst, prev := (pool.eltAt oldFirst).prev }
    let pool := pool.modify oldFirst fun t => { t with prev := newIndex }
    pool.modify headIndex fun t => { t with next := newIndex }

def timerRemove (pool : Pool TwTimer) (index : Nat) : Pool TwTimer :=
  let elt := pool.eltAt index
  let pool := pool.modify elt.next fun t => { t with prev := elt.prev }
  let pool := pool.modify elt.prev fun t => { t with next := elt.next }
  pool.modify index fun t => { t with next := noIndex, prev := noIndex }

/-- Start a timer. Offsets are 16 bits wide; assertions, which a release build compiles out, are not
part of the model. -/
def twTimerStart (tw : Wheel) (poolIndex timerId interval : BitVec 32) : Wheel × Nat :=
  let (pool, i) := tw.timers.get
  let pool := pool.set i ⟨noIndex, noIndex, 2 ^ 16 - 1, makeInternalTimerHandle poolIndex timerId⟩
  let fastRingOffset := ((interval.toNat &&& twRingMask) + tw.currentFast) % 2 ^ 16
  let carry := if twSlotsPerRing ≤ fastRingOffset then 1 else 0
  let fastRingOffset := fastRingOffset % twSlotsPerRing
  let slowRingOffset := ((interval.toNat >>> twRingShift) + carry) % 2 ^ 16
  if slowRingOffset ≠ 0 then
    let slowRingOffset := ((slowRingOffset + tw.currentSlow) % 2 ^ 16) % twSlotsPerRing
    let pool := pool.modify i fun t => { t with fastRingOffset }
    ({ tw with timers := timerAddhead pool (tw.w .slow slowRingOffset) i }, i)
  else ({ tw with timers := timerAddhead pool (tw.w .fast fastRingOffset) i }, i)

def twTimerStop (tw : Wheel) (handle : Nat) : Wheel :=
  { tw with timers := (timerRemove tw.timers handle).put handle }

def initSlot (tw : Wheel) (s : TwRing × Nat) : Wheel :=
  let (pool, i) := tw.timers.get
  { tw with
    timers := pool.set i ⟨i, i, 2 ^ 16 - 1, ~~~0⟩
    w := fun ring slot => if (ring, slot) = s then i else tw.w ring slot }

def ringSlots (ring : TwRing) : List (TwRing × Nat) :=
  (List.range twSlotsPerRing).map fun slot => (ring, slot)

/-- There is no wheel when the interval is zero: the code aborts. -/
def twTimerWheelInit (timerInterval : ℚ) (maxExpirations : Nat) : Option Wheel :=
  if timerInterval = 0 then none
  else some ((ringSlots .fast ++ ringSlots .slow).foldl initSlot
    { timers := .empty, nextRunTime := 0, lastRunTime := 0, ticksPerSecond := 1 / timerInterval,
      timerInterval, currentTick := 0, ticks := 0, currentFast := 0, currentSlow := 0, w := fun _ _ => 0,
      maxExpirations })

def walkFuel (pool : Pool TwTimer) : Nat := pool.elts.length + 1

def emptySlot (pool : Pool TwTimer) (headIndex : Nat) : Pool TwTimer :=
  pool.modify headIndex fun t => { t with next := headIndex, prev := headIndex }

/-- The walk over a slow slot that deals its timers into the fast ring; there is no result when the
walk does not end within its fuel. -/
def dealTimers (headIndex : Nat) : Nat → Nat → Wheel → Option Wheel
  | 0, _, _ => none
  | fuel + 1, nextIndex, tw =>
    if nextIndex = headIndex then some tw
    else
      let t := tw.timers.eltAt nextIndex
      let pool := tw.timers.modify nextIndex fun t => { t with next := noIndex, prev := noIndex }
      let pool := timerAddhead pool (tw.w .fast t.fastRingOffset) nextIndex
      dealTimers headIndex fuel t.next { tw with timers := pool }

def turnSlowRing (tw : Wheel) : Option Wheel :=
  let currentSlow := (tw.currentSlow + 1) % twSlotsPerRing
  let headIndex := tw.w .slow currentSlow
  let nextIndex := (tw.timers.eltAt headIndex).next
  dealTimers headIndex (walkFuel tw.timers) nextIndex
    { tw with currentFast := 0, currentSlow, timers := emptySlot tw.timers headIndex }

def expireSlot (headIndex : Nat) :
    Nat → Nat → Pool TwTimer → List (BitVec 32) → Option (Pool TwTimer × List (BitVec 32))
  | 0, _, _, _ => none
  | fuel + 1, nextIndex, pool, expired =>
    if nextIndex = headIndex then some (pool, expired)
    else
      let t := pool.eltAt nextIndex
      expireSlot headIndex fuel t.next (pool.put nextIndex) (expired ++ [t.userHandle])

section
variable (expiredTimerCallback : List (BitVec 32) → Wheel → σ → Wheel × σ)

def handleFastRing (tw : Wheel) (c : σ) : Option (Wheel × σ × Nat) :=
  let headIndex := tw.w .fast tw.currentFast
  let nextIndex := (tw.timers.eltAt headIndex).next
  (expireSlot headIndex (walkFuel tw.timers) nextIndex (emptySlot tw.timers headIndex) []).map fun r =>
    let tw := { tw with timers := r.1 }
    let (tw, c) := if r.2.length ≠ 0 then expiredTimerCallback r.2 tw c else (tw, c)
    ({ tw with
      currentFast := tw.currentFast + 1
      currentTick := tw.currentTick + 1
      ticks := tw.ticks + 1 }, c, r.2.length)

def expireTick (tw : Wheel) (c : σ) : Option (Wheel × σ × Nat) :=
  (if tw.currentFast = twSlotsPerRing then turnSlowRing tw else some tw).bind fun tw =>
    handleFastRing expiredTimerCallback tw c

/-- The loop over the ticks with its counter `i`, which a break does not advance. -/
def expireLoop : Nat → Nat → Nat → Wheel → σ → Option (Wheel × σ × Nat × Nat)
  | 0, i, total, tw, c => some (tw, c, i, total)
  | n + 1, i, total, tw, c =>
    (expireTick expiredTimerCallback tw c).bind fun (tw, c, nexpirations) =>
      if tw.maxExpirations ≤ total + nexpirations then some (tw, c, i, total + nexpirations)
      else expireLoop n (i + 1) (total + nexpirations) tw c

def Wheel.nticks (tw : Wheel) (now : ℚ) : Nat :=
  (tw.ticksPerSecond * (now - tw.lastRunTime)).floor.toNat % 2 ^ 32

def twTimerExpireTimers (tw : Wheel) (c : σ) (now : ℚ) : Option (Wheel × σ × Nat) :=
  if now < tw.nextRunTime then some (tw, c, 0)
  else
    let nticks := tw.nticks now
    if nticks = 0 then some (tw, c, 0)
    else
      let tw := { tw with nextRunTime := now + tw.timerInterval }
      (expireLoop expiredTimerCallback nticks 0 0 tw c).map fun (tw, c, i, total) =>
        ({ tw with lastRunTime := tw.lastRunTime + i * tw.timerInterval }, c, total)

end

inductive Status where
  | pending
  | stopped
  | expired
  deriving DecidableEq, Repr

structure Started where
  handle : Nat
  userHandle : BitVec 32
  tick : Nat
  interval : Nat
  status : Status
  deriving DecidableEq, Repr

def Started.due (t : Started) : Nat := t.tick + t.interval

/-- A stop names a timer by its place in the order of the starts. -/
inductive Request where
  | start (poolIndex timerId interval : BitVec 32)
  | stop (n : Nat)
  deriving DecidableEq, Repr

/-- The client: its timers in the order of their starts, the vectors that it got with the tick of each,
and the requests it makes from inside the coming callbacks. -/
structure Client where
  timers : List Started
  reports : List (Nat × List (BitVec 32))
  script : List (List Request)

/-- A stop is called only for a timer that has neither expired nor been stopped. -/
def Request.perform (s : Wheel × Client) : Request → Wheel × Client
  | .start poolIndex timerId interval =>
    let (tw, handle) := twTimerStart s.1 poolIndex timerId interval
    (tw, { s.2 with timers := s.2.timers ++ [⟨handle, makeInternalTimerHandle poolIndex timerId,
      s.1.ticks, interval.toNat, .pending⟩] })
  | .stop n =>
    match s.2.timers[n]? with
    | some t =>
      if t.status = .pending then
        (twTimerStop s.1 t.handle,
          { s.2 with timers := s.2.timers.set n { t with status := .stopped } })
      else s
    | none => s

/-- A pending timer whose pool element has been freed has expired. -/
def Started.observe (pool : Pool TwTimer) (t : Started) : Started :=
  if t.status = .pending ∧ ¬ pool.Live t.handle then { t with status := .expired } else t

def Client.onExpired (expired : List (BitVec 32)) (tw : Wheel) (c : Client) : Wheel × Client :=
  (c.script.headD []).foldl Request.perform
    (tw, { timers := c.timers.map (Started.observe tw.timers)
           reports := c.reports ++ [(tw.ticks, expired)]
           script := c.script.tail })

inductive Call where
  | request (r : Request)
  | expireTimers (now : ℚ)

def Call.perform (s : Wheel × Client) : Call → Option (Wheel × Client)
  | .request r => some (r.perform s)
  | .expireTimers now =>
    (twTimerExpireTimers Client.onExpired s.1 s.2 now).map fun r => (r.1, r.2.1)

def runCalls : Wheel × Client → List Call → Option (Wheel × Client)
  | s, [] => some s
  | s, call :: calls => (call.perform s).bind fun s => runCalls s calls

/-- What was reported while the tick was `k`. -/
def Client.reportedAt (c : Client) (k : Nat) : List (BitVec 32) :=
  (c.reports.filter fun r => r.1 = k).flatMap Prod.snd

/-- The timers that were not stopped and that are due at tick `k`, of those due before tick `lo`. -/
def Client.dueAt (c : Client) (lo k : Nat) : List Started :=
  c.timers.filter fun t => t.status ≠ .stopped ∧ t.due = k ∧ k < lo

end Vpp.TwTimer
