import Vpp.TimingWheel.Wheel

namespace Vpp.TimingWheel.Wheel
open Vpp.Lib List

theorem shift_eq_div (x M : Nat) : x >>> M = x / 2 ^ M := Nat.shiftRight_eq_div_pow x M

theorem shift_level (w : Wheel) (x levelIndex : Nat) :
    x >>> (levelIndex * w.log2BinsPerWheel) = x / w.binsPerWheel ^ levelIndex := by
  rw [shift_eq_div, Nat.mul_comm, Nat.pow_mul]
  rfl

theorem binsPerWheel_pos (w : Wheel) : 0 < w.binsPerWheel := Nat.two_pow_pos _

theorem two_le_two_pow {M : Nat} (h : 0 < M) : 2 ≤ 2 ^ M := by
  have hpow := Nat.pow_le_pow_right (show 0 < 2 by decide) h
  rwa [Nat.pow_one] at hpow

theorem currentTimeWheelIndex_eq (w : Wheel) (levelIndex : Nat) :
    w.currentTimeWheelIndex levelIndex = w.currentTimeIndex / w.binsPerWheel ^ levelIndex % w.binsPerWheel := by
  rw [currentTimeWheelIndex, shift_level]

theorem rtimeToWheelIndex_eq (w : Wheel) (levelIndex rtime : Nat) : w.rtimeToWheelIndex levelIndex rtime
    = (w.currentTimeIndex / w.binsPerWheel ^ levelIndex + rtime) % w.binsPerWheel := by
  rw [rtimeToWheelIndex, currentTimeWheelIndex_eq, Nat.mod_add_mod]

theorem levelLoop_reaches {M fuel rtime : Nat} (levelIndex : Nat) (hM : 0 < M) (hfuel : rtime ≤ fuel) :
    ∃ L r, levelLoop M fuel levelIndex rtime = (levelIndex + L, r) ∧ Reaches (2 ^ M) rtime L r := by
  have hn := two_le_two_pow hM
  induction fuel generalizing levelIndex rtime with
  | zero =>
    have h0 : rtime = 0 := Nat.le_zero.1 hfuel
    subst h0
    exact ⟨0, 0, rfl, .zero (by omega)⟩
  | succ fuel ih =>
    rw [levelLoop, shift_eq_div]
    split
    case isTrue h =>
      have hle : 2 ^ M ≤ rtime := by
        by_contra hlt
        exact h (Nat.div_eq_of_lt (Nat.lt_of_not_le hlt))
      have hsmall : rtime / 2 ^ M < rtime := Nat.div_lt_self (by omega) (by omega)
      obtain ⟨L, r, he, hr⟩ := ih (levelIndex + 1) (show rtime / 2 ^ M - 1 ≤ fuel by omega)
      refine ⟨L + 1, r, ?_, hr.up (by omega) hle⟩
      rw [he]
      congr 1
      omega
    case isFalse h =>
      have hlt : rtime < 2 ^ M := by
        rcases Nat.div_eq_zero_iff.1 (not_not.1 h) with h0 | hlt
        · omega
        · exact hlt
      exact ⟨0, rtime, rfl, .zero hlt⟩

theorem getLevelAndRelativeTime_reaches {w : Wheel} (hM : 0 < w.log2BinsPerWheel) (cpuTime : Nat) :
    ∃ L r, w.getLevelAndRelativeTime cpuTime = (L, r) ∧
      Reaches w.binsPerWheel (cpuTime >>> w.log2ClocksPerBin - w.currentTimeIndex) L r := by
  obtain ⟨L, r, he, hr⟩ := levelLoop_reaches 0 hM
    (Nat.le_refl (cpuTime >>> w.log2ClocksPerBin - w.currentTimeIndex))
  rw [Nat.zero_add] at he
  exact ⟨L, r, he, hr⟩

/-- An element is in a bin from which it will be taken in time. -/
structure RightBin (w : Wheel) (f : Filed) : Prop where
  filed : ∃ b, FiledAt w.binsPerWheel w.currentTimeIndex f.level f.bin (w.eltTimeIndex f.elt) b
  level : f.level < w.nLevels
  word : f.elt.cpuTimeRelativeToBase < 2 ^ 32

theorem RightBin.stays {w w' : Wheel} {f : Filed} (h : w.RightBin f) (hn : w'.binsPerWheel = w.binsPerWheel)
    (hcur : w'.currentTimeIndex = w.currentTimeIndex) (htime : w'.eltTimeIndex f.elt = w.eltTimeIndex f.elt)
    (hlevels : w.nLevels ≤ w'.nLevels) : w'.RightBin f where
  filed := by
    rw [hn, hcur, htime]
    exact h.filed
  level := Nat.lt_of_lt_of_le h.level hlevels
  word := h.word

theorem RightBin.bin_lt {w : Wheel} {f : Filed} (h : w.RightBin f) : f.bin < w.binsPerWheel := by
  obtain ⟨b, hfiled⟩ := h.filed
  rw [hfiled.place]
  exact Nat.mod_lt _ w.binsPerWheel_pos

structure Sound (w : Wheel) : Prop where
  bins : 0 < w.log2BinsPerWheel
  clocks : w.log2ClocksPerBin ≤ w.nWheelEltTimeBits
  bits : w.nWheelEltTimeBits ≤ 31
  update : w.timeIndexNextCpuTimeBaseUpdate
    = w.cpuTimeBase >>> w.log2ClocksPerBin + 2 ^ (w.nWheelEltTimeBits - w.log2ClocksPerBin)
  base : w.cpuTimeBase >>> w.log2ClocksPerBin ≤ w.currentTimeIndex
  right : ∀ f ∈ w.elts, w.RightBin f
  overflow : ∀ oe ∈ w.overflowPool, w.cpuTimeBase + 2 ^ 32 ≤ oe.cpuTime

def onWheel (w : Wheel) : List (Nat × Nat) := w.elts.map fun f => (w.eltCpuTime f.elt, f.elt.userData)

def timers (w : Wheel) : List (Nat × Nat) := w.onWheel ++ w.overflowPool.map fun oe => (oe.cpuTime, oe.userData)

/-- Those that have not been deleted. -/
def pending (w : Wheel) : List (Nat × Nat) := w.timers.filter fun x => !w.eltIsDeleted x.2

theorem timingWheelInit_sound {N M B : Nat} (hM : 0 < M) (hN : N ≤ B) (hB : B ≤ 31) (now : Nat) :
    (timingWheelInit N M B now).Sound where
  bins := hM
  clocks := hN
  bits := hB
  update := rfl
  base := Nat.le_refl _
  right := fun _ h => absurd h not_mem_nil
  overflow := fun _ h => absurd h not_mem_nil

structure SameConfig (w v : Wheel) : Prop where
  clocks : v.log2ClocksPerBin = w.log2ClocksPerBin
  bins : v.log2BinsPerWheel = w.log2BinsPerWheel
  bits : v.nWheelEltTimeBits = w.nWheelEltTimeBits
  deleted : v.deletedUserDataHash = w.deletedUserDataHash

theorem SameConfig.refl (w : Wheel) : SameConfig w w := ⟨rfl, rfl, rfl, rfl⟩

theorem SameConfig.trans {w v x : Wheel} (h : SameConfig w v) (h' : SameConfig v x) : SameConfig w x where
  clocks := h'.clocks.trans h.clocks
  bins := h'.bins.trans h.bins
  bits := h'.bits.trans h.bits
  deleted := h'.deleted.trans h.deleted

structure Inserted (w : Wheel) (t u : Nat) (v : Wheel) : Prop where
  config : SameConfig w v
  base : v.cpuTimeBase = w.cpuTimeBase
  update : v.timeIndexNextCpuTimeBaseUpdate = w.timeIndexNextCpuTimeBaseUpdate
  clock : v.currentTimeIndex = w.currentTimeIndex
  timers : v.timers.Perm (w.timers ++ [(t, u)])
  onWheel : ∀ x ∈ v.onWheel, x ∈ w.onWheel ∨ x = (t, u)
  cached : v.cachedMinCpuTimeOnWheel ≤ w.cachedMinCpuTimeOnWheel
  known : t ≠ 0 → w.cachedMinCpuTimeOnWheel ≠ 0 → v.cachedMinCpuTimeOnWheel ≠ 0

theorem perm_insert_middle (as bs : List α) (x : α) : (as ++ [x] ++ bs).Perm (as ++ bs ++ [x]) := by
  rw [List.append_assoc, List.append_assoc]
  exact (perm_append_comm).append_left as

theorem lowered_le (t cached : Nat) : (if t < cached then t else cached) ≤ cached := by
  split
  · omega
  · exact Nat.le_refl _

theorem lowered_ne_zero (ht : t ≠ 0) (hc : cached ≠ 0) : (if t < cached then t else cached) ≠ 0 := by
  split
  · exact ht
  · exact hc

theorem onWheel_insertHelper {w : Wheel} {t : Nat} (levelIndex rtime u : Nat) (h : w.fits t) :
    (w.insertHelper levelIndex rtime ⟨t - w.cpuTimeBase, u⟩).onWheel = w.onWheel ++ [(t, u)] := by
  have htime : w.eltCpuTime ⟨t - w.cpuTimeBase, u⟩ = t := Nat.add_sub_cancel' h.1
  have hadd : (w.insertHelper levelIndex rtime ⟨t - w.cpuTimeBase, u⟩).onWheel
      = w.onWheel ++ [(w.eltCpuTime ⟨t - w.cpuTimeBase, u⟩, u)] := map_append
  rw [hadd, htime]

/-- On the wheel or in the overflow pool, the timer is stored. -/
theorem timingWheelInsertHelper_spec (w : Wheel) (t u : Nat) : Inserted w t u (w.timingWheelInsertHelper t u) := by
  rw [timingWheelInsertHelper]
  dsimp only
  split
  case isTrue hfits =>
    have honWheel := onWheel_insertHelper (w.getLevelAndRelativeTime t).1 (w.getLevelAndRelativeTime t).2 u hfits
    constructor
    · exact ⟨rfl, rfl, rfl, rfl⟩
    · rfl
    · rfl
    · rfl
    · have hperm := perm_insert_middle w.onWheel (w.overflowPool.map fun oe => (oe.cpuTime, oe.userData)) (t, u)
      rw [← honWheel] at hperm
      exact hperm
    · intro x hx
      rw [← mem_singleton, ← mem_append, ← honWheel]
      exact hx
    · exact lowered_le t w.cachedMinCpuTimeOnWheel
    · exact lowered_ne_zero
  case isFalse =>
    constructor
    · exact ⟨rfl, rfl, rfl, rfl⟩
    · rfl
    · rfl
    · rfl
    · apply List.Perm.of_eq
      rw [timers, timers, map_append, ← List.append_assoc]
      rfl
    · exact fun x hx => Or.inl hx
    · exact Nat.le_refl _
    · exact fun _ hc => hc

theorem Sound.keep {w : Wheel} (h : w.Sound) {oe : OverflowElt} (hfar : w.cpuTimeBase + 2 ^ 32 ≤ oe.cpuTime) :
    Sound { w with overflowPool := w.overflowPool ++ [oe] } where
  bins := h.bins
  clocks := h.clocks
  bits := h.bits
  update := h.update
  base := h.base
  right := fun f hf => (h.right f hf).stays rfl rfl rfl (Nat.le_refl _)
  overflow := by
    intro oe' hoe
    rcases mem_append.1 hoe with hoe | hoe
    · exact h.overflow oe' hoe
    · rw [mem_singleton.1 hoe]
      exact hfar

theorem far_of_not_fits {w : Wheel} {t : Nat} (hbase : w.cpuTimeBase ≤ t) (h : ¬ w.fits t) :
    w.cpuTimeBase + 2 ^ 32 ≤ t := by
  have hdt : ¬ t - w.cpuTimeBase < 2 ^ 32 := fun hlt => h ⟨hbase, hlt⟩
  omega

theorem insertHelper_right {w : Wheel} (right : ∀ f ∈ w.elts, w.RightBin f)
    {t u L r : Nat} (future : w.currentTimeIndex ≤ t >>> w.log2ClocksPerBin) (hfits : w.fits t)
    (hr : Reaches w.binsPerWheel (t >>> w.log2ClocksPerBin - w.currentTimeIndex) L r) :
    ∀ f ∈ (w.insertHelper L r ⟨t - w.cpuTimeBase, u⟩).elts, (w.insertHelper L r ⟨t - w.cpuTimeBase, u⟩).RightBin f := by
  intro f hf
  rcases mem_append.1 hf with hf | hf
  · exact (right f hf).stays rfl rfl rfl (Nat.le_max_left _ _)
  · have he := mem_singleton.1 hf
    subst he
    refine ⟨⟨w.currentTimeIndex / w.binsPerWheel ^ L + r, ?_⟩, Nat.le_max_right _ _, hfits.2⟩
    have hplaced := hr.filedAt w.binsPerWheel_pos future
    have htime : w.eltTimeIndex ⟨t - w.cpuTimeBase, u⟩ = t >>> w.log2ClocksPerBin := by
      rw [eltTimeIndex, eltCpuTime, Nat.add_sub_cancel' hfits.1]
    rw [← htime, ← currentTimeWheelIndex_eq] at hplaced
    exact hplaced

theorem timingWheelInsertHelper_sound {w : Wheel} (h : w.Sound) {t u : Nat}
    (future : w.currentTimeIndex ≤ t >>> w.log2ClocksPerBin) (hbase : w.cpuTimeBase ≤ t) :
    (w.timingWheelInsertHelper t u).Sound := by
  obtain ⟨L, r, he, hr⟩ := getLevelAndRelativeTime_reaches h.bins t
  rw [timingWheelInsertHelper, he]
  dsimp only
  split
  case isTrue hfits =>
    have hright := insertHelper_right (u := u) h.right future hfits hr
    exact ⟨h.bins, h.clocks, h.bits, h.update, h.base,
      fun f hf => (hright f hf).stays rfl rfl rfl (Nat.le_refl _), h.overflow⟩
  case isFalse hfar => exact h.keep (far_of_not_fits hbase hfar)

end Vpp.TimingWheel.Wheel
