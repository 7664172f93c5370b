import Vpp.TimingWheel.Sweep

namespace Vpp.TimingWheel.Wheel
open Vpp.Lib List

/-- The timers of `w` while its clock is set to `adv`: those of `v`, some that are still to be put back, and
those that were due. -/
structure Accounted (w : Wheel) (adv : Nat) (v : Wheel) (expired : List Nat) (rest due : List (Nat × Nat)) : Prop where
  stored : w.timers.Perm (v.timers ++ (rest ++ due))
  returned : expired = (due.map Prod.snd).filter fun u => !w.eltIsDeleted u
  due : ∀ x ∈ due, x.1 >>> w.log2ClocksPerBin ≤ adv

structure Advanced (w : Wheel) (adv : Nat) (v : Wheel) (expired : List Nat) (rest : List (Nat × Nat)) : Prop where
  config : SameConfig w v
  clock : v.currentTimeIndex = adv
  sound : v.Sound
  later : ∀ x ∈ v.onWheel, adv < x.1 >>> w.log2ClocksPerBin
  cached : v.cachedMinCpuTimeOnWheel ≤ w.cachedMinCpuTimeOnWheel
  known : w.cachedMinCpuTimeOnWheel ≠ 0 → v.cachedMinCpuTimeOnWheel ≠ 0
  account : ∃ due, Accounted w adv v expired rest due

theorem SameConfig.eltIsDeleted {w v : Wheel} (h : SameConfig w v) (u : Nat) : v.eltIsDeleted u = w.eltIsDeleted u := by
  rw [Wheel.eltIsDeleted, Wheel.eltIsDeleted, h.deleted]

theorem Accounted.put {w v v' : Wheel} {x : Nat × Nat} {gone : List (Nat × Nat)}
    (h : Accounted w adv v expired (x :: rest) gone) (timers : v'.timers.Perm (v.timers ++ [x])) :
    Accounted w adv v' expired rest gone where
  stored := by
    have hmove : v.timers ++ (x :: rest ++ gone) = v.timers ++ [x] ++ (rest ++ gone) := by simp
    exact h.stored.trans (hmove ▸ timers.symm.append_right _)
  returned := h.returned
  due := h.due

theorem Advanced.insert {w v : Wheel} (h : Advanced w adv v expired ((t, u) :: rest))
    (hlater : adv < t >>> w.log2ClocksPerBin) (hbase : v.cpuTimeBase ≤ t) :
    Advanced w adv (v.timingWheelInsertHelper t u) expired rest := by
  obtain ⟨due, hacc⟩ := h.account
  have spec := timingWheelInsertHelper_spec v t u
  have hfuture : v.currentTimeIndex ≤ t >>> v.log2ClocksPerBin := by
    rw [h.clock, h.config.clocks]
    exact Nat.le_of_lt hlater
  constructor
  · exact h.config.trans spec.config
  · exact spec.clock.trans h.clock
  · exact timingWheelInsertHelper_sound h.sound hfuture hbase
  · intro x hx
    rcases spec.onWheel x hx with hx | rfl
    · exact h.later x hx
    · exact hlater
  · exact Nat.le_trans spec.cached h.cached
  · have hpos : t ≠ 0 := by
      rintro rfl
      rw [Nat.zero_shiftRight] at hlater
      exact absurd hlater (Nat.not_lt_zero adv)
    exact fun hc => spec.known hpos (h.known hc)
  · exact ⟨due, hacc.put spec.timers⟩

theorem Advanced.expire {w v : Wheel} (h : Advanced w adv v expired ((t, u) :: rest))
    (hdue : t >>> w.log2ClocksPerBin ≤ adv) :
    Advanced w adv v (expired ++ if v.eltIsDeleted u then [] else [u]) rest := by
  obtain ⟨due, hacc⟩ := h.account
  apply Advanced.mk h.config h.clock h.sound h.later h.cached h.known
  apply Exists.intro (due ++ [(t, u)])
  constructor
  · have hlast : ((t, u) :: (rest ++ due)).Perm (rest ++ (due ++ [(t, u)])) := by
      rw [← List.append_assoc]
      exact (perm_append_singleton _ _).symm
    exact hacc.stored.trans (hlast.append_left _)
  · rw [h.config.eltIsDeleted, map_append, filter_append, ← hacc.returned]
    cases hu : w.eltIsDeleted u <;> simp [hu]
  · intro x hx
    rcases mem_append.1 hx with hx | hx
    · exact hacc.due x hx
    · rw [mem_singleton.1 hx]
      exact hdue

theorem Advanced.keep {w v : Wheel} {oe : OverflowElt}
    (h : Advanced w adv v expired ((oe.cpuTime, oe.userData) :: rest))
    (hfar : v.cpuTimeBase + 2 ^ 32 ≤ oe.cpuTime) :
    Advanced w adv { v with overflowPool := v.overflowPool ++ [oe] } expired rest := by
  obtain ⟨due, hacc⟩ := h.account
  constructor
  · exact h.config.trans ⟨rfl, rfl, rfl, rfl⟩
  · exact h.clock
  · exact h.sound.keep hfar
  · exact h.later
  · exact h.cached
  · exact h.known
  · apply Exists.intro due
    apply hacc.put (List.Perm.of_eq _)
    rw [timers, timers, map_append, ← List.append_assoc]
    rfl

theorem shift_add_pow {base B N : Nat} (h : N ≤ B) : (base + 2 ^ B) >>> N = base >>> N + 2 ^ (B - N) := by
  rw [shift_eq_div, shift_eq_div, ← Nat.pow_sub_mul_pow 2 h, Nat.add_mul_div_right _ _ (Nat.two_pow_pos N)]

theorem pow_shift {B N : Nat} (h : N ≤ B) : 2 ^ B >>> N = 2 ^ (B - N) := by
  have hsum := @shift_add_pow 0 B N h
  rwa [Nat.zero_add, Nat.zero_shiftRight, Nat.zero_add] at hsum

theorem Sound.base_le {w : Wheel} (h : w.Sound) {t : Nat}
    (hlater : w.timeIndexNextCpuTimeBaseUpdate < t >>> w.log2ClocksPerBin) :
    w.cpuTimeBase + 2 ^ w.nWheelEltTimeBits ≤ t := by
  by_contra hlt
  have hshift : t >>> w.log2ClocksPerBin ≤ (w.cpuTimeBase + 2 ^ w.nWheelEltTimeBits) >>> w.log2ClocksPerBin := by
    rw [shift_eq_div, shift_eq_div]
    exact Nat.div_le_div_right (Nat.le_of_not_le hlt)
  rw [shift_add_pow h.clocks, ← h.update] at hshift
  omega

theorem rebased_word {x delta : Nat} (hword : x < 2 ^ 32) (hdelta : delta ≤ x) :
    delta + (x + 2 ^ 32 - delta) % 2 ^ 32 = x := by
  have hmod : (x + 2 ^ 32 - delta) % 2 ^ 32 = x - delta := by
    rw [Nat.sub_add_comm hdelta, Nat.add_mod_right]
    exact Nat.mod_eq_of_lt (Nat.lt_of_le_of_lt (Nat.sub_le x delta) hword)
  rw [hmod]
  exact Nat.add_sub_cancel' hdelta

theorem rebaseElt_relative (delta : Nat) (f : Filed) : (Moving.rebaseElt delta f).elt.cpuTimeRelativeToBase
    = (f.elt.cpuTimeRelativeToBase + 2 ^ 32 - delta) % 2 ^ 32 := by
  dsimp only [Moving.rebaseElt]

theorem rebaseElt_time {delta : Nat} {f : Filed} (hword : f.elt.cpuTimeRelativeToBase < 2 ^ 32)
    (hdelta : delta ≤ f.elt.cpuTimeRelativeToBase) :
    delta + (Moving.rebaseElt delta f).elt.cpuTimeRelativeToBase = f.elt.cpuTimeRelativeToBase := by
  rw [rebaseElt_relative]
  exact rebased_word hword hdelta

theorem rebaseElt_level (delta : Nat) (f : Filed) : (Moving.rebaseElt delta f).level = f.level := by
  cases f
  simp only [Moving.rebaseElt]

theorem rebaseElt_bin (delta : Nat) (f : Filed) : (Moving.rebaseElt delta f).bin = f.bin := by
  cases f
  simp only [Moving.rebaseElt]

theorem rebaseElt_userData (delta : Nat) (f : Filed) : (Moving.rebaseElt delta f).elt.userData = f.elt.userData := by
  obtain ⟨level, bin, ⟨time, user⟩⟩ := f
  simp only [Moving.rebaseElt]

theorem rebaseElt_word (delta : Nat) (f : Filed) : (Moving.rebaseElt delta f).elt.cpuTimeRelativeToBase < 2 ^ 32 := by
  have hpos : 0 < 2 ^ 32 := by decide
  rw [rebaseElt_relative]
  exact Nat.mod_lt _ hpos

theorem rebase_cpuTimeBase (w : Wheel) : (Moving.rebase w).cpuTimeBase = w.cpuTimeBase + 2 ^ w.nWheelEltTimeBits := by
  dsimp only [Moving.rebase]

theorem rebase_clocks (w : Wheel) : (Moving.rebase w).log2ClocksPerBin = w.log2ClocksPerBin := by
  dsimp only [Moving.rebase]

theorem rebase_bins (w : Wheel) : (Moving.rebase w).log2BinsPerWheel = w.log2BinsPerWheel := by
  dsimp only [Moving.rebase]

theorem rebase_clock (w : Wheel) : (Moving.rebase w).currentTimeIndex = w.currentTimeIndex := by
  dsimp only [Moving.rebase]

theorem rebase_bits (w : Wheel) : (Moving.rebase w).nWheelEltTimeBits = w.nWheelEltTimeBits := by
  dsimp only [Moving.rebase]

theorem rebase_deleted (w : Wheel) : (Moving.rebase w).deletedUserDataHash = w.deletedUserDataHash := by
  dsimp only [Moving.rebase]

theorem rebase_cached (w : Wheel) : (Moving.rebase w).cachedMinCpuTimeOnWheel = w.cachedMinCpuTimeOnWheel := by
  dsimp only [Moving.rebase]

theorem rebase_update (w : Wheel) : (Moving.rebase w).timeIndexNextCpuTimeBaseUpdate
    = w.timeIndexNextCpuTimeBaseUpdate + 2 ^ w.nWheelEltTimeBits >>> w.log2ClocksPerBin := by
  dsimp only [Moving.rebase]

theorem rebase_nLevels (w : Wheel) : (Moving.rebase w).nLevels = w.nLevels := by
  dsimp only [Moving.rebase]

theorem rebase_elts (w : Wheel) :
    (Moving.rebase w).elts = w.elts.map (Moving.rebaseElt (2 ^ w.nWheelEltTimeBits)) := by
  dsimp only [Moving.rebase]

theorem rebase_binsPerWheel (w : Wheel) : (Moving.rebase w).binsPerWheel = w.binsPerWheel := by
  rw [binsPerWheel, rebase_bins, binsPerWheel]

section
variable {w v : Wheel}

theorem Advanced.delta_le (h : Advanced w adv v expired rest) (hnext : v.timeIndexNextCpuTimeBaseUpdate ≤ adv)
    {f : Filed} (hf : f ∈ v.elts) : 2 ^ v.nWheelEltTimeBits ≤ f.elt.cpuTimeRelativeToBase := by
  have hmem : (v.eltCpuTime f.elt, f.elt.userData) ∈ v.onWheel := List.mem_map_of_mem hf
  have hlater := h.later _ hmem
  rw [← h.config.clocks] at hlater
  have hle := h.sound.base_le (Nat.lt_of_le_of_lt hnext hlater)
  rw [eltCpuTime] at hle
  omega

theorem Advanced.rebased_relative (h : Advanced w adv v expired rest)
    (hnext : v.timeIndexNextCpuTimeBaseUpdate ≤ adv) {f : Filed} (hf : f ∈ v.elts) :
    2 ^ v.nWheelEltTimeBits + (Moving.rebaseElt (2 ^ v.nWheelEltTimeBits) f).elt.cpuTimeRelativeToBase
      = f.elt.cpuTimeRelativeToBase :=
  rebaseElt_time (h.sound.right f hf).word (h.delta_le hnext hf)

theorem Advanced.rebased_eltCpuTime (h : Advanced w adv v expired rest)
    (hnext : v.timeIndexNextCpuTimeBaseUpdate ≤ adv) {f : Filed} (hf : f ∈ v.elts) :
    (Moving.rebase v).eltCpuTime (Moving.rebaseElt (2 ^ v.nWheelEltTimeBits) f).elt = v.eltCpuTime f.elt := by
  have htime := h.rebased_relative hnext hf
  rw [eltCpuTime, rebase_cpuTimeBase, Nat.add_assoc, htime, eltCpuTime]

theorem Advanced.rebased_onWheel (h : Advanced w adv v expired rest)
    (hnext : v.timeIndexNextCpuTimeBaseUpdate ≤ adv) : (Moving.rebase v).onWheel = v.onWheel := by
  rw [onWheel, rebase_elts, List.map_map]
  apply map_congr_left
  intro f hf
  rw [Function.comp_apply, h.rebased_eltCpuTime hnext hf, rebaseElt_userData]

theorem Advanced.rebased_right (h : Advanced w adv v expired rest)
    (hnext : v.timeIndexNextCpuTimeBaseUpdate ≤ adv) : ∀ f ∈ (Moving.rebase v).elts, (Moving.rebase v).RightBin f := by
  intro f' hf'
  rw [rebase_elts] at hf'
  obtain ⟨f, hf, he⟩ := List.mem_map.1 hf'
  subst he
  have hright := h.sound.right f hf
  constructor
  · rw [rebaseElt_level, rebaseElt_bin, eltTimeIndex, h.rebased_eltCpuTime hnext hf, rebase_clocks,
      rebase_binsPerWheel, rebase_clock]
    exact hright.filed
  · rw [rebaseElt_level, rebase_nLevels]
    exact hright.level
  · exact rebaseElt_word _ f

theorem Sound.emptied {r : Wheel} (bins : 0 < r.log2BinsPerWheel) (clocks : r.log2ClocksPerBin ≤ r.nWheelEltTimeBits)
    (bits : r.nWheelEltTimeBits ≤ 31)
    (update : r.timeIndexNextCpuTimeBaseUpdate
      = r.cpuTimeBase >>> r.log2ClocksPerBin + 2 ^ (r.nWheelEltTimeBits - r.log2ClocksPerBin))
    (base : r.cpuTimeBase >>> r.log2ClocksPerBin ≤ r.currentTimeIndex) (right : ∀ f ∈ r.elts, r.RightBin f) :
    Sound { r with overflowPool := [] } where
  bins := bins
  clocks := clocks
  bits := bits
  update := update
  base := base
  right := fun f hf => (right f hf).stays rfl rfl rfl (Nat.le_refl _)
  overflow := fun _ hoe => absurd hoe not_mem_nil

theorem Advanced.rebase_sound (h : Advanced w adv v expired rest) (hnext : v.timeIndexNextCpuTimeBaseUpdate ≤ adv) :
    Sound { Moving.rebase v with overflowPool := [] } := by
  apply Sound.emptied
  · rw [rebase_bins]
    exact h.sound.bins
  · rw [rebase_clocks, rebase_bits]
    exact h.sound.clocks
  · rw [rebase_bits]
    exact h.sound.bits
  · rw [rebase_update, rebase_cpuTimeBase, rebase_clocks, rebase_bits, shift_add_pow h.sound.clocks,
      pow_shift h.sound.clocks, h.sound.update]
  · rw [rebase_cpuTimeBase, rebase_clocks, rebase_clock, shift_add_pow h.sound.clocks, ← h.sound.update, h.clock]
    exact hnext
  · exact h.rebased_right hnext

theorem Advanced.takeOverflow {r : Wheel} (h : Advanced w adv v expired []) (config : SameConfig v r)
    (clock : r.currentTimeIndex = v.currentTimeIndex) (sound : Sound { r with overflowPool := [] })
    (onWheel : r.onWheel = v.onWheel) (cached : r.cachedMinCpuTimeOnWheel = v.cachedMinCpuTimeOnWheel) :
    Advanced w adv { r with overflowPool := [] } expired
      (v.overflowPool.map fun oe => (oe.cpuTime, oe.userData)) := by
  obtain ⟨due, hacc⟩ := h.account
  constructor
  · exact h.config.trans ⟨config.clocks, config.bins, config.bits, config.deleted⟩
  · exact clock.trans h.clock
  · exact sound
  · intro x hx
    have hmem : x ∈ r.onWheel := hx
    rw [onWheel] at hmem
    exact h.later x hmem
  · exact Nat.le_trans (Nat.le_of_eq cached) h.cached
  · exact fun hc => cached ▸ h.known hc
  · apply Exists.intro due
    apply Accounted.mk _ hacc.returned hacc.due
    have hempty : { r with overflowPool := [] }.timers = r.onWheel := append_nil _
    have hall : v.timers = v.onWheel ++ v.overflowPool.map fun oe => (oe.cpuTime, oe.userData) := rfl
    have hstored := hacc.stored
    rw [hall, nil_append, List.append_assoc] at hstored
    rw [hempty, onWheel]
    exact hstored

theorem Advanced.rebase (h : Advanced w adv v expired []) (hnext : v.timeIndexNextCpuTimeBaseUpdate ≤ adv) :
    Advanced w adv { Moving.rebase v with overflowPool := [] } expired
      (v.overflowPool.map fun oe => (oe.cpuTime, oe.userData)) :=
  h.takeOverflow ⟨rebase_clocks v, rebase_bins v, rebase_bits v, rebase_deleted v⟩ (rebase_clock v)
    (h.rebase_sound hnext) (h.rebased_onWheel hnext) (rebase_cached v)

end

section
variable {w : Wheel} {s : Moving}

theorem fitOverflow_spec {oe : OverflowElt}
    (h : Advanced w adv s.wheel s.expiredUserData ((oe.cpuTime, oe.userData) :: rest))
    (hbase : s.wheel.cpuTimeBase ≤ oe.cpuTime) :
    Advanced w adv (s.fitOverflow oe).wheel (s.fitOverflow oe).expiredUserData rest ∧
      (s.fitOverflow oe).wheel.cpuTimeBase = s.wheel.cpuTimeBase ∧
      (s.fitOverflow oe).wheel.timeIndexNextCpuTimeBaseUpdate = s.wheel.timeIndexNextCpuTimeBaseUpdate := by
  rw [Moving.fitOverflow, h.config.clocks, h.clock]
  split
  case isTrue =>
    split
    case isTrue hdue => exact ⟨h.expire hdue, rfl, rfl⟩
    case isFalse hlater =>
      have spec := timingWheelInsertHelper_spec s.wheel oe.cpuTime oe.userData
      exact ⟨h.insert (Nat.lt_of_not_le hlater) hbase, spec.base, spec.update⟩
  case isFalse hfar => exact ⟨h.keep (far_of_not_fits hbase hfar), rfl, rfl⟩

theorem fitOverflows_spec {pool : List OverflowElt}
    (h : Advanced w adv s.wheel s.expiredUserData (pool.map fun oe => (oe.cpuTime, oe.userData)))
    (hbase : ∀ oe ∈ pool, s.wheel.cpuTimeBase ≤ oe.cpuTime) :
    Advanced w adv (pool.foldl Moving.fitOverflow s).wheel (pool.foldl Moving.fitOverflow s).expiredUserData [] ∧
      (pool.foldl Moving.fitOverflow s).wheel.timeIndexNextCpuTimeBaseUpdate
        = s.wheel.timeIndexNextCpuTimeBaseUpdate := by
  induction pool generalizing s with
  | nil => exact ⟨h, rfl⟩
  | cons oe pool ih =>
    obtain ⟨hfit, hsame, hupdate⟩ := fitOverflow_spec h (hbase oe mem_cons_self)
    have hrest : ∀ oe' ∈ pool, (s.fitOverflow oe).wheel.cpuTimeBase ≤ oe'.cpuTime := by
      intro oe' hoe
      rw [hsame]
      exact hbase oe' (mem_cons_of_mem oe hoe)
    obtain ⟨hadvanced, hnext⟩ := ih hfit hrest
    exact ⟨hadvanced, hnext.trans hupdate⟩

theorem advanceCpuTimeBase_spec (h : Advanced w adv s.wheel s.expiredUserData [])
    (hnext : s.wheel.timeIndexNextCpuTimeBaseUpdate ≤ adv) :
    Advanced w adv s.advanceCpuTimeBase.wheel s.advanceCpuTimeBase.expiredUserData [] ∧
      s.wheel.timeIndexNextCpuTimeBaseUpdate < s.advanceCpuTimeBase.wheel.timeIndexNextCpuTimeBaseUpdate := by
  have hbase : ∀ oe ∈ s.wheel.overflowPool, (Moving.rebase s.wheel).cpuTimeBase ≤ oe.cpuTime := by
    intro oe hoe
    have hfar := h.sound.overflow oe hoe
    have hpow : 2 ^ s.wheel.nWheelEltTimeBits ≤ 2 ^ 32 :=
      Nat.pow_le_pow_right (Nat.two_pos) (Nat.le_trans h.sound.bits (by decide))
    rw [rebase_cpuTimeBase]
    omega
  obtain ⟨hadvanced, hupdate⟩ := fitOverflows_spec
    (s := { s with wheel := { Moving.rebase s.wheel with overflowPool := [] } }) (h.rebase hnext) hbase
  apply And.intro hadvanced
  have hgrow := rebase_update s.wheel
  rw [pow_shift h.sound.clocks] at hgrow
  have hpos : 0 < 2 ^ (s.wheel.nWheelEltTimeBits - s.wheel.log2ClocksPerBin) := Nat.two_pow_pos _
  calc s.wheel.timeIndexNextCpuTimeBaseUpdate
    _ < (Moving.rebase s.wheel).timeIndexNextCpuTimeBaseUpdate := by omega
    _ = s.advanceCpuTimeBase.wheel.timeIndexNextCpuTimeBaseUpdate := hupdate.symm

theorem advanceBases_spec (fuel : Nat) (h : Advanced w adv s.wheel s.expiredUserData [])
    (hfuel : adv < s.wheel.timeIndexNextCpuTimeBaseUpdate + fuel) :
    Advanced w adv (s.advanceBases fuel).wheel (s.advanceBases fuel).expiredUserData [] ∧
      adv < (s.advanceBases fuel).wheel.timeIndexNextCpuTimeBaseUpdate := by
  induction fuel generalizing s with
  | zero => exact ⟨h, hfuel⟩
  | succ fuel ih =>
    rw [Moving.advanceBases, h.clock]
    split
    case isTrue hnext =>
      obtain ⟨hadvanced, hgrow⟩ := advanceCpuTimeBase_spec h hnext
      exact ih hadvanced (by omega)
    case isFalse hnext => exact ⟨h, Nat.lt_of_not_le hnext⟩

end

theorem perm_swap_parts [DecidableEq α] {all kept due later overflow : List α}
    (h : all.Perm (kept ++ (due ++ later))) : (all ++ overflow).Perm (kept ++ overflow ++ (later ++ due)) := by
  rw [perm_iff_count] at h ⊢
  intro x
  have hx := h x
  simp only [count_append] at hx ⊢
  omega

/-- When the bins have been emptied the clock is set, and what stayed is in the right bin at the new time. -/
theorem Moving.Moves.advanced {w : Wheel} {s : Moving} (h : Moves w adv s) (sound : w.Sound)
    (hle : w.currentTimeIndex ≤ adv)
    (kept : ∀ f ∈ s.wheel.elts,
      (∃ b, FiledAt w.binsPerWheel adv f.level f.bin (w.eltTimeIndex f.elt) b) ∧ adv < w.eltTimeIndex f.elt) :
    Advanced w adv { s.wheel with currentTimeIndex := adv } s.expiredUserData
      (s.unexpiredEltsPendingInsert.map fun e => (w.eltCpuTime e, e.userData)) := by
  obtain ⟨due, hacc⟩ := h.account
  have hw : { s.wheel with currentTimeIndex := adv } = { w with elts := s.wheel.elts, currentTimeIndex := adv } := by
    rw [h.wheel]
  rw [hw]
  constructor
  · exact ⟨rfl, rfl, rfl, rfl⟩
  · rfl
  · constructor
    · exact sound.bins
    · exact sound.clocks
    · exact sound.bits
    · exact sound.update
    · exact Nat.le_trans sound.base hle
    · intro f hf
      have hright := sound.right f (h.sub hf)
      exact ⟨(kept f hf).1, hright.level, hright.word⟩
    · exact sound.overflow
  · intro x hx
    obtain ⟨f, hf, rfl⟩ := List.mem_map.1 hx
    exact (kept f hf).2
  · exact Nat.le_refl _
  · exact id
  · apply Exists.intro (due.map fun e => (w.eltCpuTime e, e.userData))
    constructor
    · have hstored := hacc.stored.map fun e => (w.eltCpuTime e, e.userData)
      simp only [map_append, List.map_map] at hstored
      exact perm_swap_parts hstored
    · rw [List.map_map]
      exact hacc.returned
    · intro x hx
      obtain ⟨e, he, rfl⟩ := List.mem_map.1 hx
      exact hacc.due e he

theorem insertPending_spec {w v : Wheel} {es : List Elt}
    (h : Advanced w adv v expired (es.map fun e => (w.eltCpuTime e, e.userData)))
    (hbase : v.cpuTimeBase = w.cpuTimeBase) (hlater : ∀ e ∈ es, adv < w.eltTimeIndex e) :
    Advanced w adv (es.foldl (fun w e => w.timingWheelInsertHelper (w.eltCpuTime e) e.userData) v) expired [] ∧
      (es.foldl (fun w e => w.timingWheelInsertHelper (w.eltCpuTime e) e.userData) v).cpuTimeBase = w.cpuTimeBase := by
  induction es generalizing v with
  | nil => exact ⟨h, hbase⟩
  | cons e es ih =>
    have htime : v.eltCpuTime e = w.eltCpuTime e := congrArg (· + e.cpuTimeRelativeToBase) hbase
    have hinsert := h.insert (hlater e mem_cons_self) (hbase ▸ Nat.le_add_right _ _)
    have hsame := (timingWheelInsertHelper_spec v (w.eltCpuTime e) e.userData).base.trans hbase
    rw [foldl_cons, htime]
    exact ih hinsert hsame fun e' he => hlater e' (mem_cons_of_mem e he)

theorem Sound.later_overflow {w : Wheel} (h : w.Sound) (hnext : adv < w.timeIndexNextCpuTimeBaseUpdate)
    {oe : OverflowElt} (hoe : oe ∈ w.overflowPool) : adv < oe.cpuTime >>> w.log2ClocksPerBin := by
  have hpow : 2 ^ w.nWheelEltTimeBits ≤ 2 ^ 32 :=
    Nat.pow_le_pow_right Nat.two_pos (Nat.le_trans h.bits (by decide))
  have hfar := h.overflow oe hoe
  have hshift : (w.cpuTimeBase + 2 ^ w.nWheelEltTimeBits) >>> w.log2ClocksPerBin ≤
      oe.cpuTime >>> w.log2ClocksPerBin := by
    rw [shift_eq_div, shift_eq_div]
    exact Nat.div_le_div_right (by omega)
  rw [shift_add_pow h.clocks, ← h.update] at hshift
  exact Nat.lt_of_lt_of_le hnext hshift

theorem Moving.Moves.settled {w : Wheel} {s : Moving} (h : Moves w adv s) (sound : w.Sound)
    (hle : w.currentTimeIndex ≤ adv)
    (kept : ∀ f ∈ s.wheel.elts,
      (∃ b, FiledAt w.binsPerWheel adv f.level f.bin (w.eltTimeIndex f.elt) b) ∧ adv < w.eltTimeIndex f.elt)
    {s' : Moving}
    (hs' : s' = advanceBases (adv + 1) (insertPending { s with wheel := { s.wheel with currentTimeIndex := adv } })) :
    Advanced w adv s'.wheel s'.expiredUserData [] ∧ ∀ x ∈ s'.wheel.timers, adv < x.1 >>> w.log2ClocksPerBin := by
  obtain ⟨due, hacc⟩ := h.account
  have hbase : s.wheel.cpuTimeBase = w.cpuTimeBase := (congrArg Wheel.cpuTimeBase h.wheel).trans rfl
  have hinserted := (insertPending_spec (h.advanced sound hle kept) hbase hacc.later).1
  have hspec := advanceBases_spec
    (s := insertPending { s with wheel := { s.wheel with currentTimeIndex := adv } }) (adv + 1) hinserted (by omega)
  rw [← hs'] at hspec
  obtain ⟨hadvanced, hnext⟩ := hspec
  apply And.intro hadvanced
  intro x hx
  rcases mem_append.1 hx with hx | hx
  · exact hadvanced.later x hx
  · obtain ⟨oe, hoe, rfl⟩ := List.mem_map.1 hx
    have hlater := hadvanced.sound.later_overflow hnext hoe
    rw [hadvanced.config.clocks] at hlater
    exact hlater

/-- The bins of `w` that an advance to `adv` goes through have been emptied. -/
structure Swept (w : Wheel) (adv : Nat) (s : Moving) : Prop where
  moves : Moving.Moves w adv s
  kept : ∀ f ∈ s.wheel.elts,
    (∃ b, FiledAt w.binsPerWheel adv f.level f.bin (w.eltTimeIndex f.elt) b) ∧ adv < w.eltTimeIndex f.elt
  elts : ∀ f, f ∈ s.wheel.elts ↔ f ∈ w.elts ∧ adv < w.eltTimeIndex f.elt ∧ ¬ Moving.Refilled w adv f
  pending : ∀ e, e ∈ s.unexpiredEltsPendingInsert ↔
    ∃ f ∈ w.elts, Moving.Refilled w adv f ∧ f.elt = e ∧ adv < w.eltTimeIndex e

def settle (adv : Nat) (s : Moving) : Moving :=
  Moving.advanceBases (adv + 1) (Moving.insertPending { s with wheel := { s.wheel with currentTimeIndex := adv } })

theorem exists_swept {w : Wheel} (sound : w.Sound) {t : Nat} (hle : w.currentTimeIndex ≤ t >>> w.log2ClocksPerBin)
    (hjump : Moving.JumpOk w (t >>> w.log2ClocksPerBin)) :
    ∃ s, Swept w (t >>> w.log2ClocksPerBin) s ∧ w.move t =
      ((settle (t >>> w.log2ClocksPerBin) s).wheel, (settle (t >>> w.log2ClocksPerBin) s).expiredUserData) := by
  obtain ⟨L, r, he, hr⟩ := getLevelAndRelativeTime_reaches sound.bins t
  rw [move, he]
  dsimp only
  generalize t >>> w.log2ClocksPerBin = adv at *
  have hfirst : ∀ x, x >>> w.log2BinsPerWheel = x / w.binsPerWheel ^ (0 + 1) := by
    intro x
    rw [Nat.zero_add, Nat.pow_one]
    exact shift_eq_div x w.log2BinsPerWheel
  have hfuel : adv >>> w.log2BinsPerWheel ≤ adv + 1 := by
    rw [shift_eq_div]
    exact Nat.le_succ_of_le (Nat.div_le_self _ _)
  obtain ⟨hrefilled, hfrom⟩ := (Moving.Moves.start w adv).refillLevels sound.bins hle (hfirst _) (hfirst _) hfuel
  obtain ⟨hpassed, hgone, hkept⟩ := hrefilled.expirePassed ⟨sound.right, hjump, hle, hr⟩ fun f hf =>
    ((hfrom.elts f).1 hf).2
  have hnot (f : Filed) : ¬ Moving.Refilled w adv f ↔ (0 < f.level → Moving.Unvisited w adv f) := by
    rw [Moving.Refilled, not_and, not_not]
  refine ⟨_, ⟨hpassed, hkept, fun f => ?_, fun e => ?_⟩, rfl⟩
  · rw [hnot]
    constructor
    · intro hf
      refine ⟨hpassed.sub hf, (hkept f hf).2, ?_⟩
      by_contra hvisited
      exact hvisited ((hfrom.elts f).1 (hgone.sub hf)).2
    · exact fun ⟨hf, hlater, hun⟩ => hgone.later f ((hfrom.elts f).2 ⟨hf, hun⟩) hlater
  · rw [hgone.pending, hfrom.pending]
    constructor
    · rintro (he | ⟨f, hf, hpos, hvisited, he, hlater⟩)
      · exact absurd he not_mem_nil
      · exact ⟨f, hf, ⟨hpos, hvisited⟩, he, hlater⟩
    · exact fun ⟨f, hf, hrefilled, he, hlater⟩ => .inr ⟨f, hf, hrefilled.1, hrefilled.2, he, hlater⟩

theorem move_spec {w : Wheel} (sound : w.Sound) {t : Nat} (hle : w.currentTimeIndex ≤ t >>> w.log2ClocksPerBin)
    (hjump : Moving.JumpOk w (t >>> w.log2ClocksPerBin)) :
    Advanced w (t >>> w.log2ClocksPerBin) (w.move t).1 (w.move t).2 [] ∧
      ∀ x ∈ (w.move t).1.timers, t >>> w.log2ClocksPerBin < x.1 >>> w.log2ClocksPerBin := by
  obtain ⟨s, hswept, hmove⟩ := exists_swept sound hle hjump
  rw [hmove]
  exact hswept.moves.settled sound hle hswept.kept rfl

end Vpp.TimingWheel.Wheel
