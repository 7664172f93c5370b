import Vpp.TimingWheel.Delivery

namespace Vpp.TimingWheel.Wheel
open Vpp.Lib List

structure Placed where
  level : Nat
  bin : Nat
  cpuTime : Nat
  userData : Nat
  deriving DecidableEq

def place (w : Wheel) (f : Filed) : Placed := ⟨f.level, f.bin, w.eltCpuTime f.elt, f.elt.userData⟩

def placed (w : Wheel) : List Placed := w.elts.map w.place

/-- The current bin of a level at the time index `now`. -/
def wheelIndexAt (w : Wheel) (now levelIndex : Nat) :
    Nat := (now >>> (levelIndex * w.log2BinsPerWheel)) % w.binsPerWheel

/-- The bin that a timer is given at the time index `now`. -/
def freshPlace (w : Wheel) (now cpuTime userData : Nat) : Placed :=
  let dt := cpuTime >>> w.log2ClocksPerBin - now
  let (levelIndex, rtime) := levelLoop w.log2BinsPerWheel dt 0 dt
  ⟨levelIndex, (w.wheelIndexAt now levelIndex + rtime) % w.binsPerWheel, cpuTime, userData⟩

/-- A timer keeps its bin while the clock goes to `adv`, unless its level is refilled past that bin. -/
def placeAfter (w : Wheel) (adv : Nat) (f : Filed) : Placed :=
  if Moving.Refilled w adv f then w.freshPlace adv (w.eltCpuTime f.elt) f.elt.userData else w.place f

def baseAfter (w : Wheel) (adv : Nat) : Nat :=
  w.cpuTimeBase + 2 ^ w.nWheelEltTimeBits
    * ((adv - w.cpuTimeBase >>> w.log2ClocksPerBin) / 2 ^ (w.nWheelEltTimeBits - w.log2ClocksPerBin))

/-- An overflow element comes on the wheel if it is not due and 32 bits hold its time after the base. -/
def comesOn (w : Wheel) (adv base : Nat) (oe : OverflowElt) : Bool :=
  adv < oe.cpuTime >>> w.log2ClocksPerBin ∧ oe.cpuTime - base < 2 ^ 32

def comingOn (w : Wheel) (adv base : Nat) (pool : List OverflowElt) : List Placed :=
  (pool.filter (w.comesOn adv base)).map fun oe => w.freshPlace adv oe.cpuTime oe.userData

/-- Where the timers are that are in the bins when the clock is at `adv`. -/
def placedAfter (w : Wheel) (adv : Nat) : List Placed :=
  (w.elts.filter fun f => adv < w.eltTimeIndex f.elt).map (w.placeAfter adv)
    ++ w.comingOn adv (w.baseAfter adv) w.overflowPool

variable {w v : Wheel}

theorem wheelIndexAt_congr (h : SameConfig w v) (now levelIndex : Nat) :
    v.wheelIndexAt now levelIndex = w.wheelIndexAt now levelIndex := by
  rw [wheelIndexAt, wheelIndexAt, binsPerWheel, binsPerWheel, h.bins]

theorem freshPlace_congr (h : SameConfig w v) (now t u : Nat) :
    v.freshPlace now t u = w.freshPlace now t u := by
  simp only [freshPlace, binsPerWheel, h.clocks, h.bins, wheelIndexAt_congr h]

theorem comingOn_congr (h : SameConfig w v) (adv base : Nat) (pool : List OverflowElt) :
    v.comingOn adv base pool = w.comingOn adv base pool := by
  have hfresh : (fun oe : OverflowElt => v.freshPlace adv oe.cpuTime oe.userData)
      = fun oe => w.freshPlace adv oe.cpuTime oe.userData := funext fun oe => freshPlace_congr h adv _ _
  have hcomes : v.comesOn adv base = w.comesOn adv base := by
    funext oe
    rw [comesOn, comesOn, h.clocks]
  rw [comingOn, comingOn, hfresh, hcomes]

variable {w : Wheel}

theorem comesOn_iff {adv base : Nat} {oe : OverflowElt} : w.comesOn adv base oe = true ↔
    adv < oe.cpuTime >>> w.log2ClocksPerBin ∧ oe.cpuTime - base < 2 ^ 32 := decide_eq_true_iff

theorem mem_comingOn {q : Placed} {adv base : Nat} {pool : List OverflowElt} :
    q ∈ w.comingOn adv base pool ↔ ∃ oe ∈ pool, w.comesOn adv base oe = true ∧
      w.freshPlace adv oe.cpuTime oe.userData = q := by
  simp only [comingOn, List.mem_map, mem_filter, and_assoc]

theorem timingWheelInsertHelper_placed {t u : Nat} (hfits : w.fits t) :
    (w.timingWheelInsertHelper t u).placed = w.placed ++ [w.freshPlace w.currentTimeIndex t u] ∧
      (w.timingWheelInsertHelper t u).overflowPool = w.overflowPool := by
  have htime : w.eltCpuTime ⟨t - w.cpuTimeBase, u⟩ = t := Nat.add_sub_cancel' hfits.1
  rw [timingWheelInsertHelper]
  dsimp only
  rw [if_pos hfits]
  refine ⟨?_, rfl⟩
  have hadd : (w.insertHelper (w.getLevelAndRelativeTime t).1 (w.getLevelAndRelativeTime t).2
      ⟨t - w.cpuTimeBase, u⟩).placed = w.placed ++ [w.place ⟨(w.getLevelAndRelativeTime t).1,
        w.rtimeToWheelIndex (w.getLevelAndRelativeTime t).1 (w.getLevelAndRelativeTime t).2,
        ⟨t - w.cpuTimeBase, u⟩⟩] := map_append
  have hfresh : w.place ⟨(w.getLevelAndRelativeTime t).1,
      w.rtimeToWheelIndex (w.getLevelAndRelativeTime t).1 (w.getLevelAndRelativeTime t).2,
      ⟨t - w.cpuTimeBase, u⟩⟩ = w.freshPlace w.currentTimeIndex t u := by
    rw [place, htime]
    rfl
  rw [← hfresh]
  exact hadd

theorem insertPendings_placed {es : List Elt} (hword : ∀ e ∈ es, e.cpuTimeRelativeToBase < 2 ^ 32) :
    (es.foldl (fun w e => w.timingWheelInsertHelper (w.eltCpuTime e) e.userData) w).placed
        = w.placed ++ es.map (fun e => w.freshPlace w.currentTimeIndex (w.eltCpuTime e) e.userData) ∧
      (es.foldl (fun w e => w.timingWheelInsertHelper (w.eltCpuTime e) e.userData) w).overflowPool
        = w.overflowPool := by
  induction es generalizing w with
  | nil => exact ⟨(append_nil _).symm, rfl⟩
  | cons e es ih =>
    have hfits : w.fits (w.eltCpuTime e) := by
      refine ⟨Nat.le_add_right _ _, ?_⟩
      rw [eltCpuTime, Nat.add_sub_cancel_left]
      exact hword e mem_cons_self
    have spec := timingWheelInsertHelper_spec w (w.eltCpuTime e) e.userData
    obtain ⟨hplaced, hpool⟩ := timingWheelInsertHelper_placed (u := e.userData) hfits
    obtain ⟨hrest, hrestPool⟩ := ih (w := w.timingWheelInsertHelper (w.eltCpuTime e) e.userData)
      fun e' he => hword e' (mem_cons_of_mem e he)
    have hsame : (fun e' : Elt => (w.timingWheelInsertHelper (w.eltCpuTime e) e.userData).freshPlace
        (w.timingWheelInsertHelper (w.eltCpuTime e) e.userData).currentTimeIndex
        ((w.timingWheelInsertHelper (w.eltCpuTime e) e.userData).eltCpuTime e') e'.userData)
          = fun e' => w.freshPlace w.currentTimeIndex (w.eltCpuTime e') e'.userData := by
      funext e'
      have htime : (w.timingWheelInsertHelper (w.eltCpuTime e) e.userData).eltCpuTime e' = w.eltCpuTime e' :=
        congrArg (· + e'.cpuTimeRelativeToBase) spec.base
      rw [freshPlace_congr spec.config, spec.clock, htime]
    rw [foldl_cons, hrest, hrestPool, hplaced, hpool, hsame, map_cons, List.append_assoc]
    exact ⟨rfl, rfl⟩

/-- When the elements that wait are inserted again, all timers in the bins that are not due have their new places. -/
theorem Swept.placed {s : Moving} (h : Swept w adv s) (sound : w.Sound) {q : Placed} :
    (q ∈ (Moving.insertPending { s with wheel := { s.wheel with currentTimeIndex := adv } }).wheel.placed ↔
      q ∈ (w.elts.filter fun f => adv < w.eltTimeIndex f.elt).map (w.placeAfter adv)) ∧
      (Moving.insertPending { s with wheel := { s.wheel with currentTimeIndex := adv } }).wheel.overflowPool
        = w.overflowPool := by
  have hword : ∀ e ∈ s.unexpiredEltsPendingInsert, e.cpuTimeRelativeToBase < 2 ^ 32 := by
    intro e he
    obtain ⟨f, hf, _, rfl, _⟩ := (h.pending e).1 he
    exact (sound.right f hf).word
  have hw : { s.wheel with currentTimeIndex := adv } = { w with elts := s.wheel.elts, currentTimeIndex := adv } := by
    rw [h.moves.wheel]
  obtain ⟨hplaced, hpool⟩ := insertPendings_placed
    (w := { w with elts := s.wheel.elts, currentTimeIndex := adv }) hword
  rw [Moving.insertPending, hw]
  refine ⟨?_, hpool⟩
  have hplace : ({ w with elts := s.wheel.elts, currentTimeIndex := adv } : Wheel).placed =
      s.wheel.elts.map w.place := rfl
  rw [hplaced, hplace]
  simp only [mem_append, List.mem_map, mem_filter, decide_eq_true_iff]
  constructor
  · rintro (⟨f, hf, rfl⟩ | ⟨e, he, rfl⟩)
    · obtain ⟨hmem, hlater, hnot⟩ := (h.elts f).1 hf
      exact ⟨f, ⟨hmem, hlater⟩, if_neg hnot⟩
    · obtain ⟨f, hf, hrefilled, rfl, hlater⟩ := (h.pending e).1 he
      exact ⟨f, ⟨hf, hlater⟩, if_pos hrefilled⟩
  · rintro ⟨f, ⟨hf, hlater⟩, rfl⟩
    rw [placeAfter]
    split
    case isTrue hrefilled => exact .inr ⟨f.elt, (h.pending f.elt).2 ⟨f, hf, hrefilled, rfl, hlater⟩, rfl⟩
    case isFalse hnot => exact .inl ⟨f, (h.elts f).2 ⟨hf, hlater, hnot⟩, rfl⟩

/-- The timers in the bins at `adv`, and those of the overflow pool and of `pool` that come on by `base`. -/
def Comes (w : Wheel) (adv base : Nat) (pool : List OverflowElt) (q : Placed) : Prop :=
  q ∈ w.placed ∨ q ∈ w.comingOn adv base w.overflowPool ∨ q ∈ w.comingOn adv base pool

theorem fitOverflow_comes {s : Moving} {adv base : Nat} {oe : OverflowElt} {pool : List OverflowElt} {q : Placed}
    (hclock : s.wheel.currentTimeIndex = adv) (hbase : s.wheel.cpuTimeBase ≤ base) :
    Comes (s.fitOverflow oe).wheel adv base pool q ↔ Comes s.wheel adv base (oe :: pool) q := by
  have hcons : q ∈ s.wheel.comingOn adv base (oe :: pool) ↔
      (s.wheel.comesOn adv base oe = true ∧ s.wheel.freshPlace adv oe.cpuTime oe.userData = q) ∨
        q ∈ s.wheel.comingOn adv base pool := by
    simp only [mem_comingOn, mem_cons, exists_eq_or_imp]
  rw [Comes, Comes, hcons, Moving.fitOverflow]
  dsimp only
  split
  case isTrue hfits =>
    split
    case isTrue hdue =>
      have hnot : ¬ s.wheel.comesOn adv base oe = true := by
        rw [comesOn_iff, ← hclock]
        omega
      rw [or_iff_right (not_and_of_not_left _ hnot)]
    case isFalse hlater =>
      have hcomes : s.wheel.comesOn adv base oe = true := by
        rw [comesOn_iff, ← hclock]
        have := hfits.2
        omega
      obtain ⟨hplaced, hpool⟩ := timingWheelInsertHelper_placed (u := oe.userData) hfits
      have hconfig := (timingWheelInsertHelper_spec s.wheel oe.cpuTime oe.userData).config
      dsimp only
      rw [hplaced, hpool, comingOn_congr hconfig, comingOn_congr hconfig, hclock, mem_append,
        mem_singleton, eq_comm (a := q), and_iff_right hcomes, or_assoc, or_left_comm (b := _ ∈ _)]
  case isFalse =>
    have hkept : q ∈ s.wheel.comingOn adv base (s.wheel.overflowPool ++ [oe]) ↔
        q ∈ s.wheel.comingOn adv base s.wheel.overflowPool ∨
          (s.wheel.comesOn adv base oe = true ∧ s.wheel.freshPlace adv oe.cpuTime oe.userData = q) := by
      simp only [mem_comingOn, mem_append, mem_singleton, or_and_right, exists_or, exists_eq_left]
    have hsame : SameConfig s.wheel { s.wheel with overflowPool := s.wheel.overflowPool ++ [oe] } :=
      ⟨rfl, rfl, rfl, rfl⟩
    dsimp only
    rw [comingOn_congr hsame, comingOn_congr hsame, hkept, or_assoc (b := _ ∧ _)]
    rfl

theorem fitOverflow_same (s : Moving) (oe : OverflowElt) : SameConfig s.wheel (s.fitOverflow oe).wheel ∧
    (s.fitOverflow oe).wheel.currentTimeIndex = s.wheel.currentTimeIndex ∧
      (s.fitOverflow oe).wheel.cpuTimeBase = s.wheel.cpuTimeBase := by
  have spec := timingWheelInsertHelper_spec s.wheel oe.cpuTime oe.userData
  rw [Moving.fitOverflow]
  split
  case isTrue =>
    split
    case isTrue => exact ⟨.refl _, rfl, rfl⟩
    case isFalse => exact ⟨spec.config, spec.clock, spec.base⟩
  case isFalse => exact ⟨⟨rfl, rfl, rfl, rfl⟩, rfl, rfl⟩

theorem fitOverflows_comes {s : Moving} {adv base : Nat} {l : List OverflowElt} {q : Placed}
    (hclock : s.wheel.currentTimeIndex = adv) (hbase : s.wheel.cpuTimeBase ≤ base) :
    (Comes (l.foldl Moving.fitOverflow s).wheel adv base [] q ↔ Comes s.wheel adv base l q) ∧
      SameConfig s.wheel (l.foldl Moving.fitOverflow s).wheel ∧
      (l.foldl Moving.fitOverflow s).wheel.cpuTimeBase = s.wheel.cpuTimeBase := by
  induction l generalizing s with
  | nil => exact ⟨Iff.rfl, .refl _, rfl⟩
  | cons oe l ih =>
    obtain ⟨hconfig, hsame, hsameBase⟩ := fitOverflow_same s oe
    obtain ⟨hcomes, hrest, hrestBase⟩ := ih (hsame.trans hclock) (hsameBase.trans_le hbase)
    exact ⟨hcomes.trans (fitOverflow_comes hclock hbase), hconfig.trans hrest, hrestBase.trans hsameBase⟩

theorem baseAfter_congr (h : SameConfig w v) (hbase : v.cpuTimeBase = w.cpuTimeBase) (adv : Nat) :
    v.baseAfter adv = w.baseAfter adv := by
  rw [baseAfter, baseAfter, h.bits, h.clocks, hbase]

theorem rebase_baseAfter {v : Wheel} (sound : v.Sound) (hnext : v.timeIndexNextCpuTimeBaseUpdate ≤ adv) :
    (Moving.rebase v).baseAfter adv = v.baseAfter adv := by
  have hpos : 0 < 2 ^ (v.nWheelEltTimeBits - v.log2ClocksPerBin) := Nat.two_pow_pos _
  rw [sound.update] at hnext
  have hstep := Nat.div_eq_sub_div hpos
    (show 2 ^ (v.nWheelEltTimeBits - v.log2ClocksPerBin) ≤ adv - v.cpuTimeBase >>> v.log2ClocksPerBin by omega)
  rw [baseAfter, baseAfter, rebase_cpuTimeBase, rebase_clocks, rebase_bits, shift_add_pow sound.clocks, hstep,
    Nat.mul_add, Nat.mul_one, Nat.sub_add_eq]
  omega

theorem Sound.baseAfter_eq {v : Wheel} (sound : v.Sound) (hnext : adv < v.timeIndexNextCpuTimeBaseUpdate) :
    v.baseAfter adv = v.cpuTimeBase := by
  have hpos : 0 < 2 ^ (v.nWheelEltTimeBits - v.log2ClocksPerBin) := Nat.two_pow_pos _
  rw [sound.update] at hnext
  rw [baseAfter, Nat.div_eq_of_lt (by omega), Nat.mul_zero, Nat.add_zero]

theorem le_baseAfter (w : Wheel) (adv : Nat) : w.cpuTimeBase ≤ w.baseAfter adv := Nat.le_add_right _ _

theorem Advanced.rebased_placed (h : Advanced w adv v expired rest)
    (hnext : v.timeIndexNextCpuTimeBaseUpdate ≤ adv) : (Moving.rebase v).placed = v.placed := by
  rw [placed, rebase_elts, List.map_map]
  apply map_congr_left
  intro f hf
  rw [Function.comp_apply, place, place, h.rebased_eltCpuTime hnext hf, rebaseElt_level, rebaseElt_bin,
    rebaseElt_userData]

theorem advanceCpuTimeBase_comes {s : Moving} (h : Advanced w adv s.wheel s.expiredUserData [])
    (hnext : s.wheel.timeIndexNextCpuTimeBaseUpdate ≤ adv) {q : Placed} :
    (Comes s.advanceCpuTimeBase.wheel adv (s.wheel.baseAfter adv) [] q ↔
      Comes s.wheel adv (s.wheel.baseAfter adv) [] q) ∧
      s.advanceCpuTimeBase.wheel.baseAfter adv = s.wheel.baseAfter adv := by
  have hsame : SameConfig s.wheel (Moving.rebase s.wheel) :=
    ⟨rebase_clocks _, rebase_bins _, rebase_bits _, rebase_deleted _⟩
  have hempty : SameConfig s.wheel { Moving.rebase s.wheel with overflowPool := [] } :=
    ⟨hsame.clocks, hsame.bins, hsame.bits, hsame.deleted⟩
  have hbase := rebase_baseAfter h.sound hnext
  obtain ⟨hcomes, hconfig, hcpu⟩ := fitOverflows_comes
    (s := { s with wheel := { Moving.rebase s.wheel with overflowPool := [] } }) (l := s.wheel.overflowPool)
    (q := q) ((rebase_clock s.wheel).trans h.clock) ((le_baseAfter _ adv).trans_eq hbase)
  refine ⟨hcomes.trans ?_, (baseAfter_congr hconfig hcpu adv).trans hbase⟩
  have hplaced : ({ Moving.rebase s.wheel with overflowPool := [] } : Wheel).placed = s.wheel.placed :=
    h.rebased_placed hnext
  rw [Comes, Comes, hplaced, comingOn_congr hempty, comingOn_congr hempty]
  simp only [comingOn, filter_nil, map_nil, not_mem_nil, or_false, false_or]

theorem advanceBases_comes {s : Moving} (fuel : Nat) (h : Advanced w adv s.wheel s.expiredUserData [])
    {q : Placed} :
    (Comes (s.advanceBases fuel).wheel adv (s.wheel.baseAfter adv) [] q ↔
      Comes s.wheel adv (s.wheel.baseAfter adv) [] q) ∧
      (s.advanceBases fuel).wheel.baseAfter adv = s.wheel.baseAfter adv := by
  induction fuel generalizing s with
  | zero => exact ⟨Iff.rfl, rfl⟩
  | succ fuel ih =>
    rw [Moving.advanceBases, h.clock]
    split
    case isTrue hnext =>
      obtain ⟨hcomes, hbase⟩ := advanceCpuTimeBase_comes (q := q) h hnext
      obtain ⟨hrest, hrestBase⟩ := ih (advanceCpuTimeBase_spec h hnext).1
      rw [hbase] at hrest hrestBase
      exact ⟨hrest.trans hcomes, hrestBase⟩
    case isFalse => exact ⟨Iff.rfl, rfl⟩

theorem Sound.comes_iff {v : Wheel} (sound : v.Sound) {q : Placed} :
    Comes v adv v.cpuTimeBase [] q ↔ q ∈ v.placed := by
  have hnone : v.comingOn adv v.cpuTimeBase v.overflowPool = [] := by
    rw [comingOn, map_eq_nil_iff, filter_eq_nil_iff]
    intro oe hoe
    rw [comesOn_iff]
    have := sound.overflow oe hoe
    omega
  rw [Comes, hnone]
  simp only [comingOn, filter_nil, map_nil, not_mem_nil, or_false]

/-- **Places**: after an advance each timer in the bins is where its time and its bin before say. -/
theorem move_placed (sound : w.Sound) {t : Nat} (hle : w.currentTimeIndex ≤ t >>> w.log2ClocksPerBin)
    (hjump : Moving.JumpOk w (t >>> w.log2ClocksPerBin)) {q : Placed} :
    q ∈ (w.move t).1.placed ↔ q ∈ w.placedAfter (t >>> w.log2ClocksPerBin) := by
  obtain ⟨s, hswept, hmove⟩ := exists_swept sound hle hjump
  rw [hmove, settle]
  generalize t >>> w.log2ClocksPerBin = adv at *
  obtain ⟨due, hacc⟩ := hswept.moves.account
  have hbase : s.wheel.cpuTimeBase = w.cpuTimeBase := (congrArg Wheel.cpuTimeBase hswept.moves.wheel).trans rfl
  obtain ⟨hinserted, hsameBase⟩ := insertPending_spec (hswept.moves.advanced sound hle hswept.kept) hbase hacc.later
  obtain ⟨hplaced, hpool⟩ := hswept.placed sound (q := q)
  generalize hs : Moving.insertPending { s with wheel := { s.wheel with currentTimeIndex := adv } } =
      s' at hplaced hpool
  have hadvanced : Advanced w adv s'.wheel s'.expiredUserData [] := hs ▸ hinserted
  have hafter : s'.wheel.baseAfter adv = w.baseAfter adv := baseAfter_congr hadvanced.config (hs ▸ hsameBase) adv
  obtain ⟨hcomes, hfinal⟩ := advanceBases_comes (adv + 1) hadvanced (q := q)
  obtain ⟨hsettled, hnext⟩ := advanceBases_spec (adv + 1) hadvanced (by omega)
  rw [hsettled.sound.baseAfter_eq hnext, hafter] at hfinal
  rw [hafter, ← hfinal, hsettled.sound.comes_iff, hfinal, Comes, hplaced, hpool, comingOn_congr hadvanced.config,
    comingOn_congr hadvanced.config] at hcomes
  rw [hcomes, placedAfter, mem_append]
  simp only [comingOn, filter_nil, map_nil, not_mem_nil, or_false]

end Vpp.TimingWheel.Wheel
