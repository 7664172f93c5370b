import Vpp.TimingWheel.Advance

namespace Vpp.TimingWheel
open Vpp.Lib List

/-- A call on a wheel. The next time is asked for or not. -/
inductive Op where
  | insert (cpuTime userData : Nat)
  | delete (userData : Nat)
  | advance (cpuTime : Nat) (wantsNext : Bool)

namespace Timers

/-- Timers come due with the bin of level 0 that their time is in. -/
def isDue (log2ClocksPerBin cpuTime : Nat) (x : Nat × Nat) : Bool :=
  x.1 >>> log2ClocksPerBin ≤ cpuTime >>> log2ClocksPerBin

/-- The timers that are set and not yet due or deleted, and what a call returns. -/
def step (log2ClocksPerBin : Nat) (ts : List (Nat × Nat)) : Op → List (Nat × Nat) × List Nat
  | .insert t u => (ts ++ [(t, u)], [])
  | .delete u => (ts.filter fun x => x.2 ≠ u, [])
  | .advance t _ =>
    (ts.filter fun x => !isDue log2ClocksPerBin t x, (ts.filter (isDue log2ClocksPerBin t)).map Prod.snd)

def run (log2ClocksPerBin : Nat) : List (Nat × Nat) → List Op → List (List Nat)
  | _, [] => []
  | ts, op :: ops => (step log2ClocksPerBin ts op).2 :: run log2ClocksPerBin (step log2ClocksPerBin ts op).1 ops

def after (log2ClocksPerBin : Nat) (ts : List (Nat × Nat)) (ops : List Op) : List (Nat × Nat) :=
  ops.foldl (fun ts op => (step log2ClocksPerBin ts op).1) ts

end Timers

namespace Wheel

def step (w : Wheel) : Op → Wheel × List Nat
  | .insert t u => (w.timingWheelInsert t u, [])
  | .delete u => (w.timingWheelDelete u, [])
  | .advance t true => ((w.timingWheelAdvance t).1, (w.timingWheelAdvance t).2.1)
  | .advance t false => w.move t

def run : Wheel → List Op → List (List Nat)
  | _, [] => []
  | w, op :: ops => (w.step op).2 :: (w.step op).1.run ops

def Meets (cond : Wheel → Op → Prop) : Wheel → List Op → Prop
  | _, [] => True
  | w, op :: ops => cond w op ∧ Meets cond (w.step op).1 ops

/-- Timers are set for a later bin and time does not go back. -/
def InTime (w : Wheel) : Op → Prop
  | .insert t _ => w.currentTimeIndex < t >>> w.log2ClocksPerBin
  | .delete _ => True
  | .advance t _ => w.currentTimeIndex ≤ t >>> w.log2ClocksPerBin

/-- No advance goes a whole turn round a wheel above the lowest that is in use, unless it takes all of
its reach. -/
def NoTurn (w : Wheel) : Op → Prop
  | .advance t _ => Moving.JumpOk w (t >>> w.log2ClocksPerBin)
  | _ => True

instance (w : Wheel) : (op : Op) → Decidable (w.InTime op)
  | .insert _ _ => inferInstanceAs (Decidable (_ < _))
  | .delete _ => instDecidableTrue
  | .advance _ _ => inferInstanceAs (Decidable (_ ≤ _))

instance (w : Wheel) : (op : Op) → Decidable (w.NoTurn op)
  | .insert _ _ => instDecidableTrue
  | .delete _ => instDecidableTrue
  | .advance t _ => inferInstanceAs (Decidable (Moving.JumpOk w (t >>> w.log2ClocksPerBin)))

instance decidableMeets (cond : Wheel → Op → Prop) [∀ w op, Decidable (cond w op)] :
    (w : Wheel) → (ops : List Op) → Decidable (w.Meets cond ops)
  | _, [] => instDecidableTrue
  | w, op :: ops =>
    have := decidableMeets cond (w.step op).1 ops
    inferInstanceAs (Decidable (cond w op ∧ (w.step op).1.Meets cond ops))

variable {w : Wheel}

theorem Sound.filtered (h : w.Sound) (p : Filed → Bool) (q : OverflowElt → Bool) (deleted : List Nat) :
    Sound { w with elts := w.elts.filter p, overflowPool := w.overflowPool.filter q, deletedUserDataHash :=
      deleted } where
  bins := h.bins
  clocks := h.clocks
  bits := h.bits
  update := h.update
  base := h.base
  right := fun f hf => (h.right f (mem_of_mem_filter hf)).stays rfl rfl rfl (Nat.le_refl _)
  overflow := fun oe hoe => h.overflow oe (mem_of_mem_filter hoe)

theorem Sound.cached (h : w.Sound) (t : Nat) : Sound { w with cachedMinCpuTimeOnWheel := t } where
  bins := h.bins
  clocks := h.clocks
  bits := h.bits
  update := h.update
  base := h.base
  right := fun f hf => (h.right f hf).stays rfl rfl rfl (Nat.le_refl _)
  overflow := h.overflow

theorem Sound.deleted (h : w.Sound) (us : List Nat) : Sound { w with deletedUserDataHash := us } where
  bins := h.bins
  clocks := h.clocks
  bits := h.bits
  update := h.update
  base := h.base
  right := fun f hf => (h.right f hf).stays rfl rfl rfl (Nat.le_refl _)
  overflow := h.overflow

theorem removeDeleted_sound (h : w.Sound) (u : Nat) : (w.removeDeleted u).Sound := by
  rw [removeDeleted]
  split
  case isTrue => exact h.filtered _ _ _
  case isFalse => exact h

theorem eltIsDeleted_iff {u : Nat} : w.eltIsDeleted u = true ↔ u ∈ w.deletedUserDataHash :=
  decide_eq_true_iff

theorem removeDeleted_not_deleted (w : Wheel) (u : Nat) : (w.removeDeleted u).eltIsDeleted u = false := by
  rw [removeDeleted]
  split
  case isTrue => simp [eltIsDeleted]
  case isFalse h => exact Bool.eq_false_iff.2 h

theorem removeDeleted_pending (w : Wheel) (u : Nat) : (w.removeDeleted u).pending = w.pending := by
  rw [removeDeleted]
  split
  case isFalse => rfl
  case isTrue h =>
    have htimers : { w with
        elts := w.elts.filter fun f => f.elt.userData ≠ u
        overflowPool := w.overflowPool.filter fun oe => oe.userData ≠ u
        deletedUserDataHash := w.deletedUserDataHash.filter fun u' => u' ≠ u }.timers
          = w.timers.filter fun x => x.2 ≠ u := by
      rw [timers, timers, filter_append, onWheel, onWheel, List.filter_map, List.filter_map]
      rfl
    rw [pending, htimers, pending, List.filter_filter]
    apply filter_congr
    intro x _
    have hu := eltIsDeleted_iff.1 h
    by_cases hx : x.2 = u
    · simp [eltIsDeleted, hx, hu]
    · simp [eltIsDeleted, hx]

theorem timingWheelInsert_pending (w : Wheel) (t u : Nat) :
    (w.timingWheelInsert t u).pending.Perm (w.pending ++ [(t, u)]) := by
  have spec := timingWheelInsertHelper_spec (w.removeDeleted u) t u
  have hperm := spec.timers.filter fun x => !(w.removeDeleted u).eltIsDeleted x.2
  have hnew : [(t, u)].filter (fun x => !(w.removeDeleted u).eltIsDeleted x.2) = [(t, u)] := by
    simp [removeDeleted_not_deleted]
  have hdeleted : (w.timingWheelInsert t u).pending
      = ((w.removeDeleted u).timingWheelInsertHelper t u).timers.filter fun x =>
        !(w.removeDeleted u).eltIsDeleted x.2 :=
    filter_congr fun x _ => congrArg (!·) (spec.config.eltIsDeleted x.2)
  rw [filter_append, hnew] at hperm
  rw [hdeleted, ← removeDeleted_pending w u]
  exact hperm

theorem removeDeleted_clock (w : Wheel) (u : Nat) : (w.removeDeleted u).currentTimeIndex = w.currentTimeIndex := by
  rw [removeDeleted]
  split <;> rfl

theorem removeDeleted_clocks (w : Wheel) (u : Nat) : (w.removeDeleted u).log2ClocksPerBin = w.log2ClocksPerBin := by
  rw [removeDeleted]
  split <;> rfl

theorem removeDeleted_base (w : Wheel) (u : Nat) : (w.removeDeleted u).cpuTimeBase = w.cpuTimeBase := by
  rw [removeDeleted]
  split <;> rfl

theorem timingWheelInsert_config (w : Wheel) (t u : Nat) :
    (w.timingWheelInsert t u).log2ClocksPerBin = w.log2ClocksPerBin ∧
      (w.timingWheelInsert t u).currentTimeIndex = w.currentTimeIndex := by
  have spec := timingWheelInsertHelper_spec (w.removeDeleted u) t u
  exact ⟨spec.config.clocks.trans (removeDeleted_clocks w u), spec.clock.trans (removeDeleted_clock w u)⟩

theorem timingWheelInsert_sound (h : w.Sound) {t : Nat} (u : Nat)
    (hfuture : w.currentTimeIndex ≤ t >>> w.log2ClocksPerBin) (hbase : w.cpuTimeBase ≤ t) :
    (w.timingWheelInsert t u).Sound := by
  apply timingWheelInsertHelper_sound (removeDeleted_sound h u)
  · rw [removeDeleted_clock, removeDeleted_clocks]
    exact hfuture
  · rw [removeDeleted_base]
    exact hbase

theorem Sound.base_le_of_later (h : w.Sound) {t : Nat}
    (hlater : w.currentTimeIndex < t >>> w.log2ClocksPerBin) : w.cpuTimeBase ≤ t := by
  by_contra hlt
  have hshift : t >>> w.log2ClocksPerBin ≤ w.cpuTimeBase >>> w.log2ClocksPerBin := by
    rw [shift_eq_div, shift_eq_div]
    exact Nat.div_le_div_right (Nat.le_of_not_le hlt)
  have hbase := h.base
  omega

theorem timingWheelDelete_pending (w : Wheel) (u : Nat) :
    (w.timingWheelDelete u).pending = w.pending.filter fun x => x.2 ≠ u := by
  rw [pending, pending, List.filter_filter]
  apply filter_congr
  intro x _
  rw [timingWheelDelete]
  by_cases hu : w.eltIsDeleted u
  · have hmem := eltIsDeleted_iff.1 hu
    by_cases hx : x.2 = u
    · simp [eltIsDeleted, hx, hmem]
    · simp [eltIsDeleted, hx, hmem]
  · have hmem : u ∉ w.deletedUserDataHash := fun h => hu (eltIsDeleted_iff.2 h)
    by_cases hx : x.2 = u
    · simp [eltIsDeleted, hx, hmem]
    · simp [eltIsDeleted, hx, hmem]

structure Refines (w : Wheel) (ts : List (Nat × Nat)) : Prop where
  sound : w.Sound
  pending : w.pending.Perm ts

theorem Refines.cached (h : Refines w ts) (t : Nat) : Refines { w with cachedMinCpuTimeOnWheel := t } ts :=
  ⟨h.sound.cached t, h.pending⟩

theorem perm_split {all as bs : List α} {p : α → Bool} (h : all.Perm (as ++ bs)) (has : ∀ x ∈ as, p x = false)
    (hbs : ∀ x ∈ bs, p x = true) : as.Perm (all.filter fun x => !p x) ∧ bs.Perm (all.filter p) := by
  have hasOut : as.filter p = [] := filter_eq_nil_iff.2 fun x hx => by simp [has x hx]
  have hasIn : as.filter (fun x => !p x) = as := filter_eq_self.2 fun x hx => by simp [has x hx]
  have hbsOut : bs.filter (fun x => !p x) = [] := filter_eq_nil_iff.2 fun x hx => by simp [hbs x hx]
  have hbsIn : bs.filter p = bs := filter_eq_self.2 hbs
  have hout := h.filter fun x => !p x
  have hin := h.filter p
  rw [filter_append, hasIn, hbsOut, append_nil] at hout
  rw [filter_append, hasOut, hbsIn, nil_append] at hin
  exact ⟨hout.symm, hin.symm⟩

theorem Advanced.pending_perm {w v : Wheel} (h : Advanced w adv v expired [])
    (later : ∀ x ∈ v.timers, adv < x.1 >>> w.log2ClocksPerBin) :
    v.pending.Perm (w.pending.filter fun x => !decide (x.1 >>> w.log2ClocksPerBin ≤ adv)) ∧
      expired.Perm ((w.pending.filter fun x => x.1 >>> w.log2ClocksPerBin ≤ adv).map Prod.snd) := by
  obtain ⟨due, hacc⟩ := h.account
  have hdeleted : v.pending = v.timers.filter fun x => !w.eltIsDeleted x.2 :=
    filter_congr fun x _ => congrArg (!·) (h.config.eltIsDeleted x.2)
  have hpending := hacc.stored.filter fun x => !w.eltIsDeleted x.2
  rw [nil_append, filter_append, ← hdeleted] at hpending
  have hv : ∀ x ∈ v.pending, ¬ x.1 >>> w.log2ClocksPerBin ≤ adv := fun x hx =>
    Nat.not_le_of_lt (later x (mem_of_mem_filter hx))
  have hd : ∀ x ∈ due.filter fun x => !w.eltIsDeleted x.2, x.1 >>> w.log2ClocksPerBin ≤ adv := fun x hx =>
    hacc.due x (mem_of_mem_filter hx)
  obtain ⟨hkept, hdue⟩ := perm_split (p := fun x => decide (x.1 >>> w.log2ClocksPerBin ≤ adv)) hpending
    (fun x hx => decide_eq_false (hv x hx)) (fun x hx => decide_eq_true (hd x hx))
  have hreturned : expired = (due.filter fun x => !w.eltIsDeleted x.2).map Prod.snd := by
    rw [hacc.returned, List.filter_map]
    rfl
  rw [hreturned]
  exact ⟨hkept, hdue.map Prod.snd⟩

theorem timingWheelAdvance_wheel (w : Wheel) (t : Nat) : (w.timingWheelAdvance t).1
    = { (w.move t).1 with cachedMinCpuTimeOnWheel := (w.move t).1.nextExpiry (w.move t).2 } := by
  rw [timingWheelAdvance]

theorem timingWheelAdvance_expired (w : Wheel) (t : Nat) : (w.timingWheelAdvance t).2.1 = (w.move t).2 := by
  rw [timingWheelAdvance]

theorem Refines.move (h : Refines w ts) (t : Nat) (wantsNext : Bool)
    (hin : w.currentTimeIndex ≤ t >>> w.log2ClocksPerBin) (hturn : Moving.JumpOk w (t >>> w.log2ClocksPerBin)) :
    Refines (w.move t).1 (Timers.step w.log2ClocksPerBin ts (.advance t wantsNext)).1 ∧
      (w.move t).2.Perm (Timers.step w.log2ClocksPerBin ts (.advance t wantsNext)).2 ∧
      (w.move t).1.log2ClocksPerBin = w.log2ClocksPerBin := by
  obtain ⟨hadvanced, hlater⟩ := move_spec h.sound hin hturn
  obtain ⟨hkept, hreturned⟩ := hadvanced.pending_perm hlater
  have hstays := h.pending.filter fun x => !Timers.isDue w.log2ClocksPerBin t x
  have hdue := (h.pending.filter (Timers.isDue w.log2ClocksPerBin t)).map Prod.snd
  exact ⟨⟨hadvanced.sound, hkept.trans hstays⟩, hreturned.trans hdue, hadvanced.config.clocks⟩

theorem Refines.step (h : Refines w ts) {op : Op} (hin : w.InTime op) (hturn : w.NoTurn op) :
    Refines (w.step op).1 (Timers.step w.log2ClocksPerBin ts op).1 ∧
      (w.step op).2.Perm (Timers.step w.log2ClocksPerBin ts op).2 ∧
      (w.step op).1.log2ClocksPerBin = w.log2ClocksPerBin := by
  cases op with
  | insert t u =>
    have hsound := timingWheelInsert_sound h.sound u (Nat.le_of_lt hin) (h.sound.base_le_of_later hin)
    have hpending := (timingWheelInsert_pending w t u).trans (h.pending.append_right [(t, u)])
    exact ⟨⟨hsound, hpending⟩, .refl _, (timingWheelInsert_config w t u).1⟩
  | delete u =>
    have hpending := h.pending.filter fun x => x.2 ≠ u
    rw [← timingWheelDelete_pending] at hpending
    exact ⟨⟨h.sound.deleted _, hpending⟩, .refl _, rfl⟩
  | advance t wantsNext =>
    obtain ⟨hrefines, hreturned, hclocks⟩ := h.move t wantsNext hin hturn
    cases wantsNext with
    | false => exact ⟨hrefines, hreturned, hclocks⟩
    | true =>
      rw [Wheel.step, timingWheelAdvance_wheel, timingWheelAdvance_expired]
      exact ⟨hrefines.cached _, hreturned, hclocks⟩

theorem Refines.run (h : Refines w ts) {ops : List Op} (hin : w.Meets InTime ops)
    (hturn : w.Meets NoTurn ops) : List.Forall₂ List.Perm (w.run ops) (Timers.run w.log2ClocksPerBin ts ops) := by
  induction ops generalizing w ts with
  | nil => exact .nil
  | cons op ops ih =>
    obtain ⟨hrefines, hreturned, hclocks⟩ := h.step hin.1 hturn.1
    have hrest := ih hrefines hin.2 hturn.2
    rw [hclocks] at hrest
    exact .cons hreturned hrest

/-- **Delivery**: where every advance goes less than a turn round the wheels that are in use above the lowest,
or past all of their reach, each advance of a run returns just the timers that came due with it. -/
theorem timingWheel_delivers {N M B : Nat} (hM : 0 < M) (hN : N ≤ B) (hB : B ≤ 31) (now : Nat) (ops : List Op)
    (hin : (timingWheelInit N M B now).Meets InTime ops) (hturn : (timingWheelInit N M B now).Meets NoTurn ops) :
    List.Forall₂ List.Perm ((timingWheelInit N M B now).run ops) (Timers.run N [] ops) := by
  have hinit : Refines (timingWheelInit N M B now) [] := ⟨timingWheelInit_sound hM hN hB now, .refl _⟩
  exact hinit.run hin hturn

theorem timingWheel_delivers_one :
    (timingWheelInit 0 2 31 0).Meets InTime [.insert 5 7, .advance 4 true, .advance 6 true] ∧
      List.Forall₂ List.Perm
        ((timingWheelInit 0 2 31 0).run [.insert 5 7, .advance 4 true, .advance 6 true])
        (Timers.run 0 [] [.insert 5 7, .advance 4 true, .advance 6 true]) := by
  have hin : (timingWheelInit 0 2 31 0).Meets InTime [.insert 5 7, .advance 4 true, .advance 6 true] := by
    decide
  exact ⟨hin, timingWheel_delivers (by decide) (by decide) (by decide) 0 _ hin (by decide)⟩

/-- A timer for 16, an advance to 1 and one to 16: the wheel of level 1 goes round once, its last digit is
the same, and the timer is not returned. -/
theorem timingWheel_late :
    (timingWheelInit 0 2 31 0).Meets InTime [.insert 16 7, .advance 1 true, .advance 16 true] ∧
      (timingWheelInit 0 2 31 0).run [.insert 16 7, .advance 1 true, .advance 16 true] = [[], [], []] ∧
      Timers.run 0 [] [.insert 16 7, .advance 1 true, .advance 16 true] = [[], [], [7]] := by
  decide

end Wheel

end Vpp.TimingWheel
