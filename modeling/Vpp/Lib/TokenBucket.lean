import Mathlib.Algebra.BigOperators.Group.List.Basic
import Mathlib.Tactic.Ring

namespace Vpp.Lib

/-- A bucket that holds at most `limit` tokens and gains `rate` in each period: from `level`, the
steps of a trace are a number of periods that pass and the tokens then spent. -/
inductive Bucket (limit rate : Nat) : Nat → List (Nat × Nat) → Nat → Prop
  | nil : Bucket limit rate level [] level
  | cons : mid + spent ≤ limit → mid + spent ≤ level + rate * gap →
      Bucket limit rate mid trace last → Bucket limit rate level ((gap, spent) :: trace) last

def spentIn (trace : List (Nat × Nat)) : Nat := (trace.map Prod.snd).sum

def periodsIn (trace : List (Nat × Nat)) : Nat := (trace.map Prod.fst).sum

theorem Bucket.spent_le (h : Bucket limit rate level trace last) :
    last + spentIn trace ≤ level + rate * periodsIn trace := by
  induction h with
  | nil => exact Nat.le_refl _
  | cons _ hgain _ ih =>
    simp only [spentIn, periodsIn, List.map_cons, List.sum_cons, Nat.mul_add] at ih ⊢
    omega

theorem Bucket.burst_le (h : Bucket limit rate level ((gap, spent) :: trace) last) :
    last + spentIn ((gap, spent) :: trace) ≤ limit + rate * periodsIn trace := by
  cases h with
  | cons hlimit _ hrest =>
    have hle := hrest.spent_le
    simp only [spentIn, List.map_cons, List.sum_cons] at hle ⊢
    omega

theorem Bucket.last_le (h : Bucket limit rate level trace last) (hl : level ≤ limit) : last ≤ limit := by
  induction h with
  | nil => exact hl
  | cons hlimit _ _ ih => exact ih (by omega)

end Vpp.Lib
