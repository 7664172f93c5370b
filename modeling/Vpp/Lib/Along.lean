import Mathlib.Data.List.Basic

namespace Vpp.Lib
open List

variable {step : σ → α → σ} {P : σ → Prop} {xs ys : List α}

/-- `P` holds at the start and after every step. -/
def Along (step : σ → α → σ) (P : σ → Prop) : σ → List α → Prop
  | s, [] => P s
  | s, x :: xs => P s ∧ Along step P (step s x) xs

theorem along_iff_prefix : Along step P s xs ↔ ∀ pre, pre <+: xs → P (pre.foldl step s) := by
  induction xs generalizing s with
  | nil =>
    constructor
    · intro h pre hpre
      rw [prefix_nil.mp hpre]
      exact h
    · intro h
      exact h [] nil_prefix
  | cons x xs ih =>
    rw [Along, ih]
    constructor
    · intro ⟨hs, hrest⟩ pre hpre
      cases pre with
      | nil => exact hs
      | cons y pre =>
        obtain ⟨rfl, hpre'⟩ := cons_prefix_cons.mp hpre
        exact hrest pre hpre'
    · intro h
      refine ⟨h [] nil_prefix, fun pre hpre => ?_⟩
      exact h (x :: pre) (cons_prefix_cons.mpr ⟨rfl, hpre⟩)

theorem Along.append (h : Along step P s xs) (hrest : Along step P (xs.foldl step s) ys) :
    Along step P s (xs ++ ys) := by
  induction xs generalizing s with
  | nil => exact hrest
  | cons x xs ih => exact ⟨h.1, ih h.2 hrest⟩

theorem along_of_keeps {Q : σ → Prop} (hQ : ∀ s, Q s → P s) (hstep : ∀ x ∈ xs, ∀ s, Q s → Q (step s x)) (hs : Q s) :
    Along step P s xs ∧ Q (xs.foldl step s) := by
  induction xs generalizing s with
  | nil => exact ⟨hQ s hs, hs⟩
  | cons x xs ih =>
    obtain ⟨hrest, hend⟩ := ih (fun y hy => hstep y (mem_cons_of_mem _ hy)) (hstep x mem_cons_self s hs)
    exact ⟨⟨hQ s hs, hrest⟩, hend⟩

end Vpp.Lib
