import Mathlib.Data.List.Basic
import Mathlib.Data.List.GetD

namespace Vpp.Lib
open List

abbrev Block := Nat × Nat

def Block.Apart (a b : Block) : Prop := a.1 + a.2 ≤ b.1 ∨ b.1 + b.2 ≤ a.1

theorem Block.Apart.symm {a b : Block} (h : a.Apart b) : b.Apart a := Or.symm h

/-- An allocator, with the blocks that are in use. A new block lies apart from them. -/
structure Allocator where
  State : Type
  blocks : State → List Block
  alloc : State → Nat → Nat × State
  dealloc : State → Nat → State
  blocks_alloc : ∀ h n, blocks (alloc h n).2 = ((alloc h n).1, n) :: blocks h
  apart : ∀ h n, ∀ b ∈ blocks h, Block.Apart ((alloc h n).1, n) b
  mem_dealloc : ∀ h o b, b ∈ blocks (dealloc h o) ↔ b ∈ blocks h ∧ b.1 ≠ o

theorem le_foldr_max {l : List Block} (h : b ∈ l) : b.1 + b.2 ≤ l.foldr (fun c n => max (c.1 + c.2) n) 0 := by
  induction l with
  | nil => cases h
  | cons c l ih =>
    rw [foldr_cons]
    cases h with
    | head => exact Nat.le_max_left _ _
    | tail _ hm => exact Nat.le_trans (ih hm) (Nat.le_max_right _ _)

def Allocator.stacked : Allocator where
  State := List Block
  blocks l := l
  alloc l n := (l.foldr (fun c n => max (c.1 + c.2) n) 0, (l.foldr (fun c n => max (c.1 + c.2) n) 0, n) :: l)
  dealloc l o := l.filter fun b => b.1 ≠ o
  blocks_alloc _ _ := rfl
  apart _ _ _ hb := .inr (le_foldr_max hb)
  mem_dealloc l o b := by
    rw [mem_filter]
    exact and_congr_right fun _ => decide_eq_true_iff

section Writes
variable {α : Type u}

/-- The cells from `p` on are the list. -/
def writeAt (mem : Nat → α) (p : Nat) (l : List α) : Nat → α :=
  fun i => if p ≤ i then l.getD (i - p) (mem i) else mem i

/-- The list lies at `p`. -/
def HoldsAt (mem : Nat → α) (p : Nat) (l : List α) : Prop := ∀ i (h : i < l.length), mem (p + i) = l[i]

variable {mem : Nat → α}

theorem writeAt_outside {l : List α} (h : i < p ∨ p + l.length ≤ i) : writeAt mem p l i = mem i := by
  rw [writeAt]
  split
  · have hle : l.length ≤ i - p := by omega
    rw [getD_eq_getElem?_getD, List.getElem?_eq_none hle, Option.getD_none]
  · rfl

theorem holdsAt_writeAt (mem : Nat → α) (p : Nat) (l : List α) : HoldsAt (writeAt mem p l) p l := by
  intro i hi
  rw [writeAt, if_pos (Nat.le_add_right p i), Nat.add_sub_cancel_left, getD_eq_getElem _ _ hi]

theorem HoldsAt.writeAt {l l' : List α} (h : HoldsAt mem p l)
    (ha : Block.Apart (p', l'.length) (p, l.length)) : HoldsAt (writeAt mem p' l') p l := by
  intro i hi
  have hout : p + i < p' ∨ p' + l'.length ≤ p + i := by
    cases ha with
    | inl hle => exact .inr (Nat.le_trans hle (Nat.le_add_right p i))
    | inr hle => exact .inl (Nat.lt_of_lt_of_le (Nat.add_lt_add_left hi p) hle)
  rw [writeAt_outside hout, h i hi]

theorem HoldsAt.append {xs ys : List α} (h : HoldsAt mem p (xs ++ ys)) :
    HoldsAt mem p xs ∧ HoldsAt mem (p + xs.length) ys := by
  apply And.intro
  · intro i hi
    have hlt : i < (xs ++ ys).length := by
      rw [length_append]
      exact Nat.lt_add_right _ hi
    rw [h i hlt, getElem_append_left hi]
  · intro i hi
    have hlt : xs.length + i < (xs ++ ys).length := by
      rw [length_append]
      exact Nat.add_lt_add_left hi _
    rw [Nat.add_assoc, h _ hlt, getElem_append_right (Nat.le_add_right _ _)]
    simp only [Nat.add_sub_cancel_left]

theorem HoldsAt.cons {x : α} {xs : List α} (h : HoldsAt mem p (x :: xs)) :
    mem p = x ∧ HoldsAt mem (p + 1) xs := by
  apply And.intro
  · exact h 0 (Nat.zero_lt_succ _)
  · intro i hi
    have hread := h (i + 1) (Nat.succ_lt_succ hi)
    rw [getElem_cons_succ] at hread
    rw [← hread, Nat.add_assoc, Nat.add_comm 1 i]

end Writes

end Vpp.Lib
