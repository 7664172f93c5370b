import Mathlib.Algebra.BigOperators.Group.List.Basic
import Mathlib.Algebra.GroupWithZero.Nat

namespace Vpp.Lib
open List

variable {F α : Type*} {R : F → Nat → Nat → Bool → Prop}

/-- Pieces from position `ptr` on, with `rem` left to cut: a piece holds its position, its length and whether it is not
the last. All but the last have a length that `unit` divides. -/
def Cut (unit : Nat) (R : F → Nat → Nat → Bool → Prop) : Nat → Nat → List F → Prop
  | _, rem, [] => rem = 0
  | ptr, rem, f :: fs => ∃ len, 0 < len ∧ len ≤ rem ∧ (len ≠ rem → unit ∣ len) ∧ R f ptr len (decide (len ≠ rem)) ∧
      Cut unit R (ptr + len) (rem - len) fs

theorem Cut.forall (h : Cut unit R ptr rem fs) {Q : F → Prop} (hQ : ∀ f ptr len more, R f ptr len more → Q f) :
    ∀ f ∈ fs, Q f := by
  induction fs generalizing ptr rem with
  | nil =>
    intro f hf
    exact absurd hf not_mem_nil
  | cons g fs ih =>
    obtain ⟨len, _, _, _, hg, hrest⟩ := h
    intro f hf
    obtain rfl | hf := mem_cons.mp hf
    · exact hQ f _ _ _ hg
    · exact ih hrest f hf

theorem Cut.rest_nonempty (h : Cut unit R ptr rem fs) (hrem : rem ≠ 0) : fs ≠ [] := by
  cases fs with
  | nil => exact absurd h hrem
  | cons f fs => exact cons_ne_nil f fs

/-- The pieces put together again: their bodies in order are the string, the positions follow each other from `base` on,
and more is set on all but the last, on which it is what it was. -/
structure Pieces (unit : Nat) (body : F → List α) (pos : F → Nat) (more : F → Bool) (base : Nat) (m : Bool)
    (s : List α) (fs : List F) : Prop where
  whole : (fs.map body).flatten = s
  pos : ∀ k (h : k < fs.length), pos fs[k] = base + ((fs.take k).map fun f => (body f).length).sum
  more : ∀ k (h : k < fs.length), more fs[k] = (decide (k + 1 < fs.length) || m)
  aligned : ∀ k (h : k + 1 < fs.length), unit ∣ (body fs[k]).length

variable {body : F → List α} {pos : F → Nat} {more : F → Bool} {s : List α}

theorem Pieces.single (hbody : body f = s) (hpos : pos f = base) (hmore : more f = m) :
    Pieces unit body pos more base m s [f] := by
  constructor
  · simp [hbody]
  · intro k hk
    have hk0 : k = 0 := by
      rw [length_singleton] at hk
      omega
    subst hk0
    simp [hpos]
  · intro k hk
    have hk0 : k = 0 := by
      rw [length_singleton] at hk
      omega
    subst hk0
    simp [hmore]
  · intro k hk
    rw [length_singleton] at hk
    omega

/-- One piece before the others. -/
theorem Pieces.cons (h : Pieces unit body pos more (base + (body f).length) m s fs) (hpos : pos f = base)
    (hmore : more f = (decide (fs ≠ []) || m)) (hunit : fs ≠ [] → unit ∣ (body f).length) :
    Pieces unit body pos more base m (body f ++ s) (f :: fs) := by
  constructor
  · rw [map_cons, flatten_cons, h.whole]
  · intro k hk
    cases k with
    | zero => simp [hpos]
    | succ k =>
      rw [getElem_cons_succ, h.pos k (Nat.lt_of_succ_lt_succ hk), take_succ_cons, map_cons,
        sum_cons, Nat.add_assoc]
  · intro k hk
    cases k with
    | zero =>
      rw [getElem_cons_zero, hmore]
      cases fs with
      | nil => simp
      | cons g fs => simp
    | succ k =>
      rw [getElem_cons_succ, h.more k (Nat.lt_of_succ_lt_succ hk)]
      simp
  · intro k hk
    cases k with
    | zero =>
      apply hunit
      intro hnil
      rw [hnil] at hk
      exact Nat.lt_irrefl 1 hk
    | succ k => exact h.aligned k (Nat.lt_of_succ_lt_succ hk)

/-- What the cuts of a string give, when each piece is the part of it at its position. -/
theorem Cut.pieces (h : Cut unit R ptr rem fs) (hne : rem ≠ 0) (hs : ptr + rem = s.length)
    (hbody : ∀ f ptr len more, R f ptr len more → body f = (s.drop ptr).take len)
    (hpos : ∀ f ptr len more, R f ptr len more → pos f = base + ptr)
    (hmore : ∀ f ptr len b, R f ptr len b → more f = (b || m)) :
    Pieces unit body pos more (base + ptr) m (s.drop ptr) fs := by
  induction fs generalizing ptr rem with
  | nil => exact absurd h hne
  | cons f fs ih =>
    obtain ⟨len, h0, hle, hunit, hf, hrest⟩ := h
    have hlen : (body f).length = len := by
      rw [hbody f _ _ _ hf, length_take, length_drop]
      omega
    by_cases hlast : len = rem
    · have hnil : fs = [] := by
        cases fs with
        | nil => rfl
        | cons g fs =>
          obtain ⟨len', h0', hle', _⟩ := hrest
          omega
      subst hnil
      apply Pieces.single
      · rw [hbody f _ _ _ hf]
        apply take_of_length_le
        rw [length_drop]
        omega
      · exact hpos f _ _ _ hf
      · rw [hmore f _ _ _ hf]
        simp [hlast]
    · have hfs : fs ≠ [] := hrest.rest_nonempty (by omega)
      have hih := ih hrest (by omega) (by omega)
      rw [← hlen, ← Nat.add_assoc] at hih
      have hsplit : s.drop ptr = body f ++ s.drop (ptr + (body f).length) := by
        rw [hlen, hbody f _ _ _ hf, ← drop_drop, take_append_drop]
      rw [hsplit]
      apply hih.cons (hpos f _ _ _ hf)
      · rw [hmore f _ _ _ hf]
        simp [hlast, hfs]
      · intro _
        rw [hlen]
        exact hunit hlast

theorem Cut.pieces_all (h : Cut unit R 0 rem fs) (hne : rem ≠ 0) (hs : rem = s.length)
    (hbody : ∀ f ptr len more, R f ptr len more → body f = (s.drop ptr).take len)
    (hpos : ∀ f ptr len more, R f ptr len more → pos f = base + ptr)
    (hmore : ∀ f ptr len b, R f ptr len b → more f = (b || m)) :
    Pieces unit body pos more base m s fs := by
  have hall := h.pieces hne ((Nat.zero_add rem).trans hs) hbody hpos hmore
  rwa [drop_zero, Nat.add_zero] at hall

end Vpp.Lib
