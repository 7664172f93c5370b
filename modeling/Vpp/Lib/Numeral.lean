import Mathlib.Algebra.Group.Nat.Defs

namespace Vpp.Lib
open List

theorem div_step_lt (hb : 1 < b) (h : ¬n / b = 0) : n / b < n := by
  cases n with
  | zero => exact absurd (Nat.zero_div b) h
  | succ n => exact Nat.div_lt_self n.succ_pos hb

/-- The digits of a number by repeated division, the last one first, in front of those found already. -/
def numeral (b : Nat) (hb : 1 < b) (n : Nat) (acc : List Nat) : List Nat :=
  if n / b = 0 then n % b :: acc else numeral b hb (n / b) (n % b :: acc)
termination_by n
decreasing_by
  rename_i h
  exact div_step_lt hb h

theorem numeral_last (hb : 1 < b) (h : n / b = 0) : numeral b hb n acc = n % b :: acc := by
  rw [numeral.eq_def, if_pos h]

theorem numeral_more (hb : 1 < b) (h : ¬n / b = 0) :
    numeral b hb n acc = numeral b hb (n / b) (n % b :: acc) := by
  rw [numeral.eq_def, if_neg h]

def ofNumeral (b : Nat) (start : Nat) (ds : List Nat) : Nat := ds.foldl (fun v d => v * b + d) start

@[simp] theorem ofNumeral_nil : ofNumeral b v [] = v := rfl

@[simp] theorem ofNumeral_cons : ofNumeral b v (d :: ds) = ofNumeral b (v * b + d) ds := rfl

theorem ofNumeral_numeral_acc (hb : 1 < b) (n : Nat) (acc : List Nat) :
    ofNumeral b 0 (numeral b hb n acc) = ofNumeral b n acc := by
  induction n, acc using numeral.induct b hb with
  | case1 n acc h =>
    rw [numeral_last hb h, ofNumeral_cons]
    have hm := Nat.div_add_mod n b
    rw [h, Nat.mul_zero] at hm
    rw [Nat.zero_mul, hm]
  | case2 n acc h ih =>
    rw [numeral_more hb h, ih, ofNumeral_cons, Nat.div_add_mod']

theorem ofNumeral_numeral (hb : 1 < b) (n : Nat) : ofNumeral b 0 (numeral b hb n []) = n :=
  ofNumeral_numeral_acc hb n []

theorem numeral_lt (hb : 1 < b) (n : Nat) (acc : List Nat) (ha : ∀ d ∈ acc, d < b) :
    ∀ d ∈ numeral b hb n acc, d < b := by
  induction n, acc using numeral.induct b hb with
  | case1 n acc h =>
    rw [numeral_last hb h]
    exact forall_mem_cons.2 ⟨Nat.mod_lt n (by grind), ha⟩
  | case2 n acc h ih =>
    rw [numeral_more hb h]
    exact ih (forall_mem_cons.2 ⟨Nat.mod_lt n (by grind), ha⟩)

theorem numeral_ne_nil (hb : 1 < b) (n : Nat) (acc : List Nat) : numeral b hb n acc ≠ [] := by
  induction n, acc using numeral.induct b hb with
  | case1 n acc h =>
    rw [numeral_last hb h]
    exact cons_ne_nil _ _
  | case2 n acc h ih => rwa [numeral_more hb h]

theorem length_numeral_le (hb : 1 < b) (n : Nat) (acc : List Nat) (k : Nat) (hn : n < b ^ (k + 1)) :
    (numeral b hb n acc).length ≤ acc.length + k + 1 := by
  induction n, acc using numeral.induct b hb generalizing k with
  | case1 n acc h =>
    rw [numeral_last hb h, length_cons]
    grind
  | case2 n acc h ih =>
    cases k with
    | zero =>
      rw [Nat.zero_add, Nat.pow_one] at hn
      exact absurd (Nat.div_eq_of_lt hn) h
    | succ k =>
      rw [Nat.pow_succ] at hn
      have := ih k (Nat.div_lt_of_lt_mul (by rwa [Nat.mul_comm] at hn))
      rw [numeral_more hb h]
      rw [length_cons] at this
      grind

end Vpp.Lib
