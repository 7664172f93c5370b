import Mathlib.Data.List.DropRight
import Mathlib.Data.List.GetD

namespace Vpp.Lib
open List

section

variable {v xs ys : List α}

/-- Write `xs` over a vector, from index `i` on. -/
def splice (v : List α) (i : Nat) (xs : List α) : List α := v.take i ++ xs ++ v.drop (i + xs.length)

theorem length_splice (h : i + xs.length ≤ v.length) : (splice v i xs).length = v.length := by
  simp only [splice, length_append, length_take, length_drop]
  omega

theorem splice_mid (before after : List α) {old new : List α} (h : old.length = new.length) :
    splice (before ++ (old ++ after)) before.length new = before ++ (new ++ after) := by
  have hdrop : (before ++ (old ++ after)).drop (before.length + new.length) = after := by
    rw [← h, ← List.append_assoc, ← length_append, drop_left]
  rw [splice, hdrop, take_left' rfl, List.append_assoc]

theorem take_splice (h : i ≤ v.length) (xs : List α) : (splice v i xs).take (i + xs.length) = v.take i ++ xs := by
  have hlen : (v.take i ++ xs).length = i + xs.length := by simp [h]
  rw [splice, take_append_of_le_length (Nat.le_of_eq hlen.symm),
    take_of_length_le (Nat.le_of_eq hlen)]

theorem take_splice_of_le (hk : k ≤ i) (hi : i ≤ v.length) (xs : List α) : (splice v i xs).take k = v.take k := by
  have hlen : k ≤ (v.take i).length := by
    rw [length_take]
    omega
  rw [splice, List.append_assoc, take_append_of_le_length hlen, take_take, Nat.min_eq_left hk]

theorem take_drop_splice_of_le (hk : k + n ≤ i) (hi : i ≤ v.length) (xs : List α) :
    ((splice v i xs).drop k).take n = (v.drop k).take n := by
  have hswap : ∀ l : List α, (l.drop k).take n = (l.take (k + n)).drop k := by
    intro l
    rw [drop_take, Nat.add_sub_cancel_left]
  rw [hswap, hswap, take_splice_of_le hk hi]

theorem drop_splice (h : i ≤ v.length) (xs : List α) (n : Nat) :
    (splice v i xs).drop (i + xs.length + n) = v.drop (i + xs.length + n) := by
  have hlen : (v.take i ++ xs).length = i + xs.length := by simp [h]
  rw [splice, ← hlen, ← drop_drop, drop_left, drop_drop]

theorem getD_splice (h : i + xs.length ≤ v.length) (j : Nat) (d : α) :
    (splice v i xs).getD j d = if i ≤ j ∧ j < i + xs.length then xs.getD (j - i) d else v.getD j d := by
  have hi : (v.take i).length = i := by
    rw [length_take]
    omega
  simp only [splice, getD_eq_getElem?_getD, List.append_assoc]
  by_cases hlt : j < i
  · rw [getElem?_append_left (by omega), getElem?_take_of_lt hlt, if_neg (by omega)]
  · rw [getElem?_append_right (by omega), hi]
    by_cases hin : j < i + xs.length
    · rw [getElem?_append_left (by omega), if_pos (by omega)]
    · rw [getElem?_append_right (by omega), getElem?_drop, if_neg (by omega)]
      congr 2
      omega

theorem splice_append (h : i ≤ v.length) (xs ys : List α) :
    splice (splice v i xs) (i + xs.length) ys = splice v i (xs ++ ys) := by
  rw [splice, take_splice h, drop_splice h, splice, length_append, List.append_assoc, List.append_assoc,
    List.append_assoc, List.append_assoc, Nat.add_assoc]

theorem splice_nil (v : List α) (i : Nat) : splice v i [] = v := by
  simp [splice]

theorem set_eq_splice (h : i < v.length) (a : α) : v.set i a = splice v i [a] := by
  rw [splice, set_eq_take_append_cons_drop, if_pos h, List.append_assoc]
  rfl

end

/-- A list that stands for itself followed by `z`s without end, and has none of them. -/
def NoTrailing (z : α) (l : List α) : Prop := l.getLast? ≠ some z

instance [DecidableEq α] (z : α) (l : List α) : Decidable (NoTrailing z l) :=
  inferInstanceAs (Decidable (l.getLast? ≠ some z))

theorem noTrailing_nil {z : α} : NoTrailing z [] := nofun

theorem noTrailing_concat {z x : α} {l : List α} : NoTrailing z (l ++ [x]) ↔ x ≠ z := by
  rw [NoTrailing, getLast?_concat, Ne, Option.some_inj]

theorem noTrailing_iff {z : α} {l : List α} : NoTrailing z l ↔ ∀ n, l.length = n + 1 → l.getD n z ≠ z := by
  induction l using List.reverseRecOn with
  | nil => exact ⟨fun _ n hn => absurd hn (Nat.zero_ne_add_one n), fun _ => noTrailing_nil⟩
  | append_singleton l x _ =>
    have hlast : (l ++ [x]).getD l.length z = x := by
      rw [getD_append_right _ _ _ _ (Nat.le_refl _), Nat.sub_self, getD_cons_zero]
    rw [noTrailing_concat, length_append, length_singleton]
    constructor
    · intro hx n hn
      rwa [← Nat.add_right_cancel hn, hlast]
    · intro h
      have hx := h l.length rfl
      rwa [hlast] at hx

theorem NoTrailing.length_le {z : α} {a b : List α} (ha : NoTrailing z a) (h : ∀ i, a.getD i z = b.getD i z) :
    a.length ≤ b.length := by
  cases hn : a.length with
  | zero => exact Nat.zero_le _
  | succ n =>
    by_contra hlt
    have hz := h n
    rw [getD_eq_default b _ (Nat.le_of_lt_succ (Nat.not_le.mp hlt))] at hz
    exact noTrailing_iff.mp ha n hn hz

theorem NoTrailing.ext {z : α} {a b : List α} (ha : NoTrailing z a) (hb : NoTrailing z b)
    (h : ∀ i, a.getD i z = b.getD i z) : a = b := by
  have hlen := Nat.le_antisymm (ha.length_le h) (hb.length_le fun i => (h i).symm)
  apply ext_getElem hlen
  intro i hia hib
  have hi := h i
  rwa [getD_eq_getElem _ _ hia, getD_eq_getElem _ _ hib] at hi

section Trim
variable [BEq α] [LawfulBEq α]

/-- The list without its trailing `z`s. -/
def trim (z : α) (l : List α) : List α := l.rdropWhile (· == z)

theorem trim_concat_self (z : α) (l : List α) : trim z (l ++ [z]) = trim z l :=
  rdropWhile_concat_pos _ _ _ (beq_self_eq_true z)

theorem trim_concat_of_ne {x z : α} (l : List α) (hx : x ≠ z) : trim z (l ++ [x]) = l ++ [x] :=
  rdropWhile_concat_neg _ _ _ (by simpa using hx)

theorem noTrailing_trim (z : α) (l : List α) : NoTrailing z (trim z l) := by
  induction l using List.reverseRecOn with
  | nil => exact noTrailing_nil
  | append_singleton l x ih =>
    by_cases hx : x = z
    · rw [hx, trim_concat_self]
      exact ih
    · rw [trim_concat_of_ne l hx, noTrailing_concat]
      exact hx

theorem getD_trim (z : α) (l : List α) (i : Nat) : (trim z l).getD i z = l.getD i z := by
  induction l using List.reverseRecOn with
  | nil => rfl
  | append_singleton l x ih =>
    by_cases hx : x = z
    · rw [hx, trim_concat_self, ih]
      by_cases hi : i < l.length
      · rw [getD_append _ _ _ _ hi]
      · rw [getD_append_right _ _ _ _ (Nat.le_of_not_lt hi), getD_eq_default _ _ (Nat.le_of_not_lt hi)]
        cases i - l.length with
        | zero => rfl
        | succ k => rfl
    · rw [trim_concat_of_ne l hx]

/-- A count of the trailing `z`s, made from the front, that has `n` before the list. -/
def countTrailing (z : α) (n : Nat) (l : List α) : Nat := l.foldl (fun n x => if x == z then n + 1 else 0) n

theorem take_countTrailing (z : α) (l : List α) : l.take (l.length - countTrailing z 0 l) = trim z l := by
  induction l using List.reverseRecOn with
  | nil => rfl
  | append_singleton l x ih =>
    rw [countTrailing, foldl_concat, length_append, length_singleton]
    by_cases hx : x = z
    · rw [if_pos (beq_iff_eq.mpr hx), hx, trim_concat_self, ← ih, Nat.add_sub_add_right,
        take_append_of_le_length (Nat.sub_le _ _)]
      rfl
    · rw [if_neg (by simpa using hx), trim_concat_of_ne l hx, Nat.sub_zero, take_of_length_le (by simp)]

end Trim

end Vpp.Lib
