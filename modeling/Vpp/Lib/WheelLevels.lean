import Mathlib.Data.Nat.ModEq
import Mathlib.Tactic.Linarith
import Mathlib.Tactic.Ring

namespace Vpp.Lib
open List

/-- How far ahead the first `L` levels of a hierarchy of wheels reach, each with `n` bins. -/
def span (n : Nat) : Nat → Nat
  | 0 => 0
  | L + 1 => span n L + n ^ (L + 1)

theorem span_succ' (n L : Nat) : span n (L + 1) = n * (span n L + 1) := by
  induction L with
  | zero => simp [span]
  | succ L ih =>
    calc span n (L + 1 + 1)
      _ = span n (L + 1) + n ^ (L + 2) := rfl
      _ = n * (span n L + 1) + n ^ (L + 2) := by rw [ih]
      _ = n * (span n L + n ^ (L + 1) + 1) := by ring
      _ = n * (span n (L + 1) + 1) := rfl

theorem span_mono (n : Nat) {L L' : Nat} (h : L ≤ L') : span n L ≤ span n L' := by
  induction h with
  | refl => exact Nat.le_refl _
  | step _ ih => exact Nat.le_trans ih (Nat.le_add_right _ _)

theorem pow_le_span (n : Nat) {L : Nat} (h : 0 < L) : n ^ L ≤ span n L := by
  cases L with
  | zero => cases h
  | succ L => exact Nat.le_add_left _ _

/-- `d` is reached at level `L`, in the bin `r` bins ahead. -/
structure Reaches (n d L r : Nat) : Prop where
  inWheel : r < n
  low : span n L + r * n ^ L ≤ d
  high : d < span n L + (r + 1) * n ^ L

theorem Reaches.zero {n d : Nat} (h : d < n) : Reaches n d 0 d where
  inWheel := h
  low := by simp [span]
  high := by simp [span]

theorem Reaches.up {n d L r : Nat} (hn : 0 < n) (hd : n ≤ d) (h : Reaches n (d / n - 1) L r) :
    Reaches n d (L + 1) r := by
  have hq : 1 ≤ d / n := (Nat.one_le_div_iff hn).2 hd
  have hlow : span n L + r * n ^ L + 1 ≤ d / n := by
    have := h.low
    omega
  have hhigh : d / n < span n L + (r + 1) * n ^ L + 1 := by
    have := h.high
    omega
  refine ⟨h.inWheel, ?_, ?_⟩
  · calc span n (L + 1) + r * n ^ (L + 1)
      _ = (span n L + r * n ^ L + 1) * n := by rw [span_succ']; ring
      _ ≤ d := (Nat.le_div_iff_mul_le hn).1 hlow
  · calc d
      _ < (span n L + (r + 1) * n ^ L + 1) * n := (Nat.div_lt_iff_lt_mul hn).1 hhigh
      _ = span n (L + 1) + (r + 1) * n ^ (L + 1) := by rw [span_succ']; ring

theorem Reaches.lt_span {n d L r : Nat} (h : Reaches n d L r) : d < span n (L + 1) := by
  have hr : (r + 1) * n ^ L ≤ n * n ^ L := Nat.mul_le_mul_right _ h.inWheel
  have hpow : n * n ^ L = n ^ (L + 1) := by ring
  have hhigh := h.high
  rw [span]
  omega

theorem Reaches.span_le {n d L r : Nat} (h : Reaches n d L r) : span n L ≤ d :=
  Nat.le_trans (Nat.le_add_right _ _) h.low

/-- An element due at `ti` that is filed on level `L` when the clock is at `cur`: `b` is its bin,
counted from the start of time. Above level 0 it may be due one bin later than the first that it can be. -/
structure FiledAt (n cur L bin ti b : Nat) : Prop where
  place : bin = b % n
  notBefore : cur / n ^ L ≤ b
  inTurn : b < cur / n ^ L + n
  low : span n L + b * n ^ L ≤ ti
  high : ti < span n L + (b + 2) * n ^ L
  reach : ti < cur + span n (L + 1)
  exact : L = 0 → ti = b
  future : cur ≤ ti

theorem div_mul_bounds (cur : Nat) {x : Nat} (hx : 0 < x) : cur / x * x ≤ cur ∧ cur < (cur / x + 1) * x := by
  constructor
  · exact Nat.div_mul_le_self cur x
  · rw [Nat.add_mul, Nat.one_mul]
    exact Nat.lt_div_mul_add hx

theorem Reaches.filedAt {n cur ti L r : Nat} (hn : 0 < n) (hti : cur ≤ ti) (h : Reaches n (ti - cur) L r) :
    FiledAt n cur L ((cur / n ^ L % n + r) % n) ti (cur / n ^ L + r) := by
  obtain ⟨hle, hlt⟩ := div_mul_bounds cur (Nat.pow_pos hn : 0 < n ^ L)
  have hlow := h.low
  have hhigh := h.high
  refine ⟨?_, Nat.le_add_right _ _, Nat.add_lt_add_left h.inWheel _, ?_, ?_, ?_, ?_, hti⟩
  · rw [Nat.mod_add_mod]
  · have hsum : (cur / n ^ L + r) * n ^ L = cur / n ^ L * n ^ L + r * n ^ L := Nat.add_mul _ _ _
    omega
  · have hsum : (cur / n ^ L + r + 2) * n ^ L = (cur / n ^ L + 1) * n ^ L + (r + 1) * n ^ L := by ring
    omega
  · have := h.lt_span
    omega
  · intro h0
    subst h0
    simp only [span, Nat.pow_zero, Nat.div_one] at hlow hhigh ⊢
    omega

variable {n cur adv L bin ti b : Nat}

theorem FiledAt.stays (h : FiledAt n cur L bin ti b) (hadv : cur ≤ adv)
    (hb : adv / n ^ L ≤ b) (hti : adv ≤ ti) : FiledAt n adv L bin ti b where
  place := h.place
  notBefore := hb
  inTurn := Nat.lt_of_lt_of_le h.inTurn (Nat.add_le_add_right (Nat.div_le_div_right hadv) n)
  low := h.low
  high := h.high
  reach := Nat.lt_of_lt_of_le h.reach (Nat.add_le_add_right hadv _)
  exact := h.exact
  future := hti

theorem FiledAt.later (h : FiledAt n cur L bin ti b) (hn : 0 < n) (hL : 0 < L)
    (hb : adv / n ^ L ≤ b) : adv < ti := by
  have hadv := (div_mul_bounds adv (Nat.pow_pos hn : 0 < n ^ L)).2
  have hpow := pow_le_span n hL
  have hmul : adv / n ^ L * n ^ L ≤ b * n ^ L := Nat.mul_le_mul_right _ hb
  have hsum : (adv / n ^ L + 1) * n ^ L = adv / n ^ L * n ^ L + n ^ L := by ring
  have hlow := h.low
  omega

theorem FiledAt.passed (h : FiledAt n cur L bin ti b)
    (hspan : cur + span n (L + 1) ≤ adv) : ti ≤ adv :=
  Nat.le_of_lt (Nat.lt_of_lt_of_le h.reach hspan)

theorem div_lt_of_span {n cur adv L : Nat} (hn : 0 < n) (h : cur + span n L ≤ adv) (hL : 0 < L) :
    cur / n ^ L < adv / n ^ L := by
  have hpos : 0 < n ^ L := Nat.pow_pos hn
  have hpow := pow_le_span n hL
  have hle := (div_mul_bounds cur hpos).1
  have hsum : (cur / n ^ L + 1) * n ^ L = cur / n ^ L * n ^ L + n ^ L := by ring
  have hnext : (cur / n ^ L + 1) * n ^ L ≤ adv := by omega
  exact (Nat.le_div_iff_mul_le hpos).2 hnext

theorem add_reach_le_div {n cur adv L r : Nat} (hn : 0 < n) (hle : cur ≤ adv) (h : Reaches n (adv - cur) L r) :
    cur / n ^ L + r ≤ adv / n ^ L := by
  have hpos : 0 < n ^ L := Nat.pow_pos hn
  have hlow := h.low
  have hcur := (div_mul_bounds cur hpos).1
  apply (Nat.le_div_iff_mul_le hpos).2
  have hsum : (cur / n ^ L + r) * n ^ L = cur / n ^ L * n ^ L + r * n ^ L := by ring
  omega

/-- The bins that a loop visits from `first` until it has visited `last`. -/
def turnBins (n : Nat) : (fuel first last : Nat) → List Nat
  | 0, _, _ => []
  | fuel + 1, first, last => first :: if first = last then [] else turnBins n fuel ((first + 1) % n) last

theorem turnBins_eq {n fuel first k : Nat} (hfirst : first < n) (hk : k < n) (hfuel : k < fuel) :
    turnBins n fuel first ((first + k) % n) = (List.range (k + 1)).map fun i => (first + i) % n := by
  induction k generalizing first fuel with
  | zero =>
    obtain ⟨fuel, rfl⟩ := Nat.exists_eq_add_of_lt hfuel
    have hmod : first % n = first := Nat.mod_eq_of_lt hfirst
    simp [turnBins, hmod]
  | succ k ih =>
    cases fuel with
    | zero => cases hfuel
    | succ fuel =>
      have hne : first ≠ (first + (k + 1)) % n := by
        intro he
        by_cases hlt : first + (k + 1) < n
        · rw [Nat.mod_eq_of_lt hlt] at he
          omega
        · rw [Nat.mod_eq_sub_mod (Nat.le_of_not_lt hlt), Nat.mod_eq_of_lt (by omega)] at he
          omega
      have hnext : (first + (k + 1)) % n = ((first + 1) % n + k) % n := by
        rw [Nat.mod_add_mod]
        congr 1
        omega
      have hpos : 0 < n := by omega
      have hrange : List.range (k + 1 + 1) = 0 :: (List.range (k + 1)).map Nat.succ := range_succ_eq_map
      rw [turnBins, if_neg hne, hnext, ih (Nat.mod_lt _ hpos) (by omega) (by omega), hrange, map_cons,
        List.map_map]
      congr 1
      · exact (Nat.mod_eq_of_lt hfirst).symm
      · apply map_congr_left
        intro i _
        simp only [Function.comp]
        rw [Nat.mod_add_mod]
        congr 1
        omega

theorem mod_inj_of_turn {n c x y : Nat} (hx : c ≤ x) (hx' : x < c + n) (hy : c ≤ y) (hy' : y < c + n)
    (h : x % n = y % n) : x = y := by
  have hmod : c + (x - c) ≡ c + (y - c) [MOD n] := by
    rw [Nat.add_sub_cancel' hx, Nat.add_sub_cancel' hy]
    exact h
  have hoff := Nat.ModEq.add_left_cancel' c hmod
  have := Nat.ModEq.eq_of_lt_of_lt hoff (show x - c < n by omega) (show y - c < n by omega)
  omega

theorem mem_turnBins {n c a b : Nat} (hn : 0 < n) (hca : c ≤ a) (ha : a < c + n) (hb : c ≤ b) (hb' : b < c + n) :
    b % n ∈ turnBins n n (c % n) (a % n) ↔ b ≤ a := by
  have hlast : a % n = (c % n + (a - c)) % n := by
    rw [Nat.mod_add_mod, Nat.add_sub_cancel' hca]
  rw [hlast, turnBins_eq (Nat.mod_lt _ hn) (by omega) (by omega), List.mem_map]
  constructor
  · rintro ⟨i, hi, he⟩
    have hi' := mem_range.1 hi
    rw [Nat.mod_add_mod] at he
    have := mod_inj_of_turn (Nat.le_add_right c i) (by omega) hb hb' he
    omega
  · intro hle
    refine ⟨b - c, mem_range.2 (by omega), ?_⟩
    rw [Nat.mod_add_mod, Nat.add_sub_cancel' hb]

theorem FiledAt.visited_iff {n cur L bin ti b a : Nat} (h : FiledAt n cur L bin ti b) (hn : 0 < n)
    (hle : cur / n ^ L ≤ a) (hlt : a < cur / n ^ L + n) :
    bin ∈ turnBins n n (cur / n ^ L % n) (a % n) ↔ b ≤ a := by
  rw [h.place]
  exact mem_turnBins hn hle hlt h.notBefore h.inTurn

theorem FiledAt.beyond (h : FiledAt n cur L bin ti b) (hn : 0 < n)
    (hlt : cur / n ^ L < adv / n ^ L) (hturn : adv / n ^ L < cur / n ^ L + n)
    (hnot : cur / n ^ L % n ≠ adv / n ^ L % n → bin ∉ turnBins n n (cur / n ^ L % n) (adv / n ^ L % n)) :
    adv / n ^ L < b := by
  have hne : cur / n ^ L % n ≠ adv / n ^ L % n := by
    intro he
    exact Nat.ne_of_lt hlt (mod_inj_of_turn (Nat.le_refl _) (by omega) (Nat.le_of_lt hlt) hturn he)
  have hvisited := h.visited_iff hn (Nat.le_of_lt hlt) hturn
  exact Nat.lt_of_not_le fun hle => hnot hne (hvisited.2 hle)

theorem FiledAt.kept (h : FiledAt n cur L bin ti b) (hn : 0 < n) (hL : 0 < L)
    (hle : cur ≤ adv) (hturn : adv / n ^ L < cur / n ^ L + n)
    (hnot : cur / n ^ L % n ≠ adv / n ^ L % n → bin ∉ turnBins n n (cur / n ^ L % n) (adv / n ^ L % n)) :
    FiledAt n adv L bin ti b ∧ adv < ti := by
  have hb : adv / n ^ L ≤ b := by
    rcases Nat.eq_or_lt_of_le (Nat.div_le_div_right hle : cur / n ^ L ≤ adv / n ^ L) with he | hlt
    · rw [← he]
      exact h.notBefore
    · exact Nat.le_of_lt (h.beyond hn hlt hturn hnot)
  have hlater := h.later hn hL hb
  exact ⟨h.stays hle hb (Nat.le_of_lt hlater), hlater⟩

theorem FiledAt.zero_visited {n cur adv bin ti b : Nat} (h : FiledAt n cur 0 bin ti b) (hn : 0 < n)
    (hle : cur ≤ adv) (hlt : adv < cur + n) : bin ∈ turnBins n n (cur % n) (adv % n) ↔ ti ≤ adv := by
  have hvisited := h.visited_iff (a := adv) hn (by simpa using hle) (by simpa using hlt)
  rw [Nat.pow_zero, Nat.div_one, ← h.exact rfl] at hvisited
  exact hvisited

theorem FiledAt.zero_kept {n cur adv bin ti b : Nat} (h : FiledAt n cur 0 bin ti b) (hle : cur ≤ adv)
    (hlt : adv < ti) : FiledAt n adv 0 bin ti b := by
  apply h.stays hle _ (Nat.le_of_lt hlt)
  rw [Nat.pow_zero, Nat.div_one, ← h.exact rfl]
  exact Nat.le_of_lt hlt

theorem FiledAt.lt_of_bin {n cur L bin ti b bin' ti' b' : Nat} (h : FiledAt n cur L bin ti b)
    (h' : FiledAt n cur L bin' ti' b') (hb : b + 2 ≤ b') : ti < ti' := by
  have hmul : (b + 2) * n ^ L ≤ b' * n ^ L := Nat.mul_le_mul_right _ hb
  have hhigh := h.high
  have hlow := h'.low
  omega

theorem FiledAt.lt_of_level {n cur L l bin ti b bin' ti' b' : Nat} (h : FiledAt n cur L bin ti b)
    (h' : FiledAt n cur l bin' ti' b') (hn : 0 < n) (hl : L < l) (hfar : L + 2 ≤ l ∨ cur / n ^ l < b') : ti < ti' := by
  have hcur := (div_mul_bounds cur (Nat.pow_pos hn : 0 < n ^ l)).2
  have hsum : (cur / n ^ l + 1) * n ^ l = cur / n ^ l * n ^ l + n ^ l := by ring
  have hreach := h.reach
  have hlow := h'.low
  rcases hfar with hfar | hfar
  · obtain ⟨k, rfl⟩ := Nat.exists_eq_add_of_le hfar
    have hmul : cur / n ^ (L + 2 + k) * n ^ (L + 2 + k) ≤ b' * n ^ (L + 2 + k) := Nat.mul_le_mul_right _ h'.notBefore
    have hspan : span n (L + 2 + k) = span n (L + 1 + k) + n ^ (L + 2 + k) := by
      have hshift : L + 2 + k = L + 1 + k + 1 := by omega
      rw [hshift, span]
    have hmono := span_mono n (Nat.le_add_right (L + 1) k)
    omega
  · have hmul : (cur / n ^ l + 1) * n ^ l ≤ b' * n ^ l := Nat.mul_le_mul_right _ hfar
    have hmono := span_mono n (show L + 1 ≤ l from hl)
    omega

end Vpp.Lib
