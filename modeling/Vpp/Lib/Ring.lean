import Mathlib.Data.Int.CardIntervalMod

namespace Vpp.Lib

/-- Copy `count` cells of `src` from `spos` on over those of `dst` from `dpos` on. -/
def memcpy (dst : Nat → α) (dpos : Nat) (src : Nat → α) (spos count : Nat) : Nat → α := fun i =>
  if dpos ≤ i ∧ i < dpos + count then src (spos + (i - dpos)) else dst i

@[simp] theorem memcpy_zero (dst : Nat → α) (dpos : Nat) (src : Nat → α) (spos : Nat) :
    memcpy dst dpos src spos 0 = dst := by
  funext i
  unfold memcpy
  rw [if_neg (by omega)]

/-- The first `count` cells. -/
def cells (mem : Nat → α) (count : Nat) : List α := (List.range count).map mem

/-- `count` cells of a ring of `n` cells, from `pos` on. -/
def ringCells (mem : Nat → α) (n pos count : Nat) : List α :=
  (List.range count).map fun i => mem ((pos + i) % n)

@[simp] theorem length_cells (mem : Nat → α) (count : Nat) : (cells mem count).length = count := by
  simp [cells]

@[simp] theorem length_ringCells (mem : Nat → α) (n pos count : Nat) :
    (ringCells mem n pos count).length = count := by simp [ringCells]

theorem ringCells_add (mem : Nat → α) (n pos a b : Nat) :
    ringCells mem n pos (a + b) = ringCells mem n pos a ++ ringCells mem n ((pos + a) % n) b := by
  simp only [ringCells, List.range_add, List.map_append, List.map_map]
  congr 1
  apply List.map_congr_left
  intro i _
  simp only [Function.comp, Nat.mod_add_mod, Nat.add_assoc]

theorem ringCells_eq_cells (h : ∀ i, i < count → mem ((pos + i) % n) = src i) :
    ringCells mem n pos count = cells src count := by
  apply List.map_congr_left
  intro i hi
  exact h i (List.mem_range.mp hi)

theorem ringCells_congr (h : ∀ i, i < count → mem ((pos + i) % n) = mem' ((pos + i) % n)) :
    ringCells mem n pos count = ringCells mem' n pos count := by
  apply List.map_congr_left
  intro i hi
  exact h i (List.mem_range.mp hi)

theorem mod_once {a n : Nat} (h : a < 2 * n) : a % n = if a < n then a else a - n := by
  split
  case isTrue hlt => exact Nat.mod_eq_of_lt hlt
  case isFalse hge =>
    rw [Nat.mod_eq_sub_mod (Nat.le_of_not_lt hge)]
    exact Nat.mod_eq_of_lt (by omega)

theorem mod_cases {a n : Nat} (h : a < 2 * n) : a % n = a ∧ a < n ∨ a % n = a - n ∧ n ≤ a := by
  have := mod_once h
  split at this <;> omega

/-- A position after a step of at most one turn, as the two-piece copies compute it. -/
def wrapAt (n pos : Nat) : Nat := if pos = n then 0 else pos

theorem wrapAt_eq_mod (h : pos ≤ n) : wrapAt n pos = pos % n := by
  unfold wrapAt
  split
  · next he =>
    subst he
    exact (Nat.mod_self _).symm
  · exact (Nat.mod_eq_of_lt (by omega)).symm

/-- How far `pos` can move before the end of the ring. -/
def firstPiece (n pos total : Nat) : Nat := min (n - pos) total

theorem wrapAt_pieces (hp : pos < n) (ht : total ≤ n) :
    wrapAt n (wrapAt n (pos + firstPiece n pos total) + (total - firstPiece n pos total)) =
      (pos + total) % n := by
  unfold firstPiece
  rcases Nat.le_total total (n - pos) with hle | hle
  · rw [Nat.min_eq_right hle, wrapAt_eq_mod (show pos + total ≤ n by omega),
      Nat.sub_self, Nat.add_zero, wrapAt_eq_mod (Nat.le_of_lt (Nat.mod_lt _ (by omega))),
      Nat.mod_mod]
  · rw [Nat.min_eq_left hle, show pos + (n - pos) = n by omega,
      wrapAt_eq_mod (Nat.le_refl n), Nat.mod_self, Nat.zero_add,
      wrapAt_eq_mod (by omega)]
    rw [show pos + total = (total - (n - pos)) + n by omega, Nat.add_mod_right]

def ringWrite (mem : Nat → α) (n pos : Nat) (src : Nat → α) (total : Nat) : Nat → α :=
  memcpy (memcpy mem pos src 0 (firstPiece n pos total)) 0 src (firstPiece n pos total)
    (total - firstPiece n pos total)

theorem ringWrite_inside (hp : pos < n) (ht : total ≤ n) (hi : i < total) :
    ringWrite mem n pos src total ((pos + i) % n) = src i := by
  unfold ringWrite firstPiece memcpy
  rcases Nat.lt_or_ge (pos + i) n with hlt | hge
  · rw [Nat.mod_eq_of_lt hlt, if_neg (by omega), if_pos (by omega)]
    congr 1
    omega
  · rw [show (pos + i) % n = pos + i - n by
      rw [Nat.mod_eq_sub_mod hge, Nat.mod_eq_of_lt (by omega)], if_pos (by omega)]
    congr 1
    omega

theorem ringWrite_outside (hp : pos < n) (hi : total ≤ i) (hn : i < n) :
    ringWrite mem n pos src total ((pos + i) % n) = mem ((pos + i) % n) := by
  unfold ringWrite firstPiece memcpy
  rcases Nat.lt_or_ge (pos + i) n with hlt | hge
  · rw [Nat.mod_eq_of_lt hlt, if_neg (by omega), if_neg (by omega)]
  · rw [show (pos + i) % n = pos + i - n by
      rw [Nat.mod_eq_sub_mod hge, Nat.mod_eq_of_lt (by omega)], if_neg (by omega), if_neg (by omega)]

theorem ringCells_ringWrite (hh : head < n) (ht : count + total ≤ n) :
    ringCells (ringWrite mem n ((head + count) % n) src total) n head (count + total) =
      ringCells mem n head count ++ cells src total := by
  have hn : 0 < n := by omega
  have hpos : (head + count) % n < n := Nat.mod_lt _ hn
  rw [ringCells_add]
  congr 1
  · apply ringCells_congr
    intro i hi
    have he : (head + i) % n = ((head + count) % n + (n - count + i)) % n := by
      rw [Nat.mod_add_mod, show head + count + (n - count + i) = head + i + n by omega,
        Nat.add_mod_right]
    rw [he]
    exact ringWrite_outside hpos (by omega) (by omega)
  · apply ringCells_eq_cells
    intro i hi
    exact ringWrite_inside hpos (by omega) hi

theorem ringWrite_one (mem : Nat → α) {n pos : Nat} (h : pos < n) (src : Nat → α) :
    ringWrite mem n pos src 1 = Function.update mem pos (src 0) := by
  have hpiece : firstPiece n pos 1 = 1 := by
    rw [firstPiece]
    omega
  rw [ringWrite, hpiece, Nat.sub_self, memcpy_zero]
  funext i
  rw [memcpy]
  by_cases hi : i = pos
  · subst hi
    rw [if_pos (by omega), Function.update_self]
    simp
  · rw [if_neg (by omega), Function.update_of_ne hi]

theorem cells_getD (es : List α) (zero : α) : cells (fun i => es.getD i zero) es.length = es := by
  apply List.ext_getElem
  · exact length_cells _ _
  · intro i h₁ h₂
    simp [cells, h₂]

def ringRead (dst mem : Nat → α) (n pos total : Nat) : Nat → α :=
  memcpy (memcpy dst 0 mem pos (firstPiece n pos total)) (firstPiece n pos total) mem 0
    (total - firstPiece n pos total)

theorem cells_ringRead (dst : Nat → α) (hp : pos < n) (ht : total ≤ n) :
    cells (ringRead dst mem n pos total) total = ringCells mem n pos total := by
  symm
  apply ringCells_eq_cells
  intro i hi
  unfold ringRead firstPiece memcpy
  rcases Nat.lt_or_ge (pos + i) n with hlt | hge
  · rw [Nat.mod_eq_of_lt hlt, if_neg (by omega), if_pos (by omega)]
    congr 1
  · rw [show (pos + i) % n = pos + i - n by
      rw [Nat.mod_eq_sub_mod hge, Nat.mod_eq_of_lt (by omega)], if_pos (by omega)]
    congr 1
    omega

theorem stride_reaches (hpos : 0 < m) (hcop : Nat.Coprime skip m) (last : Nat) (he : e < m) :
    ∃ k < m, (last + k * skip) % m = e := by
  let f : Fin m → Fin m := fun k => ⟨(last + k * skip) % m, Nat.mod_lt _ hpos⟩
  have hinj : Function.Injective f := by
    intro a b hab
    have hmod : last + a.val * skip ≡ last + b.val * skip [MOD m] := congrArg Fin.val hab
    have hmul := Nat.ModEq.add_left_cancel' last hmod
    have hcop' : Nat.gcd m skip = 1 := by
      rw [Nat.gcd_comm]
      exact hcop
    have hab' := Nat.ModEq.cancel_right_of_coprime hcop' hmul
    apply Fin.ext
    exact Nat.ModEq.eq_of_lt_of_lt hab' a.isLt b.isLt
  obtain ⟨k, hk⟩ := Finite.surjective_of_injective hinj ⟨e, he⟩
  exact ⟨k.val, k.isLt, congrArg Fin.val hk⟩

theorem turns_share (hi : i < n) (t : Nat) :
    (List.range t).countP (fun s => decide (s % n = i)) = t / n ∨
      ((List.range t).countP (fun s => decide (s % n = i)) = t / n + 1 ∧ ¬ n ∣ t) := by
  have hcount : (List.range t).countP (fun s => decide (s % n = i)) = Nat.count (· ≡ i [MOD n]) t := by
    rw [Nat.count]
    apply List.countP_congr
    intro s _
    rw [decide_eq_true_eq, decide_eq_true_eq, Nat.ModEq, Nat.mod_eq_of_lt hi]
  have hpos : 0 < n := Nat.zero_lt_of_lt hi
  rw [hcount, Nat.count_modEq_card t hpos i]
  by_cases hlt : i % n < t % n
  · apply Or.inr
    rw [if_pos hlt]
    apply And.intro rfl
    intro hdvd
    rw [Nat.mod_eq_zero_of_dvd hdvd] at hlt
    exact Nat.not_lt_zero _ hlt
  · apply Or.inl
    rw [if_neg hlt]
    rfl

end Vpp.Lib
