import Mathlib.Data.List.Perm.Basic
import Mathlib.Data.List.Sort

namespace Vpp.Lib
open Function List

variable [LinearOrder κ] (key : α → κ)

def look (v : List α) (k : κ) : Option α := v.find? fun x => key x = k

def updateFirst (k : κ) (f : α → α) : List α → List α
  | [] => []
  | x :: v => if key x = k then f x :: v else x :: updateFirst k f v

/-- The last element takes the place of the element at `i`. -/
def delSwap (v : List α) (i : Nat) : List α :=
  match v.getLast? with
  | none => v
  | some t => (v.set i t).dropLast

def sortBy (v : List α) : List α := v.insertionSort fun x y => key x ≤ key y

def SortedBy (v : List α) : Prop := v.Pairwise fun x y => key x < key y

variable {key}

theorem SortedBy.key_inj (h : SortedBy key v) (hx : x ∈ v) (hy : y ∈ v) (hk : key x = key y) : x = y := by
  obtain ⟨i, hi, rfl⟩ := mem_iff_getElem.mp hx
  obtain ⟨j, hj, rfl⟩ := mem_iff_getElem.mp hy
  obtain hlt | heq | hgt := Nat.lt_trichotomy i j
  · exact absurd hk (pairwise_iff_getElem.mp h i j hi hj hlt).ne
  · subst heq
    rfl
  · exact absurd hk (pairwise_iff_getElem.mp h j i hj hi hgt).ne'

theorem look_eq_none : look key v k = none ↔ ∀ x ∈ v, key x ≠ k := by
  rw [look, find?_eq_none]
  simp

theorem SortedBy.look_iff (h : SortedBy key v) : look key v k = some x ↔ x ∈ v ∧ key x = k := by
  constructor
  · intro hlook
    exact ⟨mem_of_find?_eq_some hlook, by simpa using find?_some hlook⟩
  · rintro ⟨hx, rfl⟩
    cases hlook : look key v (key x) with
    | none => exact absurd rfl (look_eq_none.mp hlook x hx)
    | some y =>
      have hy : key y = key x := by simpa using find?_some hlook
      rw [h.key_inj (mem_of_find?_eq_some hlook) hx hy]

theorem SortedBy.head_iff (h : SortedBy key v) : v.head? = some b ↔ b ∈ v ∧ ∀ x ∈ v, key b ≤ key x := by
  cases v with
  | nil => simp
  | cons a v =>
    rw [head?_cons, Option.some_inj]
    have hlt := (pairwise_cons.mp h).1
    constructor
    · rintro rfl
      refine ⟨mem_cons_self, fun x hx => ?_⟩
      obtain rfl | hx := mem_cons.mp hx
      · exact le_refl _
      · exact (hlt x hx).le
    · rintro ⟨hb, hmin⟩
      obtain rfl | hb := mem_cons.mp hb
      · rfl
      · exact absurd (hmin a mem_cons_self) (hlt b hb).not_ge

theorem map_key_updateFirst (hf : ∀ x, key (f x) = key x) (v : List α) :
    (updateFirst key k f v).map key = v.map key := by
  induction v with
  | nil => rfl
  | cons x v ih =>
    rw [updateFirst]
    split
    · rw [map_cons, map_cons, hf]
    · rw [map_cons, map_cons, ih]

theorem SortedBy.updateFirst (h : SortedBy key v) (hf : ∀ x, key (f x) = key x) :
    SortedBy key (updateFirst key k f v) := by
  have hmap : (v.map key).Pairwise (· < ·) := pairwise_map.mpr h
  rw [← map_key_updateFirst hf] at hmap
  exact pairwise_map.mp hmap

theorem look_updateFirst (hf : ∀ x, key (f x) = key x) (v : List α) :
    look key (updateFirst key k f v) = update (look key v) k ((look key v k).map f) := by
  funext l
  induction v with
  | nil =>
    by_cases hl : l = k
    · subst hl
      rw [update_self]
      rfl
    · rw [update_of_ne hl]
      rfl
  | cons x v ih =>
    rw [Lib.updateFirst]
    by_cases hx : key x = k
    · rw [if_pos hx]
      by_cases hl : l = k
      · subst hl
        simp [look, hf, hx]
      · have hne : ¬ k = l := fun heq => hl heq.symm
        rw [update_of_ne hl]
        simp [look, hf, hx, hne]
    · rw [if_neg hx]
      by_cases hxl : key x = l
      · have hl : l ≠ k := fun heq => hx (hxl.trans heq)
        rw [update_of_ne hl]
        simp [look, hxl]
      · have hstep : ∀ w, look key (x :: w) l = look key w l := by
          intro w
          simp [look, hxl]
        have hself : look key (x :: v) k = look key v k := by simp [look, hx]
        rw [hstep, ih, hself]
        by_cases hl : l = k
        · subst hl
          rw [update_self, update_self]
        · rw [update_of_ne hl, update_of_ne hl, hstep]

theorem SortedBy.sortBy_concat (h : SortedBy key v) (hnew : look key v (key x) = none) :
    SortedBy key (sortBy key (v ++ [x])) := by
  have hle : (sortBy key (v ++ [x])).Pairwise fun a b => key a ≤ key b := by
    have : Std.Total (fun a b : α => key a ≤ key b) := ⟨fun a b => le_total _ _⟩
    have : IsTrans α (fun a b : α => key a ≤ key b) := ⟨fun a b c => le_trans⟩
    exact pairwise_insertionSort _ _
  have hne : (sortBy key (v ++ [x])).Pairwise fun a b => key a ≠ key b := by
    have hperm : (sortBy key (v ++ [x])).Perm (v ++ [x]) := perm_insertionSort _ _
    refine hperm.symm.pairwise (l := _) ?_ (fun hab => hab.symm)
    rw [pairwise_append]
    refine ⟨h.imp fun hlt => hlt.ne, pairwise_singleton _ _, fun a ha b hb => ?_⟩
    rw [mem_singleton] at hb
    subst hb
    exact look_eq_none.mp hnew a ha
  exact (hle.and hne).imp fun hab => lt_of_le_of_ne hab.1 hab.2

theorem SortedBy.look_sortBy_concat (h : SortedBy key v) (hnew : look key v (key x) = none) :
    look key (sortBy key (v ++ [x])) = update (look key v) (key x) (some x) := by
  have hmem : ∀ y, y ∈ sortBy key (v ++ [x]) ↔ y ∈ v ∨ y = x := by
    intro y
    rw [sortBy, mem_insertionSort, mem_append, mem_singleton]
  funext l
  apply Option.ext
  intro y
  rw [(h.sortBy_concat hnew).look_iff, hmem]
  by_cases hl : l = key x
  · subst hl
    rw [update_self, Option.some_inj]
    constructor
    · rintro ⟨hy | rfl, hk⟩
      · exact absurd hk (look_eq_none.mp hnew y hy)
      · rfl
    · rintro rfl
      exact ⟨.inr rfl, rfl⟩
  · rw [update_of_ne hl, h.look_iff]
    constructor
    · rintro ⟨hy | rfl, hk⟩
      · exact ⟨hy, hk⟩
      · exact absurd hk.symm hl
    · rintro ⟨hy, hk⟩
      exact ⟨.inl hy, hk⟩

theorem perm_delSwap {v : List α} {i : Nat} (hi : i < v.length) : v.Perm (v[i] :: delSwap v i) := by
  rcases eq_nil_or_concat v with rfl | ⟨w, z, rfl⟩
  · exact absurd hi (Nat.not_lt_zero i)
  · rw [concat_eq_append] at hi
    simp only [concat_eq_append]
    rw [delSwap, getLast?_concat]
    dsimp only
    rw [length_append, length_singleton] at hi
    rcases Nat.lt_or_ge i w.length with hlt | hge
    · rw [set_append_left _ _ hlt, dropLast_concat, getElem_append_left hlt]
      apply (perm_append_singleton z w).trans
      apply ((getElem_cons_eraseIdx_perm hlt).symm.cons z).trans
      exact (List.Perm.swap _ _ _).trans ((set_perm_cons_eraseIdx hlt z).symm.cons _)
    · obtain rfl : i = w.length := by omega
      rw [set_append_right _ _ (Nat.le_refl _), Nat.sub_self, set_cons_zero, dropLast_concat,
        getElem_concat_length rfl]
      exact perm_append_singleton z w

theorem delSwap_eq_eraseIdx (hi : i < v.length) (hlast : v.length ≤ i + 2) : delSwap v i = v.eraseIdx i := by
  have hlt : v.length - 1 < v.length := by omega
  rw [delSwap, getLast?_eq_getElem?, List.getElem?_eq_getElem hlt]
  apply ext_getElem
  · simp only [length_dropLast, length_set, length_eraseIdx_of_lt hi]
  · intro j hj _
    rw [length_dropLast, length_set] at hj
    rw [getElem_dropLast, getElem_set, getElem_eraseIdx]
    split
    · next heq =>
      have hend : ¬ j < i := by omega
      have hj1 : j + 1 = v.length - 1 := by omega
      simp only [hend, dif_neg, not_false_eq_true, hj1]
    · next hne' =>
      have hji : j < i := by omega
      simp only [hji, dif_pos]

theorem SortedBy.eraseIdx (h : SortedBy key v) (i : Nat) : SortedBy key (v.eraseIdx i) :=
  List.Pairwise.sublist (eraseIdx_sublist v i) h

theorem SortedBy.look_eraseIdx (h : SortedBy key v) (hi : i < v.length) :
    look key (v.eraseIdx i) = update (look key v) (key v[i]) none := by
  funext l
  apply Option.ext
  intro y
  have hmem : y ∈ v.eraseIdx i ↔ y ∈ v ∧ key y ≠ key v[i] := by
    rw [mem_eraseIdx_iff_getElem]
    constructor
    · rintro ⟨j, hj, hji, rfl⟩
      refine ⟨getElem_mem hj, fun hk => ?_⟩
      obtain hlt | hgt := Nat.lt_or_gt_of_ne hji
      · exact (pairwise_iff_getElem.mp h j i hj hi hlt).ne hk
      · exact (pairwise_iff_getElem.mp h i j hi hj hgt).ne' hk
    · rintro ⟨hy, hk⟩
      obtain ⟨j, hj, rfl⟩ := mem_iff_getElem.mp hy
      refine ⟨j, hj, fun heq => hk ?_, rfl⟩
      subst heq
      rfl
  rw [(h.eraseIdx i).look_iff, hmem]
  by_cases hl : l = key v[i]
  · subst hl
    rw [update_self]
    exact ⟨fun hy => absurd hy.2 hy.1.2, fun hf => by cases hf⟩
  · rw [update_of_ne hl, h.look_iff]
    exact ⟨fun hy => ⟨hy.1.1, hy.2⟩, fun hy => ⟨⟨hy.1, fun hk => hl (hy.2.symm.trans hk)⟩, hy.2⟩⟩

end Vpp.Lib
