import Mathlib.Data.List.Induction
import Mathlib.Logic.Relation

namespace Vpp.Lib

/-- Paths that pass through `k` join. -/
def addPivot (r : α → α → Bool) (k : α) : α → α → Bool := fun i j => r i j || (r i k && r k j)

def warshall (ks : List α) (r : α → α → Bool) : α → α → Bool := ks.foldl addPivot r

theorem addPivot_iff {r : α → α → Bool} : addPivot r k i j ↔ r i j ∨ r i k ∧ r k j := by
  rw [addPivot, Bool.or_eq_true, Bool.and_eq_true]

theorem warshall_concat (ks : List α) (k : α) (r : α → α → Bool) :
    warshall (ks ++ [k]) r = addPivot (warshall ks r) k := List.foldl_append

theorem transGen_of_warshall (ks : List α) (h : warshall ks r i j) : Relation.TransGen (r · ·) i j := by
  induction ks using List.reverseRecOn generalizing i j with
  | nil => exact .single h
  | append_singleton ks k ih =>
    rw [warshall_concat, addPivot_iff] at h
    obtain h | ⟨hik, hkj⟩ := h
    · exact ih h
    · exact (ih hik).trans (ih hkj)

theorem warshall_of_edge (ks : List α) {r : α → α → Bool} (h : r i j) : warshall ks r i j := by
  induction ks using List.reverseRecOn with
  | nil => exact h
  | append_singleton ks k ih =>
    rw [warshall_concat, addPivot_iff]
    exact .inl ih

theorem warshall_trans (ks : List α) (hm : m ∈ ks) (him : warshall ks r i m) (hmj : warshall ks r m j) :
    warshall ks r i j := by
  induction ks using List.reverseRecOn generalizing i m j with
  | nil => cases hm
  | append_singleton ks k ih =>
    rw [warshall_concat, addPivot_iff] at him hmj ⊢
    obtain hm | rfl : m ∈ ks ∨ m = k := by simpa using hm
    · obtain him | ⟨hik, hkm⟩ := him
      · obtain hmj | ⟨hmk, hkj⟩ := hmj
        · exact .inl (ih hm him hmj)
        · exact .inr ⟨ih hm him hmk, hkj⟩
      · obtain hmj | ⟨-, hkj⟩ := hmj
        · exact .inr ⟨hik, ih hm hkm hmj⟩
        · exact .inr ⟨hik, hkj⟩
    · exact .inr ⟨him.elim id And.left, hmj.elim id And.right⟩

theorem warshall_iff {r : α → α → Bool} (hks : ∀ i j, r i j → j ∈ ks) :
    warshall ks r i j ↔ Relation.TransGen (r · ·) i j := by
  constructor
  · exact transGen_of_warshall ks
  · intro h
    induction h with
    | single h => exact warshall_of_edge ks h
    | tail h hlast ih =>
      cases h with
      | single hfirst => exact warshall_trans ks (hks _ _ hfirst) ih (warshall_of_edge ks hlast)
      | tail _ hprev => exact warshall_trans ks (hks _ _ hprev) ih (warshall_of_edge ks hlast)

end Vpp.Lib
