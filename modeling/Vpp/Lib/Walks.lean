import Mathlib.Logic.Relation

namespace Vpp.Lib
open Relation

variable {r : α → α → Prop}

def Trapped (r : α → α → Prop) (m : α → Prop) (x : α) : Prop :=
  ∃ y, ReflTransGen r x y ∧ (TransGen r y y ∨ m y)

theorem Trapped.of_cycle (h : TransGen r x x) : Trapped r m x := ⟨x, .refl, .inl h⟩

theorem Trapped.head (h : r x y) (ht : Trapped r m y) : Trapped r m x := by
  obtain ⟨z, hz, hend⟩ := ht
  exact ⟨z, hz.head h, hend⟩

theorem trapped_iff : Trapped r m x ↔ m x ∨ ∃ y, r x y ∧ Trapped r m y := by
  constructor
  · rintro ⟨z, hz, hend⟩
    cases hz.cases_head with
    | inl heq =>
      subst heq
      cases hend with
      | inl hc =>
        obtain ⟨y, hy, hback⟩ := TransGen.head'_iff.mp hc
        exact .inr ⟨y, hy, x, hback, .inl hc⟩
      | inr hm => exact .inl hm
    | inr hstep =>
      obtain ⟨y, hy, hrest⟩ := hstep
      exact .inr ⟨y, hy, z, hrest, hend⟩
  · intro h
    cases h with
    | inl hm => exact ⟨x, .refl, .inr hm⟩
    | inr h =>
      obtain ⟨y, hy, ht⟩ := h
      exact ht.head hy

/-- A step that does not enter `c`. -/
def Outside (r : α → α → Prop) (c : α → Prop) (x y : α) : Prop := r x y ∧ ¬ c y

theorem outside_or_restart (e : α) (h : ReflTransGen (Outside r c) x y) :
    ReflTransGen (Outside r fun z => c z ∨ z = e) x y ∨ ReflTransGen (Outside r fun z => c z ∨ z = e) e y := by
  induction h using ReflTransGen.head_induction_on with
  | refl => exact .inl .refl
  | @head a b hab _ ih =>
    obtain hb | he := ih
    · by_cases heq : b = e
      · exact .inr (heq ▸ hb)
      · have hout : Outside r (fun z => c z ∨ z = e) a b := by
          refine ⟨hab.1, ?_⟩
          rintro (hc | rfl)
          · exact hab.2 hc
          · exact heq rfl
        exact .inl (hb.head hout)
    · exact .inr he

theorem outside_restart (h : ReflTransGen (Outside r c) e y) :
    ReflTransGen (Outside r fun z => c z ∨ z = e) e y := (outside_or_restart e h).elim id id

end Vpp.Lib
