import Mathlib.Data.Fintype.Card

namespace Vpp.Lib

section

variable {ι α : Type*} [Fintype ι] {g : ι → α} {p : α → Prop} [DecidablePred p]

def contents (g : ι → α) : Multiset α := Finset.univ.val.map g

theorem mem_contents : a ∈ contents g ↔ ∃ i, g i = a := by
  simp [contents]

theorem contents_update [DecidableEq ι] (g : ι → α) (i : ι) (a : α) :
    g i ::ₘ contents (Function.update g i a) = a ::ₘ contents g := by
  obtain ⟨t, ht⟩ := Multiset.exists_cons_of_mem (Finset.mem_univ_val i)
  have hnot : i ∉ t := by
    have hnd : (i ::ₘ t).Nodup := ht ▸ Finset.univ.nodup
    exact (Multiset.nodup_cons.mp hnd).1
  have hrest : t.map (Function.update g i a) = t.map g := by
    apply Multiset.map_congr rfl
    intro x hx
    have hne : x ≠ i := fun h => hnot (h ▸ hx)
    exact Function.update_of_ne hne _ _
  rw [contents, contents, ht, Multiset.map_cons, Multiset.map_cons, Function.update_self, hrest, Multiset.cons_swap]

def occupied (p : α → Prop) [DecidablePred p] (g : ι → α) : Multiset α := (contents g).filter p

theorem mem_occupied : a ∈ occupied p g ↔ (∃ i, g i = a) ∧ p a := by
  rw [occupied, Multiset.mem_filter, mem_contents]

theorem occupied_fill [DecidableEq ι] (hfree : ¬ p (g i)) (ha : p a) :
    occupied p (Function.update g i a) = a ::ₘ occupied p g := by
  have h := congrArg (Multiset.filter p) (contents_update g i a)
  rwa [Multiset.filter_cons_of_neg _ hfree, Multiset.filter_cons_of_pos _ ha] at h

theorem occupied_clear [DecidableEq ι] (hused : p (g i)) (ha : ¬ p a) :
    g i ::ₘ occupied p (Function.update g i a) = occupied p g := by
  have h := congrArg (Multiset.filter p) (contents_update g i a)
  rwa [Multiset.filter_cons_of_pos _ hused, Multiset.filter_cons_of_neg _ ha] at h

theorem card_occupied_add (p : α → Prop) [DecidablePred p] (g : ι → α) :
    (occupied p g).card + (Finset.univ.filter fun i => ¬ p (g i)).card = Fintype.card ι := by
  have hfilter : (occupied p g).card = (Finset.univ.filter fun i => p (g i)).card := by
    rw [occupied, contents, Multiset.filter_map, Multiset.card_map]
    rfl
  rw [hfilter, Finset.card_filter_add_card_filter_not]
  rfl

theorem exists_free (h : (occupied p g).card < Fintype.card ι) : ∃ i, ¬ p (g i) := by
  have hadd := card_occupied_add p g
  have hpos : 0 < (Finset.univ.filter fun i => ¬ p (g i)).card := by omega
  obtain ⟨i, hi⟩ := Finset.card_pos.mp hpos
  exact ⟨i, (Finset.mem_filter.mp hi).2⟩

end

end Vpp.Lib

namespace Vpp.Lib.Bins

variable {ι β : Type}

/-- Every item stands in the list of its bin, at the place it has on record, and nowhere else. -/
def Filed (slots : β → List ι) (bin : ι → Option β) (place : ι → Nat) : Prop :=
  ∀ b k i, (slots b)[k]? = some i ↔ bin i = some b ∧ place i = k

variable {slots : β → List ι} {bin : ι → Option β} {place : ι → Nat}

theorem Filed.get (h : Filed slots bin place) (hb : bin i = some b) : (slots b)[place i]? = some i := by
  exact (h b (place i) i).mpr ⟨hb, rfl⟩

theorem Filed.lt (h : Filed slots bin place) (hb : bin i = some b) : place i < (slots b).length := by
  exact (List.getElem?_eq_some_iff.mp (h.get hb)).1

theorem Filed.bin_of_mem (h : Filed slots bin place) (hi : i ∈ slots b) : bin i = some b := by
  obtain ⟨k, hk⟩ := List.mem_iff_getElem?.mp hi
  exact ((h b k i).mp hk).1

theorem Filed.congr (h : Filed slots bin place) (hp : ∀ i, bin i ≠ none → place' i = place i) :
    Filed slots bin place' := by
  intro b k i
  rw [h b k i]
  apply and_congr_right
  intro hb
  rw [hp i (by simp [hb])]

variable [DecidableEq ι] [DecidableEq β]

/-- Take the entry at `k` out and put the last entry in its place. -/
def swapRemove (l : List ι) (k : Nat) : List ι :=
  match l.getLast? with
  | none => []
  | some t => (l.set k t).dropLast

/-- The places after the entry at `k` of `l` is taken out. -/
def swapPlace (place : ι → Nat) (l : List ι) (k : Nat) : ι → Nat :=
  match l.getLast? with
  | none => place
  | some t => Function.update place t k

theorem Filed.add (h : Filed slots bin place) (hi : bin i = none) (b : β) :
    Filed (Function.update slots b (slots b ++ [i])) (Function.update bin i (some b))
      (Function.update place i (slots b).length) := by
  intro c k j
  by_cases hj : j = i
  · subst hj
    have hno : (slots c)[k]? ≠ some j := by
      intro hk
      have hb := ((h c k j).mp hk).1
      simp [hi] at hb
    rw [Function.update_self, Function.update_self]
    by_cases hc : c = b
    · subst hc
      rw [Function.update_self]
      grind
    · rw [Function.update_of_ne hc]
      grind
  · rw [Function.update_of_ne hj, Function.update_of_ne hj, ← h c k j]
    by_cases hc : c = b
    · subst hc
      rw [Function.update_self]
      grind
    · rw [Function.update_of_ne hc]

theorem Filed.remove (h : Filed slots bin place) (hi : bin i = some b) :
    Filed (Function.update slots b (swapRemove (slots b) (place i))) (Function.update bin i none)
      (swapPlace place (slots b) (place i)) := by
  have hget := h.get hi
  have hlt := h.lt hi
  have hne : slots b ≠ [] := fun he => by simp [he] at hlt
  obtain ⟨t, ht⟩ : ∃ t, (slots b).getLast? = some t := ⟨_, List.getLast?_eq_some_getLast hne⟩
  have hlast : (slots b)[(slots b).length - 1]? = some t := by rw [← ht, List.getLast?_eq_getElem?]
  obtain ⟨hbt, hpt⟩ := (h b _ t).mp hlast
  intro c k j
  simp only [swapRemove, swapPlace, ht]
  by_cases hc : c = b
  · subst hc
    rw [Function.update_self]
    have hk := h c k j
    have hk' := h c k t
    have hki := h c k i
    have hpi := h c (place i) j
    by_cases hj : j = i
    · subst hj
      rw [Function.update_self]
      grind
    · rw [Function.update_of_ne hj]
      by_cases hjt : j = t
      · subst hjt
        rw [Function.update_self]
        grind
      · rw [Function.update_of_ne hjt, ← hk]
        grind
  · rw [Function.update_of_ne hc, h c k j]
    by_cases hj : j = i
    · subst hj
      grind
    · rw [Function.update_of_ne hj]
      grind

end Vpp.Lib.Bins
