import Mathlib.Algebra.Order.BigOperators.Group.Finset

namespace Vpp.Lib
open List

/-- A pool: a vector of elements and the stack of its free positions. -/
structure Pool (α : Type u) where
  elts : List α
  freeIndices : List Nat
  nodup : freeIndices.Nodup
  bound : ∀ i ∈ freeIndices, i < elts.length
  deriving DecidableEq

namespace Pool

def empty : Pool α := ⟨[], [], .nil, by simp⟩

def ofElts (elts : List α) : Pool α := ⟨elts, [], .nil, fun _ h => absurd h not_mem_nil⟩

/-- Position `i` holds an element that is in use. -/
def Live (p : Pool α) (i : Nat) : Prop := i < p.elts.length ∧ i ∉ p.freeIndices

instance (p : Pool α) (i : Nat) : Decidable (p.Live i) := inferInstanceAs (Decidable (_ ∧ _))

def eltAt [Inhabited α] (p : Pool α) (i : Nat) : α := p.elts.getD i default

def set (p : Pool α) (i : Nat) (a : α) : Pool α :=
  ⟨p.elts.set i a, p.freeIndices, p.nodup, by simpa using p.bound⟩

def modify [Inhabited α] (p : Pool α) (i : Nat) (f : α → α) : Pool α := p.set i (f (p.eltAt i))

/-- Take the position that was freed last; without one, extend the vector by a zeroed element. -/
def get [Inhabited α] (p : Pool α) : Pool α × Nat :=
  match p with
  | ⟨elts, i :: rest, hn, hb⟩ =>
    (⟨elts, rest, (nodup_cons.mp hn).2, fun j hj => hb j (.tail _ hj)⟩, i)
  | ⟨elts, [], _, _⟩ => (⟨elts ++ [default], [], .nil, by simp⟩, elts.length)

/-- Free a position. Freeing one that is not in use is excluded by an assertion. -/
def put (p : Pool α) (i : Nat) : Pool α :=
  if h : p.Live i then
    ⟨p.elts, i :: p.freeIndices, nodup_cons.mpr ⟨h.2, p.nodup⟩, by
      intro j hj
      rcases mem_cons.mp hj with he | hm
      · exact he ▸ h.1
      · exact p.bound j hm⟩
  else p

@[simp] theorem not_live_empty (i : Nat) : ¬ (empty : Pool α).Live i := by simp [Live, empty]

@[simp] theorem live_set {p : Pool α} : (p.set i a).Live j ↔ p.Live j := by simp [Live, set]

theorem eltAt_set [Inhabited α] {p : Pool α} (hi : p.Live i) :
    (p.set i a).eltAt j = if j = i then a else p.eltAt j := by
  simp only [eltAt, set, getD_eq_getElem?_getD, getElem?_set]
  split
  · next he =>
    subst he
    simp [hi.1]
  · next hne => simp [Ne.symm hne]

@[simp] theorem eltAt_set_self [Inhabited α] {p : Pool α} (hi : p.Live i) :
    (p.set i a).eltAt i = a := by simp [eltAt_set hi]

theorem eltAt_set_ne [Inhabited α] {p : Pool α} (hne : j ≠ i) :
    (p.set i a).eltAt j = p.eltAt j := by
  simp [eltAt, set, getD_eq_getElem?_getD, Ne.symm hne]

@[simp] theorem live_modify [Inhabited α] {p : Pool α} :
    (p.modify i f).Live j ↔ p.Live j := live_set

theorem eltAt_modify [Inhabited α] {p : Pool α} (hi : p.Live i) :
    (p.modify i f).eltAt j = if j = i then f (p.eltAt i) else p.eltAt j := eltAt_set hi

@[simp] theorem eltAt_modify_self [Inhabited α] {p : Pool α} (hi : p.Live i) :
    (p.modify i f).eltAt i = f (p.eltAt i) := eltAt_set_self hi

theorem eltAt_modify_ne [Inhabited α] {p : Pool α} (hne : j ≠ i) :
    (p.modify i f).eltAt j = p.eltAt j := eltAt_set_ne hne

theorem set_eltAt [Inhabited α] {p : Pool α} (hi : p.Live i) : p.set i (p.eltAt i) = p := by
  have hset : p.elts.set i (p.eltAt i) = p.elts := by
    rw [eltAt, getD_eq_getElem?_getD, List.getElem?_eq_getElem hi.1]
    exact set_getElem_self hi.1
  obtain ⟨elts, free, hn, hb⟩ := p
  simp only [set, Pool.mk.injEq, and_true]
  exact hset

theorem proj_modify [Inhabited α] {f : α → β} {g : α → α} (hf : ∀ a, f (g a) = f a) (p : Pool α) (i j : Nat) :
    f ((p.modify i g).eltAt j) = f (p.eltAt j) := by
  by_cases hj : j = i
  · subst hj
    simp only [modify, eltAt, set, getD_eq_getElem?_getD, getElem?_set]
    by_cases hlt : j < p.elts.length
    · simp [hlt, hf]
    · simp [hlt]
  · rw [eltAt_modify_ne hj]

@[simp] theorem length_modify [Inhabited α] (p : Pool α) (i : Nat) (f : α → α) :
    (p.modify i f).elts.length = p.elts.length := length_set

theorem modify_set [Inhabited α] {p : Pool α} (hi : p.Live i) : (p.set i a).modify i f = p.set i (f a) := by
  unfold modify
  rw [eltAt_set_self hi]
  simp [set]

theorem eltAt_get_self_of_free [Inhabited α] {p : Pool α} (h : p.freeIndices = []) :
    p.get.1.eltAt p.get.2 = default := by
  obtain ⟨elts, free, hn, hb⟩ := p
  cases h
  simp [get, eltAt, getD_eq_getElem?_getD]

theorem freeIndices_get_of_free [Inhabited α] {p : Pool α} (h : p.freeIndices = []) :
    p.get.1.freeIndices = [] := by
  obtain ⟨elts, free, hn, hb⟩ := p
  cases h
  rfl

theorem not_live_get [Inhabited α] (p : Pool α) : ¬ p.Live p.get.2 := by
  obtain ⟨elts, free, hn, hb⟩ := p
  cases free with
  | nil => simp [get, Live]
  | cons i rest => simp [get, Live]

theorem live_get [Inhabited α] {p : Pool α} : p.get.1.Live j ↔ p.Live j ∨ j = p.get.2 := by
  obtain ⟨elts, free, hn, hb⟩ := p
  cases free with
  | nil =>
    simp only [get, Live, length_append, length_cons, length_nil]
    simp
    omega
  | cons i rest =>
    have hi := hb i (.head _)
    have hr := (nodup_cons.mp hn).1
    simp only [get, Live, mem_cons]
    constructor
    · rintro ⟨hlt, hm⟩
      by_cases he : j = i
      · exact .inr he
      · exact .inl ⟨hlt, by simp [he, hm]⟩
    · rintro (⟨hlt, hm⟩ | he)
      · exact ⟨hlt, fun h => hm (.inr h)⟩
      · subst he
        exact ⟨hi, hr⟩

theorem eltAt_get [Inhabited α] (p : Pool α) (j : Nat) : p.get.1.eltAt j = p.eltAt j := by
  obtain ⟨elts, free, hn, hb⟩ := p
  cases free with
  | nil =>
    simp only [get, eltAt, getD_eq_getElem?_getD]
    rcases Nat.lt_trichotomy j elts.length with hlt | he | hgt
    · rw [getElem?_append_left hlt]
    · subst he
      simp
    · rw [List.getElem?_eq_none (by simp; omega), List.getElem?_eq_none (by omega)]
  | cons i rest => rfl

theorem live_put {p : Pool α} : (p.put i).Live j ↔ p.Live j ∧ j ≠ i := by
  unfold put
  split
  · simp only [Live, mem_cons, not_or]
    constructor
    · rintro ⟨hlt, hne, hm⟩
      exact ⟨⟨hlt, hm⟩, hne⟩
    · rintro ⟨⟨hlt, hm⟩, hne⟩
      exact ⟨hlt, hne, hm⟩
  · next hi =>
    constructor
    · intro hj
      exact ⟨hj, fun he => hi (he ▸ hj)⟩
    · exact fun h => h.1

@[simp] theorem eltAt_put [Inhabited α] (p : Pool α) (i j : Nat) :
    (p.put i).eltAt j = p.eltAt j := by
  unfold put
  split <;> rfl

theorem length_get [Inhabited α] (p : Pool α) :
    p.get.1.elts.length = if p.freeIndices = [] then p.elts.length + 1 else p.elts.length := by
  obtain ⟨elts, free, hn, hb⟩ := p
  cases free with
  | nil => simp [get]
  | cons i rest => simp [get]

@[simp] theorem length_put (p : Pool α) (i : Nat) : (p.put i).elts.length = p.elts.length := by
  unfold put
  split <;> rfl

theorem getElem?_put (p : Pool α) (i j : Nat) : (p.put i).elts[j]? = p.elts[j]? := by
  unfold put
  split <;> rfl

theorem freeIndices_put {p : Pool α} (h : p.Live i) : (p.put i).freeIndices = i :: p.freeIndices := by
  rw [put, dif_pos h]

theorem freeIndices_get_length [Inhabited α] (p : Pool α) :
    p.get.1.freeIndices.length = p.freeIndices.length - 1 := by
  obtain ⟨elts, free, hn, hb⟩ := p
  cases free with
  | nil => rfl
  | cons i rest => rfl

theorem getElem?_get [Inhabited α] {p : Pool α} (h : j < p.elts.length) : p.get.1.elts[j]? = p.elts[j]? := by
  obtain ⟨elts, free, hn, hb⟩ := p
  cases free with
  | nil => exact getElem?_append_left h
  | cons i rest => rfl

def map (f : α → β) (p : Pool α) : Pool β := ⟨p.elts.map f, p.freeIndices, p.nodup, by simpa using p.bound⟩

theorem live_map {p : Pool α} : (p.map f).Live i ↔ p.Live i := by simp [Live, map]

theorem set_map (f : α → β) (p : Pool α) (i : Nat) (a : α) : (p.map f).set i (f a) = (p.set i a).map f := by
  simp [map, set, map_set]

theorem put_map (f : α → β) (p : Pool α) (i : Nat) : (p.map f).put i = (p.put i).map f := by
  by_cases h : p.Live i
  · have h' : (p.map f).Live i := live_map.mpr h
    simp only [put, dif_pos h, dif_pos h']
    rfl
  · have h' : ¬ (p.map f).Live i := fun hm => h (live_map.mp hm)
    simp only [put, dif_neg h, dif_neg h']

theorem get_map_index [Inhabited α] [Inhabited β] (f : α → β) (p : Pool α) : (p.map f).get.2 = p.get.2 := by
  obtain ⟨elts, free, hn, hb⟩ := p
  cases free with
  | nil => simp [get, map]
  | cons i rest => rfl

theorem get_map_set [Inhabited α] [Inhabited β] (f : α → β) (p : Pool α) (a : α) :
    (p.map f).get.1.set p.get.2 (f a) = (p.get.1.set p.get.2 a).map f := by
  obtain ⟨elts, free, hn, hb⟩ := p
  cases free with
  | nil => simp [get, map, set]
  | cons i rest => simp [get, map, set, map_set]

end Pool

end Vpp.Lib

namespace Vpp.Lib.Pool

def live (p : Pool α) : Finset Nat := (Finset.range p.elts.length).filter p.Live

@[simp] theorem mem_live {p : Pool α} : i ∈ p.live ↔ p.Live i := by
  simp only [live, Finset.mem_filter, Finset.mem_range, and_iff_right_iff_imp]
  exact fun h => h.1

def total [Inhabited α] (p : Pool α) (f : α → Nat) : Nat := ∑ i ∈ p.live, f (p.eltAt i)

@[simp] theorem total_empty [Inhabited α] (f : α → Nat) : (empty : Pool α).total f = 0 := rfl

theorem le_total [Inhabited α] {p : Pool α} (h : p.Live i) (f : α → Nat) :
    f (p.eltAt i) ≤ p.total f :=
  Finset.single_le_sum (f := fun i => f (p.eltAt i)) (fun _ _ => Nat.zero_le _) (mem_live.mpr h)

theorem exists_of_total_pos [Inhabited α] {p : Pool α} {f : α → Nat} (h : 0 < p.total f) :
    ∃ i, p.Live i ∧ 0 < f (p.eltAt i) := by
  obtain ⟨i, hi, hne⟩ := Finset.exists_ne_zero_of_sum_ne_zero (Nat.ne_of_gt h)
  exact ⟨i, mem_live.mp hi, Nat.pos_of_ne_zero hne⟩

theorem total_set [Inhabited α] {p : Pool α} (h : p.Live i) (a : α) (f : α → Nat) :
    (p.set i a).total f + f (p.eltAt i) = p.total f + f a := by
  have hlive : (p.set i a).live = p.live := by
    ext j
    simp
  have hi := mem_live.mpr h
  have hrest : ∑ j ∈ p.live.erase i, f ((p.set i a).eltAt j) = ∑ j ∈ p.live.erase i, f (p.eltAt j) := by
    apply Finset.sum_congr rfl
    intro j hj
    rw [eltAt_set_ne (Finset.ne_of_mem_erase hj)]
  rw [total, total, hlive, ← Finset.add_sum_erase _ _ hi, ← Finset.add_sum_erase _ _ hi, hrest,
    eltAt_set_self h]
  omega

theorem total_get [Inhabited α] (p : Pool α) (f : α → Nat) :
    p.get.1.total f = p.total f + f (p.eltAt p.get.2) := by
  have hlive : p.get.1.live = insert p.get.2 p.live := by
    ext j
    simp [live_get, or_comm]
  have hnew : p.get.2 ∉ p.live := by
    simpa using not_live_get p
  rw [total, total, hlive, Finset.sum_insert hnew, Nat.add_comm]
  simp only [eltAt_get]

theorem total_put [Inhabited α] {p : Pool α} (h : p.Live i) (f : α → Nat) :
    (p.put i).total f + f (p.eltAt i) = p.total f := by
  have hlive : (p.put i).live = p.live.erase i := by
    ext j
    simp [live_put, and_comm]
  rw [total, total, hlive, ← Finset.add_sum_erase _ _ (mem_live.mpr h), Nat.add_comm]
  simp only [eltAt_put]

end Vpp.Lib.Pool
