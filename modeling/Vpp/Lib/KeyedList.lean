import Mathlib.Data.List.Nodup
import Mathlib.Data.List.Pairwise
import Mathlib.Data.List.Perm.Basic

namespace Vpp.Lib
open List Option

abbrev IsEqv (eqv : κ → κ → Bool) : Prop := Equivalence fun a b => eqv a b = true

section
variable (eqv : κ → κ → Bool)

def KeyDistinct (ps : List (κ × ν)) : Prop := ps.Pairwise fun p q => ¬ eqv p.1 q.1 = true

def lookKey (ps : List (κ × ν)) (k : κ) : Option (κ × ν) := ps.find? fun p => eqv p.1 k

def setKey (k : κ) (v : ν) (p : κ × ν) : κ × ν := if eqv p.1 k then (p.1, v) else p

def putKey (ps : List (κ × ν)) (k : κ) (v : ν) : List (κ × ν) :=
  if ps.any fun p => eqv p.1 k then ps.map (setKey eqv k v) else (k, v) :: ps

def dropKey (ps : List (κ × ν)) (k : κ) : List (κ × ν) := ps.filter fun p => !eqv p.1 k

end

section
variable {eqv : κ → κ → Bool} {ps qs xs ys : List (κ × ν)} {p q : κ × ν} {k k' : κ} {v : ν}

theorem KeyDistinct.perm (he : IsEqv eqv) (h : KeyDistinct eqv ps) (hp : ps.Perm qs) : KeyDistinct eqv qs := by
  apply hp.pairwise h
  intro a b hab hba
  exact hab (he.symm hba)

theorem KeyDistinct.eq_of_eqv (he : IsEqv eqv) (h : KeyDistinct eqv ps) (hp : p ∈ ps) (hq : q ∈ ps)
    (hk : eqv p.1 q.1 = true) : p = q := by
  by_contra hne
  have hsymm : Std.Symm fun a b : κ × ν => ¬ eqv a.1 b.1 = true := ⟨fun _ _ hab hba => hab (he.symm hba)⟩
  exact List.Pairwise.forall h hp hq hne hk

theorem lookKey_eq_none : lookKey eqv ps k = none ↔ ∀ p ∈ ps, ¬ eqv p.1 k = true := find?_eq_none

theorem lookKey_eq_some (he : IsEqv eqv) (h : KeyDistinct eqv ps) :
    lookKey eqv ps k = some p ↔ p ∈ ps ∧ eqv p.1 k = true := by
  apply Iff.intro
  · intro hlook
    exact ⟨mem_of_find?_eq_some hlook, find?_some (p := fun p : κ × ν => eqv p.1 k) hlook⟩
  · intro hmem
    cases hlook : lookKey eqv ps k with
    | none => exact absurd hmem.2 (lookKey_eq_none.mp hlook p hmem.1)
    | some q =>
      have hq : eqv q.1 k = true := find?_some (p := fun p : κ × ν => eqv p.1 k) hlook
      have heq := h.eq_of_eqv he hmem.1 (mem_of_find?_eq_some hlook) (he.trans hmem.2 (he.symm hq))
      rw [heq]

theorem lookKey_perm (he : IsEqv eqv) (h : KeyDistinct eqv ps) (hp : ps.Perm qs) (k : κ) :
    lookKey eqv ps k = lookKey eqv qs k := by
  apply Option.ext
  intro p
  rw [lookKey_eq_some he h, lookKey_eq_some he (h.perm he hp), hp.mem_iff]

theorem dropKey_perm (hp : ps.Perm qs) (k : κ) : (dropKey eqv ps k).Perm (dropKey eqv qs k) := hp.filter _

theorem map_setKey_of_none (h : ∀ p ∈ ps, ¬ eqv p.1 k = true) : ps.map (setKey eqv k v) = ps := by
  have hid : ps.map (setKey eqv k v) = ps.map id := map_congr_left fun p hp => if_neg (h p hp)
  rw [hid, List.map_id]

theorem lookKey_between (hxs : ∀ p ∈ xs, ¬ eqv p.1 k = true) (hys : ∀ p ∈ ys, ¬ eqv p.1 k = true) :
    lookKey eqv (xs ++ (ps ++ ys)) k = lookKey eqv ps k := by
  have hx : xs.find? (fun p => eqv p.1 k) = none := lookKey_eq_none.mpr hxs
  have hy : ys.find? (fun p => eqv p.1 k) = none := lookKey_eq_none.mpr hys
  rw [lookKey, find?_append, find?_append, hx, hy, none_or, or_none]
  rfl

theorem any_eqv_false (h : ∀ p ∈ ps, ¬ eqv p.1 k = true) : (ps.any fun p => eqv p.1 k) = false := by
  rw [List.any_eq_false]
  exact h

theorem putKey_of_none (h : ∀ p ∈ ps, ¬ eqv p.1 k = true) (v : ν) : putKey eqv ps k v = (k, v) :: ps := by
  rw [putKey, any_eqv_false h, if_neg Bool.false_ne_true]

theorem putKey_of_some (hp : p ∈ ps) (hk : eqv p.1 k = true) (v : ν) :
    putKey eqv ps k v = ps.map (setKey eqv k v) := if_pos (List.any_eq_true.mpr ⟨p, hp, hk⟩)

theorem putKey_between (hxs : ∀ p ∈ xs, ¬ eqv p.1 k = true) (hys : ∀ p ∈ ys, ¬ eqv p.1 k = true) (v : ν) :
    (putKey eqv (xs ++ (ps ++ ys)) k v).Perm (xs ++ (putKey eqv ps k v ++ ys)) := by
  by_cases h : ∃ p ∈ ps, eqv p.1 k = true
  · obtain ⟨p, hp, hk⟩ := h
    have hp' : p ∈ xs ++ (ps ++ ys) := mem_append_right _ (mem_append_left _ hp)
    rw [putKey_of_some hp' hk, putKey_of_some hp hk, map_append, map_append, map_setKey_of_none hxs,
      map_setKey_of_none hys]
  · have hps : ∀ p ∈ ps, ¬ eqv p.1 k = true := fun p hp hk => h ⟨p, hp, hk⟩
    have hall : ∀ p ∈ xs ++ (ps ++ ys), ¬ eqv p.1 k = true := by
      intro p hp
      rcases mem_append.mp hp with hx | hp
      · exact hxs p hx
      · rcases mem_append.mp hp with hp | hy
        · exact hps p hp
        · exact hys p hy
    rw [putKey_of_none hall, putKey_of_none hps]
    exact perm_middle.symm

theorem dropKey_of_none (h : ∀ p ∈ ps, ¬ eqv p.1 k = true) : dropKey eqv ps k = ps := by
  apply filter_eq_self.mpr
  intro p hp
  rw [Bool.not_eq_true', ← Bool.not_eq_true]
  exact h p hp

theorem dropKey_between (hxs : ∀ p ∈ xs, ¬ eqv p.1 k = true) (hys : ∀ p ∈ ys, ¬ eqv p.1 k = true) :
    dropKey eqv (xs ++ (ps ++ ys)) k = xs ++ (dropKey eqv ps k ++ ys) := by
  have hx := dropKey_of_none hxs
  have hy := dropKey_of_none hys
  rw [dropKey] at hx hy ⊢
  rw [filter_append, filter_append, hx, hy]
  rfl

theorem setKey_fst (k : κ) (v : ν) (p : κ × ν) : (setKey eqv k v p).1 = p.1 := by
  rw [setKey]
  split <;> rfl

theorem KeyDistinct.cons (he : IsEqv eqv) (h : KeyDistinct eqv ps) (hnone : ∀ p ∈ ps, ¬ eqv p.1 k = true) (v : ν) :
    KeyDistinct eqv ((k, v) :: ps) := by
  apply List.Pairwise.cons _ h
  intro p hp hk
  exact hnone p hp (he.symm hk)

theorem KeyDistinct.put (he : IsEqv eqv) (h : KeyDistinct eqv ps) (k : κ) (v : ν) :
    KeyDistinct eqv (putKey eqv ps k v) := by
  by_cases hsome : ∃ p ∈ ps, eqv p.1 k = true
  · obtain ⟨p, hp, hk⟩ := hsome
    rw [putKey_of_some hp hk]
    apply List.Pairwise.map _ _ h
    intro a b hab
    rw [setKey_fst, setKey_fst]
    exact hab
  · have hnone : ∀ p ∈ ps, ¬ eqv p.1 k = true := fun p hp hk => hsome ⟨p, hp, hk⟩
    rw [putKey_of_none hnone]
    exact h.cons he hnone v

theorem KeyDistinct.drop (h : KeyDistinct eqv ps) (k : κ) : KeyDistinct eqv (dropKey eqv ps k) := h.filter _

theorem key_of_mem_putKey (hp : p ∈ putKey eqv ps k v) : p.1 = k ∨ ∃ q ∈ ps, q.1 = p.1 := by
  rw [putKey] at hp
  split at hp
  · obtain ⟨q, hq, hset⟩ := List.mem_map.mp hp
    rw [← hset, setKey_fst]
    exact .inr ⟨q, hq, rfl⟩
  · rcases mem_cons.mp hp with heq | hp
    · rw [heq]
      exact .inl rfl
    · exact .inr ⟨p, hp, rfl⟩

theorem lookKey_putKey (he : IsEqv eqv) (h : KeyDistinct eqv ps) (k : κ) (v : ν) (k' : κ) :
    (lookKey eqv (putKey eqv ps k v) k').map Prod.snd = if eqv k k' then some v
        else (lookKey eqv ps k').map Prod.snd := by
  by_cases hsome : ∃ p ∈ ps, eqv p.1 k = true
  · obtain ⟨p, hp, hk⟩ := hsome
    rw [putKey_of_some hp hk]
    by_cases hkk : eqv k k' = true
    · have hmem : setKey eqv k v p ∈ ps.map (setKey eqv k v) := List.mem_map_of_mem hp
      have hset : setKey eqv k v p = (p.1, v) := if_pos hk
      rw [hset] at hmem
      have hd := h.put he k v
      rw [putKey_of_some hp hk] at hd
      rw [if_pos hkk, (lookKey_eq_some he hd).mpr ⟨hmem, he.trans hk hkk⟩]
      rfl
    · rw [if_neg hkk]
      have hfind : (ps.map (setKey eqv k v)).find? (fun p => eqv p.1 k') = lookKey eqv ps k' := by
        rw [find?_map]
        have hsame : ((fun p : κ × ν => eqv p.1 k') ∘ setKey eqv k v) = fun p => eqv p.1 k' := by
          funext q
          rw [Function.comp_apply, setKey_fst]
        rw [hsame]
        cases hlook : lookKey eqv ps k' with
        | none =>
          rw [lookKey] at hlook
          rw [hlook]
          rfl
        | some q =>
          have hq : eqv q.1 k' = true := find?_some (p := fun p : κ × ν => eqv p.1 k') hlook
          have hne : ¬ eqv q.1 k = true := fun hqk => hkk (he.trans (he.symm hqk) hq)
          rw [lookKey] at hlook
          rw [hlook, map_some, setKey, if_neg hne]
      rw [lookKey, hfind]
  · have hnone : ∀ p ∈ ps, ¬ eqv p.1 k = true := fun p hp hk => hsome ⟨p, hp, hk⟩
    rw [putKey_of_none hnone, lookKey, find?_cons]
    by_cases hkk : eqv k k' = true
    · rw [if_pos hkk, hkk]
      rfl
    · rw [if_neg hkk, Bool.eq_false_iff.mpr hkk]
      rfl

theorem lookKey_dropKey (he : IsEqv eqv) (h : KeyDistinct eqv ps) (k k' : κ) :
    lookKey eqv (dropKey eqv ps k) k' = if eqv k k' then none else lookKey eqv ps k' := by
  by_cases hkk : eqv k k' = true
  · rw [if_pos hkk]
    apply lookKey_eq_none.mpr
    intro p hp hk'
    obtain ⟨_, hnot⟩ := mem_filter.mp hp
    rw [Bool.not_eq_true'] at hnot
    rw [he.trans hk' (he.symm hkk)] at hnot
    cases hnot
  · rw [if_neg hkk]
    apply Option.ext
    intro p
    rw [lookKey_eq_some he (h.drop k), lookKey_eq_some he h, dropKey, mem_filter]
    apply Iff.intro
    · intro hp
      exact ⟨hp.1.1, hp.2⟩
    · intro hp
      have hnot : ¬ eqv p.1 k = true := fun hpk => hkk (he.trans (he.symm hpk) hp.2)
      exact ⟨⟨hp.1, by rw [Bool.eq_false_iff.mpr hnot]; rfl⟩, hp.2⟩

theorem length_putKey (ps : List (κ × ν)) (k : κ) (v : ν) :
    (putKey eqv ps k v).length = ps.length + if (lookKey eqv ps k).isSome then 0 else 1 := by
  by_cases hsome : ∃ p ∈ ps, eqv p.1 k = true
  · obtain ⟨p, hp, hk⟩ := hsome
    have hlook : (lookKey eqv ps k).isSome = true := by
      rw [lookKey, find?_isSome]
      exact ⟨p, hp, hk⟩
    rw [putKey_of_some hp hk, length_map, if_pos hlook]
    rfl
  · have hnone : ∀ p ∈ ps, ¬ eqv p.1 k = true := fun p hp hk => hsome ⟨p, hp, hk⟩
    have hlook : lookKey eqv ps k = none := lookKey_eq_none.mpr hnone
    rw [putKey_of_none hnone, length_cons, hlook]
    rfl

theorem dropKey_of_mem (he : IsEqv eqv) (h : KeyDistinct eqv (xs ++ p :: ys)) (hk : eqv p.1 k = true) :
    dropKey eqv (xs ++ p :: ys) k = xs ++ ys := by
  have hmid : KeyDistinct eqv (p :: (xs ++ ys)) := h.perm he perm_middle
  have hrest : ∀ q ∈ xs ++ ys, ¬ eqv q.1 k = true := fun q hq hqk =>
    (pairwise_cons.mp hmid).1 q hq (he.trans hk (he.symm hqk))
  have hx := dropKey_of_none fun q hq => hrest q (mem_append_left ys hq)
  have hy := dropKey_of_none fun q hq => hrest q (mem_append_right xs hq)
  have hnot : ¬ (!eqv p.1 k) = true := by
    rw [hk]
    exact Bool.false_ne_true
  rw [dropKey] at hx hy ⊢
  rw [filter_append, filter_cons_of_neg (p := fun p : κ × ν => !eqv p.1 k) hnot, hx, hy]

theorem length_dropKey (he : IsEqv eqv) (h : KeyDistinct eqv ps) (k : κ) :
    (dropKey eqv ps k).length + (if (lookKey eqv ps k).isSome then 1 else 0) = ps.length := by
  cases hlook : lookKey eqv ps k with
  | none =>
    rw [dropKey_of_none (lookKey_eq_none.mp hlook)]
    rfl
  | some p =>
    obtain ⟨hp, hk⟩ := (lookKey_eq_some he h).mp hlook
    obtain ⟨xs, ys, hsplit⟩ := append_of_mem hp
    rw [hsplit] at h ⊢
    rw [dropKey_of_mem he h hk]
    simp only [length_append, length_cons, isSome_some, if_true]
    exact Nat.add_assoc _ _ _

end

end Vpp.Lib
