import Mathlib.Data.List.Nodup
import Mathlib.Data.List.Perm.Subperm

namespace Vpp.Lib
open Function List Option

section

variable {next prev next' prev' : Nat → Option Nat} {head tail tail' : Option Nat} {l l' xs ys : List Nat}

/-- The nodes `l` in order. A split of the list at a node says what its neighbours are. -/
structure EndedList (next prev : Nat → Option Nat) (head tail : Option Nat) (l : List Nat) : Prop where
  nodup : l.Nodup
  head_eq : head = l.head?
  tail_eq : tail = l.getLast?
  next_eq : ∀ xs i ys, l = xs ++ i :: ys → next i = ys.head?
  prev_eq : ∀ xs i ys, l = xs ++ i :: ys → prev i = xs.getLast?

theorem endedList_nil : EndedList next prev none none [] :=
  ⟨.nil, rfl, rfl, fun xs i ys h => absurd h.symm (by simp), fun xs i ys h => absurd h.symm (by simp)⟩

theorem EndedList.of_getElem (hnd : l.Nodup) (hhead : head = l.head?) (htail : tail = l.getLast?)
    (hlinks : ∀ k, (hk : k < l.length) → next l[k] = l[k + 1]? ∧ prev l[k] = (l.take k).getLast?) :
    EndedList next prev head tail l := by
  refine ⟨hnd, hhead, htail, ?_, ?_⟩
  · intro xs i ys he
    have hk : xs.length < l.length := by
      rw [he, length_append, length_cons]
      omega
    have hlink := (hlinks xs.length hk).1
    simpa [he, head?_eq_getElem?, getElem?_append_right] using hlink
  · intro xs i ys he
    have hk : xs.length < l.length := by
      rw [he, length_append, length_cons]
      omega
    have hlink := (hlinks xs.length hk).2
    simpa [he] using hlink

theorem EndedList.congr (h : EndedList next prev head tail l) (hn : ∀ i ∈ l, next' i = next i)
    (hp : ∀ i ∈ l, prev' i = prev i) : EndedList next' prev' head tail l := by
  refine ⟨h.nodup, h.head_eq, h.tail_eq, ?_, ?_⟩
  · intro xs i ys he
    rw [hn i (he ▸ mem_append_right xs mem_cons_self)]
    exact h.next_eq xs i ys he
  · intro xs i ys he
    rw [hp i (he ▸ mem_append_right xs mem_cons_self)]
    exact h.prev_eq xs i ys he

theorem EndedList.append (h : EndedList next prev head tail l) (hnew : n ∉ l)
    (hn : ∀ i, next' i = if i = n then none else if tail = some i then some n else next i)
    (hp : ∀ i, prev' i = if i = n then tail else prev i) :
    EndedList next' prev' (head.or (some n)) (some n) (l ++ [n]) := by
  have hcases {xs i ys} (he : l ++ [n] = xs ++ i :: ys) :
      (xs = l ∧ i = n ∧ ys = []) ∨ ∃ zs, l = xs ++ i :: zs ∧ ys = zs ++ [n] := by
    rcases eq_nil_or_concat ys with rfl | ⟨zs, z, rfl⟩
    · obtain ⟨rfl, hi⟩ := append_inj' he rfl
      exact .inl ⟨rfl, (List.cons.inj hi).1.symm, rfl⟩
    · rw [concat_eq_append, ← List.cons_append, ← List.append_assoc] at he
      obtain ⟨hl, hz⟩ := append_inj' he rfl
      refine .inr ⟨zs, hl, ?_⟩
      rw [concat_eq_append, (List.cons.inj hz).1]
  constructor
  case nodup => exact nodup_append.mpr ⟨h.nodup, nodup_singleton n, fun a ha b hb => by
    rw [mem_singleton.mp hb]
    exact fun he => hnew (he ▸ ha)⟩
  case head_eq =>
    rw [h.head_eq]
    cases l with
    | nil => rfl
    | cons x l => rfl
  case tail_eq => rw [getLast?_append, getLast?_singleton, some_or]
  case next_eq =>
    intro xs i ys he
    rcases hcases he with ⟨-, rfl, rfl⟩ | ⟨zs, hl, rfl⟩
    · rw [hn, if_pos rfl]
      rfl
    · have hne : i ≠ n := fun hi => hnew (hi ▸ hl ▸ mem_append_right xs mem_cons_self)
      rw [hn, if_neg hne, h.tail_eq, hl, h.next_eq xs i zs hl]
      cases zs with
      | nil => rw [if_pos (by simp)]; rfl
      | cons z zs =>
        have hnd := (nodup_cons.mp (nodup_append.mp (hl ▸ h.nodup)).2.1).1
        rw [if_neg]
        · rfl
        · intro hlast
          rw [getLast?_append, getLast?_cons_cons, or_of_isSome (by simp)] at hlast
          exact hnd (mem_of_getLast? hlast)
  case prev_eq =>
    intro xs i ys he
    rcases hcases he with ⟨rfl, rfl, rfl⟩ | ⟨zs, hl, rfl⟩
    · rw [hp, if_pos rfl, h.tail_eq]
    · have hne : i ≠ n := fun hi => hnew (hi ▸ hl ▸ mem_append_right xs mem_cons_self)
      rw [hp, if_neg hne, h.prev_eq xs i zs hl]

/-- A node is taken out, and its neighbours are linked to each other. -/
theorem EndedList.remove (h : EndedList next prev head tail (xs ++ d :: ys))
    (hn : ∀ i, i ≠ d → next' i = if prev d = some i then next d else next i)
    (hp : ∀ i, i ≠ d → prev' i = if next d = some i then prev d else prev i) :
    EndedList next' prev' (if head = some d then next d else head) (if tail = some d then prev d else tail)
      (xs ++ ys) := by
  have hnext := h.next_eq xs d ys rfl
  have hprev := h.prev_eq xs d ys rfl
  obtain ⟨hnd₁, hnd₂, hdisj⟩ := nodup_append.mp h.nodup
  obtain ⟨hdy, hndy⟩ := nodup_cons.mp hnd₂
  have hdx : d ∉ xs := fun hm => hdisj d hm d mem_cons_self rfl
  have hxy {i} (hx : i ∈ xs) (hy : i ∈ ys) : False := hdisj i hx i (mem_cons_of_mem d hy) rfl
  have hcases {us i vs} (he : xs ++ ys = us ++ i :: vs) :
      (∃ ws, xs = us ++ i :: ws ∧ vs = ws ++ ys) ∨ ∃ ws, us = xs ++ ws ∧ ys = ws ++ i :: vs := by
    rcases append_eq_append_iff.mp he with ⟨ws, rfl, hys⟩ | ⟨ws, hxs, hrest⟩
    · exact .inr ⟨ws, rfl, hys⟩
    · cases ws with
      | nil => exact .inr ⟨[], by simpa using hxs.symm, hrest.symm⟩
      | cons w ws =>
        obtain ⟨rfl, hv⟩ := List.cons.inj hrest
        exact .inl ⟨ws, hxs, hv⟩
  constructor
  case nodup => exact nodup_append.mpr ⟨hnd₁, hndy, fun a ha b hb he => hxy ha (he ▸ hb)⟩
  case head_eq =>
    rw [h.head_eq, hnext]
    cases xs with
    | nil => rw [nil_append, nil_append, head?_cons, if_pos rfl]
    | cons x xs =>
      have hne : x ≠ d := fun he => hdx (he ▸ mem_cons_self)
      rw [List.cons_append, List.cons_append, head?_cons, head?_cons, if_neg (by simpa using hne)]
  case tail_eq =>
    rw [h.tail_eq, hprev, getLast?_append, getLast?_append]
    cases hy : ys.getLast? with
    | none =>
      rw [getLast?_eq_none_iff.mp hy, getLast?_singleton, some_or, if_pos rfl, none_or]
    | some y =>
      have hne : y ≠ d := fun he => hdy (he ▸ mem_of_getLast? hy)
      rw [getLast?_cons, hy, getD_some, some_or, if_neg (by simpa using hne)]
  case next_eq =>
    intro us i vs he
    rcases hcases he with ⟨ws, hxs, rfl⟩ | ⟨ws, rfl, hys⟩
    · have hix : i ∈ xs := hxs ▸ mem_append_right us mem_cons_self
      have hold := h.next_eq us i (ws ++ d :: ys) (by rw [hxs, List.append_assoc, List.cons_append])
      rw [hn i fun hi => hdx (hi ▸ hix), hprev, hold]
      cases ws with
      | nil => rw [hxs, if_pos (by simp), hnext, nil_append]
      | cons w ws =>
        have hnd := (nodup_cons.mp (nodup_append.mp (hxs ▸ hnd₁)).2.1).1
        rw [if_neg, List.cons_append, List.cons_append, head?_cons, head?_cons]
        intro hlast
        rw [hxs, getLast?_append, getLast?_cons_cons, or_of_isSome (by simp)] at hlast
        exact hnd (mem_of_getLast? hlast)
    · have hiy : i ∈ ys := hys ▸ mem_append_right ws mem_cons_self
      have hold := h.next_eq (xs ++ d :: ws) i vs (by rw [hys, List.append_assoc, List.cons_append])
      rw [hn i fun hi => hdy (hi ▸ hiy), hprev, if_neg, hold]
      exact fun hlast => hxy (mem_of_getLast? hlast) hiy
  case prev_eq =>
    intro us i vs he
    rcases hcases he with ⟨ws, hxs, rfl⟩ | ⟨ws, rfl, hys⟩
    · have hix : i ∈ xs := hxs ▸ mem_append_right us mem_cons_self
      have hold := h.prev_eq us i (ws ++ d :: ys) (by rw [hxs, List.append_assoc, List.cons_append])
      rw [hp i fun hi => hdx (hi ▸ hix), hnext, if_neg, hold]
      exact fun hhead => hxy hix (mem_of_mem_head? hhead)
    · have hiy : i ∈ ys := hys ▸ mem_append_right ws mem_cons_self
      have hold := h.prev_eq (xs ++ d :: ws) i vs (by rw [hys, List.append_assoc, List.cons_append])
      rw [hp i fun hi => hdy (hi ▸ hiy), hnext, hold]
      cases ws with
      | nil => rw [hys, nil_append, head?_cons, if_pos rfl, hprev, append_nil]
      | cons w ws =>
        rw [hys] at hndy
        have hwi : w ≠ i := by
          rintro rfl
          exact (nodup_cons.mp hndy).1 (mem_append_right ws mem_cons_self)
        rw [hys, List.cons_append, head?_cons, if_neg (by simpa using hwi), getLast?_append,
          getLast?_append, getLast?_cons_cons]

theorem EndedList.insert (h : EndedList next prev head tail (xs ++ ys)) (hnew : n ∉ xs ++ ys)
    (hn : ∀ i, next' i = if i = n then ys.head? else if xs.getLast? = some i then some n else next i)
    (hp : ∀ i, prev' i = if i = n then xs.getLast? else if ys.head? = some i then some n else prev i) :
    EndedList next' prev' (xs ++ n :: ys).head? (xs ++ n :: ys).getLast? (xs ++ n :: ys) := by
  obtain ⟨hndx, hndy, hdisj⟩ := nodup_append.mp h.nodup
  have hnx : n ∉ xs := fun hm => hnew (mem_append_left ys hm)
  have hny : n ∉ ys := fun hm => hnew (mem_append_right xs hm)
  have hcases {us i vs} (he : xs ++ n :: ys = us ++ i :: vs) :
      (∃ ws, xs = us ++ i :: ws ∧ vs = ws ++ n :: ys) ∨ (us = xs ∧ i = n ∧ vs = ys) ∨
        ∃ ws, us = xs ++ n :: ws ∧ ys = ws ++ i :: vs := by
    rcases append_eq_append_iff.mp he with ⟨ws, rfl, hys⟩ | ⟨ws, hxs, hrest⟩
    · cases ws with
      | nil =>
        obtain ⟨rfl, rfl⟩ := List.cons.inj hys
        exact .inr (.inl ⟨append_nil xs, rfl, rfl⟩)
      | cons w ws =>
        obtain ⟨rfl, hw⟩ := List.cons.inj hys
        exact .inr (.inr ⟨ws, rfl, hw⟩)
    · cases ws with
      | nil =>
        obtain ⟨rfl, rfl⟩ := List.cons.inj hrest
        exact .inr (.inl ⟨by simpa using hxs.symm, rfl, rfl⟩)
      | cons w ws =>
        obtain ⟨rfl, hw⟩ := List.cons.inj hrest
        exact .inl ⟨ws, hxs, hw⟩
  refine ⟨?_, rfl, rfl, ?_, ?_⟩
  · rw [nodup_append]
    refine ⟨hndx, nodup_cons.mpr ⟨hny, hndy⟩, ?_⟩
    intro a ha b hb he
    rcases mem_cons.mp hb with rfl | hb
    · exact hnx (he ▸ ha)
    · exact hdisj a ha b hb he
  · intro us i vs he
    rcases hcases he with ⟨ws, hxs, rfl⟩ | ⟨-, rfl, rfl⟩ | ⟨ws, rfl, hys⟩
    · have hix : i ∈ xs := hxs ▸ mem_append_right us mem_cons_self
      rw [hn, if_neg fun hi : i = n => hnx (hi ▸ hix),
        h.next_eq us i (ws ++ ys) (by rw [hxs, List.append_assoc, List.cons_append])]
      cases ws with
      | nil => rw [hxs, if_pos (by simp), nil_append, head?_cons]
      | cons w ws =>
        have hnd := (nodup_cons.mp (nodup_append.mp (hxs ▸ hndx)).2.1).1
        rw [if_neg, List.cons_append, List.cons_append, head?_cons, head?_cons]
        intro hlast
        rw [hxs, getLast?_append, getLast?_cons_cons, or_of_isSome (by simp)] at hlast
        exact hnd (mem_of_getLast? hlast)
    · rw [hn, if_pos rfl]
    · have hiy : i ∈ ys := hys ▸ mem_append_right ws mem_cons_self
      rw [hn, if_neg fun hi : i = n => hny (hi ▸ hiy),
        if_neg fun hlast : xs.getLast? = some i => hdisj i (mem_of_getLast? hlast) i hiy rfl]
      exact h.next_eq (xs ++ ws) i vs (by rw [hys, List.append_assoc])
  · intro us i vs he
    rcases hcases he with ⟨ws, hxs, rfl⟩ | ⟨rfl, rfl, -⟩ | ⟨ws, rfl, hys⟩
    · have hix : i ∈ xs := hxs ▸ mem_append_right us mem_cons_self
      rw [hp, if_neg fun hi : i = n => hnx (hi ▸ hix),
        if_neg fun hh : ys.head? = some i => hdisj i hix i (mem_of_mem_head? hh) rfl]
      exact h.prev_eq us i (ws ++ ys) (by rw [hxs, List.append_assoc, List.cons_append])
    · rw [hp, if_pos rfl]
    · have hiy : i ∈ ys := hys ▸ mem_append_right ws mem_cons_self
      rw [hp, if_neg fun hi : i = n => hny (hi ▸ hiy), h.prev_eq (xs ++ ws) i vs (by rw [hys, List.append_assoc])]
      cases ws with
      | nil => rw [hys, nil_append, head?_cons, if_pos rfl, getLast?_concat]
      | cons w ws =>
        have hnd := hndy
        rw [hys] at hnd
        have hwi : w ≠ i := by
          rintro rfl
          exact (nodup_cons.mp hnd).1 (mem_append_right ws mem_cons_self)
        rw [hys, List.cons_append, head?_cons, if_neg (by simpa using hwi), getLast?_append,
          getLast?_append, getLast?_cons_cons]

theorem EndedList.getElem?_succ (h : EndedList next prev head tail l) (k : Nat) : l[k + 1]? = l[k]?.bind next := by
  by_cases hk : k < l.length
  · have hsplit : l = l.take k ++ l[k] :: l.drop (k + 1) := by
      rw [getElem_cons_drop, take_append_drop]
    rw [List.getElem?_eq_getElem hk, bind_some, h.next_eq _ _ _ hsplit, head?_drop]
  · rw [List.getElem?_eq_none (by omega), List.getElem?_eq_none (by omega)]
    rfl

theorem EndedList.eq (h : EndedList next prev head tail l) (h' : EndedList next prev' head tail' l') : l = l' := by
  apply ext_getElem?
  intro k
  induction k with
  | zero => rw [← head?_eq_getElem?, ← head?_eq_getElem?, ← h.head_eq, ← h'.head_eq]
  | succ k ih => rw [h.getElem?_succ, h'.getElem?_succ, ih]

end

variable {next next' : Nat → Nat} {e s : Nat} {xs ys : List Nat}

/-- From `s` along `next` through `xs` to the end. -/
def Linked (next : Nat → Nat) (e : Nat) : Nat → List Nat → Prop
  | s, [] => s = e
  | s, x :: xs => s = x ∧ x ≠ e ∧ Linked next e (next x) xs

theorem Linked.congr (h : Linked next e s xs) (hsame : ∀ x ∈ xs, next' x = next x) : Linked next' e s xs := by
  induction xs generalizing s with
  | nil => exact h
  | cons x xs ih =>
    obtain ⟨hs, hne, hrest⟩ := h
    refine ⟨hs, hne, ?_⟩
    rw [hsame x mem_cons_self]
    exact ih hrest fun y hy => hsame y (mem_cons_of_mem x hy)

theorem Linked.push (h : Linked next e s xs) (hx : x ∉ xs) (hne : x ≠ e) :
    Linked (update next x s) e x (x :: xs) := by
  refine ⟨rfl, hne, ?_⟩
  rw [update_self]
  apply h.congr
  intro y hy
  exact update_of_ne (ne_of_mem_of_not_mem hy hx) _ _

theorem Linked.unlink (h : Linked next e s (xs ++ p :: r :: ys)) (hnd : (xs ++ p :: r :: ys).Nodup) :
    Linked (update next p (next r)) e s (xs ++ p :: ys) := by
  induction xs generalizing s with
  | nil =>
    obtain ⟨hs, hne, hr, _, hrest⟩ := h
    have hp : p ∉ ys := fun hm => (nodup_cons.mp hnd).1 (mem_cons_of_mem r hm)
    refine ⟨hs, hne, ?_⟩
    rw [update_self]
    apply hrest.congr
    intro y hy
    exact update_of_ne (ne_of_mem_of_not_mem hy hp) _ _
  | cons x xs ih =>
    obtain ⟨hs, hne, hrest⟩ := h
    have hx : x ≠ p := by
      intro he
      exact (nodup_cons.mp hnd).1 (he ▸ mem_append_right xs mem_cons_self)
    refine ⟨hs, hne, ?_⟩
    rw [update_of_ne hx]
    exact ih hrest (nodup_cons.mp hnd).2

theorem length_le_of_lt (hnd : xs.Nodup) (hlt : ∀ x ∈ xs, x < n) : xs.length ≤ n := by
  have hsub : xs ⊆ List.range n := fun x hx => mem_range.mpr (hlt x hx)
  have hle := (subperm_of_subset hnd hsub).length_le
  rwa [length_range] at hle

/-- Look for the node before `r`; nothing when the walk does not get there. -/
def findPred (next : Nat → Nat) (r : Nat) : Nat → Nat → Option Nat → Option (Option Nat)
  | 0, cur, pred => if cur = r then some pred else none
  | n + 1, cur, pred => if cur = r then some pred else findPred next r n (next cur) (some cur)

theorem findPred_eq (h : Linked next e s (xs ++ r :: ys)) (hr : r ∉ xs) (hn : xs.length ≤ n) (pred : Option Nat) :
    findPred next r n s pred = some (xs.getLast?.or pred) := by
  induction xs generalizing s n pred with
  | nil =>
    have hs : s = r := h.1
    cases n with
    | zero => rw [findPred, if_pos hs]; rfl
    | succ n => rw [findPred, if_pos hs]; rfl
  | cons x xs ih =>
    obtain ⟨hs, _, hrest⟩ := h
    have hx : s ≠ r := by
      intro he
      exact hr (he ▸ hs ▸ mem_cons_self)
    cases n with
    | zero => exact absurd hn (Nat.not_succ_le_zero _)
    | succ n =>
      rw [findPred, if_neg hx, hs, ih hrest (fun hm => hr (mem_cons_of_mem x hm)) (Nat.le_of_succ_le_succ hn),
        getLast?_cons]
      cases xs.getLast? with
      | none => rfl
      | some y => rfl

/-- The first node with a property; nothing when the walk does not end. -/
def findNode (next : Nat → Nat) (e : Nat) (p : Nat → Bool) : Nat → Nat → Option (Option Nat)
  | 0, cur => if cur = e then some none else none
  | n + 1, cur =>
    if cur = e then some none else if p cur then some (some cur) else findNode next e p n (next cur)

theorem findNode_eq (h : Linked next e s xs) (hn : xs.length ≤ n) (p : Nat → Bool) :
    findNode next e p n s = some (xs.find? p) := by
  induction xs generalizing s n with
  | nil =>
    have hs : s = e := h
    cases n with
    | zero => rw [findNode, if_pos hs]; rfl
    | succ n => rw [findNode, if_pos hs]; rfl
  | cons x xs ih =>
    obtain ⟨hs, hne, hrest⟩ := h
    cases n with
    | zero => exact absurd hn (Nat.not_succ_le_zero _)
    | succ n =>
      rw [findNode, hs, if_neg hne, find?_cons]
      cases p x with
      | true => rfl
      | false => exact ih hrest (Nat.le_of_succ_le_succ hn)

end Vpp.Lib
