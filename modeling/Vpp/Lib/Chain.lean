import Vpp.Lib.LinkedRing
import Mathlib.Data.List.Nodup

namespace Vpp.Lib.Links
open List Option

variable {L L' : Links}

/-- The part of a doubly linked list between the indices `a` and `b`. An end of the whole list is linked to
itself. -/
def Chain (L : Links) : Option Nat → List Nat → Option Nat → Prop
  | _, [], _ => True
  | a, i :: is, b => L.prev i = a.getD i ∧ L.next i = (is.head?.or b).getD i ∧ Chain L (some i) is b

theorem chain_append : Chain L a (xs ++ ys) b ↔
    Chain L a xs (ys.head?.or b) ∧ Chain L (xs.getLast?.or a) ys b := by
  induction xs generalizing a with
  | nil => simp [Chain]
  | cons x xs ih =>
    rw [List.cons_append, Chain, Chain, ih]
    cases xs with
    | nil => simp [and_assoc]
    | cons x' xs =>
      rw [List.cons_append, head?_cons, head?_cons, getLast?_cons_cons, and_assoc, and_assoc]
      have hlast : (x' :: xs).getLast?.or (some x) = (x' :: xs).getLast?.or a := by
        rw [getLast?_eq_some_getLast (cons_ne_nil _ _)]
        rfl
      rw [hlast]
      rfl

theorem Chain.frame (h : Chain L a is b) (hn : ∀ i ∈ is, L'.next i = L.next i) (hp : ∀ i ∈ is, L'.prev i = L.prev i) :
    Chain L' a is b := by
  induction is generalizing a with
  | nil => trivial
  | cons i is ih =>
    obtain ⟨hprev, hnext, hrest⟩ := h
    refine ⟨(hp i mem_cons_self).trans hprev, (hn i mem_cons_self).trans hnext, ?_⟩
    exact ih hrest (fun j hj => hn j (mem_cons_of_mem _ hj)) fun j hj => hp j (mem_cons_of_mem _ hj)

theorem Chain.set_last (h : Chain L a xs b) (hnd : xs.Nodup) (hp : ∀ i ∈ xs, L'.prev i = L.prev i)
    (hn : ∀ i ∈ xs, xs.getLast? ≠ some i → L'.next i = L.next i)
    (hl : ∀ i, xs.getLast? = some i → L'.next i = b'.getD i) :
    Chain L' a xs b' := by
  induction xs generalizing a with
  | nil => trivial
  | cons x xs ih =>
    obtain ⟨hprev, hnext, hrest⟩ := h
    have hprev' := (hp x mem_cons_self).trans hprev
    cases xs with
    | nil => exact ⟨hprev', hl x rfl, trivial⟩
    | cons y xs =>
      have hx : (x :: y :: xs).getLast? ≠ some x := by
        intro hm
        rw [getLast?_cons_cons] at hm
        exact (nodup_cons.mp hnd).1 (mem_of_getLast? hm)
      refine ⟨hprev', (hn x mem_cons_self hx).trans hnext, ?_⟩
      apply ih hrest (nodup_cons.mp hnd).2
      · exact fun i hi => hp i (mem_cons_of_mem _ hi)
      · exact fun i hi hni => hn i (mem_cons_of_mem _ hi) (by rwa [getLast?_cons_cons])
      · exact fun i hi => hl i (by rwa [getLast?_cons_cons])

theorem Chain.set_first (h : Chain L a ys b) (hnd : ys.Nodup) (hn : ∀ i ∈ ys, L'.next i = L.next i)
    (hp : ∀ i ∈ ys, ys.head? ≠ some i → L'.prev i = L.prev i)
    (hf : ∀ i, ys.head? = some i → L'.prev i = a'.getD i) :
    Chain L' a' ys b := by
  cases ys with
  | nil => trivial
  | cons y ys =>
    obtain ⟨-, hnext, hrest⟩ := h
    refine ⟨hf y rfl, (hn y mem_cons_self).trans hnext, ?_⟩
    apply hrest.frame
    · exact fun i hi => hn i (mem_cons_of_mem _ hi)
    · intro i hi
      apply hp i (mem_cons_of_mem _ hi)
      intro hy
      obtain rfl : y = i := Option.some.inj hy
      exact (nodup_cons.mp hnd).1 hi

theorem Chain.links (h : Chain L none (xs ++ i :: ys) none) :
    L.next i = ys.head?.getD i ∧ L.prev i = xs.getLast?.getD i := by
  obtain ⟨-, hprev, hnext, -⟩ := chain_append.mp h
  rw [or_none] at hprev hnext
  exact ⟨hnext, hprev⟩

theorem Chain.insert (h : Chain L none (xs ++ ys) none) (hnd : (xs ++ ys).Nodup) (hnew : new ∉ xs ++ ys)
    (hn : ∀ i, L'.next i = if i = new then ys.head?.getD new else if xs.getLast? = some i then new else L.next i)
    (hp : ∀ i, L'.prev i = if i = new then xs.getLast?.getD new else if ys.head? = some i then new else L.prev i) :
    Chain L' none (xs ++ new :: ys) none := by
  obtain ⟨h₁, h₂⟩ := chain_append.mp h
  obtain ⟨hnd₁, hnd₂, hdisj⟩ := nodup_append.mp hnd
  have hx : ∀ i ∈ xs, i ≠ new ∧ ys.head? ≠ some i := by
    refine fun i hi => ⟨fun he => hnew (he ▸ mem_append_left _ hi), fun he => ?_⟩
    exact hdisj i hi i (mem_of_mem_head? he) rfl
  have hy : ∀ i ∈ ys, i ≠ new ∧ xs.getLast? ≠ some i := by
    refine fun i hi => ⟨fun he => hnew (he ▸ mem_append_right _ hi), fun he => ?_⟩
    exact hdisj i (mem_of_getLast? he) i hi rfl
  apply chain_append.mpr
  refine ⟨h₁.set_last hnd₁ ?_ ?_ ?_, ?_, ?_, h₂.set_first hnd₂ ?_ ?_ ?_⟩
  · intro i hi
    rw [hp, if_neg (hx i hi).1, if_neg (hx i hi).2]
  · intro i hi hl
    rw [hn, if_neg (hx i hi).1, if_neg hl]
  · intro i hl
    rw [hn, if_neg (hx i (mem_of_getLast? hl)).1, if_pos hl]
    rfl
  · rw [hp, if_pos rfl, or_none]
  · rw [hn, if_pos rfl, or_none]
  · intro i hi
    rw [hn, if_neg (hy i hi).1, if_neg (hy i hi).2]
  · intro i hi hf
    rw [hp, if_neg (hy i hi).1, if_neg hf]
  · intro i hf
    rw [hp, if_neg (hy i (mem_of_mem_head? hf)).1, if_pos hf]
    rfl

theorem Chain.remove (h : Chain L none (xs ++ d :: ys) none) (hnd : (xs ++ d :: ys).Nodup)
    (hn : ∀ i, i ≠ d → L'.next i = if xs.getLast? = some i then ys.head?.getD i else L.next i)
    (hp : ∀ i, i ≠ d → L'.prev i = if ys.head? = some i then xs.getLast?.getD i else L.prev i) :
    Chain L' none (xs ++ ys) none := by
  obtain ⟨h₁, -, -, h₂⟩ := chain_append.mp h
  obtain ⟨hnd₁, hnd₂, hdisj⟩ := nodup_append.mp hnd
  obtain ⟨hd, hnd₂⟩ := nodup_cons.mp hnd₂
  have hx : ∀ i ∈ xs, i ≠ d ∧ ys.head? ≠ some i := by
    refine fun i hi => ⟨hdisj i hi d mem_cons_self, fun he => ?_⟩
    exact hdisj i hi i (mem_cons_of_mem _ (mem_of_mem_head? he)) rfl
  have hy : ∀ i ∈ ys, i ≠ d ∧ xs.getLast? ≠ some i := by
    refine fun i hi => ⟨fun he => hd (he ▸ hi), fun he => ?_⟩
    exact hdisj i (mem_of_getLast? he) i (mem_cons_of_mem _ hi) rfl
  apply chain_append.mpr
  refine ⟨h₁.set_last hnd₁ ?_ ?_ ?_, h₂.set_first hnd₂ ?_ ?_ ?_⟩
  · intro i hi
    rw [hp i (hx i hi).1, if_neg (hx i hi).2]
  · intro i hi hl
    rw [hn i (hx i hi).1, if_neg hl]
  · intro i hl
    rw [hn i (hx i (mem_of_getLast? hl)).1, if_pos hl, or_none]
  · intro i hi
    rw [hn i (hy i hi).1, if_neg (hy i hi).2]
  · intro i hi hf
    rw [hp i (hy i hi).1, if_neg hf]
  · intro i hf
    rw [hp i (hy i (mem_of_mem_head? hf)).1, if_pos hf, or_none]

def insertAfter (L : Links) (e new : Nat) : Links :=
  let n := L.next e
  if n = e then ((L.setNext new new).setPrev new e).setNext e new
  else (((L.setPrev new e).setNext new n).setNext e new).setPrev n new

def insertBefore (L : Links) (e new : Nat) : Links :=
  let p := L.prev e
  if p = e then ((L.setPrev new new).setNext new e).setPrev p new
  else (((L.setPrev new p).setNext new e).setPrev e new).setNext p new

def delete (L : Links) (e : Nat) : Links :=
  let p := L.prev e
  let n := L.next e
  if p = e then L.setPrev n n
  else if n = e then L.setNext p p
  else (L.setNext p n).setPrev n p

@[simp] theorem next_setNext : (L.setNext x y).next i = if i = x then y else L.next i := by
  exact Function.update_apply L.next x y i

@[simp] theorem prev_setNext : (L.setNext x y).prev i = L.prev i := rfl

@[simp] theorem prev_setPrev : (L.setPrev x y).prev i = if i = x then y else L.prev i := by
  exact Function.update_apply L.prev x y i

@[simp] theorem next_setPrev : (L.setPrev x y).next i = L.next i := rfl

theorem Chain.insertAfter (h : Chain L none (xs ++ e :: ys) none) (hnd : (xs ++ e :: ys).Nodup)
    (hnew : new ∉ xs ++ e :: ys) : Chain (L.insertAfter e new) none (xs ++ e :: new :: ys) none := by
  have hnext := h.links.1
  have hsplit : xs ++ e :: ys = (xs ++ [e]) ++ ys := by simp
  have hgoal : xs ++ e :: new :: ys = (xs ++ [e]) ++ new :: ys := by simp
  have hen : e ≠ new := fun he => hnew (by simp [he])
  have hye : ∀ y ∈ ys, y ≠ e := fun y hy he =>
    (nodup_cons.mp (nodup_append.mp hnd).2.1).1 (he ▸ hy)
  rw [hsplit] at h hnd hnew
  rw [hgoal]
  cases ys with
  | nil =>
    have hop : L.insertAfter e new = ((L.setNext new new).setPrev new e).setNext e new := if_pos hnext
    rw [hop]
    apply h.insert hnd hnew
    · intro i
      simp
      grind
    · intro i
      simp
  | cons y ys =>
    rw [head?_cons, getD_some] at hnext
    have hop : L.insertAfter e new = (((L.setPrev new e).setNext new y).setNext e new).setPrev y new := by
      rw [Links.insertAfter, hnext, if_neg (hye y (by simp))]
    have hyn : y ≠ new := fun he => hnew (by simp [he])
    rw [hop]
    apply h.insert hnd hnew
    · intro i
      simp
      grind
    · intro i
      simp
      grind

theorem Chain.insertBefore (h : Chain L none (xs ++ e :: ys) none) (hnd : (xs ++ e :: ys).Nodup)
    (hnew : new ∉ xs ++ e :: ys) : Chain (L.insertBefore e new) none (xs ++ new :: e :: ys) none := by
  have hprev := h.links.2
  have hen : e ≠ new := fun he => hnew (by simp [he])
  cases hlast : xs.getLast? with
  | none =>
    rw [hlast, getD_none] at hprev
    have hop : L.insertBefore e new = ((L.setPrev new new).setNext new e).setPrev e new := by
      rw [Links.insertBefore, hprev, if_pos rfl]
    rw [hop]
    apply h.insert hnd hnew
    · intro i
      simp [hlast]
    · intro i
      simp [hlast]
      grind
  | some p =>
    rw [hlast, getD_some] at hprev
    have hpe : p ≠ e := (nodup_append.mp hnd).2.2 p (mem_of_getLast? hlast) e mem_cons_self
    have hop : L.insertBefore e new = (((L.setPrev new p).setNext new e).setPrev e new).setNext p new := by
      rw [Links.insertBefore, hprev, if_neg hpe]
    have hpn : p ≠ new := fun he => hnew (he ▸ mem_append_left _ (mem_of_getLast? hlast))
    rw [hop]
    apply h.insert hnd hnew
    · intro i
      simp [hlast]
      grind
    · intro i
      simp [hlast]
      grind

theorem Chain.delete (h : Chain L none (xs ++ d :: ys) none) (hnd : (xs ++ d :: ys).Nodup)
    (hne : xs ++ ys ≠ []) : Chain (L.delete d) none (xs ++ ys) none := by
  obtain ⟨hnext, hprev⟩ := h.links
  obtain ⟨-, hnd₂, hdisj⟩ := nodup_append.mp hnd
  cases hlast : xs.getLast? with
  | none =>
    have hxs : xs = [] := getLast?_eq_none_iff.mp hlast
    cases ys with
    | nil => exact absurd (by simp [hxs]) hne
    | cons n ys =>
      rw [hlast, getD_none] at hprev
      rw [head?_cons, getD_some] at hnext
      have hop : L.delete d = L.setPrev n n := by
        rw [Links.delete, hprev, hnext, if_pos rfl]
      rw [hop]
      apply h.remove hnd
      · intro i hi
        simp [hlast]
      · intro i hi
        simp [hlast]
        grind
  | some p =>
    rw [hlast, getD_some] at hprev
    have hpd : p ≠ d := hdisj p (mem_of_getLast? hlast) d mem_cons_self
    cases ys with
    | nil =>
      have hop : L.delete d = L.setNext p p := by
        rw [Links.delete, hprev, hnext, if_neg hpd, if_pos (by simp)]
      rw [hop]
      apply h.remove hnd
      · intro i hi
        simp [hlast]
        grind
      · intro i hi
        simp
    | cons n ys =>
      rw [head?_cons, getD_some] at hnext
      have hnd' : n ≠ d := fun he => (nodup_cons.mp hnd₂).1 (by simp [he])
      have hop : L.delete d = (L.setNext p n).setPrev n p := by
        rw [Links.delete, hprev, hnext, if_neg hpd, if_neg hnd']
      rw [hop]
      apply h.remove hnd
      · intro i hi
        simp [hlast]
        grind
      · intro i hi
        simp [hlast]
        grind

end Vpp.Lib.Links
