import Mathlib.Data.List.Nodup
import Vpp.Lib.LinkedRing

namespace Vpp.Lib.Links
open List

section

variable {L : Links}

theorem Seg.append (h : Seg L a l x) (h' : Seg L x l' b) : Seg L a (l ++ x :: l') b := by
  induction l generalizing a with
  | nil =>
    obtain ⟨h1, h2⟩ := h
    exact ⟨h1, h2, h'⟩
  | cons y l ih =>
    obtain ⟨h1, h2, h3⟩ := h
    exact ⟨h1, h2, ih h3⟩

def swap (L : Links) : Links := ⟨L.prev, L.next⟩

theorem Seg.swap (h : Seg L a l b) : Seg L.swap b l.reverse a := by
  induction l generalizing a with
  | nil =>
    obtain ⟨h1, h2⟩ := h
    exact ⟨h2, h1⟩
  | cons x l ih =>
    obtain ⟨h1, h2, h3⟩ := h
    rw [reverse_cons]
    exact (ih h3).append ⟨h2, h1⟩

/-- The nodes from `i` until the walk has to stop, of which there are at most `n`. -/
def walk (L : Links) (stop : Nat → Bool) : Nat → Nat → List Nat
  | 0, _ => []
  | n + 1, i => if stop i then [] else i :: walk L stop n (L.next i)

theorem walk_stop (h : stop i = true) : walk L stop n i = [] := by
  cases n with
  | zero => rfl
  | succ n => exact if_pos h

theorem Seg.walk (hs : Seg L a l b) (hin : ∀ x ∈ l, stop x = false) (hend : stop b = true) (hn : l.length ≤ n) :
    L.walk stop n (L.next a) = l := by
  induction l generalizing a n with
  | nil =>
    rw [hs.1]
    exact walk_stop hend
  | cons x l ih =>
    obtain ⟨hax, _, hx⟩ := hs
    cases n with
    | zero => exact absurd hn (Nat.not_succ_le_zero _)
    | succ n =>
      have hgo : ¬ stop x = true := by
        rw [hin x List.mem_cons_self]
        exact Bool.false_ne_true
      have hrest := ih hx (fun y hy => hin y (List.mem_cons_of_mem x hy)) (Nat.le_of_succ_le_succ hn)
      rw [hax, Links.walk, if_neg hgo, hrest]

theorem IsRing.rotate (h : IsRing L a (l₁ ++ x :: l₂)) : IsRing L x (l₂ ++ a :: l₁) := by
  obtain ⟨hs₁, hs₂⟩ := h.seg.split
  refine ⟨hs₂.append hs₁, ?_⟩
  have hperm : (a :: (l₁ ++ x :: l₂)).Perm (x :: (l₂ ++ a :: l₁)) := by
    have h1 : (a :: (l₁ ++ x :: l₂)) = (a :: l₁) ++ (x :: l₂) := rfl
    have h2 : (x :: (l₂ ++ a :: l₁)) = (x :: l₂) ++ (a :: l₁) := rfl
    rw [h1, h2]
    exact List.perm_append_comm
  exact hperm.nodup_iff.mp h.nodup

/-- Link `n` in behind `h`, in the order of the writes. -/
def linkAfter (L : Links) (h n : Nat) : Links :=
  (((L.setNext n (L.next h)).setPrev n h).setNext h n).setPrev (L.next h) n

theorem IsRing.prev_next (hr : IsRing L h l) : L.prev (L.next h) = h := by
  cases l with
  | nil =>
    obtain ⟨h1, h2⟩ := hr.seg
    rw [h1, h2]
  | cons x l =>
    obtain ⟨h1, h2, _⟩ := hr.seg
    rw [h1, h2]

theorem linkAfter_eq_addHead (hr : IsRing L h l) (hn : n ∉ h :: l) : L.linkAfter h n = L.addHead h n := by
  have hne : h ≠ n := fun he => hn (he ▸ List.mem_cons_self)
  have hprev := hr.prev_next
  unfold Links.addHead linkAfter
  split
  · rename_i hself
    simp only [setNext, setPrev, hself]
    rw [Function.update_comm hne.symm, Function.update_comm hne.symm]
  · simp only [setNext, setPrev, hprev]

theorem IsRing.addTail (hr : IsRing L h l) (hn : n ∉ h :: l) :
    L.prev h ∈ h :: l ∧ L.next (L.prev h) = h ∧ IsRing (L.linkAfter (L.prev h) n) h (l ++ [n]) := by
  refine ⟨hr.seg.prev_mem, ?_⟩
  obtain rfl | ⟨l, z, rfl⟩ := List.eq_nil_or_concat l
  · obtain ⟨hnext, hprev⟩ := hr.seg
    rw [hprev, linkAfter_eq_addHead hr hn]
    exact ⟨hnext, hr.addHead hn⟩
  · rw [List.concat_eq_append] at hr hn
    have hz : IsRing L z ([] ++ h :: l) := hr.rotate
    obtain ⟨hnext, hprev, _⟩ := hz.seg
    have hn' : n ∉ z :: ([] ++ h :: l) := by
      simp only [List.mem_cons, List.mem_append, not_mem_nil, or_false, nil_append] at hn ⊢
      exact fun hm => hn (hm.elim (fun h => .inr (.inr h)) fun h => h.imp_right .inl)
    rw [hprev, linkAfter_eq_addHead hz hn']
    have hrot : IsRing (L.addHead z n) h (l ++ z :: [n]) := IsRing.rotate (hz.addHead hn')
    rw [List.concat_eq_append, List.append_assoc]
    exact ⟨hnext, hrot⟩

/-- The nodes from the oldest to the newest, in the ring that is entered at `last`; `e` when there are none. -/
def Queue (L : Links) (e last : Nat) : List Nat → Prop
  | [] => last = e
  | x :: xs => last = x ∧ x ≠ e ∧ IsRing L x xs.reverse

theorem Queue.push (h : Queue L e last (x :: xs)) (hn : n ∉ x :: xs) :
    Queue (L.linkAfter last n) e last (x :: (xs ++ [n])) := by
  obtain ⟨rfl, hne, hr⟩ := h
  have hn' : n ∉ last :: xs.reverse := by
    rw [List.mem_cons, mem_reverse]
    exact fun hm => hn (List.mem_cons.mpr hm)
  refine ⟨rfl, hne, ?_⟩
  rw [linkAfter_eq_addHead hr hn', List.reverse_append]
  exact hr.addHead hn'

theorem Queue.single (L : Links) (hne : x ≠ e) (hnext : L.next x = x) (hprev : L.prev x = x) : Queue L e x [x] := by
  refine ⟨rfl, hne, ⟨hnext, hprev⟩, ?_⟩
  simp

theorem Queue.ring (h : Queue L e last (xs ++ r :: ys)) : IsRing L r (xs.reverse ++ ys.reverse) := by
  cases xs with
  | nil => exact h.2.2
  | cons x xs =>
    obtain ⟨_, _, hr⟩ := h
    have hlist : (xs ++ r :: ys).reverse = ys.reverse ++ r :: xs.reverse := by simp
    have hrot : IsRing L r (xs.reverse ++ x :: ys.reverse) := IsRing.rotate (hlist ▸ hr)
    have hgoal : (x :: xs).reverse ++ ys.reverse = xs.reverse ++ x :: ys.reverse := by simp
    rw [hgoal]
    exact hrot

theorem Queue.next_eq_self_iff (h : Queue L e last (xs ++ r :: ys)) : L.next r = r ↔ xs = [] ∧ ys = [] := by
  have hr := h.ring
  have hnil : xs.reverse ++ ys.reverse = [] ↔ xs = [] ∧ ys = [] := by simp
  rw [← hnil]
  cases hl : xs.reverse ++ ys.reverse with
  | nil =>
    rw [hl] at hr
    exact iff_of_true hr.seg.1 rfl
  | cons y l =>
    rw [hl] at hr
    refine iff_of_false ?_ (cons_ne_nil y l)
    intro hself
    have hy : r = y := hself.symm.trans hr.seg.1
    exact (List.nodup_cons.mp hr.nodup).1 (hy ▸ List.mem_cons_self)

theorem Queue.last_mem (h : Queue L e last xs) (hne : last ≠ e) : ∃ ys, xs = last :: ys := by
  cases xs with
  | nil => exact absurd h hne
  | cons x xs => exact ⟨xs, by rw [h.1]⟩

/-- Take a node out; when it is the oldest, the next oldest is before it. -/
theorem Queue.remove (h : Queue L e last (xs ++ r :: ys)) (hne : xs ++ ys ≠ []) (hend : e ∉ xs ++ ys) :
    Queue (L.unlink r) e (if last = r then L.prev r else last) (xs ++ ys) := by
  cases xs with
  | nil =>
    obtain ⟨hl, _, hr⟩ := h
    cases ys with
    | nil => exact absurd rfl hne
    | cons y ys =>
      have hlist : (y :: ys).reverse = ys.reverse ++ y :: [] := by simp
      have hrot : IsRing L y ([] ++ r :: ys.reverse) := IsRing.rotate (hlist ▸ hr)
      have hprev : L.prev r = y := hrot.seg.2.1
      rw [if_pos hl, hprev]
      refine ⟨rfl, ?_, hrot.unlink⟩
      exact fun he => hend (he ▸ List.mem_cons_self)
  | cons x xs =>
    obtain ⟨hl, hxe, hr⟩ := h
    have hlist : (xs ++ r :: ys).reverse = ys.reverse ++ r :: xs.reverse := by simp
    have hr' : IsRing L x (ys.reverse ++ r :: xs.reverse) := hlist ▸ hr
    have hlr : last ≠ r := by
      intro he
      exact (List.nodup_cons.mp hr'.nodup).1 (hl ▸ he ▸ List.mem_append_right _ List.mem_cons_self)
    rw [if_neg hlr]
    refine ⟨hl, hxe, ?_⟩
    have hgoal : (xs ++ ys).reverse = ys.reverse ++ xs.reverse := List.reverse_append
    show IsRing (L.unlink r) x (xs ++ ys).reverse
    rw [hgoal]
    exact hr'.unlink

theorem Queue.nodup (h : Queue L e last xs) : xs.Nodup := by
  cases xs with
  | nil => exact List.Pairwise.nil
  | cons x xs =>
    have hnd := h.2.2.nodup
    rw [List.nodup_cons, mem_reverse, nodup_reverse] at hnd
    exact List.nodup_cons.mpr hnd

end

end Vpp.Lib.Links

namespace Vpp.Lib

namespace Links

variable {L L' : Links} {l xs ys rs cs : List Nat}

/-- The nodes `l` in order, and from the last back to the first. -/
def Circle (L : Links) : List Nat → Prop
  | [] => True
  | x :: l => IsRing L x l

theorem Circle.nodup (h : Circle L l) : l.Nodup := by
  cases l with
  | nil => exact .nil
  | cons x l => exact h.nodup

theorem Circle.congr (h : Circle L l) (hsame : ∀ x ∈ l, L'.next x = L.next x ∧ L'.prev x = L.prev x) : Circle L' l := by
  cases l with
  | nil => trivial
  | cons x l => exact IsRing.congr h hsame

theorem Circle.rotate (h : Circle L (xs ++ i :: ys)) : Circle L (i :: (ys ++ xs)) := by
  cases xs with
  | nil =>
    rw [List.append_nil]
    exact h
  | cons x xs => exact IsRing.rotate h

theorem Circle.swap (h : Circle L (xs ++ ys)) : Circle L (ys ++ xs) := by
  cases ys with
  | nil =>
    rw [List.append_nil] at h
    exact h
  | cons y ys => exact h.rotate

theorem Circle.next_mem (h : Circle L l) (hi : i ∈ l) : L.next i ∈ l := by
  obtain ⟨xs, ys, rfl⟩ := List.append_of_mem hi
  have hm := h.rotate.seg.next_mem
  simp only [List.mem_append, List.mem_singleton] at hm
  simp only [List.mem_append, List.mem_cons]
  tauto

theorem Circle.prev_mem (h : Circle L l) (hi : i ∈ l) : L.prev i ∈ l := by
  obtain ⟨xs, ys, rfl⟩ := List.append_of_mem hi
  have hm := h.rotate.seg.prev_mem
  simp only [List.mem_append, List.mem_cons] at hm ⊢
  tauto

theorem Circle.next_eq (h : Circle L (i :: l)) : L.next i = l.headD i := h.seg.next_eq

theorem circle_singleton : Circle L [i] ↔ L.next i = i ∧ L.prev i = i :=
  ⟨fun h => h.seg, fun h => ⟨h, by simp⟩⟩

theorem Circle.getLast?_eq (h : Circle L (i :: l)) : (i :: l).getLast? = some (L.prev i) := by
  rcases List.eq_nil_or_concat l with rfl | ⟨xs, z, rfl⟩
  · exact congrArg some (IsRing.seg h).2.symm
  · rw [List.concat_eq_append] at h ⊢
    have hz : L.prev i = z := (IsRing.seg h).split.2.2
    rw [hz, ← List.cons_append, List.getLast?_concat]

theorem Circle.prev_eq_self (h : Circle L (i :: l)) : L.prev i = i ↔ l = [] := by
  constructor
  · intro he
    rcases List.eq_nil_or_concat l with rfl | ⟨xs, z, rfl⟩
    · rfl
    · rw [List.concat_eq_append] at h
      have hseg := (IsRing.seg h).split.2
      have hz : L.prev i = z := hseg.2
      exact absurd (List.mem_append_right xs (List.mem_singleton.mpr (he.symm.trans hz))) (List.nodup_cons.mp h.nodup).1
  · rintro rfl
    exact (circle_singleton.mp h).2

theorem Circle.insert (h : Circle L (j :: l)) (hn : n ∉ j :: l) : Circle (L.linkAfter j n) (j :: n :: l) := by
  rw [linkAfter_eq_addHead h hn]
  exact IsRing.addHead h hn

theorem linkAfter_eq (h : Circle L (j :: l)) (hn : n ∉ j :: l) (hx : x ∉ j :: l) (hxn : x ≠ n) :
    (L.linkAfter j n).next x = L.next x ∧ (L.linkAfter j n).prev x = L.prev x := by
  rw [linkAfter_eq_addHead h hn]
  exact addHead_eq h hx hxn

def takeOut (L : Links) (i : Nat) : Links := (L.unlink i).clear i

theorem Circle.takeOut (h : Circle L (i :: l)) : Circle (L.takeOut i) l ∧ Circle (L.takeOut i) [i] := by
  have hclear : Circle (L.takeOut i) [i] := IsRing.clear (L.unlink i) i
  refine ⟨?_, hclear⟩
  cases l with
  | nil => trivial
  | cons y l =>
    have hring : IsRing L y (l ++ i :: []) := by
      have hrot : Circle L ([i] ++ y :: l) := h
      exact hrot.rotate
    have hout := hring.unlink
    rw [List.append_nil] at hout
    have hi := (List.nodup_cons.mp h.nodup).1
    apply IsRing.congr hout
    intro x hx
    have hne : x ≠ i := fun he => hi (he ▸ hx)
    simp only [Links.takeOut, Links.clear, setNext, setPrev, Function.update_of_ne hne, and_self]

theorem takeOut_eq (h : Circle L (i :: l)) (hx : x ∉ i :: l) :
    (L.takeOut i).next x = L.next x ∧ (L.takeOut i).prev x = L.prev x := by
  have hne : x ≠ i := fun he => hx (he ▸ List.mem_cons_self)
  have hp : x ≠ L.prev i := fun he => hx (he ▸ h.prev_mem List.mem_cons_self)
  have hn : x ≠ L.next i := fun he => hx (he ▸ h.next_mem List.mem_cons_self)
  simp only [Links.takeOut, Links.clear, Links.unlink, setNext, setPrev, Function.update_of_ne hne,
    Function.update_of_ne hp, Function.update_of_ne hn, and_self]

def join (L : Links) (r c : Nat) : Links :=
  (((L.setNext r (L.next c)).setNext c (L.next r)).setPrev (L.next c) r).setPrev (L.next r) c

theorem Seg.start (hs : Seg L a l b) (hnext : L'.next d = l.headD b) (hprev : L'.prev (l.headD b) = d)
    (hnd : (l ++ [b]).Nodup) (hn : ∀ x ∈ l, L'.next x = L.next x)
    (hp : ∀ x ∈ l ++ [b], x ≠ l.headD b → L'.prev x = L.prev x) : Seg L' d l b := by
  cases l with
  | nil => exact ⟨hnext, hprev⟩
  | cons x l =>
    obtain ⟨-, -, hrest⟩ := hs
    refine ⟨hnext, hprev, hrest.congr hn ?_⟩
    intro y hy
    apply hp y (List.mem_cons_of_mem x hy)
    rintro rfl
    exact (List.nodup_cons.mp hnd).1 hy

theorem nodup_snoc (h : (b :: l).Nodup) : (l ++ [b]).Nodup := (List.perm_append_singleton b l).nodup_iff.mpr h

theorem Circle.join (hr : Circle L (r :: rs)) (hc : Circle L (c :: cs)) (hdisj : ∀ x ∈ r :: rs, x ∉ c :: cs) :
    Circle (L.join r c) (r :: (cs ++ c :: rs)) := by
  have hrc : r ≠ c := fun he => hdisj r List.mem_cons_self (he ▸ List.mem_cons_self)
  have hnr : L.next r = rs.headD r := hr.next_eq
  have hnc : L.next c = cs.headD c := hc.next_eq
  have hmr : L.next r ∈ r :: rs := hr.next_mem List.mem_cons_self
  have hmc : L.next c ∈ c :: cs := hc.next_mem List.mem_cons_self
  have hne : L.next r ≠ L.next c := fun he => hdisj _ hmr (he ▸ hmc)
  have hnotr {x : Nat} (hx : x ∈ cs) : x ≠ r := fun he => hdisj r List.mem_cons_self (he ▸ List.mem_cons_of_mem c hx)
  have hnotc {x : Nat} (hx : x ∈ rs) : x ≠ c := fun he => hdisj x (List.mem_cons_of_mem r hx) (he ▸ List.mem_cons_self)
  have hndr := List.nodup_cons.mp hr.nodup
  have hndc := List.nodup_cons.mp hc.nodup
  have hfirst : Seg (L.join r c) r cs c := by
    apply Seg.start hc.seg
    · simp only [Links.join, setNext, setPrev, Function.update_of_ne hrc, Function.update_self, hnc]
    · rw [← hnc]
      simp only [Links.join, setNext, setPrev, Function.update_of_ne hne.symm, Function.update_self]
    · exact nodup_snoc hc.nodup
    · intro x hx
      have hxc : x ≠ c := fun he => hndc.1 (he ▸ hx)
      simp only [Links.join, setNext, setPrev, Function.update_of_ne hxc, Function.update_of_ne (hnotr hx)]
    · intro x hx hxh
      rw [← hnc] at hxh
      have hxm : x ∈ c :: cs := by
        rcases List.mem_append.mp hx with hx | hx
        · exact List.mem_cons_of_mem c hx
        · exact List.mem_singleton.mp hx ▸ List.mem_cons_self
      have hxr : x ≠ L.next r := fun he => hdisj _ hmr (he ▸ hxm)
      simp only [Links.join, setNext, setPrev, Function.update_of_ne hxr, Function.update_of_ne hxh]
  have hsecond : Seg (L.join r c) c rs r := by
    apply Seg.start hr.seg
    · simp only [Links.join, setNext, setPrev, Function.update_self, hnr]
    · rw [← hnr]
      simp only [Links.join, setNext, setPrev, Function.update_self]
    · exact nodup_snoc hr.nodup
    · intro x hx
      have hxr : x ≠ r := fun he => hndr.1 (he ▸ hx)
      simp only [Links.join, setNext, setPrev, Function.update_of_ne (hnotc hx), Function.update_of_ne hxr]
    · intro x hx hxh
      rw [← hnr] at hxh
      have hxm : x ∈ r :: rs := by
        rcases List.mem_append.mp hx with hx | hx
        · exact List.mem_cons_of_mem r hx
        · exact List.mem_singleton.mp hx ▸ List.mem_cons_self
      have hxc : x ≠ L.next c := fun he => hdisj x hxm (he ▸ hmc)
      simp only [Links.join, setNext, setPrev, Function.update_of_ne hxh, Function.update_of_ne hxc]
  refine ⟨hfirst.append hsecond, ?_⟩
  have hperm : (r :: (cs ++ c :: rs)).Perm ((r :: rs) ++ (c :: cs)) := by
    apply List.Perm.cons
    exact List.perm_middle.trans ((List.perm_append_comm.cons c).trans List.perm_middle.symm)
  apply hperm.nodup_iff.mpr
  exact List.nodup_append.mpr ⟨hr.nodup, hc.nodup, fun x hx y hy he => hdisj x hx (he ▸ hy)⟩

theorem join_eq (hr : Circle L (r :: rs)) (hc : Circle L (c :: cs)) (hxr : x ∉ r :: rs) (hxc : x ∉ c :: cs) :
    (L.join r c).next x = L.next x ∧ (L.join r c).prev x = L.prev x := by
  have h1 : x ≠ r := fun he => hxr (he ▸ List.mem_cons_self)
  have h2 : x ≠ c := fun he => hxc (he ▸ List.mem_cons_self)
  have h3 : x ≠ L.next r := fun he => hxr (he ▸ hr.next_mem List.mem_cons_self)
  have h4 : x ≠ L.next c := fun he => hxc (he ▸ hc.next_mem List.mem_cons_self)
  simp only [Links.join, setNext, setPrev, Function.update_of_ne h1, Function.update_of_ne h2,
    Function.update_of_ne h3, Function.update_of_ne h4, and_self]

end Links

end Vpp.Lib
