import Vpp.Lib.Pool
import Vpp.Lib.Circles

namespace Vpp.Infra
open Vpp.Lib Function

def noIndex : Nat := 0xffffffff

structure DlistElt where
  next : Nat
  prev : Nat
  value : Nat
deriving DecidableEq

instance : Inhabited DlistElt := ⟨⟨0, 0, 0⟩⟩

def clibDlistInit (pool : Pool DlistElt) (index : Nat) : Pool DlistElt := pool.set index ⟨noIndex, noIndex, noIndex⟩

def setNext (pool : Pool DlistElt) (i n : Nat) : Pool DlistElt := pool.modify i fun e => { e with next := n }

def setPrev (pool : Pool DlistElt) (i n : Nat) : Pool DlistElt := pool.modify i fun e => { e with prev := n }

def clibDlistAddtail (pool : Pool DlistElt) (headIndex newIndex : Nat) : Pool DlistElt :=
  let head := pool.eltAt headIndex
  if head.next = noIndex then
    setPrev (setNext (setPrev (setNext pool headIndex newIndex) headIndex newIndex) newIndex headIndex) newIndex
        headIndex
  else
    let oldLastIndex := head.prev
    let oldLast := pool.eltAt oldLastIndex
    setPrev (setNext (setPrev (setNext pool newIndex oldLast.next) newIndex oldLastIndex) oldLastIndex newIndex)
      headIndex newIndex

def clibDlistAddhead (pool : Pool DlistElt) (headIndex newIndex : Nat) : Pool DlistElt :=
  let head := pool.eltAt headIndex
  if head.next = noIndex then
    setPrev (setNext (setPrev (setNext pool headIndex newIndex) headIndex newIndex) newIndex headIndex) newIndex
        headIndex
  else
    let oldFirstIndex := head.next
    let oldFirst := pool.eltAt oldFirstIndex
    setNext (setPrev (setPrev (setNext pool newIndex oldFirstIndex) newIndex oldFirst.prev) oldFirstIndex newIndex)
      headIndex newIndex

def clibDlistRemove (pool : Pool DlistElt) (index : Nat) : Pool DlistElt :=
  let elt := pool.eltAt index
  setNext (setPrev (setNext (setPrev pool elt.next elt.prev) elt.prev elt.next) index noIndex) index noIndex

/-- The index that is removed, and nothing for an empty list. -/
def clibDlistRemoveHead (pool : Pool DlistElt) (headIndex : Nat) : Pool DlistElt × Option Nat :=
  let head := pool.eltAt headIndex
  if head.next = noIndex ∨ head.next = headIndex then (pool, none)
  else (clibDlistRemove pool head.next, some head.next)

/-- A list that is linked to itself is not seen to be empty. -/
def clibDlistRemoveTail (pool : Pool DlistElt) (headIndex : Nat) : Pool DlistElt × Option Nat :=
  let head := pool.eltAt headIndex
  if head.prev = noIndex then (pool, none) else (clibDlistRemove pool head.prev, some head.prev)

def dlinks (pool : Pool DlistElt) : Links := ⟨fun i => (pool.eltAt i).next, fun i => (pool.eltAt i).prev⟩

/-- Only links of `nodes` are written. -/
structure Relinks (nodes : List Nat) (p p' : Pool DlistElt) : Prop where
  live : ∀ i, p'.Live i ↔ p.Live i
  value : ∀ i, (p'.eltAt i).value = (p.eltAt i).value
  other : ∀ i, i ∉ nodes → p'.eltAt i = p.eltAt i

theorem Relinks.trans (h : Relinks nodes p p') (h' : Relinks nodes p' p'') : Relinks nodes p p'' :=
  ⟨fun i => (h'.live i).trans (h.live i), fun i => (h'.value i).trans (h.value i),
    fun i hi => (h'.other i hi).trans (h.other i hi)⟩

section Writes
variable {p : Pool DlistElt} (i n : Nat)

theorem relinks_setNext (hi : i ∈ nodes) : Relinks nodes p (setNext p i n) :=
  ⟨fun _ => Pool.live_modify,
    Pool.proj_modify (f := DlistElt.value) (g := fun e => { e with next := n }) (fun _ => rfl) p i,
    fun _ hj => Pool.eltAt_modify_ne (ne_of_mem_of_not_mem hi hj).symm⟩

theorem relinks_setPrev (hi : i ∈ nodes) : Relinks nodes p (setPrev p i n) :=
  ⟨fun _ => Pool.live_modify,
    Pool.proj_modify (f := DlistElt.value) (g := fun e => { e with prev := n }) (fun _ => rfl) p i,
    fun _ hj => Pool.eltAt_modify_ne (ne_of_mem_of_not_mem hi hj).symm⟩

theorem dlinks_setNext (hi : p.Live i) : dlinks (setNext p i n) = (dlinks p).setNext i n := by
  simp only [dlinks, setNext, Links.setNext, Pool.eltAt_modify hi, apply_ite DlistElt.next, apply_ite DlistElt.prev]
  congr 1
  · funext j
    rw [update_apply]
  · funext j
    split
    · rename_i he
      rw [he]
    · rfl

theorem dlinks_setPrev (hi : p.Live i) : dlinks (setPrev p i n) = (dlinks p).setPrev i n := by
  simp only [dlinks, setPrev, Links.setPrev, Pool.eltAt_modify hi, apply_ite DlistElt.next, apply_ite DlistElt.prev]
  congr 1
  · funext j
    split
    · rename_i he
      rw [he]
    · rfl
  · funext j
    rw [update_apply]

end Writes

/-- The head has no neighbours. -/
def Unlinked (p : Pool DlistElt) (head : Nat) : Prop := (p.eltAt head).next = noIndex ∧ (p.eltAt head).prev = noIndex

/-- The list from its head, which has no neighbours or is its own neighbour when there is nothing else. -/
def IsDlist (p : Pool DlistElt) (head : Nat) (l : List Nat) : Prop :=
  l = [] ∧ Unlinked p head ∨ (dlinks p).IsRing head l

variable {p p' : Pool DlistElt}

theorem IsDlist.nodup (h : IsDlist p head l) : l.Nodup := by
  cases h with
  | inl h =>
    rw [h.1]
    exact List.nodup_nil
  | inr h => exact (List.nodup_cons.mp h.nodup).2

theorem IsDlist.congr (h : IsDlist p head l) (hsame : ∀ i ∈ head :: l, p'.eltAt i = p.eltAt i) : IsDlist p' head l := by
  cases h with
  | inl h =>
    refine .inl ⟨h.1, ?_⟩
    rw [Unlinked, hsame head List.mem_cons_self]
    exact h.2
  | inr h =>
    refine .inr (h.congr fun i hi => ?_)
    simp only [dlinks, hsame i hi, and_self]

theorem isDlist_init (hlive : p.Live head) : IsDlist (clibDlistInit p head) head [] := by
  refine .inl ⟨rfl, ?_⟩
  rw [Unlinked, clibDlistInit, Pool.eltAt_set_self hlive]
  exact ⟨rfl, rfl⟩

theorem dlinks_addtail_empty (hh : p.Live head) (hn : p.Live n) (hempty : (p.eltAt head).next = noIndex) :
    dlinks (clibDlistAddtail p head n) =
      ((((dlinks p).setNext head n).setPrev head n).setNext n head).setPrev n head := by
  rw [clibDlistAddtail, if_pos hempty, dlinks_setPrev, dlinks_setNext, dlinks_setPrev, dlinks_setNext]
  · exact hh
  · exact Pool.live_modify.mpr hh
  · exact Pool.live_modify.mpr (Pool.live_modify.mpr hn)
  · exact Pool.live_modify.mpr (Pool.live_modify.mpr (Pool.live_modify.mpr hn))

theorem dlinks_addtail (hh : p.Live head) (hn : p.Live n) (hl : p.Live (p.eltAt head).prev)
    (hne : (p.eltAt head).next ≠ noIndex) (hlast : (dlinks p).next ((dlinks p).prev head) = head) :
    dlinks (clibDlistAddtail p head n) = (dlinks p).linkAfter ((dlinks p).prev head) n := by
  rw [clibDlistAddtail, if_neg hne, dlinks_setPrev, dlinks_setNext, dlinks_setPrev, dlinks_setNext,
      Links.linkAfter, hlast]
  · have hnext : (p.eltAt (p.eltAt head).prev).next = head := hlast
    rw [hnext]
    rfl
  · exact hn
  · exact Pool.live_modify.mpr hn
  · exact Pool.live_modify.mpr (Pool.live_modify.mpr hl)
  · exact Pool.live_modify.mpr (Pool.live_modify.mpr (Pool.live_modify.mpr hh))

theorem relinks_addtail (hn : n ∈ nodes) (hh : head ∈ nodes)
    (hl : (p.eltAt head).next ≠ noIndex → (p.eltAt head).prev ∈ nodes) :
    Relinks nodes p (clibDlistAddtail p head n) := by
  rw [clibDlistAddtail]
  split
  · exact (((relinks_setNext _ _ hh).trans (relinks_setPrev _ _ hh)).trans (relinks_setNext _ _ hn)).trans
      (relinks_setPrev _ _ hn)
  · rename_i hne
    exact (((relinks_setNext _ _ hn).trans (relinks_setPrev _ _ hn)).trans (relinks_setNext _ _ (hl hne))).trans
      (relinks_setPrev _ _ hh)

theorem next_ne_noIndex (h : (dlinks p).IsRing head l) (hlive : ∀ i ∈ head :: l, p.Live i)
    (hlt : ∀ i, p.Live i → i ≠ noIndex) : (p.eltAt head).next ≠ noIndex := by
  apply hlt
  apply hlive
  have hm : (p.eltAt head).next ∈ l ++ [head] := h.seg.next_mem
  rw [List.mem_append, List.mem_singleton] at hm
  cases hm with
  | inl hm => exact List.mem_cons_of_mem _ hm
  | inr hm =>
    rw [hm]
    exact List.mem_cons_self

theorem IsDlist.addtail (h : IsDlist p head l) (hlive : ∀ i ∈ head :: n :: l, p.Live i)
    (hlt : ∀ i, p.Live i → i ≠ noIndex) (hn : n ∉ head :: l) :
    IsDlist (clibDlistAddtail p head n) head (l ++ [n]) ∧ Relinks (head :: n :: l) p (clibDlistAddtail p head n) := by
  have hh : p.Live head := hlive head List.mem_cons_self
  have hnl : p.Live n := hlive n (List.mem_cons_of_mem _ List.mem_cons_self)
  have hne : head ≠ n := fun he => hn (he ▸ List.mem_cons_self)
  cases h with
  | inl h =>
    obtain ⟨rfl, hempty⟩ := h
    refine ⟨.inr ?_, relinks_addtail (by simp) (by simp) (absurd hempty.1)⟩
    rw [dlinks_addtail_empty hh hnl hempty.1]
    refine ⟨⟨?_, ?_, ?_, ?_⟩, by simpa using hne⟩
    all_goals simp [Links.setNext, Links.setPrev, hne]
  | inr h =>
    obtain ⟨hmem, hlast, hring⟩ := h.addTail hn
    have hmem' : (p.eltAt head).prev ∈ head :: n :: l := by
      have hsub : head :: l ⊆ head :: n :: l := List.cons_subset_cons _ (List.subset_cons_self n l)
      exact hsub hmem
    have hnext : (p.eltAt head).next ≠ noIndex := by
      refine next_ne_noIndex h (fun i hi => hlive i ?_) hlt
      exact List.cons_subset_cons _ (List.subset_cons_self n l) hi
    refine ⟨.inr ?_, relinks_addtail (by simp) (by simp) fun _ => hmem'⟩
    rw [dlinks_addtail hh hnl (hlive _ hmem') hnext hlast]
    exact hring

theorem addhead_unlinked (hempty : (p.eltAt head).next = noIndex) :
    clibDlistAddhead p head n = clibDlistAddtail p head n := by
  rw [clibDlistAddhead, clibDlistAddtail, if_pos hempty, if_pos hempty]

theorem dlinks_addhead (hh : p.Live head) (hn : p.Live n) (hf : p.Live (p.eltAt head).next)
    (hne : (p.eltAt head).next ≠ noIndex) (hfirst : (dlinks p).prev ((dlinks p).next head) = head) :
    dlinks (clibDlistAddhead p head n) = (dlinks p).linkAfter head n := by
  rw [clibDlistAddhead, if_neg hne, dlinks_setNext, dlinks_setPrev, dlinks_setPrev, dlinks_setNext, Links.linkAfter]
  · have hprev : (p.eltAt (p.eltAt head).next).prev = head := hfirst
    rw [hprev]
    rfl
  · exact hn
  · exact Pool.live_modify.mpr hn
  · exact Pool.live_modify.mpr (Pool.live_modify.mpr hf)
  · exact Pool.live_modify.mpr (Pool.live_modify.mpr (Pool.live_modify.mpr hh))

theorem relinks_addhead (hn : n ∈ nodes) (hh : head ∈ nodes) (hf : (p.eltAt head).next ∈ nodes)
    (hne : (p.eltAt head).next ≠ noIndex) : Relinks nodes p (clibDlistAddhead p head n) := by
  rw [clibDlistAddhead, if_neg hne]
  exact (((relinks_setNext _ _ hn).trans (relinks_setPrev _ _ hn)).trans (relinks_setPrev _ _ hf)).trans
    (relinks_setNext _ _ hh)

theorem IsDlist.addhead (h : IsDlist p head l) (hlive : ∀ i ∈ head :: n :: l, p.Live i)
    (hlt : ∀ i, p.Live i → i ≠ noIndex) (hn : n ∉ head :: l) :
    IsDlist (clibDlistAddhead p head n) head (n :: l) ∧ Relinks (head :: n :: l) p (clibDlistAddhead p head n) := by
  cases h with
  | inl h =>
    obtain ⟨rfl, hempty⟩ := h
    rw [addhead_unlinked hempty.1]
    exact IsDlist.addtail (.inl ⟨rfl, hempty⟩) hlive hlt hn
  | inr h =>
    have hsub : head :: l ⊆ head :: n :: l := List.cons_subset_cons _ (List.subset_cons_self n l)
    have hmem : (p.eltAt head).next ∈ head :: n :: l := by
      have hm : (p.eltAt head).next ∈ l ++ [head] := h.seg.next_mem
      rw [List.mem_append, List.mem_singleton] at hm
      apply hsub
      cases hm with
      | inl hm => exact List.mem_cons_of_mem _ hm
      | inr hm =>
        rw [hm]
        exact List.mem_cons_self
    have hnext := next_ne_noIndex h (fun i hi => hlive i (hsub hi)) hlt
    refine ⟨.inr ?_, relinks_addhead (by simp) (by simp) hmem hnext⟩
    rw [dlinks_addhead (hlive head (by simp)) (hlive n (by simp)) (hlive _ hmem) hnext h.prev_next,
      Links.linkAfter_eq_addHead h hn]
    exact h.addHead hn

theorem dlinks_remove (hi : p.Live i) (hnext : p.Live (p.eltAt i).next) (hprev : p.Live (p.eltAt i).prev) :
    dlinks (clibDlistRemove p i) = (((dlinks p).unlink i).setPrev i noIndex).setNext i noIndex := by
  rw [clibDlistRemove, dlinks_setNext, dlinks_setPrev, dlinks_setNext, dlinks_setPrev]
  · rfl
  · exact hnext
  · exact Pool.live_modify.mpr hprev
  · exact Pool.live_modify.mpr (Pool.live_modify.mpr hi)
  · exact Pool.live_modify.mpr (Pool.live_modify.mpr (Pool.live_modify.mpr hi))

theorem IsDlist.remove (h : IsDlist p head (l₁ ++ i :: l₂)) (hlive : ∀ j ∈ head :: (l₁ ++ i :: l₂), p.Live j) :
    IsDlist (clibDlistRemove p i) head (l₁ ++ l₂) ∧ Relinks (head :: (l₁ ++ i :: l₂)) p (clibDlistRemove p i) := by
  have hring : (dlinks p).IsRing head (l₁ ++ i :: l₂) := by
    refine h.resolve_left fun he => ?_
    exact absurd he.1 (by simp)
  obtain ⟨hs₁, hs₂⟩ := hring.seg.split
  have hmem : i ∈ head :: (l₁ ++ i :: l₂) := by simp
  have hnext : (p.eltAt i).next ∈ head :: (l₁ ++ i :: l₂) := by
    have hm := hs₂.next_mem
    rw [List.mem_append, List.mem_singleton] at hm
    exact hm.elim (fun h => List.mem_cons_of_mem _ (List.mem_append_right _ (List.mem_cons_of_mem _ h))) fun h =>
      h ▸ List.mem_cons_self
  have hprev : (p.eltAt i).prev ∈ head :: (l₁ ++ i :: l₂) := by
    have hm := hs₁.prev_mem
    rw [List.mem_cons] at hm
    exact hm.elim (fun h => h ▸ List.mem_cons_self) fun h => List.mem_cons_of_mem _ (List.mem_append_left _ h)
  constructor
  · refine .inr ?_
    rw [dlinks_remove (hlive _ hmem) (hlive _ hnext) (hlive _ hprev)]
    apply hring.unlink.congr
    intro j hj
    have hnd := hring.nodup
    rw [List.nodup_cons, List.nodup_middle, List.nodup_cons] at hnd
    have hne : j ≠ i := by
      intro he
      obtain hj | hj := List.mem_cons.mp hj
      · exact hnd.1 (hj ▸ he ▸ List.mem_append_right _ List.mem_cons_self)
      · exact hnd.2.1 (he ▸ hj)
    simp only [Links.setNext, Links.setPrev, update_of_ne hne, and_self]
  · exact (((relinks_setPrev _ _ hnext).trans (relinks_setNext _ _ hprev)).trans (relinks_setPrev _ _ hmem)).trans
      (relinks_setNext _ _ hmem)

theorem IsDlist.removeHead (h : IsDlist p head (x :: l)) (hx : x ≠ noIndex) :
    clibDlistRemoveHead p head = (clibDlistRemove p x, some x) := by
  have hring : (dlinks p).IsRing head (x :: l) := by
    refine h.resolve_left fun he => ?_
    exact absurd he.1 (List.cons_ne_nil _ _)
  have hnext : (p.eltAt head).next = x := hring.seg.1
  have hne : x ≠ head := fun he => (List.nodup_cons.mp hring.nodup).1 (he ▸ List.mem_cons_self)
  rw [clibDlistRemoveHead, hnext, if_neg (not_or_intro hx hne)]

theorem IsDlist.removeHead_nil (h : IsDlist p head []) : clibDlistRemoveHead p head = (p, none) := by
  rw [clibDlistRemoveHead, if_pos]
  exact h.imp (fun h => h.2.1) fun h => h.seg.1

theorem IsDlist.removeTail (h : IsDlist p head (l ++ [x])) (hx : x ≠ noIndex) :
    clibDlistRemoveTail p head = (clibDlistRemove p x, some x) := by
  have hring : (dlinks p).IsRing head (l ++ [x]) := by
    refine h.resolve_left fun he => ?_
    exact absurd he.1 (by simp)
  have hprev : (p.eltAt head).prev = x := hring.seg.split.2.2
  rw [clibDlistRemoveTail, hprev, if_neg hx]

theorem removeTail_unlinked (h : Unlinked p head) : clibDlistRemoveTail p head = (p, none) := by
  rw [clibDlistRemoveTail, if_pos h.2]

theorem removeTail_linked (h : (dlinks p).IsRing head []) (hlive : p.Live head) (hne : head ≠ noIndex) :
    (clibDlistRemoveTail p head).2 = some head ∧ IsDlist (clibDlistRemoveTail p head).1 head [] ∧
      Relinks [head] p (clibDlistRemoveTail p head).1 := by
  have hnext : (p.eltAt head).next = head := h.seg.1
  have hprev : (p.eltAt head).prev = head := h.seg.2
  have hrun : clibDlistRemoveTail p head = (clibDlistRemove p head, some head) := by
    rw [clibDlistRemoveTail, hprev, if_neg hne]
  have hmem : head ∈ [head] := List.mem_singleton_self head
  rw [hrun]
  refine ⟨rfl, .inl ⟨rfl, ?_⟩, ?_⟩
  · have hnl : p.Live (p.eltAt head).next := by rwa [hnext]
    have hpl : p.Live (p.eltAt head).prev := by rwa [hprev]
    have hlinks := dlinks_remove hlive hnl hpl
    constructor
    · calc (dlinks (clibDlistRemove p head)).next head = _ := by rw [hlinks]
        _ = noIndex := update_self _ _ _
    · calc (dlinks (clibDlistRemove p head)).prev head = _ := by rw [hlinks]
        _ = noIndex := update_self _ _ _
  · rw [clibDlistRemove, hnext, hprev]
    exact (((relinks_setPrev _ _ hmem).trans (relinks_setNext _ _ hmem)).trans (relinks_setPrev _ _ hmem)).trans
      (relinks_setNext _ _ hmem)

end Vpp.Infra
