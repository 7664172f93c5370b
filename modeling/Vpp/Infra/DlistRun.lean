import Vpp.Infra.Dlist
import Vpp.Lib.EndedList

namespace Vpp.Infra
open Vpp.Lib Function

inductive DlistCall where
  | init (head : Nat)
  | addtail (head new : Nat)
  | addhead (head new : Nat)
  | remove (index : Nat)
  | removeHead (head : Nat)
  | removeTail (head : Nat)
deriving DecidableEq

def DlistCall.exec (p : Pool DlistElt) : DlistCall → Pool DlistElt × Option Nat
  | init head => (clibDlistInit p head, none)
  | addtail head new => (clibDlistAddtail p head new, none)
  | addhead head new => (clibDlistAddhead p head new, none)
  | remove index => (clibDlistRemove p index, none)
  | removeHead head => clibDlistRemoveHead p head
  | removeTail head => clibDlistRemoveTail p head

/-- The elements that are reached from a head, along `next` and along `prev`. -/
def forward (p : Pool DlistElt) (head : Nat) : List Nat :=
  (dlinks p).walk (fun i => i == noIndex || i == head) p.elts.length (p.eltAt head).next

def backward (p : Pool DlistElt) (head : Nat) : List Nat :=
  (dlinks p).swap.walk (fun i => i == noIndex || i == head) p.elts.length (p.eltAt head).prev

abbrev Seqs := Nat → Option (List Nat)

def DlistCall.spec (s : Seqs) : DlistCall → Seqs × Option Nat
  | init head => (update s head (some []), none)
  | addtail head new => (update s head ((s head).map (· ++ [new])), none)
  | addhead head new => (update s head ((s head).map (new :: ·)), none)
  | remove index => (fun head => (s head).map (·.erase index), none)
  | removeHead head => (update s head ((s head).map List.tail), (s head).bind List.head?)
  | removeTail head => (update s head ((s head).map List.dropLast), (s head).bind List.getLast?)

def Seqs.Free (s : Seqs) (i : Nat) : Prop := ∀ head l, s head = some l → i ∉ head :: l

/-- What a caller may ask for. -/
def DlistCall.Legal (p : Pool DlistElt) (s : Seqs) : DlistCall → Prop
  | init head => p.Live head ∧ ∀ other l, s other = some l → other ≠ head → head ∉ other :: l
  | addtail head new => (∃ l, s head = some l) ∧ p.Live new ∧ s.Free new
  | addhead head new => (∃ l, s head = some l) ∧ p.Live new ∧ s.Free new
  | remove index => ∃ head l, s head = some l ∧ index ∈ l
  | removeHead head => ∃ l, s head = some l
  | removeTail head => ∃ l, s head = some l

/-- Not the last element of a list whose head is linked to itself. -/
def DlistCall.Avoids (p : Pool DlistElt) : DlistCall → Prop
  | removeTail head => (p.eltAt head).prev ≠ head
  | _ => True

/-- The call returns what it does on sequences, never a head, and the lists are the sequences in both directions. -/
structure DlistCall.Refines (p : Pool DlistElt) (s : Seqs) (c : DlistCall) : Prop where
  returns : (c.exec p).2 = (c.spec s).2
  noHead : ∀ i, (c.exec p).2 = some i → (c.spec s).1 i = none
  lists : ∀ head l, (c.spec s).1 head = some l → forward (c.exec p).1 head = l ∧ backward (c.exec p).1 head = l.reverse

def DlistRun (P : Pool DlistElt → Seqs → DlistCall → Prop) : Pool DlistElt → Seqs → List DlistCall → Prop
  | _, _, [] => True
  | p, s, c :: cs => P p s c ∧ DlistRun P (c.exec p).1 (c.spec s).1 cs

structure Dlists (p : Pool DlistElt) (s : Seqs) : Prop where
  isDlist : ∀ head l, s head = some l → IsDlist p head l
  live : ∀ head l, s head = some l → ∀ i ∈ head :: l, p.Live i
  disjoint : ∀ head l head' l', s head = some l → s head' = some l' → head ≠ head' → ∀ i ∈ head :: l, i ∉ head' :: l'

variable {p p' : Pool DlistElt} {s : Seqs} {c : DlistCall}

theorem dlists_init (p : Pool DlistElt) : Dlists p fun _ => none := by
  constructor
  · intro head l h
    exact absurd h (by simp)
  · intro head l h
    exact absurd h (by simp)
  · intro head l head' l' h
    exact absurd h (by simp)

theorem Dlists.replace {nodes : List Nat} (hd : Dlists p s) (h : IsDlist p' head l) (hlive : ∀ i ∈ head :: l, p'.Live i)
    (hkeep : ∀ i, p'.Live i ↔ p.Live i) (hother : ∀ i, i ∉ nodes → p'.eltAt i = p.eltAt i)
    (hapart : ∀ head' l', s head' = some l' → head' ≠ head → ∀ i ∈ head' :: l', i ∉ head :: l ∧ i ∉ nodes) :
    Dlists p' (update s head (some l)) := by
  have hcase {head' : Nat} {l' : List Nat} (hs : update s head (some l) head' = some l') :
      head' = head ∧ l' = l ∨ head' ≠ head ∧ s head' = some l' := by
    by_cases he : head' = head
    · rw [he, update_self] at hs
      exact .inl ⟨he, (Option.some.inj hs).symm⟩
    · rw [update_of_ne he] at hs
      exact .inr ⟨he, hs⟩
  constructor
  · intro head' l' hs
    obtain ⟨rfl, rfl⟩ | ⟨hne, hs⟩ := hcase hs
    · exact h
    · exact (hd.isDlist head' l' hs).congr fun i hi => hother i (hapart head' l' hs hne i hi).2
  · intro head' l' hs i hi
    obtain ⟨rfl, rfl⟩ | ⟨hne, hs⟩ := hcase hs
    · exact hlive i hi
    · exact (hkeep i).mpr (hd.live head' l' hs i hi)
  · intro h₁ l₁ h₂ l₂ hs₁ hs₂ hne i hi
    obtain ⟨rfl, rfl⟩ | ⟨hne₁, hold₁⟩ := hcase hs₁
    · obtain ⟨rfl, rfl⟩ | ⟨hne₂, hold₂⟩ := hcase hs₂
      · exact absurd rfl hne
      · intro hm
        exact (hapart h₂ l₂ hold₂ hne₂ i hm).1 hi
    · obtain ⟨rfl, rfl⟩ | ⟨hne₂, hold₂⟩ := hcase hs₂
      · exact (hapart h₁ l₁ hold₁ hne₁ i hi).1
      · exact hd.disjoint h₁ l₁ h₂ l₂ hold₁ hold₂ hne i hi

theorem Dlists.shrink (hd : Dlists p s) (hs : s head = some l) (h : IsDlist p' head l') (hsub : l' ⊆ l)
    (hrel : Relinks (head :: l) p p') : Dlists p' (update s head (some l')) := by
  have hcons : head :: l' ⊆ head :: l := List.cons_subset_cons head hsub
  apply hd.replace h _ hrel.live hrel.other
  · intro head' l'' hs' hne i hi
    have hout := hd.disjoint head' l'' head l hs' hs hne i hi
    exact ⟨fun hm => hout (hcons hm), hout⟩
  · intro i hi
    exact (hrel.live i).mpr (hd.live head l hs i (hcons hi))

theorem Dlists.grow (hd : Dlists p s) (hs : s head = some l) (hn : p.Live n) (hfree : s.Free n)
    (h : IsDlist p' head l') (hsub : l' ⊆ n :: l) (hrel : Relinks (head :: n :: l) p p') :
    Dlists p' (update s head (some l')) := by
  have hcons : head :: l' ⊆ head :: n :: l := List.cons_subset_cons head hsub
  apply hd.replace h _ hrel.live hrel.other
  · intro head' l'' hs' hne i hi
    have hout : i ∉ head :: n :: l := by
      intro hm
      rw [List.mem_cons, List.mem_cons, or_left_comm] at hm
      cases hm with
      | inl he => exact hfree head' l'' hs' (he ▸ hi)
      | inr hm => exact hd.disjoint head' l'' head l hs' hs hne i hi (List.mem_cons.mpr hm)
    exact ⟨fun hm => hout (hcons hm), hout⟩
  · intro i hi
    have hm := hcons hi
    rw [List.mem_cons, List.mem_cons, or_left_comm] at hm
    apply (hrel.live i).mpr
    cases hm with
    | inl he => exact he ▸ hn
    | inr hm => exact hd.live head l hs i (List.mem_cons.mpr hm)

theorem Dlists.reads (hd : Dlists p s) (hlt : ∀ i, p.Live i → i ≠ noIndex) (hs : s head = some l) :
    forward p head = l ∧ backward p head = l.reverse := by
  have hlive := hd.live head l hs
  have hnd : l.Nodup := (hd.isDlist head l hs).nodup
  have hlen : l.length ≤ p.elts.length := length_le_of_lt hnd fun i hi => (hlive i (List.mem_cons_of_mem _ hi)).1
  have hstop : (fun i => i == noIndex || i == head) head = true := by simp
  cases hd.isDlist head l hs with
  | inl h =>
    obtain ⟨rfl, hnext, hprev⟩ := h
    have hend : (fun i => i == noIndex || i == head) noIndex = true := by simp
    rw [forward, backward, hnext, hprev]
    exact ⟨Links.walk_stop hend, Links.walk_stop hend⟩
  | inr h =>
    have hin : ∀ i ∈ l, (fun i => i == noIndex || i == head) i = false := by
      intro i hi
      have hne : i ≠ head := fun he => (List.nodup_cons.mp h.nodup).1 (he ▸ hi)
      simp [hne, hlt i (hlive i (List.mem_cons_of_mem _ hi))]
    apply And.intro
    · exact h.seg.walk hin hstop hlen
    · apply h.seg.swap.walk (fun i hi => hin i (List.mem_reverse.mp hi)) hstop
      rw [List.length_reverse]
      exact hlen

theorem IsDlist.head_notMem (h : IsDlist p head l) : head ∉ l := by
  cases h with
  | inl h =>
    rw [h.1]
    exact List.not_mem_nil
  | inr h => exact (List.nodup_cons.mp h.nodup).1

theorem Dlists.not_head (hd : Dlists p s) (hs : s head = some l) (hx : x ∈ l) : s x = none := by
  cases hsx : s x with
  | none => rfl
  | some l' =>
    have hne : x ≠ head := fun he => (hd.isDlist head l hs).head_notMem (he ▸ hx)
    have hout := hd.disjoint x l' head l hsx hs hne x List.mem_cons_self
    exact absurd (List.mem_cons_of_mem head hx) hout

theorem Dlists.spec_remove (hd : Dlists p s) (hs : s head = some (l₁ ++ i :: l₂)) :
    ((DlistCall.remove i).spec s).1 = update s head (some (l₁ ++ l₂)) := by
  have hmem : i ∈ l₁ ++ i :: l₂ := List.mem_append_right l₁ List.mem_cons_self
  funext other
  have hspec : ((DlistCall.remove i).spec s).1 other = (s other).map (·.erase i) := rfl
  rw [hspec]
  by_cases he : other = head
  · have hnot : i ∉ l₁ := by
      have hnd := (hd.isDlist head _ hs).nodup
      rw [List.nodup_middle, List.nodup_cons] at hnd
      exact fun hm => hnd.1 (List.mem_append_left l₂ hm)
    rw [he, update_self, hs, Option.map_some, List.erase_append_right _ hnot,
      List.erase_cons_head]
  · rw [update_of_ne he]
    cases ho : s other with
    | none => rfl
    | some l =>
      have hnot : i ∉ l := by
        intro hm
        have hout := hd.disjoint other l head _ ho hs he i (List.mem_cons_of_mem other hm)
        exact hout (List.mem_cons_of_mem head hmem)
      rw [Option.map_some, List.erase_of_not_mem hnot]

theorem Dlists.remove (hd : Dlists p s) (hs : s head = some (l₁ ++ i :: l₂)) :
    Dlists (clibDlistRemove p i) (update s head (some (l₁ ++ l₂))) ∧
      Relinks (head :: (l₁ ++ i :: l₂)) p (clibDlistRemove p i) := by
  obtain ⟨h, hrel⟩ := (hd.isDlist head _ hs).remove (hd.live head _ hs)
  apply And.intro _ hrel
  apply hd.shrink hs h _ hrel
  exact (List.Sublist.append_left (List.sublist_cons_self i l₂) l₁).subset

theorem Dlists.exec (hd : Dlists p s) (hlt : ∀ i, p.Live i → i ≠ noIndex) (hlegal : c.Legal p s) :
    Dlists (c.exec p).1 (c.spec s).1 ∧ ∀ i, (c.exec p).1.Live i ↔ p.Live i := by
  cases c with
  | init head =>
    obtain ⟨hlive, hother⟩ := hlegal
    apply And.intro _ fun i => Pool.live_set
    have hother' : ∀ i, i ∉ [head] → (clibDlistInit p head).eltAt i = p.eltAt i := fun i hi =>
      Pool.eltAt_set_ne fun he => hi (he ▸ List.mem_singleton_self head)
    apply hd.replace (isDlist_init hlive) _ (fun i => Pool.live_set) hother'
    · intro head' l' hs hne i hi
      have hi' : i ∉ [head] := fun hm => hother head' l' hs hne (List.mem_singleton.mp hm ▸ hi)
      exact ⟨hi', hi'⟩
    · intro i hi
      rw [List.mem_singleton.mp hi]
      exact Pool.live_set.mpr hlive
  | addtail head n =>
    obtain ⟨⟨l, hs⟩, hn, hfree⟩ := hlegal
    have hlive : ∀ i ∈ head :: n :: l, p.Live i := by
      intro i hi
      rw [List.mem_cons, List.mem_cons, or_left_comm] at hi
      exact hi.elim (fun he => he ▸ hn) fun hm => hd.live head l hs i (List.mem_cons.mpr hm)
    obtain ⟨h, hrel⟩ := (hd.isDlist head l hs).addtail hlive hlt (hfree head l hs)
    apply And.intro _ hrel.live
    have hspec : ((DlistCall.addtail head n).spec s).1 = update s head (some (l ++ [n])) := by
      rw [DlistCall.spec, hs, Option.map_some]
    rw [hspec]
    exact hd.grow hs hn hfree h (List.append_subset.mpr ⟨List.subset_cons_self n l, by simp⟩) hrel
  | addhead head n =>
    obtain ⟨⟨l, hs⟩, hn, hfree⟩ := hlegal
    have hlive : ∀ i ∈ head :: n :: l, p.Live i := by
      intro i hi
      rw [List.mem_cons, List.mem_cons, or_left_comm] at hi
      exact hi.elim (fun he => he ▸ hn) fun hm => hd.live head l hs i (List.mem_cons.mpr hm)
    obtain ⟨h, hrel⟩ := (hd.isDlist head l hs).addhead hlive hlt (hfree head l hs)
    apply And.intro _ hrel.live
    have hspec : ((DlistCall.addhead head n).spec s).1 = update s head (some (n :: l)) := by
      rw [DlistCall.spec, hs, Option.map_some]
    rw [hspec]
    exact hd.grow hs hn hfree h (List.Subset.refl _) hrel
  | remove i =>
    obtain ⟨head, l, hs, hi⟩ := hlegal
    obtain ⟨l₁, l₂, rfl⟩ := List.append_of_mem hi
    obtain ⟨h, hrel⟩ := hd.remove hs
    rw [hd.spec_remove hs]
    exact ⟨h, hrel.live⟩
  | removeHead head =>
    obtain ⟨l, hs⟩ := hlegal
    have hspec : ((DlistCall.removeHead head).spec s).1 = update s head (some l.tail) := by
      rw [DlistCall.spec, hs, Option.map_some]
    rw [hspec]
    cases l with
    | nil =>
      have hrun : (DlistCall.removeHead head).exec p = (p, none) := (hd.isDlist head [] hs).removeHead_nil
      rw [hrun, List.tail_nil, ← hs, update_eq_self]
      exact ⟨hd, fun i => Iff.rfl⟩
    | cons x l =>
      have hx : x ≠ noIndex := hlt x (hd.live head _ hs x (by simp))
      have hrun : (DlistCall.removeHead head).exec p = (clibDlistRemove p x, some x) :=
        (hd.isDlist head _ hs).removeHead hx
      have hs' : s head = some ([] ++ x :: l) := hs
      obtain ⟨h, hrel⟩ := hd.remove hs'
      rw [hrun]
      exact ⟨h, hrel.live⟩
  | removeTail head =>
    obtain ⟨l, hs⟩ := hlegal
    have hspec : ((DlistCall.removeTail head).spec s).1 = update s head (some l.dropLast) := by
      rw [DlistCall.spec, hs, Option.map_some]
    rw [hspec]
    obtain rfl | ⟨l, x, rfl⟩ := List.eq_nil_or_concat l
    · cases hd.isDlist head [] hs with
      | inl h =>
        have hrun : (DlistCall.removeTail head).exec p = (p, none) := removeTail_unlinked h.2
        rw [hrun, List.dropLast_nil, ← hs, update_eq_self]
        exact ⟨hd, fun i => Iff.rfl⟩
      | inr h =>
        have hlive : p.Live head := hd.live head [] hs head List.mem_cons_self
        obtain ⟨_, h', hrel⟩ := removeTail_linked h hlive (hlt head hlive)
        exact ⟨hd.shrink hs h' (List.Subset.refl []) hrel, hrel.live⟩
    · rw [List.concat_eq_append] at hs ⊢
      have hx : x ≠ noIndex := hlt x (hd.live head _ hs x (by simp))
      have hrun : (DlistCall.removeTail head).exec p = (clibDlistRemove p x, some x) :=
        (hd.isDlist head _ hs).removeTail hx
      obtain ⟨h, hrel⟩ := hd.remove hs
      rw [hrun, List.dropLast_concat]
      rw [List.append_nil] at h
      exact ⟨h, hrel.live⟩

/-- Only the last removal goes wrong: the head of a list that has been emptied is taken for an element. -/
theorem Dlists.returns_iff (hd : Dlists p s) (hlt : ∀ i, p.Live i → i ≠ noIndex) (hlegal : c.Legal p s) :
    (c.exec p).2 = (c.spec s).2 ↔ c.Avoids p := by
  cases c with
  | init head => exact iff_of_true rfl trivial
  | addtail head n => exact iff_of_true rfl trivial
  | addhead head n => exact iff_of_true rfl trivial
  | remove i => exact iff_of_true rfl trivial
  | removeHead head =>
    apply iff_of_true _ trivial
    obtain ⟨l, hs⟩ := hlegal
    have hspec : ((DlistCall.removeHead head).spec s).2 = l.head? := by
      rw [DlistCall.spec, hs, Option.bind_some]
    rw [hspec]
    cases l with
    | nil => exact congrArg Prod.snd (hd.isDlist head [] hs).removeHead_nil
    | cons x l =>
      have hx : x ≠ noIndex := hlt x (hd.live head _ hs x (by simp))
      exact congrArg Prod.snd ((hd.isDlist head _ hs).removeHead hx)
  | removeTail head =>
    obtain ⟨l, hs⟩ := hlegal
    have hspec : ((DlistCall.removeTail head).spec s).2 = l.getLast? := by
      rw [DlistCall.spec, hs, Option.bind_some]
    have hhead : p.Live head := hd.live head l hs head List.mem_cons_self
    rw [hspec]
    obtain rfl | ⟨l, x, rfl⟩ := List.eq_nil_or_concat l
    · cases hd.isDlist head [] hs with
      | inl h =>
        apply iff_of_true (congrArg Prod.snd (removeTail_unlinked h.2))
        intro he
        exact hlt head hhead (he.symm.trans h.2.2)
      | inr h =>
        have hret := (removeTail_linked h hhead (hlt head hhead)).1
        apply iff_of_false
        · intro he
          exact absurd (hret.symm.trans he) (by simp)
        · exact fun hne => hne h.seg.2
    · rw [List.concat_eq_append] at hs ⊢
      have hx : x ≠ noIndex := hlt x (hd.live head _ hs x (by simp))
      have hdl := hd.isDlist head _ hs
      have hring : (dlinks p).IsRing head (l ++ [x]) := by
        refine hdl.resolve_left fun he => ?_
        exact absurd he.1 (by simp)
      rw [List.getLast?_concat]
      apply iff_of_true (congrArg Prod.snd (hdl.removeTail hx))
      intro he
      have hprev : (p.eltAt head).prev = x := hring.seg.split.2.2
      have hmem : head ∈ l ++ [x] := by
        rw [← he, hprev]
        exact List.mem_append_right l (List.mem_singleton_self x)
      exact hdl.head_notMem hmem

theorem Dlists.spec_noHead (hd : Dlists p s) (hlegal : c.Legal p s) (hret : (c.spec s).2 = some i) :
    (c.spec s).1 i = none := by
  cases c with
  | init head => exact absurd hret (by simp [DlistCall.spec])
  | addtail head n => exact absurd hret (by simp [DlistCall.spec])
  | addhead head n => exact absurd hret (by simp [DlistCall.spec])
  | remove i => exact absurd hret (by simp [DlistCall.spec])
  | removeHead head =>
    obtain ⟨l, hs⟩ := hlegal
    rw [DlistCall.spec, hs] at hret
    have hi : i ∈ l := List.mem_of_mem_head? hret
    have hne : i ≠ head := fun he => (hd.isDlist head l hs).head_notMem (he ▸ hi)
    exact (update_of_ne hne _ _).trans (hd.not_head hs hi)
  | removeTail head =>
    obtain ⟨l, hs⟩ := hlegal
    rw [DlistCall.spec, hs] at hret
    have hi : i ∈ l := List.mem_of_getLast? hret
    have hne : i ≠ head := fun he => (hd.isDlist head l hs).head_notMem (he ▸ hi)
    exact (update_of_ne hne _ _).trans (hd.not_head hs hi)

theorem Dlists.refines_iff (hd : Dlists p s) (hlt : ∀ i, p.Live i → i ≠ noIndex) (hlegal : c.Legal p s) :
    c.Refines p s ↔ c.Avoids p := by
  obtain ⟨hnext, hlive⟩ := hd.exec hlt hlegal
  rw [← hd.returns_iff hlt hlegal]
  constructor
  · exact fun h => h.returns
  · intro hret
    refine ⟨hret, ?_, ?_⟩
    · intro i hi
      exact hd.spec_noHead hlegal (hret.symm.trans hi)
    · intro head l hs
      exact hnext.reads (fun i hi => hlt i ((hlive i).mp hi)) hs

theorem Dlists.run_iff (hd : Dlists p s) (hlt : ∀ i, p.Live i → i ≠ noIndex)
    (hlegal : DlistRun (fun p s c => c.Legal p s) p s cs) :
    DlistRun (fun p s c => c.Refines p s) p s cs ↔ DlistRun (fun p _ c => c.Avoids p) p s cs := by
  induction cs generalizing p s with
  | nil => exact Iff.rfl
  | cons c cs ih =>
    obtain ⟨hlegal, hrest⟩ := hlegal
    obtain ⟨hnext, hlive⟩ := hd.exec hlt hlegal
    exact and_congr (hd.refines_iff hlt hlegal) (ih hnext (fun i hi => hlt i ((hlive i).mp hi)) hrest)

/-- From a pool without lists, with an index for every element. -/
theorem clib_dlist_refines (p : Pool DlistElt) (hsize : p.elts.length ≤ noIndex)
    (hlegal : DlistRun (fun p s c => c.Legal p s) p (fun _ => none) cs) :
    DlistRun (fun p s c => c.Refines p s) p (fun _ => none) cs ↔
      DlistRun (fun p _ c => c.Avoids p) p (fun _ => none) cs :=
  (dlists_init p).run_iff (fun _ hi => Nat.ne_of_lt (Nat.lt_of_lt_of_le hi.1 hsize)) hlegal

def twoElts : Pool DlistElt := .ofElts [⟨0, 0, 0⟩, ⟨0, 0, 7⟩]

theorem twoElts_legal (hc : c = .removeHead 0 ∨ c = .removeTail 0) :
    DlistRun (fun p s c => c.Legal p s) twoElts (fun _ => none) [.init 0, .addtail 0 1, .remove 1, c] := by
  refine ⟨⟨by decide, ?_⟩, ⟨⟨[], rfl⟩, by decide, ?_⟩, ⟨0, [1], rfl, by decide⟩, ?_, trivial⟩
  · intro other l h
    exact absurd h (by simp)
  · intro head l h
    by_cases he : head = 0
    · rw [he] at h ⊢
      have hl : l = [] := (Option.some.inj h).symm
      simp [hl]
    · have hnone : ((DlistCall.init 0).spec fun _ => none).1 head = none := by
        simp only [DlistCall.spec, update_of_ne he]
      rw [hnone] at h
      exact absurd h (by simp)
  · obtain rfl | rfl := hc
    · exact ⟨[], rfl⟩
    · exact ⟨[], rfl⟩

theorem clib_dlist_refines_two :
    DlistRun (fun p s c => c.Refines p s) twoElts (fun _ => none) [.init 0, .addtail 0 1, .remove 1, .removeHead 0] :=
  (clib_dlist_refines twoElts (by decide) (twoElts_legal (.inl rfl))).mpr ⟨trivial, trivial, trivial, trivial, trivial⟩

/-- After its element has been removed, the head is removed and returned. -/
theorem clib_dlist_refines_fails :
    DlistRun (fun p s c => c.Legal p s) twoElts (fun _ => none) [.init 0, .addtail 0 1, .remove 1, .removeTail 0] ∧
      ¬ DlistRun (fun p s c => c.Refines p s) twoElts (fun _ => none)
          [.init 0, .addtail 0 1, .remove 1, .removeTail 0] := by
  apply And.intro (twoElts_legal (.inr rfl))
  intro ⟨_, _, _, hlast, _⟩
  exact absurd hlast.returns (by decide)

end Vpp.Infra
