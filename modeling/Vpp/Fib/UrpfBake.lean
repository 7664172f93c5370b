import Mathlib.Data.List.Count
import Mathlib.Data.List.Sort
import Vpp.Fib.UrpfList

namespace Vpp.Fib
open Vpp.Lib List

def LastOnce (l : List Nat) : Prop := ∀ m ∈ l, (∀ y ∈ l, y ≤ m) → l.count m = 1

/-- Every element but the largest is there twice at least. -/
def AllTwice (l : List Nat) : Prop := ∀ y ∈ l, ∀ z ∈ l, y < z → 1 < l.count y

/-- With an element that is repeated, every larger one but the largest is repeated as well. -/
def RepeatsBehind (l : List Nat) : Prop :=
  ∀ x ∈ l, ∀ y ∈ l, ∀ z ∈ l, x < y → y < z → 1 < l.count x → 1 < l.count y

theorem lastOnce_iff {p l : List Nat} (hsub : l ⊆ p) (hcount : ∀ m ∈ l, p.count m = l.count m)
    (hrest : ∀ m ∈ p, m ∈ l ∨ ∃ a ∈ l, m < a) : LastOnce p ↔ LastOnce l := by
  constructor
  · intro hlast m hm htop
    rw [← hcount m hm]
    apply hlast m (hsub hm)
    intro y hy
    obtain hy | ⟨a, ha, hlt⟩ := hrest y hy
    · exact htop y hy
    · exact Nat.le_trans (Nat.le_of_lt hlt) (htop a ha)
  · intro hlast m hm htop
    obtain hm | ⟨a, ha, hlt⟩ := hrest m hm
    · rw [hcount m hm]
      exact hlast m hm fun y hy => htop y (hsub hy)
    · exact absurd (htop a (hsub ha)) (Nat.not_le_of_lt hlt)

theorem count_above {x m : Nat} (h : x < m) (l : List Nat) : (x :: l).count m = l.count m :=
  count_cons_of_ne (Nat.ne_of_lt h)

theorem lastOnce_cons (h : ∀ y ∈ l, x < y) (hl : l ≠ []) : LastOnce (x :: l) ↔ LastOnce l := by
  obtain ⟨a, ha⟩ := exists_mem_of_ne_nil l hl
  apply lastOnce_iff (subset_cons_self x l) fun m hm => count_above (h m hm) l
  intro m hm
  cases mem_cons.mp hm with
  | inl heq => exact .inr ⟨a, ha, heq ▸ h a ha⟩
  | inr hm => exact .inl hm

theorem lastOnce_twice (h : ∀ y ∈ l, x < y) (hl : l ≠ []) : LastOnce (x :: x :: l) ↔ LastOnce l := by
  obtain ⟨a, ha⟩ := exists_mem_of_ne_nil l hl
  apply lastOnce_iff
  · exact List.Subset.trans (subset_cons_self x l) (subset_cons_self x (x :: l))
  · intro m hm
    rw [count_above (h m hm), count_above (h m hm)]
  · intro m hm
    cases mem_cons.mp hm with
    | inl heq => exact .inr ⟨a, ha, heq ▸ h a ha⟩
    | inr hm =>
      cases mem_cons.mp hm with
      | inl heq => exact .inr ⟨a, ha, heq ▸ h a ha⟩
      | inr hm => exact .inl hm

theorem lastOnce_thrice : LastOnce (x :: x :: x :: l) ↔ LastOnce (x :: x :: l) := by
  unfold LastOnce
  grind
theorem repeatsBehind_cons (h : ∀ y ∈ l, x < y) : RepeatsBehind (x :: l) ↔ RepeatsBehind l := by
  unfold RepeatsBehind
  grind [count_eq_zero]
theorem repeatsBehind_twice (h : ∀ y ∈ l, x ≤ y) : RepeatsBehind (x :: x :: l) ↔ AllTwice (x :: x :: l) := by
  have hx : 1 < (x :: x :: l).count x := by
    rw [count_cons_self, count_cons_self]
    omega
  constructor
  · intro hr y hy z hz hyz
    by_cases heq : y = x
    · exact heq ▸ hx
    · have hxy : x < y := by
        have hle : x ≤ y := by
          simp only [mem_cons] at hy
          obtain rfl | rfl | hy := hy
          · exact Nat.le_refl _
          · exact Nat.le_refl _
          · exact h y hy
        omega
      exact hr x mem_cons_self y hy z hz hxy hyz hx
  · intro ht x' _ y hy z hz _ hyz _
    exact ht y hy z hz hyz
theorem allTwice_twice (h : ∀ y ∈ l, x < y) : AllTwice (x :: x :: l) ↔ AllTwice l := by
  unfold AllTwice
  grind
theorem allTwice_thrice : AllTwice (x :: x :: x :: l) ↔ AllTwice (x :: x :: l) := by
  unfold AllTwice
  grind
theorem not_allTwice (h : ∀ y ∈ l, x < y) (hl : l ≠ []) : ¬ AllTwice (x :: l) := by
  obtain ⟨a, ha⟩ := exists_mem_of_ne_nil l hl
  intro ht
  have hx := ht x mem_cons_self a (mem_cons_of_mem x ha) (h a ha)
  have hnot : x ∉ l := fun hm => Nat.lt_irrefl x (h x hm)
  rw [count_cons_self, count_eq_zero.mpr hnot] at hx
  exact absurd hx (Nat.lt_irrefl 1)

theorem lastOnce_single (x : Nat) : LastOnce [x] := by
  intro m hm _
  rw [mem_singleton.mp hm, count_singleton_self]

theorem not_lastOnce_pair (x : Nat) : ¬ LastOnce [x, x] := by
  intro h
  have hx := h x mem_cons_self (by simp)
  rw [count_cons_self, count_singleton_self] at hx
  cases hx

theorem allTwice_single (x : Nat) : AllTwice [x] := by
  intro y hy z hz hyz
  rw [mem_singleton.mp hy, mem_singleton.mp hz] at hyz
  exact absurd hyz (Nat.lt_irrefl x)

theorem repeatsBehind_single (x : Nat) : RepeatsBehind [x] := by
  intro a _ y hy z hz _ hyz _
  exact allTwice_single x y hy z hz hyz

/-- Squeezing goes by the counts only. -/
theorem squeezes_iff (h : (x :: rest).Pairwise (· ≤ ·)) :
    (∀ gap, Squeezes true gap x rest ↔ LastOnce (x :: x :: rest) ∧ AllTwice (x :: x :: rest)) ∧
      (Squeezes false true x rest ↔ LastOnce (x :: rest) ∧ AllTwice (x :: rest)) ∧
      (Squeezes false false x rest ↔ LastOnce (x :: rest) ∧ RepeatsBehind (x :: rest)) := by
  induction rest generalizing x with
  | nil =>
    refine ⟨fun gap => ?_, ?_, ?_⟩
    · exact iff_of_false Bool.true_eq_false.mp (fun hl => not_lastOnce_pair x hl.1)
    · exact iff_of_true rfl ⟨lastOnce_single x, allTwice_single x⟩
    · exact iff_of_true rfl ⟨lastOnce_single x, repeatsBehind_single x⟩
  | cons y rest ih =>
    obtain ⟨hx, hsort⟩ := pairwise_cons.mp h
    have hyle := (pairwise_cons.mp hsort).1
    obtain heq | hlt := Nat.eq_or_lt_of_le (hx y mem_cons_self)
    · subst heq
      obtain ⟨hdup, -, -⟩ := ih hsort
      refine ⟨fun gap => ?_, ?_, ?_⟩
      · rw [Squeezes, if_pos rfl, hdup, lastOnce_thrice, allTwice_thrice]
      · rw [Squeezes, if_pos rfl, hdup]
      · rw [Squeezes, if_pos rfl, hdup, repeatsBehind_twice hyle]
    · have hne : x ≠ y := Nat.ne_of_lt hlt
      have habove (z : Nat) (hz : z ∈ y :: rest) : x < z := by
        cases mem_cons.mp hz with
        | inl heq => exact heq ▸ hlt
        | inr hz => exact Nat.lt_of_lt_of_le hlt (hyle z hz)
      have hcons := cons_ne_nil y rest
      obtain ⟨-, hgap, hfirst⟩ := ih hsort
      refine ⟨fun gap => ?_, ?_, ?_⟩
      · rw [Squeezes, if_neg hne, if_pos rfl, hgap, lastOnce_twice habove hcons, allTwice_twice habove]
      · rw [Squeezes, if_neg hne, if_neg Bool.false_ne_true]
        exact iff_of_false (fun hs => Bool.true_eq_false.mp hs.1) (fun hl => not_allTwice habove hcons hl.2)
      · rw [Squeezes, if_neg hne, if_neg Bool.false_ne_true, hfirst, lastOnce_cons habove hcons,
          repeatsBehind_cons habove]
        exact and_iff_right rfl

theorem mem_uniqTail (x z : Nat) (rest : List Nat) : z ∈ x :: uniqTail x rest ↔ z ∈ x :: rest := by
  induction rest generalizing x with
  | nil => rfl
  | cons y rest ih =>
    by_cases hy : x = y
    · subst hy
      rw [uniqTail, if_pos rfl, ih]
      simp
    · rw [uniqTail, if_neg hy, mem_cons, ih, mem_cons (l := y :: rest)]

theorem uniqTail_sorted (h : (x :: rest).Pairwise (· ≤ ·)) : (x :: uniqTail x rest).Pairwise (· < ·) := by
  induction rest generalizing x with
  | nil => exact pairwise_singleton _ x
  | cons y rest ih =>
    obtain ⟨hx, hsort⟩ := pairwise_cons.mp h
    by_cases hy : x = y
    · subst hy
      rw [uniqTail, if_pos rfl]
      exact ih hsort
    · rw [uniqTail, if_neg hy]
      have hlt : x < y := Nat.lt_of_le_of_ne (hx y mem_cons_self) hy
      apply pairwise_cons.mpr
      refine ⟨?_, ih hsort⟩
      intro z hz
      cases mem_cons.mp ((mem_uniqTail y z rest).mp hz) with
      | inl heq => exact heq ▸ hlt
      | inr hz => exact Nat.lt_of_lt_of_le hlt ((pairwise_cons.mp hsort).1 z hz)

theorem LastOnce.perm {p l : List Nat} (hp : p.Perm l) (h : LastOnce p) : LastOnce l := by
  intro m hm htop
  rw [← hp.count_eq]
  exact h m (hp.mem_iff.mpr hm) fun y hy => htop y (hp.mem_iff.mp hy)

theorem RepeatsBehind.perm {p l : List Nat} (hp : p.Perm l) (h : RepeatsBehind p) : RepeatsBehind l := by
  intro x hx y hy z hz hxy hyz
  rw [← hp.count_eq, ← hp.count_eq]
  exact h x (hp.mem_iff.mpr hx) y (hp.mem_iff.mpr hy) z (hp.mem_iff.mpr hz) hxy hyz

/-- The bake ends, reads the elements of the vector only, and leaves the same interfaces in strictly rising order. -/
def BakeRight (vecSort : VecSort) (beyond : Nat → Nat) (urpf : FibUrpfList) : Prop :=
  ∃ urpf', (fibUrpfListBake vecSort beyond urpf).value = some urpf' ∧
    (fibUrpfListBake vecSort beyond urpf).Within 0 urpf.furpfItfs.length ∧
    urpf'.furpfItfs.Pairwise (· < ·) ∧ ∀ x, x ∈ urpf'.furpfItfs ↔ x ∈ urpf.furpfItfs

theorem restAt_vecAt (x : Nat) (rest : List Nat) (beyond : Nat → Nat) :
    RestAt (vecAt (x :: rest) beyond) (x :: rest).length 1 rest := by
  refine ⟨Nat.add_comm 1 _, fun k hk => ?_⟩
  have hlt : 1 + k < (x :: rest).length := by
    rw [length_cons]
    omega
  rw [vecAt, getD_eq_getElem _ _ hlt]
  simp only [Nat.add_comm 1 k, getElem_cons_succ]

/-- Whether it goes well is decided by how often the interfaces are there. -/
theorem bakeRight_list (vecSort : VecSort) (beyond : Nat → Nat) (urpf : FibUrpfList) :
    BakeRight vecSort beyond urpf ↔ LastOnce urpf.furpfItfs ∧ RepeatsBehind urpf.furpfItfs := by
  have hperm := vecSort.perm urpf.furpfItfs
  have hsort := vecSort.sorted urpf.furpfItfs
  by_cases hlen : 1 < urpf.furpfItfs.length
  · cases hv : vecSort.sort urpf.furpfItfs with
    | nil =>
      rw [hv] at hperm
      rw [← hperm.length_eq] at hlen
      exact absurd hlen (Nat.not_lt_zero 1)
    | cons x rest =>
      rw [hv] at hperm hsort
      have hat := restAt_vecAt x rest beyond
      have hx : vecAt (x :: rest) beyond 0 = x := rfl
      have hbake : fibUrpfListBake vecSort beyond urpf =
          (uniqLoop (x :: rest).length ((x :: rest).length + 2) (vecAt (x :: rest) beyond) 0 1 >>= fun r =>
            pure (r.map fun r => ⟨firstElts r.1 (r.2 + 1), true⟩)) := by
        rw [fibUrpfListBake, if_pos hlen, hv, hperm.length_eq]
      have hiff : (LastOnce urpf.furpfItfs ∧ RepeatsBehind urpf.furpfItfs) ↔ Squeezes false false x rest := by
        rw [(squeezes_iff hsort).2.2]
        exact ⟨fun h => ⟨h.1.perm hperm.symm, h.2.perm hperm.symm⟩, fun h => ⟨h.1.perm hperm, h.2.perm hperm⟩⟩
      have hfuel : rest.length + 1 < (x :: rest).length + 2 := by
        rw [length_cons]
        omega
      rw [hiff, BakeRight, hbake, ← hperm.length_eq]
      constructor
      · rintro ⟨urpf', hval, hin, hup, -⟩
        by_contra hs
        have hsort' : (vecAt (x :: rest) beyond 0 :: rest).Pairwise (· ≤ ·) := by
          rw [hx]
          exact hsort
        have hs' : ¬ Squeezes false false (vecAt (x :: rest) beyond 0) rest := by
          rw [hx]
          exact hs
        obtain ⟨m', i', hv', hbad⟩ := uniqLoop_not_squeezes hat Nat.zero_lt_one (fun _ => rfl) (by simp) hsort'
          (fun k hk hk' => by omega) hs' hfuel
        obtain ⟨k, hk, hle⟩ := hbad (Reading.within_bind.mp hin).1
        rw [Reading.bind_value, hv'] at hval
        cases hval
        have hk1 : k < (firstElts m' (i' + 1)).length := by
          rw [firstElts, length_map, length_range]
          omega
        have hk2 : k + 1 < (firstElts m' (i' + 1)).length := by
          rw [firstElts, length_map, length_range]
          omega
        have hlt := pairwise_iff_getElem.mp hup k (k + 1) hk1 hk2 (Nat.lt_succ_self k)
        simp only [firstElts, getElem_map, getElem_range] at hlt
        omega
      · intro hs
        have hs' : Squeezes false false (vecAt (x :: rest) beyond 0) rest := by
          rw [hx]
          exact hs
        obtain ⟨m', i', hv', hin, hfirst⟩ := uniqLoop_squeezes hat Nat.zero_lt_one (fun _ => rfl) hs' hfuel
        have hlist : firstElts m' (i' + 1) = x :: uniqTail x rest := hfirst
        refine ⟨⟨firstElts m' (i' + 1), true⟩, ?_, ?_, ?_, ?_⟩
        · rw [Reading.bind_value, hv']
          rfl
        · exact Reading.within_bind.mpr ⟨hin, Reading.within_pure _ _ _⟩
        · rw [hlist]
          exact uniqTail_sorted hsort
        · intro z
          rw [hlist, mem_uniqTail, hperm.mem_iff]
  · have hbake : fibUrpfListBake vecSort beyond urpf = pure (some { urpf with baked := true }) := by
      rw [fibUrpfListBake, if_neg hlen]
    have hshort : urpf.furpfItfs = [] ∨ ∃ x, urpf.furpfItfs = [x] := by
      cases hl : urpf.furpfItfs with
      | nil => exact .inl rfl
      | cons x rest =>
        rw [hl, length_cons] at hlen
        have hnil : rest = [] := length_eq_zero_iff.mp (by omega)
        exact .inr ⟨x, by rw [hnil]⟩
    refine iff_of_true ?_ ?_
    · rw [BakeRight, hbake]
      refine ⟨_, rfl, Reading.within_pure _ _ _, ?_, fun _ => Iff.rfl⟩
      obtain hl | ⟨x, hl⟩ := hshort
      · rw [hl]
        exact List.Pairwise.nil
      · rw [hl]
        exact pairwise_singleton _ x
    · obtain hl | ⟨x, hl⟩ := hshort
      · rw [hl]
        exact ⟨fun m hm => absurd hm not_mem_nil, fun a ha => absurd ha not_mem_nil⟩
      · rw [hl]
        exact ⟨lastOnce_single x, repeatsBehind_single x⟩

inductive UrpfStep where
  | append (swIfIndex : Nat)
  | combine (urpf2 : FibUrpfList)
  deriving DecidableEq, Repr

def UrpfStep.exec (urpf : FibUrpfList) : UrpfStep → FibUrpfList
  | append swIfIndex => fibUrpfListAppend urpf swIfIndex
  | combine urpf2 => fibUrpfListCombine urpf urpf2

def UrpfStep.itfs : UrpfStep → List Nat
  | append swIfIndex => [swIfIndex]
  | combine urpf2 => urpf2.furpfItfs

def gather (steps : List UrpfStep) : FibUrpfList := steps.foldl UrpfStep.exec ⟨[], false⟩

theorem gather_itfs (steps : List UrpfStep) : (gather steps).furpfItfs = steps.flatMap UrpfStep.itfs := by
  have hall (urpf : FibUrpfList) : (steps.foldl UrpfStep.exec urpf).furpfItfs =
      urpf.furpfItfs ++ steps.flatMap UrpfStep.itfs := by
    induction steps generalizing urpf with
    | nil => exact (append_nil _).symm
    | cons step steps ih =>
      rw [foldl_cons, ih, flatMap_cons, ← List.append_assoc]
      cases step with
      | append swIfIndex => rfl
      | combine urpf2 => rfl
  exact hall ⟨[], false⟩

/-- A different neighbour is not copied down behind a gap, so it is lost; a run of copies at the end is searched beyond
the vector. -/
theorem bakeRight_gather_iff (vecSort : VecSort) (beyond : Nat → Nat) (steps : List UrpfStep) :
    BakeRight vecSort beyond (gather steps) ↔
      LastOnce (steps.flatMap UrpfStep.itfs) ∧ RepeatsBehind (steps.flatMap UrpfStep.itfs) := by
  rw [bakeRight_list, gather_itfs]

def insertSort (v : List Nat) : List Nat := v.insertionSort (· ≤ ·)

theorem insertSort_perm (v : List Nat) : (insertSort v).Perm v := perm_insertionSort _ v

theorem insertSort_sorted (v : List Nat) : (insertSort v).Pairwise (· ≤ ·) := pairwise_insertionSort _ v

def plainSort : VecSort := ⟨insertSort, insertSort_perm, insertSort_sorted⟩

/-- Of the interfaces 1, 1, 2 and 3 the last is lost. -/
theorem bake_loses : ¬ BakeRight plainSort (fun _ => 0) (gather [.append 1, .append 1, .append 2, .append 3]) := by
  rw [bakeRight_list]
  rintro ⟨-, hr⟩
  exact absurd (hr 1 (by decide) 2 (by decide) 3 (by decide) (by decide) (by decide) (by decide)) (by decide)

end Vpp.Fib
