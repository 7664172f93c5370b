import Vpp.Mtrie.Fib
import Mathlib.Algebra.BigOperators.Ring.Finset

namespace Vpp.Mtrie
open Vpp.Lib

/-- A leaf of the ply is not empty. -/
def HasLeaf (p : Pool Ply) (j : Nat) : Prop := ∃ i, i < 256 ∧ (p.eltAt j).leaves i ≠ leafEmpty

/-- Leaf `i` of ply `q` refers to ply `j`. -/
def Refers (p : Pool Ply) (q i j : Nat) : Prop :=
  i < 256 ∧ leafIsTerminal ((p.eltAt q).leaves i) = false ∧
    leafGetNextPlyIndex ((p.eltAt q).leaves i) = j

/-- A path of `n` plies from one ply to another. -/
inductive Path (p : Pool Ply) : Nat → Nat → Nat → Prop
  | here : Path p idx 1 idx
  | next : Refers p idx i q → Path p q n j → Path p idx (n + 1) j

/-- Ply 0 is the root, and every other ply in use hangs on one leaf. -/
structure Bookkeeping (p : Pool Ply) : Prop where
  count : ∀ j, p.Live j → (p.eltAt j).nNonEmptyLeafs =
    ((Finset.range 256).filter fun i => (p.eltAt j).leaves i ≠ leafEmpty).card
  root : p.Live 0 ∧ ∀ q i, p.Live q → ¬ Refers p q i 0
  referenced : ∀ j, p.Live j → j ≠ 0 → ∃! r : Nat × Nat, p.Live r.1 ∧ Refers p r.1 r.2 j
  live : ∀ q i j, p.Live q → Refers p q i j → p.Live j
  depth : ∀ n j, Path p 0 n j → n ≤ 4
  reached : ∀ j, p.Live j → ∃ n, Path p 0 n j
  hasLeaf : ∀ j, p.Live j → j ≠ 0 → HasLeaf p j

variable {p p' p'' : Pool Ply} {S : Set Nat} {C : Nat → Set Nat}

theorem Tree.mem_self (ht : Tree p d idx S) : idx ∈ S := by
  cases d with
  | zero => exact ht.elim
  | succ d =>
    obtain ⟨C, hn⟩ := ht
    exact (hn.mem idx).mpr (.inl rfl)

theorem Node.child (hn : Node p d (Tree p d) idx S C) (hi : i < 256) (hj : j ∈ C i) :
    leafIsTerminal ((p.eltAt idx).leaves i) = false ∧
      Tree p d (leafGetNextPlyIndex ((p.eltAt idx).leaves i)) (C i) := by
  by_cases hl : leafIsTerminal ((p.eltAt idx).leaves i) = true
  · rw [(hn.terminal i hi hl).1] at hj
    exact hj.elim
  · have hl' : leafIsTerminal ((p.eltAt idx).leaves i) = false := by simpa using hl
    exact ⟨hl', (hn.next i hi hl').2⟩

theorem Node.refers_mem (hn : Node p d (Tree p d) idx S C) (hr : Refers p idx i j) :
    j ∈ C i ∧ Tree p d j (C i) := by
  obtain ⟨hi, hl, rfl⟩ := hr
  have ht := (hn.next i hi hl).2
  exact ⟨ht.mem_self, ht⟩

theorem Tree.count (ht : Tree p d idx S) (hj : j ∈ S) :
    (p.eltAt j).nNonEmptyLeafs = nonEmptyLeaves (p.eltAt j).leaves := by
  induction d generalizing idx S with
  | zero => exact ht.elim
  | succ d ih =>
    obtain ⟨C, hn⟩ := ht
    rcases (hn.mem j).mp hj with rfl | ⟨i, hi, hj⟩
    · exact hn.count
    · exact ih (hn.child hi hj).2 hj

theorem Tree.refers_mem (ht : Tree p d idx S) (hq : q ∈ S) (hr : Refers p q i j) : j ∈ S := by
  induction d generalizing idx S with
  | zero => exact ht.elim
  | succ d ih =>
    obtain ⟨C, hn⟩ := ht
    rcases (hn.mem q).mp hq with rfl | ⟨m, hm, hq⟩
    · exact (hn.mem j).mpr (.inr ⟨i, hr.1, (hn.refers_mem hr).1⟩)
    · exact (hn.mem j).mpr (.inr ⟨m, hm, ih (hn.child hm hq).2 hq⟩)

theorem Tree.not_refers_root (ht : Tree p d idx S) (hq : q ∈ S) : ¬ Refers p q i idx := by
  intro hr
  cases d with
  | zero => exact ht.elim
  | succ d =>
    obtain ⟨C, hn⟩ := ht
    rcases (hn.mem q).mp hq with rfl | ⟨m, hm, hq⟩
    · exact hn.not_self i hr.1 (hn.refers_mem hr).1
    · exact hn.not_self m hm ((hn.child hm hq).2.refers_mem hq hr)

theorem Tree.referenced (ht : Tree p d idx S) (hj : j ∈ S) (hne : j ≠ idx) :
    ∃ q i, q ∈ S ∧ Refers p q i j := by
  induction d generalizing idx S with
  | zero => exact ht.elim
  | succ d ih =>
    obtain ⟨C, hn⟩ := ht
    rcases (hn.mem j).mp hj with he | ⟨m, hm, hj⟩
    · exact absurd he hne
    · obtain ⟨hl, hsub⟩ := hn.child hm hj
      by_cases he : j = leafGetNextPlyIndex ((p.eltAt idx).leaves m)
      · exact ⟨idx, m, (hn.mem idx).mpr (.inl rfl), hm, hl, he.symm⟩
      · obtain ⟨q, i, hq, hr⟩ := ih hsub hj he
        exact ⟨q, i, (hn.mem q).mpr (.inr ⟨m, hm, hq⟩), hr⟩

/-- Two leaves of a tree that refer to one ply are the same leaf. -/
theorem Tree.refers_unique (ht : Tree p d idx S) (hq : q ∈ S) (hq' : q' ∈ S) (hr : Refers p q i j)
    (hr' : Refers p q' i' j) : q = q' ∧ i = i' := by
  induction d generalizing idx S with
  | zero => exact ht.elim
  | succ d ih =>
    obtain ⟨C, hn⟩ := ht
    -- a leaf of the root and a leaf below it cannot refer to the same ply
    have hmix {q₁ i₁ m i₂} (hm : m < 256) (hq₁ : q₁ ∈ C m) (h₁ : Refers p q₁ i₁ j)
        (h₂ : Refers p idx i₂ j) : False := by
      obtain ⟨hj₂, ht₂⟩ := hn.refers_mem h₂
      have hj₁ := (hn.child hm hq₁).2.refers_mem hq₁ h₁
      have hmi := hn.disjoint m i₂ j hm h₂.1 hj₁ hj₂
      exact ht₂.not_refers_root (hmi ▸ hq₁) h₁
    rcases (hn.mem q).mp hq with rfl | ⟨m, hm, hq⟩
    · rcases (hn.mem q').mp hq' with rfl | ⟨m', hm', hq'⟩
      · exact ⟨rfl, hn.disjoint i i' j hr.1 hr'.1 (hn.refers_mem hr).1 (hn.refers_mem hr').1⟩
      · exact (hmix hm' hq' hr' hr).elim
    · rcases (hn.mem q').mp hq' with rfl | ⟨m', hm', hq'⟩
      · exact (hmix hm hq hr hr').elim
      · have hsub := (hn.child hm hq).2
        have hj := hsub.refers_mem hq hr
        have hj' := (hn.child hm' hq').2.refers_mem hq' hr'
        have he := hn.disjoint m m' j hm hm' hj hj'
        exact ih hsub hq (he ▸ hq')

theorem Tree.path_le (ht : Tree p d idx S) (hp : Path p idx n j) : n ≤ d := by
  induction hp generalizing d S with
  | here =>
    cases d with
    | zero => exact ht.elim
    | succ d => exact Nat.succ_le_succ (Nat.zero_le d)
  | next hr _ ih =>
    cases d with
    | zero => exact ht.elim
    | succ d =>
      obtain ⟨C, hn⟩ := ht
      exact Nat.succ_le_succ (ih (hn.refers_mem hr).2)

theorem Tree.path (ht : Tree p d idx S) (hj : j ∈ S) : ∃ n, Path p idx n j := by
  induction d generalizing idx S with
  | zero => exact ht.elim
  | succ d ih =>
    obtain ⟨C, hn⟩ := ht
    rcases (hn.mem j).mp hj with rfl | ⟨i, hi, hj⟩
    · exact ⟨1, .here⟩
    · obtain ⟨hl, hsub⟩ := hn.child hi hj
      obtain ⟨n, hp⟩ := ih hsub hj
      exact ⟨n + 1, .next ⟨hi, hl, rfl⟩ hp⟩

theorem nonEmptyLeaves_eq_card (leaves : Nat → Leaf) :
    nonEmptyLeaves leaves = ((Finset.range 256).filter fun i => leaves i ≠ leafEmpty).card := by
  rw [nonEmptyLeaves, Finset.card_filter, Nat.cast_sum]
  apply Finset.sum_congr rfl
  intro i _
  by_cases h : leaves i = leafEmpty
  · simp [h]
  · simp [h]

theorem Tree.count_eq_zero_iff (ht : Tree p d idx S) (hj : j ∈ S) :
    (p.eltAt j).nNonEmptyLeafs = 0 ↔ ¬ HasLeaf p j := by
  rw [ht.count hj]
  constructor
  · rintro hz ⟨i, hi, hne⟩
    exact hne (eq_empty_of_nonEmptyLeaves hz hi)
  · intro hno
    apply Finset.sum_eq_zero
    intro i hi
    apply if_pos
    by_contra hne
    exact hno ⟨i, Finset.mem_range.mp hi, hne⟩

/-- The plies in use are one tree, and all but its root have a leaf. -/
structure Kept (p : Pool Ply) : Prop where
  tree : ∃ S, Tree p 4 0 S ∧ ∀ j, p.Live j ↔ j ∈ S
  hasLeaf : ∀ j, p.Live j → j ≠ 0 → HasLeaf p j

theorem Kept.bookkeeping (h : Kept p) : Bookkeeping p := by
  obtain ⟨S, ht, hS⟩ := h.tree
  constructor
  case count =>
    intro j hj
    rw [ht.count ((hS j).mp hj), nonEmptyLeaves_eq_card]
  case root => exact ⟨ht.live ht.mem_self, fun q i hq => ht.not_refers_root ((hS q).mp hq)⟩
  case referenced =>
    intro j hj hne
    obtain ⟨q, i, hq, hr⟩ := ht.referenced ((hS j).mp hj) hne
    refine ⟨(q, i), ⟨(hS q).mpr hq, hr⟩, ?_⟩
    rintro ⟨q', i'⟩ ⟨hq', hr'⟩
    obtain ⟨rfl, rfl⟩ := ht.refers_unique hq ((hS q').mp hq') hr hr'
    rfl
  case live => exact fun q i j hq hr => (hS j).mpr (ht.refers_mem ((hS q).mp hq) hr)
  case depth => exact fun n j hp => ht.path_le hp
  case reached => exact fun j hj => ht.path ((hS j).mp hj)
  case hasLeaf => exact h.hasLeaf

end Vpp.Mtrie
