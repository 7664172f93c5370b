import Mathlib.Data.Set.Basic

namespace Vpp.Lib
open Function

/-- Blocks at non-zero offsets, with a free list for each size class. -/
structure SlabHeap (α : Type u) where
  block : Nat → List α
  next : Nat
  freelists : Nat → List Nat

namespace SlabHeap

def empty : SlabHeap α := ⟨fun _ => [], 1, fun _ => []⟩

/-- A block of class `c`, new with `size` cells or from the free list, filled with `fill`. -/
def alloc (h : SlabHeap α) (c size : Nat) (fill : α) : SlabHeap α × Nat :=
  match h.freelists c with
  | [] =>
    ({ h with block := update h.block h.next (List.replicate size fill), next := h.next + 1 },
      h.next)
  | o :: rest =>
    ({ h with
      block := update h.block o ((h.block o).map fun _ => fill)
      freelists := update h.freelists c rest }, o)

def free (h : SlabHeap α) (c o : Nat) : SlabHeap α :=
  { h with freelists := update h.freelists c (o :: h.freelists c) }

def write (h : SlabHeap α) (o : Nat) (b : List α) : SlabHeap α :=
  { h with block := update h.block o b }

/-- The blocks at the offsets of `s` are in use; the free blocks of class `c` have `size c` cells. -/
structure Owns (h : SlabHeap α) (size : Nat → Nat) (s : Set Nat) : Prop where
  next_pos : 0 < h.next
  lt_next : ∀ o ∈ s, 0 < o ∧ o < h.next
  not_free : ∀ o ∈ s, ∀ c, o ∉ h.freelists c
  free_lt : ∀ c, ∀ o ∈ h.freelists c, 0 < o ∧ o < h.next
  free_size : ∀ c, ∀ o ∈ h.freelists c, (h.block o).length = size c
  free_nodup : ∀ c, (h.freelists c).Nodup
  free_class : ∀ c c' o, o ∈ h.freelists c → o ∈ h.freelists c' → c = c'

variable {h : SlabHeap α} {size : Nat → Nat} {s : Set Nat}

theorem Owns.empty : (SlabHeap.empty : SlabHeap α).Owns size ∅ := by
  constructor <;> simp [SlabHeap.empty]

theorem Owns.mono (ho : h.Owns size s) (hs : s' ⊆ s) : h.Owns size s' :=
  { ho with
    lt_next := fun o hm => ho.lt_next o (hs hm)
    not_free := fun o hm => ho.not_free o (hs hm) }

theorem Owns.write (ho : h.Owns size s) (hm : o ∈ s) (b : List α) : (h.write o b).Owns size s := by
  refine { ho with free_size := ?_ }
  intro c o' hf
  have hne : o' ≠ o := by
    rintro rfl
    exact ho.not_free o' hm c hf
  simp only [SlabHeap.write, update_of_ne hne]
  exact ho.free_size c o' hf

theorem write_self (h : SlabHeap α) (o : Nat) (b : List α) : (h.write o b).block o = b := by
  simp [SlabHeap.write]

theorem write_ne (h : SlabHeap α) (b : List α) (hne : o' ≠ o) : (h.write o b).block o' = h.block o' := by
  simp [SlabHeap.write, hne]

/-- What an allocation yields: a block of the right size that was not in use. -/
structure Fresh (h : SlabHeap α) (size : Nat → Nat) (s : Set Nat) (h' : SlabHeap α) (o : Nat)
    (b : List α) : Prop where
  not_mem : o ∉ s
  owns : h'.Owns size (insert o s)
  block_self : h'.block o = b
  block_eq : ∀ o' ∈ s, h'.block o' = h.block o'

theorem Owns.alloc (ho : h.Owns size s) (c : Nat) (fill : α) :
    Fresh h size s (h.alloc c (size c) fill).1 (h.alloc c (size c) fill).2
      (List.replicate (size c) fill) := by
  unfold SlabHeap.alloc
  cases hf : h.freelists c with
  | nil =>
    have hnew : h.next ∉ s := fun hm => Nat.lt_irrefl _ (ho.lt_next _ hm).2
    refine ⟨hnew, ?_, update_self .., ?_⟩
    · constructor
      case next_pos => exact Nat.succ_pos _
      case lt_next =>
        rintro o (rfl | hm)
        · exact ⟨ho.next_pos, Nat.lt_succ_self _⟩
        · exact ⟨(ho.lt_next o hm).1, Nat.lt_succ_of_lt (ho.lt_next o hm).2⟩
      case not_free =>
        rintro o (rfl | hm) c' hm'
        · exact Nat.lt_irrefl _ (ho.free_lt c' _ hm').2
        · exact ho.not_free o hm c' hm'
      case free_lt =>
        intro c' o hm
        exact ⟨(ho.free_lt c' o hm).1, Nat.lt_succ_of_lt (ho.free_lt c' o hm).2⟩
      case free_size =>
        intro c' o hm
        have hne : o ≠ h.next := Nat.ne_of_lt (ho.free_lt c' o hm).2
        simp only [update_of_ne hne]
        exact ho.free_size c' o hm
      case free_nodup => exact ho.free_nodup
      case free_class => exact ho.free_class
    · intro o hm
      have hne : o ≠ h.next := fun he => hnew (he ▸ hm)
      exact update_of_ne hne _ _
  | cons o rest =>
    have hmem : o ∈ h.freelists c := hf ▸ .head _
    have hnd : o ∉ rest ∧ rest.Nodup := List.nodup_cons.mp (hf ▸ ho.free_nodup c)
    have hnew : o ∉ s := fun hm => ho.not_free o hm c hmem
    have hsub (c' o' : Nat) (hm : o' ∈ update h.freelists c rest c') :
        o' ∈ h.freelists c' ∧ o' ≠ o := by
      by_cases hc : c' = c
      · subst hc
        rw [update_self] at hm
        exact ⟨hf ▸ .tail _ hm, fun he => hnd.1 (he ▸ hm)⟩
      · rw [update_of_ne hc] at hm
        refine ⟨hm, ?_⟩
        rintro rfl
        exact hc (ho.free_class _ _ _ hm hmem)
    refine ⟨hnew, ?_, ?_, ?_⟩
    · constructor
      case next_pos => exact ho.next_pos
      case lt_next =>
        rintro o' (rfl | hm)
        · exact ho.free_lt c o' hmem
        · exact ho.lt_next o' hm
      case not_free =>
        rintro o' (rfl | hm) c' hm'
        · exact (hsub c' o' hm').2 rfl
        · exact ho.not_free o' hm c' (hsub c' o' hm').1
      case free_lt => exact fun c' o' hm => ho.free_lt c' o' (hsub c' o' hm).1
      case free_size =>
        intro c' o' hm
        obtain ⟨hm', hne⟩ := hsub c' o' hm
        simp only [update_of_ne hne]
        exact ho.free_size c' o' hm'
      case free_nodup =>
        intro c'
        by_cases hc : c' = c
        · subst hc
          simpa using hnd.2
        · simpa [update_of_ne hc] using ho.free_nodup c'
      case free_class =>
        exact fun c₁ c₂ o' h1 h2 => ho.free_class c₁ c₂ o' (hsub c₁ o' h1).1 (hsub c₂ o' h2).1
    · simp only [update_self]
      rw [← ho.free_size c o hmem]
      exact List.map_const' ..
    · intro o' hm
      have hne : o' ≠ o := fun he => hnew (he ▸ hm)
      exact update_of_ne hne _ _

theorem Owns.free (ho : h.Owns size s) (hm : o ∈ s) (hl : (h.block o).length = size c) :
    (h.free c o).Owns size (s \ {o}) := by
  have hsub (c' o' : Nat) (hm' : o' ∈ (h.free c o).freelists c') :
      o' ∈ h.freelists c' ∨ o' = o ∧ c' = c := by
    by_cases hc : c' = c
    · subst hc
      simp only [SlabHeap.free, update_self, List.mem_cons] at hm'
      rcases hm' with he | hm'
      · exact .inr ⟨he, rfl⟩
      · exact .inl hm'
    · simp only [SlabHeap.free, update_of_ne hc] at hm'
      exact .inl hm'
  constructor
  case next_pos => exact ho.next_pos
  case lt_next => exact fun o' hm' => ho.lt_next o' hm'.1
  case not_free =>
    intro o' hm' c' hf
    rcases hsub c' o' hf with hf | ⟨rfl, _⟩
    · exact ho.not_free o' hm'.1 c' hf
    · exact hm'.2 rfl
  case free_lt =>
    intro c' o' hf
    rcases hsub c' o' hf with hf | ⟨rfl, _⟩
    · exact ho.free_lt c' o' hf
    · exact ho.lt_next o' hm
  case free_size =>
    intro c' o' hf
    rcases hsub c' o' hf with hf | ⟨rfl, rfl⟩
    · exact ho.free_size c' o' hf
    · exact hl
  case free_nodup =>
    intro c'
    by_cases hc : c' = c
    · subst hc
      simp only [SlabHeap.free, update_self, List.nodup_cons]
      exact ⟨ho.not_free o hm c', ho.free_nodup c'⟩
    · simp only [SlabHeap.free, update_of_ne hc]
      exact ho.free_nodup c'
  case free_class =>
    intro c₁ c₂ o' h1 h2
    rcases hsub c₁ o' h1 with hf₁ | ⟨rfl, he₁⟩
    · rcases hsub c₂ o' h2 with hf₂ | ⟨rfl, _⟩
      · exact ho.free_class c₁ c₂ o' hf₁ hf₂
      · exact absurd hf₁ (ho.not_free o' hm c₁)
    · rcases hsub c₂ o' h2 with hf₂ | ⟨_, he₂⟩
      · exact absurd hf₂ (ho.not_free o' hm c₂)
      · exact he₁.trans he₂.symm

end SlabHeap
end Vpp.Lib
