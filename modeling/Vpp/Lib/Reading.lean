import Vpp.Lib.NetBytes

namespace Vpp.Lib
open List

/-- A result together with the addresses that were read for it, in the order of the reads. -/
structure Reading (α : Type) where
  value : α
  reads : List Nat
  deriving DecidableEq, Repr

namespace Reading

instance : Monad Reading where
  pure a := ⟨a, []⟩
  bind r f := ⟨(f r.value).value, r.reads ++ (f r.value).reads⟩

@[simp] theorem pure_value (a : α) : (pure a : Reading α).value = a := rfl

@[simp] theorem pure_reads (a : α) : (pure a : Reading α).reads = [] := rfl

@[simp] theorem bind_value (r : Reading α) (f : α → Reading β) : (r >>= f).value = (f r.value).value := rfl

@[simp] theorem bind_reads (r : Reading α) (f : α → Reading β) :
    (r >>= f).reads = r.reads ++ (f r.value).reads := rfl

/-- Every address read is at least `lo` and below `hi`. -/
def Within (lo hi : Nat) (r : Reading α) : Prop := ∀ i ∈ r.reads, lo ≤ i ∧ i < hi

instance : Decidable (Within lo hi r) := List.decidableBAll _ _

theorem within_pure (lo hi : Nat) (a : α) : Within lo hi (pure a) := by
  intro i hi
  cases hi

theorem within_bind {r : Reading α} {f : α → Reading β} :
    Within lo hi (r >>= f) ↔ Within lo hi r ∧ Within lo hi (f r.value) := forall_mem_append

theorem Within.bind {r : Reading α} {f : α → Reading β} (h : Within lo hi r) (hf : ∀ a, Within lo hi (f a)) :
    Within lo hi (r >>= f) := within_bind.mpr ⟨h, hf r.value⟩

theorem Within.mono {r : Reading α} (h : Within lo hi r) (hlo : lo' ≤ lo) (hhi : hi ≤ hi') :
    Within lo' hi' r := by
  intro i hm
  have hb := h i hm
  exact ⟨hlo.trans hb.1, hb.2.trans_le hhi⟩

def each (f : α → Reading β) : List α → Reading (List β)
  | [] => pure []
  | a :: as => do
    let b ← f a
    let bs ← each f as
    pure (b :: bs)

theorem each_value (f : α → Reading β) (as : List α) : (each f as).value = as.map fun a => (f a).value := by
  induction as with
  | nil => rfl
  | cons a as ih => simp only [each, bind_value, pure_value, ih, map_cons]

theorem Within.each {f : α → Reading β} {as : List α} (h : ∀ a ∈ as, Within lo hi (f a)) :
    Within lo hi (each f as) := by
  induction as with
  | nil => exact within_pure lo hi []
  | cons a as ih =>
    have hrest := ih fun b hb => h b (mem_cons_of_mem a hb)
    exact (h a mem_cons_self).bind fun b => hrest.bind fun bs => within_pure lo hi (b :: bs)

theorem each_within {f : α → Reading β} {as : List α} :
    Within lo hi (Reading.each f as) ↔ ∀ a ∈ as, Within lo hi (f a) := by
  constructor
  · intro h
    induction as with
    | nil => exact fun _ ha => absurd ha not_mem_nil
    | cons a as ih =>
      rw [Reading.each, within_bind, within_bind] at h
      intro b hb
      rcases mem_cons.1 hb with rfl | hb
      · exact h.1
      · exact ih h.2.1 b hb
  · exact Within.each

theorem within_pure_iff (a : α) : Within lo hi (pure a : Reading α) ↔ True :=
  iff_of_true (within_pure lo hi a) trivial

def elt (m : Nat → α) (p : Nat) : Reading α := ⟨m p, [p]⟩

@[simp] theorem elt_value (m : Nat → α) (p : Nat) : (Reading.elt m p).value = m p := rfl

theorem elt_within {m : Nat → α} : (Reading.elt m p).Within lo hi ↔ lo ≤ p ∧ p < hi := forall_mem_singleton

end Reading

namespace Memory

variable (m : Memory)

def read (p : Nat) : Reading (BitVec 8) := ⟨m p, [p]⟩

def readWord (w p : Nat) : Reading (BitVec (8 * w)) := ⟨m.word w p, (List.range w).map fun i => p + i⟩

@[simp] theorem read_value (p : Nat) : (m.read p).value = m p := rfl

@[simp] theorem readWord_value (w p : Nat) : (m.readWord w p).value = m.word w p := rfl

theorem read_within : (m.read p).Within lo hi ↔ lo ≤ p ∧ p < hi := forall_mem_singleton

theorem readWord_within (hlo : lo ≤ p) (hhi : p + w ≤ hi) : (m.readWord w p).Within lo hi := by
  intro i hm
  obtain ⟨k, hk, rfl⟩ := List.mem_map.mp hm
  have hlt := mem_range.mp hk
  exact ⟨hlo.trans (Nat.le_add_right p k), (Nat.add_lt_add_left hlt p).trans_le hhi⟩

def readBlock (p n : Nat) : Reading (List (BitVec 8)) := ⟨m.readBytes p n, (List.range n).map fun i => p + i⟩

@[simp] theorem readBlock_value (p n : Nat) : (m.readBlock p n).value = m.readBytes p n := rfl

theorem readBlock_within : (m.readBlock p n).Within lo hi ↔ (0 < n → lo ≤ p ∧ p + n ≤ hi) := by
  constructor
  · intro h hn
    have hfirst := h (p + 0) (List.mem_map.2 ⟨0, mem_range.2 hn, rfl⟩)
    have hlast := h (p + (n - 1)) (List.mem_map.2 ⟨n - 1, mem_range.2 (by omega), rfl⟩)
    omega
  · intro h i hm
    obtain ⟨k, hk, rfl⟩ := List.mem_map.1 hm
    have hlt := mem_range.1 hk
    have hin := h (Nat.zero_lt_of_lt hlt)
    omega

theorem readWord_within_iff (hw : 0 < w) : (m.readWord w p).Within lo hi ↔ lo ≤ p ∧ p + w ≤ hi := by
  have hblock : (m.readWord w p).Within lo hi ↔ (0 < w → lo ≤ p ∧ p + w ≤ hi) := m.readBlock_within
  exact hblock.trans ⟨fun h => h hw, fun h _ => h⟩

theorem Holds.netWord {m : Memory} (h : m.Holds p bytes) (hw : off + w ≤ bytes.length) :
    m.word w (p + off) = netWord w bytes off := by
  have hread : (List.range w).map (fun i => m (p + off + i)) = (bytes.drop off).take w := by
    apply ext_getElem
    · simp only [length_map, length_range, length_take, length_drop]
      omega
    · intro i hi _
      have hlt : i < w := by simpa using hi
      have hin : off + i < bytes.length := by omega
      rw [getElem_map, getElem_range, getElem_take, getElem_drop, Nat.add_assoc, h _ hin]
  rw [Memory.word, Lib.netWord, Lib.netWord, hread, drop_zero, take_take, Nat.min_self]

theorem Holds.getD {m : Memory} (h : m.Holds p bytes) (hi : i < bytes.length) : m (p + i) = bytes.getD i 0 := by
  rw [h i hi, getD_eq_getElem _ _ hi]

theorem Holds.drop {m : Memory} (h : m.Holds p bytes) (n : Nat) : m.Holds (p + n) (bytes.drop n) := by
  intro i hi
  have hin : n + i < bytes.length := by
    rw [length_drop] at hi
    omega
  rw [getElem_drop, Nat.add_assoc, h _ hin]

end Memory

end Vpp.Lib
