import Vpp.Lib.Pool

namespace Vpp.Lib

/-- A pool in memory: its vector begins at the address `base`, counted in elements, and `beyond` is what the other
addresses hold. -/
structure PoolAt (α : Type u) where
  pool : Pool α
  base : Nat
  beyond : Nat → α

namespace PoolAt

def empty [Inhabited α] : PoolAt α := ⟨.empty, 0, fun _ => default⟩

def addr (m : PoolAt α) (k : Nat) : Nat := m.base + k

/-- The position of the element at an address, if the vector reaches it. -/
def index? (m : PoolAt α) (a : Nat) : Option Nat :=
  if m.base ≤ a ∧ a - m.base < m.pool.elts.length then some (a - m.base) else none

def read [Inhabited α] (m : PoolAt α) (a : Nat) : α :=
  match m.index? a with
  | some k => m.pool.eltAt k
  | none => m.beyond a

def modify [Inhabited α] (m : PoolAt α) (a : Nat) (f : α → α) : PoolAt α :=
  match m.index? a with
  | some k => { m with pool := m.pool.modify k f }
  | none => { m with beyond := Function.update m.beyond a (f (m.beyond a)) }

/-- To extend the vector the allocator may move it, to `place`; the elements stay behind at the old addresses too. -/
def get [Inhabited α] (m : PoolAt α) (place : Nat) : PoolAt α × Nat :=
  (⟨m.pool.get.1, if m.pool.freeIndices = [] then place else m.base, m.read⟩, m.pool.get.2)

/-- `get` takes the vector to another place. -/
def Moves (m : PoolAt α) (place : Nat) : Prop := m.pool.freeIndices = [] ∧ place ≠ m.base

instance (m : PoolAt α) (place : Nat) : Decidable (m.Moves place) := inferInstanceAs (Decidable (_ ∧ _))

theorem addr_inj {m : PoolAt α} : m.addr j = m.addr k ↔ j = k := Nat.add_left_cancel_iff

theorem index?_addr {m : PoolAt α} (h : m.pool.Live k) : m.index? (m.addr k) = some k := by
  have hk : m.base + k - m.base = k := Nat.add_sub_cancel_left ..
  rw [index?, addr, hk, if_pos ⟨Nat.le_add_right .., h.1⟩]

theorem pool_modify_addr [Inhabited α] {m : PoolAt α} (h : m.pool.Live k) (f : α → α) :
    (m.modify (m.addr k) f).pool = m.pool.modify k f := by
  rw [modify, index?_addr h]

@[simp] theorem base_modify [Inhabited α] (m : PoolAt α) (a : Nat) (f : α → α) : (m.modify a f).base = m.base := by
  unfold modify
  split <;> rfl

@[simp] theorem live_modify [Inhabited α] {m : PoolAt α} : (m.modify a f).pool.Live k ↔ m.pool.Live k := by
  unfold modify
  split
  · exact Pool.live_modify
  · exact Iff.rfl

theorem base_get [Inhabited α] {m : PoolAt α} (h : ¬ m.Moves place) : (m.get place).1.base = m.base := by
  simp only [get]
  split
  · next hfree =>
    by_contra hne
    exact h ⟨hfree, hne⟩
  · rfl

end PoolAt

end Vpp.Lib
