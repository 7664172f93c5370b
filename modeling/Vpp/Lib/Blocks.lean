import Mathlib.Algebra.Order.Ring.Int
import Mathlib.Data.List.GetD

namespace Vpp.Lib
open List

/-- The `n` cells from `p` on. -/
def loadBlock (mem : Int → β) (p : Int) (n : Nat) : List β := (List.range n).map fun k : Nat => mem (p + k)

def storeBlock (mem : Int → β) (p : Int) (block : List β) : Int → β :=
  fun a => if p ≤ a then block.getD (a - p).toNat (mem a) else mem a

section
variable (mem : Int → β) (p : Int)

@[simp] theorem length_loadBlock (n : Nat) : (loadBlock mem p n).length = n := by
  rw [loadBlock, length_map, length_range]

theorem getElem?_loadBlock {n k : Nat} (h : k < n) : (loadBlock mem p n)[k]? = some (mem (p + k)) := by
  rw [loadBlock, getElem?_map, getElem?_range h, Option.map_some]

theorem loadBlock_add (m n : Nat) : loadBlock mem p (m + n) = loadBlock mem p m ++ loadBlock mem (p + m) n := by
  simp only [loadBlock]
  rw [range_add, map_append, List.map_map]
  congr 2
  funext k
  exact congrArg mem (by simp [Int.add_assoc])

theorem loadBlock_eq_iff {block : List β} {n : Nat} (hn : block.length = n) :
    loadBlock mem p n = block ↔ ∀ k (h : k < block.length), mem (p + k) = block[k] := by
  subst hn
  constructor
  · intro h k hk
    have hget := getElem?_loadBlock mem p hk
    rw [h, List.getElem?_eq_getElem hk] at hget
    exact (Option.some.inj hget).symm
  · intro h
    apply ext_getElem?
    intro k
    by_cases hk : k < block.length
    · rw [getElem?_loadBlock mem p hk, List.getElem?_eq_getElem hk, h k hk]
    · rw [List.getElem?_eq_none (by rw [length_loadBlock]; exact Nat.le_of_not_lt hk),
        List.getElem?_eq_none (Nat.le_of_not_lt hk)]

theorem storeBlock_inside {block : List β} {k : Nat} (h : k < block.length) :
    storeBlock mem p block (p + k) = block[k] := by
  have hoff : (p + k - p).toNat = k := by omega
  rw [storeBlock, if_pos (by omega), hoff, getD_eq_getElem _ _ h]

theorem storeBlock_outside {block : List β} {a : Int} (h : a < p ∨ p + block.length ≤ a) :
    storeBlock mem p block a = mem a := by
  rw [storeBlock]
  split
  · rw [getD_eq_default _ _ (by omega)]
  · rfl

theorem storeBlock_append (xs ys : List β) :
    storeBlock (storeBlock mem p xs) (p + xs.length) ys = storeBlock mem p (xs ++ ys) := by
  funext a
  by_cases hlt : a < p + xs.length
  · rw [storeBlock_outside _ _ (.inl hlt), storeBlock, storeBlock]
    split
    · rw [getD_append _ _ _ _ (by omega)]
    · rfl
  · have hsub : (a - (p + xs.length)).toNat = (a - p).toNat - xs.length := by omega
    rw [storeBlock, if_pos (by omega), storeBlock_outside _ _ (.inr (by omega)), storeBlock, if_pos (by omega),
      getD_append_right _ _ _ _ (by omega), hsub]

theorem loadBlock_congr {mem' : Int → β} {n : Nat} (h : ∀ k < n, mem (p + k) = mem' (p + k)) :
    loadBlock mem p n = loadBlock mem' p n :=
  map_congr_left fun k hk => h k (mem_range.1 hk)

end

end Vpp.Lib
