import Mathlib.Data.BitVec
import Mathlib.Data.Nat.Log
import Vpp.Lib.LongestMatch
import Vpp.Lib.Splice

namespace Vpp.Infra
open Vpp.Lib List BitVec

abbrev Word := BitVec 64

/-- A bitmap is a vector of words; the bits past its end are clear. -/
abbrev Bitmap := List Word

def firstSet (x : Word) : Word := x &&& -x

def minLog2 (x : Word) : Nat := x.toNat.log2

def vecValidate (ai : Bitmap) (i : Nat) : Bitmap := ai ++ List.replicate (i + 1 - ai.length) 0

def clibBitmapRemoveTrailingZeros (a : Bitmap) : Bitmap := a.rdropWhile (· == 0)

def clibBitmapImmediate (body : Word → Word → Word) (checkZero : Bool) (ai : Bitmap) (i : Nat) : Bitmap :=
  let i0 := i / 64
  let i1 := i % 64
  let ai := vecValidate ai i0
  let a := body (ai.getD i0 0) (1#64 <<< i1)
  let ai := ai.set i0 a
  if checkZero && a == 0 then clibBitmapRemoveTrailingZeros ai else ai

def clibBitmapAndnoti : Bitmap → Nat → Bitmap := clibBitmapImmediate (fun a b => a &&& ~~~b) true

def clibBitmapOri : Bitmap → Nat → Bitmap := clibBitmapImmediate (fun a b => a ||| b) false

def clibBitmapGet (ai : Bitmap) (i : Nat) : Bool :=
  let i0 := i / 64
  let i1 := i % 64
  i0 < ai.length && (ai.getD i0 0 >>> i1) &&& 1 != 0

theorem firstSet_getLsbD (x : Word) (i : Nat) :
    (firstSet x).getLsbD i = true ↔ x.getLsbD i = true ∧ ∀ j < i, x.getLsbD j = false := by
  rw [firstSet, getLsbD_and, getLsbD_neg]
  by_cases hi : x.getLsbD i = true
  · have hlt : i < 64 := lt_of_getLsbD hi
    rw [hi]
    simp [hlt]
  · simp [hi]

/-- The lowest bit of a word, with what the two instructions that find it give. -/
theorem exists_firstSet {x : Word} (hx : x ≠ 0) :
    ∃ k < 64, x.getLsbD k = true ∧ (∀ j < k, x.getLsbD j = false) ∧ minLog2 (firstSet x) = k ∧
      ∀ j, (x ^^^ firstSet x).getLsbD j = (x.getLsbD j && j != k) := by
  have hex : ∃ k, x.getLsbD k = true := by
    by_contra hno
    push Not at hno
    exact hx (eq_of_getLsbD_eq (fun i _ => by simpa using hno i))
  have hk := Nat.find_spec hex
  have hmin : ∀ j < Nat.find hex, x.getLsbD j = false := fun j hj => by simpa using Nat.find_min hex hj
  generalize Nat.find hex = k at hk hmin
  have hlt : k < 64 := lt_of_getLsbD hk
  have hbit : ∀ j, (firstSet x).getLsbD j = decide (j = k) := by
    intro j
    rw [Bool.eq_iff_iff, firstSet_getLsbD, decide_eq_true_eq]
    constructor
    · intro ⟨hj, hbelow⟩
      rcases Nat.lt_trichotomy j k with hjk | hjk | hjk
      · rw [hmin j hjk] at hj
        exact absurd hj (by decide)
      · exact hjk
      · rw [hbelow k hjk] at hk
        exact absurd hk (by decide)
    · intro hj
      rw [hj]
      exact ⟨hk, hmin⟩
  have hpow : firstSet x = BitVec.twoPow 64 k := by
    apply eq_of_getLsbD_eq
    intro i hi
    rw [hbit, getLsbD_twoPow]
    simp [hlt, eq_comm]
  refine ⟨k, hlt, hk, hmin, ?_, ?_⟩
  · rw [minLog2, hpow, toNat_twoPow_of_lt hlt, Nat.log2_two_pow]
  · intro j
    rw [getLsbD_xor, hbit]
    by_cases hj : j = k
    · rw [hj, hk]
      simp
    · simp [hj]

theorem clibBitmapGet_eq (ai : Bitmap) (i : Nat) :
    clibBitmapGet ai i = (ai.getD (i / 64) 0).getLsbD (i % 64) := by
  rw [clibBitmapGet]
  by_cases hlt : i / 64 < ai.length
  · have hmod : i % 64 < 64 := Nat.mod_lt i (by decide)
    have hone : (ai.getD (i / 64) 0 >>> (i % 64)) &&& 1 = 0 ↔ (ai.getD (i / 64) 0).getLsbD (i % 64) = false := by
      constructor
      · intro h
        have hbit := congrArg (fun x => x.getLsbD 0) h
        simpa using hbit
      · intro h
        apply eq_of_getLsbD_eq
        intro j hj
        cases j with
        | zero => simpa using h
        | succ j => simp
    simp only [hlt, decide_true, Bool.true_and]
    rw [Bool.eq_iff_iff, bne_iff_ne, Ne, hone, Bool.not_eq_false]
  · simp [hlt]

theorem getD_vecValidate (ai : Bitmap) (i w : Nat) : (vecValidate ai i).getD w 0 = ai.getD w 0 := by
  rw [vecValidate]
  by_cases hw : w < ai.length
  · rw [getD_append _ _ _ _ hw]
  · rw [getD_append_right _ _ _ _ (by omega), getD_eq_default _ _ (Nat.le_of_not_lt hw)]
    by_cases hr : w - ai.length < i + 1 - ai.length
    · rw [getD_replicate _ hr]
    · rw [getD_eq_default]
      rw [length_replicate]
      omega

theorem getD_clibBitmapRemoveTrailingZeros (a : Bitmap) (w : Nat) :
    (clibBitmapRemoveTrailingZeros a).getD w 0 = a.getD w 0 := getD_trim 0 a w

theorem length_vecValidate (ai : Bitmap) (i : Nat) : (vecValidate ai i).length = max ai.length (i + 1) := by
  rw [vecValidate, length_append, length_replicate]
  omega

theorem getD_set {ai : Bitmap} (h : i < ai.length) (a : Word) (w : Nat) :
    (ai.set i a).getD w 0 = if w = i then a else ai.getD w 0 := by
  by_cases hw : w = i
  · rw [if_pos hw, hw, getD_eq_getElem?_getD, getElem?_set_self h, Option.getD_some]
  · rw [if_neg hw, getD_eq_getElem?_getD, getElem?_set_ne (Ne.symm hw), ← getD_eq_getElem?_getD]

theorem getD_set_vecValidate (ai : Bitmap) (i w : Nat) (a : Word) :
    ((vecValidate ai i).set i a).getD w 0 = if w = i then a else ai.getD w 0 := by
  have hlt : i < (vecValidate ai i).length := by
    rw [length_vecValidate]
    omega
  rw [getD_set hlt, getD_vecValidate]

theorem getD_clibBitmapImmediate (body : Word → Word → Word) (checkZero : Bool) (ai : Bitmap) (i w : Nat) :
    (clibBitmapImmediate body checkZero ai i).getD w 0 =
      if w = i / 64 then body (ai.getD (i / 64) 0) (1#64 <<< (i % 64)) else ai.getD w 0 := by
  rw [clibBitmapImmediate]
  split
  · rw [getD_clibBitmapRemoveTrailingZeros, getD_set_vecValidate, getD_vecValidate]
  · rw [getD_set_vecValidate, getD_vecValidate]

theorem getLsbD_bit (i j : Nat) (hj : j < 64) : (1#64 <<< i).getLsbD j = decide (j = i) := by
  rw [getLsbD_shiftLeft]
  by_cases hij : j = i
  · simp [hij, hij ▸ hj]
  · by_cases hlt : j < i
    · simp [hlt, hij]
    · have : j - i ≠ 0 := by omega
      simp [hij, this]

theorem clibBitmapGet_immediate {body : Word → Word → Word} {f : Bool → Bool → Bool}
    (hbody : ∀ a b k, k < 64 → (body a b).getLsbD k = f (a.getLsbD k) (b.getLsbD k)) (hf : ∀ x, f x false = x)
    (checkZero : Bool) (ai : Bitmap) (i j : Nat) :
    clibBitmapGet (clibBitmapImmediate body checkZero ai i) j = f (clibBitmapGet ai j) (decide (j = i)) := by
  rw [clibBitmapGet_eq, clibBitmapGet_eq, getD_clibBitmapImmediate]
  have hmod : j % 64 < 64 := Nat.mod_lt j (by decide)
  by_cases hw : j / 64 = i / 64
  · have hbit : decide (j % 64 = i % 64) = decide (j = i) := decide_eq_decide.mpr (by omega)
    rw [if_pos hw, hbody _ _ _ hmod, getLsbD_bit _ _ hmod, hw, hbit]
  · have hne : j ≠ i := fun h => hw (by rw [h])
    rw [if_neg hw, decide_eq_false hne, hf]

theorem clibBitmapGet_ori (ai : Bitmap) (i j : Nat) :
    clibBitmapGet (clibBitmapOri ai i) j = (decide (j = i) || clibBitmapGet ai j) := by
  rw [Bool.or_comm]
  exact clibBitmapGet_immediate (fun a b k _ => getLsbD_or) Bool.or_false _ ai i j

theorem getLsbD_and_not {a b : Word} (hk : k < 64) : (a &&& ~~~b).getLsbD k = (a.getLsbD k && !b.getLsbD k) := by
  rw [getLsbD_and, getLsbD_not, decide_eq_true hk, Bool.true_and]

theorem clibBitmapGet_andnoti (ai : Bitmap) (i j : Nat) :
    clibBitmapGet (clibBitmapAndnoti ai i) j = (!decide (j = i) && clibBitmapGet ai j) := by
  rw [Bool.and_comm]
  exact @clibBitmapGet_immediate (fun a b => a &&& ~~~b) (fun x y => x && !y) (fun _ _ _ hk => getLsbD_and_not hk)
    Bool.and_true true ai i j

def log2FirstSet (x : Word) : Nat := minLog2 (firstSet x)

/-- The loop over the words from word `i0` on. -/
def scanWords (f : Word → Word) : (i0 : Nat) → Bitmap → Option Nat
  | _, [] => none
  | i0, a :: ai => if f a ≠ 0 then some (log2FirstSet (f a) + i0 * 64) else scanWords f (i0 + 1) ai

/-- The first word without its bits before `i`, and then the others. -/
def scanFrom (f : Word → Word) (ai : Bitmap) (i : Nat) : Option Nat :=
  let i0 := i / 64
  let i1 := i % 64
  if i0 < ai.length then
    let t := (f (ai.getD i0 0) >>> i1) <<< i1
    if t ≠ 0 then some (log2FirstSet t + i0 * 64) else scanWords f (i0 + 1) (ai.drop (i0 + 1))
  else none

/-- Nothing stands for the value without bits to be clear. -/
def clibBitmapFirstSet (ai : Bitmap) : Option Nat := scanWords (fun x => x) 0 ai

def clibBitmapFirstClear (ai : Bitmap) : Nat := (scanWords (fun x => ~~~x) 0 ai).getD (ai.length * 64)

def clibBitmapNextSet (ai : Bitmap) (i : Nat) : Option Nat := scanFrom (fun x => x) ai i

def clibBitmapNextClear (ai : Bitmap) (i : Nat) : Nat := (scanFrom (fun x => ~~~x) ai i).getD i

def Hit (f : Word → Word) (ai : Bitmap) (j : Nat) : Prop := (f (ai.getD (j / 64) 0)).getLsbD (j % 64) = true

variable {f : Word → Word} {ai ws : Bitmap} {i i0 : Nat} {t : Word}

theorem firstIn_word (hlo : lo / 64 = i0) (ht : ∀ k < 64, t.getLsbD k = true ↔ lo % 64 ≤ k ∧ Hit f ai (i0 * 64 + k)) :
    FirstIn (Hit f ai) lo ((i0 + 1) * 64) (if t ≠ 0 then some (log2FirstSet t + i0 * 64) else none) := by
  by_cases hz : t = 0
  · rw [if_neg (not_not.mpr hz)]
    intro j hj hlt hhit
    have hbit := (ht (j - i0 * 64) (by omega)).mpr ⟨by omega, by rwa [Nat.add_sub_cancel' (by omega)]⟩
    rw [hz] at hbit
    exact absurd hbit (by simp)
  · rw [if_pos hz]
    obtain ⟨k, hk, hbit, hbelow, hlog, -⟩ := exists_firstSet hz
    obtain ⟨hle, hhit⟩ := (ht k hk).mp hbit
    have hval : log2FirstSet t + i0 * 64 = i0 * 64 + k := by rw [log2FirstSet, hlog, Nat.add_comm]
    rw [hval]
    refine ⟨⟨⟨by omega, hhit⟩, ?_⟩, by omega⟩
    intro j hj
    obtain ⟨hlo', hhit'⟩ := hj
    apply Nat.le_of_not_lt
    intro hlt
    have hj : i0 * 64 + (j - i0 * 64) = j := Nat.add_sub_cancel' (by omega)
    have hset := (ht (j - i0 * 64) (by omega)).mpr ⟨by omega, by rwa [hj]⟩
    rw [hbelow (j - i0 * 64) (by omega)] at hset
    exact absurd hset (by decide)

theorem firstIn_scanWords (hws : ai.drop i0 = ws) :
    FirstIn (Hit f ai) (i0 * 64) ((i0 + ws.length) * 64) (scanWords f i0 ws) := by
  induction ws generalizing i0 with
  | nil =>
    intro j hj hlt
    rw [length_nil] at hlt
    omega
  | cons a ws ih =>
    have ha : ai.getD i0 0 = a := by
      rw [getD_eq_getElem?_getD, ← head?_drop, hws]
      rfl
    have hrest : ai.drop (i0 + 1) = ws := by
      rw [← tail_drop, hws]
      rfl
    have hword : FirstIn (Hit f ai) (i0 * 64) ((i0 + 1) * 64)
        (if f a ≠ 0 then some (log2FirstSet (f a) + i0 * 64) else none) := by
      apply firstIn_word (Nat.mul_div_cancel _ (by decide))
      intro k hk
      rw [Hit, Nat.mul_mod_left, show (i0 * 64 + k) / 64 = i0 by omega, show (i0 * 64 + k) % 64 = k by omega, ha]
      exact (and_iff_right (Nat.zero_le k)).symm
    have hlast : i0 + (a :: ws).length = i0 + 1 + ws.length := by
      rw [length_cons]
      omega
    rw [scanWords, hlast]
    split at hword
    · next hne =>
      rw [if_pos hne]
      exact hword.of_some (Nat.mul_le_mul_right 64 (Nat.le_add_right _ _))
    · next hz =>
      rw [if_neg hz]
      exact hword.after_none (ih hrest) (Nat.mul_le_mul_right 64 (Nat.le_succ i0))

theorem firstIn_scanFrom (f : Word → Word) (ai : Bitmap) (i : Nat) :
    FirstIn (Hit f ai) i (ai.length * 64) (scanFrom f ai i) := by
  rw [scanFrom]
  dsimp only
  split
  · next hlt =>
    generalize ht : (f (ai.getD (i / 64) 0) >>> (i % 64)) <<< (i % 64) = t
    have hword : FirstIn (Hit f ai) i ((i / 64 + 1) * 64)
        (if t ≠ 0 then some (log2FirstSet t + i / 64 * 64) else none) := by
      apply firstIn_word rfl
      intro k hk
      rw [← ht, Hit, show (i / 64 * 64 + k) / 64 = i / 64 by omega,
        show (i / 64 * 64 + k) % 64 = k by omega, getLsbD_shiftLeft, getLsbD_ushiftRight]
      by_cases hle : i % 64 ≤ k
      · simp [hk, hle]
      · simp [hle]
    have hlen : i / 64 + 1 + (ai.drop (i / 64 + 1)).length = ai.length := by
      rw [length_drop]
      omega
    have hrest := @firstIn_scanWords f ai _ (i / 64 + 1) rfl
    rw [hlen] at hrest
    split at hword
    · next hne =>
      rw [if_pos hne]
      exact hword.of_some (Nat.mul_le_mul_right 64 hlt)
    · next hz =>
      rw [if_neg hz]
      exact hword.after_none hrest (by omega)
  · next hge =>
    intro j hj hlt
    omega

theorem hit_id_iff (ai : Bitmap) (j : Nat) : Hit (fun x => x) ai j ↔ clibBitmapGet ai j = true := by
  rw [Hit, clibBitmapGet_eq]

theorem hit_not_iff (ai : Bitmap) (j : Nat) : Hit (fun x => ~~~x) ai j ↔ clibBitmapGet ai j = false := by
  rw [Hit, clibBitmapGet_eq, getLsbD_not, decide_eq_true (Nat.mod_lt j (by decide)), Bool.true_and,
    Bool.not_eq_true']

theorem clibBitmapGet_past (h : ai.length * 64 ≤ j) : clibBitmapGet ai j = false := by
  rw [clibBitmapGet_eq, getD_eq_default _ _ (by omega)]
  exact getLsbD_zero

theorem firstIn_nextSet (ai : Bitmap) (i : Nat) :
    FirstIn (fun j => clibBitmapGet ai j = true) i (ai.length * 64) (clibBitmapNextSet ai i) := by
  have hscan := firstIn_scanFrom (fun x => x) ai i
  rwa [show Hit (fun x => x) ai = fun j => clibBitmapGet ai j = true from funext fun j =>
    propext (hit_id_iff ai j)] at hscan

theorem firstIn_scan_clear (ai : Bitmap) (i : Nat) :
    FirstIn (fun j => clibBitmapGet ai j = false) i (ai.length * 64) (scanFrom (fun x => ~~~x) ai i) := by
  have hscan := firstIn_scanFrom (fun x => ~~~x) ai i
  rwa [show Hit (fun x => ~~~x) ai = fun j => clibBitmapGet ai j = false from funext fun j =>
    propext (hit_not_iff ai j)]
    at hscan

theorem isLeast_set_iff (ai : Bitmap) (lo k : Nat) :
    IsLeast {j | lo ≤ j ∧ clibBitmapGet ai j = true} k ∧ k < ai.length * 64 ↔
      IsLeast {j | lo ≤ j ∧ clibBitmapGet ai j = true} k := by
  refine and_iff_left_of_imp ?_
  intro h
  apply Nat.lt_of_not_le
  intro hge
  have hclear := clibBitmapGet_past hge
  rw [h.1.2] at hclear
  exact absurd hclear (by decide)

/-- What the searches are for. The bits past the vector are clear. -/
structure Searches (ai : Bitmap) (i : Nat) : Prop where
  nextSet : ∀ k, clibBitmapNextSet ai i = some k ↔ IsLeast {j | i ≤ j ∧ clibBitmapGet ai j = true} k
  noneSet : clibBitmapNextSet ai i = none ↔ ∀ j, i ≤ j → clibBitmapGet ai j = false
  nextClear : IsLeast {j | i ≤ j ∧ clibBitmapGet ai j = false} (clibBitmapNextClear ai i)
  firstSet : clibBitmapFirstSet ai = clibBitmapNextSet ai 0
  firstClear : IsLeast {j | clibBitmapGet ai j = false} (clibBitmapFirstClear ai)

theorem isLeast_firstClear (ai : Bitmap) : IsLeast {j | clibBitmapGet ai j = false} (clibBitmapFirstClear ai) := by
  have hscan := @firstIn_scanWords (fun x => ~~~x) ai ai 0 drop_zero
  rw [Nat.zero_mul, Nat.zero_add] at hscan
  rw [clibBitmapFirstClear]
  cases hr : scanWords (fun x => ~~~x) 0 ai with
  | none =>
    rw [hr] at hscan
    refine ⟨clibBitmapGet_past (Nat.le_refl _), ?_⟩
    intro j hj
    apply Nat.le_of_not_lt
    intro hlt
    exact hscan j (Nat.zero_le j) hlt ((hit_not_iff ai j).mpr hj)
  | some k =>
    rw [hr] at hscan
    obtain ⟨⟨⟨-, hk⟩, hmin⟩, -⟩ := hscan
    refine ⟨(hit_not_iff ai k).mp hk, ?_⟩
    intro j hj
    exact hmin ⟨Nat.zero_le j, (hit_not_iff ai j).mpr hj⟩

theorem isLeast_nextClear_iff (ai : Bitmap) (i : Nat) :
    IsLeast {j | i ≤ j ∧ clibBitmapGet ai j = false} (clibBitmapNextClear ai i) ↔
      ai.length * 64 ≤ i ∨ ∃ j, i ≤ j ∧ j < ai.length * 64 ∧ clibBitmapGet ai j = false := by
  have hscan := firstIn_scan_clear ai i
  rw [clibBitmapNextClear]
  cases hr : scanFrom (fun x => ~~~x) ai i with
  | none =>
    rw [hr] at hscan
    constructor
    · intro h
      rcases Nat.lt_or_ge i (ai.length * 64) with hlt | hge
      · exact absurd h.1.2 (hscan i (Nat.le_refl _) hlt)
      · exact .inl hge
    · intro h
      rcases h with hge | ⟨j, hj, hlt, hclear⟩
      · exact ⟨⟨Nat.le_refl _, clibBitmapGet_past hge⟩, fun j hj => hj.1⟩
      · exact absurd hclear (hscan j hj hlt)
  | some k =>
    rw [hr] at hscan
    obtain ⟨hk, hlt⟩ := hscan
    exact iff_of_true hk (.inr ⟨k, hk.1.1, hlt, hk.1.2⟩)

theorem clib_bitmap_search (ai : Bitmap) (i : Nat) :
    Searches ai i ↔ ai.length * 64 ≤ i ∨ ∃ j, i ≤ j ∧ j < ai.length * 64 ∧ clibBitmapGet ai j = false := by
  constructor
  · exact fun h => (isLeast_nextClear_iff ai i).mp h.nextClear
  · intro h
    have hset := firstIn_nextSet ai i
    constructor
    · exact fun k => hset.eq_some_iff.trans (isLeast_set_iff ai i k)
    · rw [hset.eq_none_iff]
      constructor
      · intro hnone j hj
        rcases Nat.lt_or_ge j (ai.length * 64) with hlt | hge
        · exact Bool.eq_false_iff.mpr (hnone j hj hlt)
        · exact clibBitmapGet_past hge
      · intro hnone j hj _ hget
        rw [hnone j hj] at hget
        exact absurd hget (by decide)
    · exact (isLeast_nextClear_iff ai i).mpr h
    · have hscan := @firstIn_scanWords (fun x => x) ai ai 0 drop_zero
      rw [Nat.zero_mul, Nat.zero_add] at hscan
      exact hscan.unique (firstIn_scanFrom (fun x => x) ai 0)
    · exact isLeast_firstClear ai

/-- All the bits from 5 on are set. -/
theorem clib_bitmap_search_fails : ¬ ∀ (ai : Bitmap) (i : Nat), Searches ai i := by
  intro h
  have hclear := (h [-1] 5).nextClear.1.2
  exact absurd hclear (by decide)

end Vpp.Infra
