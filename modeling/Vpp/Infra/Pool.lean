import Vpp.Infra.Bitmap
import Vpp.Lib.Pool

namespace Vpp.Infra
open Vpp.Lib List

section

/-- A pool as the code stores it: what is free is held both as a bitmap and as a vector of indices. -/
structure PoolVec (α : Type u) where
  elts : List α
  freeBitmap : Bitmap
  freeIndices : List Nat

def PoolVec.empty : PoolVec α := ⟨[], [], []⟩

def poolGet [Inhabited α] (p : PoolVec α) : PoolVec α × Nat :=
  match p.freeIndices.getLast? with
  | some i => ({ p with
      freeBitmap := clibBitmapAndnoti p.freeBitmap i
      freeIndices := p.freeIndices.dropLast }, i)
  | none => ({ p with elts := p.elts ++ [default] }, p.elts.length)

def poolPut (p : PoolVec α) (i : Nat) : PoolVec α :=
  { p with
    freeBitmap := clibBitmapOri p.freeBitmap i
    freeIndices := p.freeIndices ++ [i] }

/-- The loop over the bits of a word. Each pass clears a bit, so a word takes at most 64 of them. -/
def foreachWord (hiOf : Word → Nat) : (fuel : Nat) → (m : Word) → (lo : Nat) → List (Nat × Nat) × Nat
  | 0, _, lo => ([], lo)
  | fuel + 1, m, lo =>
    if m = 0 then ([], lo)
    else
      let f := firstSet m
      let hi := hiOf f
      let (regions, lo') := foreachWord hiOf fuel (m ^^^ f) (hi + 1)
      (if hi > lo then (lo, hi) :: regions else regions, lo')

/-- The loop over the words from word `i` on, and the word past the end that marks the pool's length. -/
def foreachWords (len : Nat) : (i : Nat) → Bitmap → (lo : Nat) → List (Nat × Nat)
  | _, [], lo => (foreachWord (fun _ => len) 64 1 lo).1
  | i, m :: b, lo =>
    let (regions, lo') := foreachWord (fun f => i * 64 + minLog2 f) 64 m lo
    regions ++ foreachWords len (i + 1) b lo'

def poolForeachRegion (p : PoolVec α) : List (Nat × Nat) := foreachWords p.elts.length 0 p.freeBitmap 0

def visited (regions : List (Nat × Nat)) : List Nat := regions.flatMap fun (lo, hi) => List.range' lo (hi - lo)

def poolForeach (p : PoolVec α) : List Nat := visited (poolForeachRegion p)

/-- The pools that calls of `pool_get` and `pool_put` lead to, with the elements that are in use: those
that `pool_get` has returned and `pool_put` has not taken back. -/
inductive Run [Inhabited α] : PoolVec α → List Nat → Prop where
  | empty : Run .empty []
  | get : Run p live → Run (poolGet p).1 ((poolGet p).2 :: live)
  | put : Run p live → i ∈ live → Run (poolPut p i) (live.filter (· ≠ i))

structure Represents (p : PoolVec α) (q : Pool α) : Prop where
  elts : p.elts = q.elts
  indices : p.freeIndices = q.freeIndices.reverse
  bitmap : ∀ i, clibBitmapGet p.freeBitmap i = decide (i ∈ q.freeIndices)

variable {p : PoolVec α} {q : Pool α}

theorem represents_empty : Represents (PoolVec.empty : PoolVec α) Pool.empty :=
  ⟨rfl, rfl, fun _ => rfl⟩

theorem Represents.get [Inhabited α] (h : Represents p q) :
    Represents (poolGet p).1 q.get.1 ∧ (poolGet p).2 = q.get.2 := by
  obtain ⟨elts, free, hn, hb⟩ := q
  obtain ⟨helts, hindices, hbitmap⟩ := h
  cases free with
  | nil =>
    have hlast : p.freeIndices.getLast? = none := by rw [hindices]; rfl
    simp only [poolGet, hlast]
    refine ⟨⟨?_, hindices, hbitmap⟩, ?_⟩
    · rw [helts]
      rfl
    · rw [helts]
      rfl
  | cons i rest =>
    have hlast : p.freeIndices.getLast? = some i := by
      rw [hindices, reverse_cons, getLast?_concat]
    simp only [poolGet, hlast]
    refine ⟨⟨helts, ?_, ?_⟩, rfl⟩
    · show p.freeIndices.dropLast = rest.reverse
      rw [hindices, reverse_cons, dropLast_concat]
    · intro j
      show clibBitmapGet (clibBitmapAndnoti p.freeBitmap i) j = decide (j ∈ rest)
      have hi : i ∉ rest := (nodup_cons.mp hn).1
      rw [clibBitmapGet_andnoti, hbitmap]
      by_cases hj : j = i
      · simp [hj, hi]
      · simp [hj]

theorem Represents.put (h : Represents p q) (hi : q.Live i) : Represents (poolPut p i) (q.put i) := by
  have hput : (q.put i).freeIndices = i :: q.freeIndices := by
    rw [Pool.put, dif_pos hi]
  refine ⟨?_, ?_, ?_⟩
  · rw [Pool.put, dif_pos hi]
    exact h.elts
  · rw [hput, reverse_cons, ← h.indices]
    rfl
  · intro j
    show clibBitmapGet (clibBitmapOri p.freeBitmap i) j = _
    rw [hput, clibBitmapGet_ori, h.bitmap]
    simp

section Regions
variable {free : Nat → Bool} {m : Word}

def inUse (free : Nat → Bool) (n : Nat) : List Nat := (List.range n).filter fun i => !free i

theorem inUse_add (hlo : lo ≤ hi) (hfree : ∀ j, lo ≤ j → j < hi → free j = false) :
    inUse free hi = inUse free lo ++ List.range' lo (hi - lo) := by
  have hsplit : List.range hi = List.range lo ++ List.range' lo (hi - lo) := by
    have happ := range'_append_1 (s := 0) (m := lo) (n := hi - lo)
    rw [Nat.zero_add, Nat.add_sub_cancel' hlo] at happ
    rw [range_eq_range', range_eq_range', happ]
  rw [inUse, hsplit, filter_append, inUse]
  congr 1
  rw [filter_eq_self]
  intro j hj
  rw [mem_range'_1] at hj
  simp [hfree j hj.1 (by omega)]

theorem inUse_succ (hhi : free hi = true) : inUse free (hi + 1) = inUse free hi := by
  rw [inUse, range_succ, filter_append, inUse]
  simp [hhi]

theorem inUse_region (hlo : lo ≤ hi) (hfree : ∀ j, lo ≤ j → j < hi → free j = false) (regions : List (Nat × Nat)) :
    inUse free lo ++ visited (if hi > lo then (lo, hi) :: regions else regions) =
      inUse free hi ++ visited regions := by
  rw [inUse_add hlo hfree]
  split
  · simp [visited]
  · have he : hi - lo = 0 := by omega
    simp [he]

/-- Where the loop over the bits of a word leaves off: what it has run the body on is what is in use. -/
structure Scanned (free : Nat → Bool) (n len lo : Nat) (r : List (Nat × Nat) × Nat) : Prop where
  bound : r.2 ≤ n
  length : r.2 ≤ len
  none : ∀ j, r.2 ≤ j → j < n → free j = false
  output : inUse free lo ++ visited r.1 = inUse free r.2

theorem scanned_foreachWord (hlen : ∀ j, free j = true → j < len)
    (hm : ∀ k < 64, m.getLsbD k = (decide (t ≤ k) && free (base + k)))
    (ht : t ≤ 64) (hlo : lo ≤ base + t) (hle : lo ≤ len) (hfree : ∀ j, lo ≤ j → j < base + t → free j = false)
    (hfuel : 64 - t ≤ fuel) :
    Scanned free (base + 64) len lo (foreachWord (fun f => base + minLog2 f) fuel m lo) := by
  induction fuel generalizing m t lo with
  | zero =>
    obtain rfl : t = 64 := by omega
    exact ⟨hlo, hle, hfree, by simp [foreachWord, visited]⟩
  | succ fuel ih =>
    rw [foreachWord]
    by_cases hz : m = 0
    · rw [if_pos hz]
      refine ⟨by omega, hle, ?_, by simp [visited]⟩
      intro j hj hlt
      by_cases hjt : j < base + t
      · exact hfree j hj hjt
      · have hbit := hm (j - base) (by omega)
        rw [hz, Nat.add_sub_cancel' (by omega)] at hbit
        simpa [show t ≤ j - base by omega] using hbit.symm
    · rw [if_neg hz]
      obtain ⟨k, hk, hbit, hbelow, hlog, hclear⟩ := exists_firstSet hz
      have hbit' := hm k hk
      rw [hbit] at hbit'
      obtain ⟨htk, hfk⟩ : t ≤ k ∧ free (base + k) = true := by simpa using hbit'.symm
      have hfree' : ∀ j, lo ≤ j → j < base + k → free j = false := by
        intro j hj hlt
        by_cases hjt : j < base + t
        · exact hfree j hj hjt
        · have hjk := hm (j - base) (by omega)
          rw [hbelow (j - base) (by omega), Nat.add_sub_cancel' (by omega)] at hjk
          simpa [show t ≤ j - base by omega] using hjk.symm
      have hm' : ∀ j < 64, (m ^^^ firstSet m).getLsbD j = (decide (k + 1 ≤ j) && free (base + j)) := by
        intro j hj
        rw [hclear]
        rcases Nat.lt_trichotomy j k with hjk | hjk | hjk
        · rw [hbelow j hjk]
          simp [show ¬ k + 1 ≤ j by omega]
        · simp [hjk]
        · rw [hm j hj]
          simp [show t ≤ j by omega, show j ≠ k by omega, show k + 1 ≤ j by omega]
      have hrest := ih hm' hk (Nat.le_refl _) (hlen _ hfk) (fun j hj hlt => by omega) (by omega)
      simp only [hlog]
      refine ⟨hrest.bound, hrest.length, hrest.none, ?_⟩
      rw [inUse_region (by omega) hfree', ← inUse_succ hfk]
      exact hrest.output

theorem foreachWord_one (hiOf : Word → Nat) (fuel lo : Nat) :
    (foreachWord hiOf (fuel + 2) 1 lo).1 = if hiOf 1 > lo then [(lo, hiOf 1)] else [] := by
  have hset : firstSet 1 = 1 := by decide
  have hone : (1 : Word) ≠ 0 := by decide
  have hclear : (1 : Word) ^^^ 1 = 0 := by decide
  simp only [foreachWord, if_neg hone, hset, hclear, if_true]

theorem visited_foreachWords (hlen : ∀ j, free j = true → j < len)
    (hb : ∀ j, i * 64 ≤ j → free j = (b.getD (j / 64 - i) 0).getLsbD (j % 64))
    (hlo : lo ≤ i * 64) (hle : lo ≤ len) (hfree : ∀ j, lo ≤ j → j < i * 64 → free j = false) :
    inUse free lo ++ visited (foreachWords len i b lo) = inUse free len := by
  induction b generalizing i lo with
  | nil =>
    have hmark : (foreachWord (fun _ => len) 64 1 lo).1 = if len > lo then [(lo, len)] else [] :=
      foreachWord_one (fun _ => len) 62 lo
    have hrest : ∀ j, lo ≤ j → j < len → free j = false := by
      intro j hj _
      by_cases hji : j < i * 64
      · exact hfree j hj hji
      · rw [hb j (by omega)]
        simp
    rw [foreachWords, hmark, inUse_region hle hrest]
    simp [visited]
  | cons m b ih =>
    have hm : ∀ k < 64, m.getLsbD k = (decide (0 ≤ k) && free (i * 64 + k)) := by
      intro k hk
      have hword := hb (i * 64 + k) (by omega)
      rw [show (i * 64 + k) / 64 - i = 0 by omega, show (i * 64 + k) % 64 = k by omega] at hword
      simp [hword]
    have hs := scanned_foreachWord hlen hm (Nat.zero_le 64) hlo hle hfree (Nat.le_refl 64)
    rw [foreachWords]
    generalize foreachWord (fun f => i * 64 + minLog2 f) 64 m lo = r at hs ⊢
    obtain ⟨regions, lo'⟩ := r
    have hb' : ∀ j, (i + 1) * 64 ≤ j → free j = (b.getD (j / 64 - (i + 1)) 0).getLsbD (j % 64) := by
      intro j hj
      rw [hb j (by omega), show j / 64 - i = j / 64 - (i + 1) + 1 by omega]
      rfl
    have hbound := hs.bound
    have hrest := ih hb' (by simp only at hbound; omega) hs.length
      (fun j hj hlt => hs.none j hj (by omega))
    have hvisited := hs.output
    simp only at hvisited hrest
    rw [show visited (regions ++ foreachWords len (i + 1) b lo') =
      visited regions ++ visited (foreachWords len (i + 1) b lo') by simp [visited], ← List.append_assoc,
      hvisited, hrest]

end Regions

theorem Represents.foreach (h : Represents p q) :
    poolForeach p = inUse (fun i => decide (i ∈ q.freeIndices)) q.elts.length := by
  have hv : inUse (fun i => decide (i ∈ q.freeIndices)) 0 ++
      visited (foreachWords q.elts.length 0 p.freeBitmap 0) =
      inUse (fun i => decide (i ∈ q.freeIndices)) q.elts.length := by
    apply visited_foreachWords
    · intro j hj
      exact q.bound j (by simpa using hj)
    · intro j _
      rw [← h.bitmap, clibBitmapGet_eq]
      rfl
    · exact Nat.le_refl 0
    · exact Nat.zero_le _
    · intro j _ hlt
      exact absurd hlt (Nat.not_lt_zero j)
  rw [poolForeach, poolForeachRegion, h.elts, ← hv]
  rfl

theorem Run.represents [Inhabited α] (h : Run p live) :
    ∃ q : Pool α, Represents p q ∧ ∀ i, q.Live i ↔ i ∈ live := by
  induction h with
  | empty => exact ⟨Pool.empty, represents_empty, by simp⟩
  | get _ ih =>
    obtain ⟨q, hq, hlive⟩ := ih
    obtain ⟨hget, hi⟩ := hq.get
    refine ⟨q.get.1, hget, fun i => ?_⟩
    rw [Pool.live_get, hlive, hi, mem_cons, or_comm]
  | put _ hi ih =>
    obtain ⟨q, hq, hlive⟩ := ih
    refine ⟨q.put _, hq.put ((hlive _).mpr hi), fun i => ?_⟩
    rw [Pool.live_put, hlive, mem_filter, decide_eq_true_eq]

/-- The bitmap is the set of the free indices, these are distinct and in the vector, `pool_get` gives an
element that is not in use, and `pool_foreach` visits the elements in use, once each and in order. -/
theorem pool_foreach_exact [Inhabited α] (h : Run p live) :
    (∀ i, clibBitmapGet p.freeBitmap i = true ↔ i ∈ p.freeIndices) ∧ p.freeIndices.Nodup ∧
      (∀ i ∈ p.freeIndices, i < p.elts.length) ∧ (poolGet p).2 ∉ live ∧
      (poolForeach p).Pairwise (· < ·) ∧ (∀ i, i ∈ poolForeach p ↔ i ∈ live) ∧
      ∀ i ∈ poolForeach p, i ∉ p.freeIndices := by
  obtain ⟨q, hq, hlive⟩ := h.represents
  have hmem : ∀ i, i ∈ p.freeIndices ↔ i ∈ q.freeIndices := by
    intro i
    rw [hq.indices, mem_reverse]
  have hvisit : ∀ i, i ∈ poolForeach p ↔ q.Live i := by
    intro i
    rw [hq.foreach, inUse, mem_filter, mem_range, Pool.Live]
    simp
  refine ⟨?_, ?_, ?_, ?_, ?_, ?_, ?_⟩
  · intro i
    rw [hq.bitmap, hmem, decide_eq_true_eq]
  · rw [hq.indices]
    exact nodup_reverse.mpr q.nodup
  · intro i hi
    rw [hq.elts]
    exact q.bound i ((hmem i).mp hi)
  · rw [← hlive, hq.get.2]
    exact q.not_live_get
  · rw [hq.foreach]
    exact List.Pairwise.filter _ pairwise_lt_range
  · intro i
    rw [hvisit, hlive]
  · intro i hi
    rw [hmem]
    exact ((hvisit i).mp hi).2

theorem run_threeGets : Run (poolGet (poolGet (poolGet (.empty : PoolVec Nat)).1).1).1 [2, 1, 0] :=
  .get (.get (.get .empty))

/-- Three elements, the middle one freed. -/
theorem pool_foreach_exact_three :
    let p := poolPut (poolGet (poolGet (poolGet (.empty : PoolVec Nat)).1).1).1 1
    (poolGet p).2 ∉ [2, 0] ∧ (poolForeach p).Pairwise (· < ·) ∧ ∀ i, i ∈ poolForeach p ↔ i ∈ [2, 0] := by
  have h := pool_foreach_exact (Run.put run_threeGets (show 1 ∈ [2, 1, 0] by decide))
  exact ⟨h.2.2.2.1, h.2.2.2.2.1, h.2.2.2.2.2.1⟩

end

/-- The index after one, where nothing stands for all ones, and comes before the first index. -/
def following : Option Nat → Nat
  | none => 0
  | some i => i + 1

def poolNextIndex (p : PoolVec α) (i : Option Nat) : Option Nat :=
  let rv := following i
  if rv < p.elts.length then some (clibBitmapNextClear p.freeBitmap rv) else none

/-- The least index in use after one, or nothing. -/
structure NextLive (p : PoolVec α) (live : List Nat) (i : Option Nat) : Prop where
  some : ∀ k, poolNextIndex p i = some k ↔ IsLeast {j | following i ≤ j ∧ j ∈ live} k
  none : poolNextIndex p i = none ↔ ∀ j ∈ live, j < following i

/-- There is an index in use ahead, and the free bitmap either ends before it is searched or does not end with free
indices only. -/
def Ahead (p : PoolVec α) (live : List Nat) (i : Option Nat) : Prop :=
  p.elts.length ≤ following i ∨ (∃ j ∈ live, following i ≤ j) ∧
    (p.freeBitmap.length * 64 ≤ following i ∨
      ∃ j, following i ≤ j ∧ j < p.freeBitmap.length * 64 ∧ clibBitmapGet p.freeBitmap j = false)

/-- An iteration from `i` on that has come to `j`, with elements freed on the way. -/
inductive Iterates (p : PoolVec α) (live : List Nat) (i : Option Nat) :
    List Nat → PoolVec α → List Nat → Option Nat → Prop
  | start : Iterates p live i [] p live i
  | visit : Iterates p live i ks q live' j → Ahead q live' j → poolNextIndex q j = some k →
      Iterates p live i (ks ++ [k]) q live' (some k)
  | free : Iterates p live i ks q live' j → k ∈ live' →
      Iterates p live i ks (poolPut q k) (live'.filter (· ≠ k)) j

variable {p q : PoolVec α} {live live' : List Nat} {i j : Option Nat} {ks : List Nat}

theorem Run.live_iff [Inhabited α] (h : Run p live) (j : Nat) :
    j ∈ live ↔ j < p.elts.length ∧ clibBitmapGet p.freeBitmap j = false := by
  obtain ⟨q, hq, hlive⟩ := h.represents
  rw [← hlive, Pool.Live, hq.elts, hq.bitmap, decide_eq_false_iff_not]

theorem nextLive_iff [Inhabited α] (h : Run p live) (i : Option Nat) : NextLive p live i ↔ Ahead p live i := by
  have hlive := h.live_iff
  by_cases hend : p.elts.length ≤ following i
  · have hnone : poolNextIndex p i = none := by
      rw [poolNextIndex, if_neg (Nat.not_lt.mpr hend)]
    have hbefore : ∀ j ∈ live, j < following i := fun j hj => ((hlive j).mp hj).1.trans_le hend
    refine iff_of_true ⟨?_, iff_of_true hnone hbefore⟩ (.inl hend)
    intro k
    refine iff_of_false ?_ ?_
    · rw [hnone]
      exact (Option.some_ne_none k).symm
    · exact fun hk => absurd hk.1.1 (Nat.not_le.mpr (hbefore k hk.1.2))
  · have hnext : poolNextIndex p i = some (clibBitmapNextClear p.freeBitmap (following i)) := by
      rw [poolNextIndex, if_pos (Nat.lt_of_not_le hend)]
    -- the least clear bit is the least index in use where there is one
    have hleast {k : Nat} (hk : k < p.elts.length) : IsLeast {j | following i ≤ j ∧ j ∈ live} k ↔
        IsLeast {j | following i ≤ j ∧ clibBitmapGet p.freeBitmap j = false} k := by
      constructor
      · intro h
        refine ⟨⟨h.1.1, ((hlive k).mp h.1.2).2⟩, ?_⟩
        intro j hj
        rcases Nat.lt_or_ge j p.elts.length with hlt | hge
        · exact h.2 ⟨hj.1, (hlive j).mpr ⟨hlt, hj.2⟩⟩
        · exact hk.le.trans hge
      · intro h
        exact ⟨⟨h.1.1, (hlive k).mpr ⟨hk, h.1.2⟩⟩, fun j hj => h.2 ⟨hj.1, ((hlive j).mp hj.2).2⟩⟩
    have hclear := isLeast_nextClear_iff p.freeBitmap (following i)
    generalize clibBitmapNextClear p.freeBitmap (following i) = c at hnext hclear
    constructor
    · intro hn
      have hc := (hn.some c).mp hnext
      have hlt := ((hlive c).mp hc.1.2).1
      exact .inr ⟨⟨c, hc.1.2, hc.1.1⟩, hclear.mp ((hleast hlt).mp hc)⟩
    · intro ha
      obtain ⟨⟨j, hj, hle⟩, hbits⟩ := ha.resolve_left hend
      have hc := hclear.mpr hbits
      have hlt : c < p.elts.length := (hc.2 ⟨hle, ((hlive j).mp hj).2⟩).trans_lt ((hlive j).mp hj).1
      refine ⟨?_, ?_⟩
      · intro k
        rw [hnext, Option.some_inj]
        constructor
        · intro he
          exact he ▸ (hleast hlt).mpr hc
        · exact fun hk => ((hleast hlt).mpr hc).unique hk
      · refine iff_of_false ?_ ?_
        · rw [hnext]
          exact Option.some_ne_none c
        · exact fun hall => absurd (hall j hj) (Nat.not_lt.mpr hle)

structure Visited (live : List Nat) (i : Option Nat) (ks live' : List Nat) (j : Option Nat) : Prop where
  sorted : ks.Pairwise (· < ·)
  mem : ∀ k ∈ ks, k ∈ live ∧ following i ≤ k ∧ k < following j
  subset : live' ⊆ live
  following_le : following i ≤ following j
  complete : ∀ k ∈ live', following i ≤ k → k < following j → k ∈ ks

theorem Visited.next (h : Visited live i ks live' j) (hk : IsLeast {l | following j ≤ l ∧ l ∈ live'} k) :
    Visited live i (ks ++ [k]) live' (some k) := by
  obtain ⟨⟨hle, hmem⟩, hmin⟩ := hk
  have hi := h.following_le
  have hfollow : following (some k) = k + 1 := rfl
  constructor
  · rw [pairwise_append]
    refine ⟨h.sorted, pairwise_singleton _ _, ?_⟩
    intro a ha b hb
    rw [mem_singleton.mp hb]
    exact (h.mem a ha).2.2.trans_le hle
  · intro a ha
    rcases mem_append.mp ha with ha | ha
    · obtain ⟨hlive, hlo, hlt⟩ := h.mem a ha
      exact ⟨hlive, hlo, by omega⟩
    · rw [mem_singleton.mp ha]
      exact ⟨h.subset hmem, by omega, by omega⟩
  · exact h.subset
  · omega
  · intro a ha hlo hlt
    rcases Nat.lt_or_ge a (following j) with hbefore | hge
    · exact mem_append_left _ (h.complete a ha hlo hbefore)
    · have hak := hmin ⟨hge, ha⟩
      rw [show a = k by omega]
      exact mem_append_right ks mem_cons_self

theorem Iterates.visited [Inhabited α] (h : Run p live) (hit : Iterates p live i ks q live' j) :
    Run q live' ∧ Visited live i ks live' j := by
  induction hit with
  | start =>
    exact ⟨h, .nil, fun k hk => absurd hk not_mem_nil, List.Subset.refl _, Nat.le_refl _,
      fun k _ hlo hlt => absurd hlo (Nat.not_le.mpr hlt)⟩
  | visit _ hahead hk ih =>
    obtain ⟨hrun, hv⟩ := ih
    exact ⟨hrun, hv.next ((((nextLive_iff hrun _).mpr hahead).some _).mp hk)⟩
  | free _ hk ih =>
    obtain ⟨hrun, hv⟩ := ih
    refine ⟨hrun.put hk, hv.sorted, hv.mem, ?_, hv.following_le, ?_⟩
    · exact fun a ha => hv.subset (mem_filter.mp ha).1
    · exact fun a ha => hv.complete a (mem_filter.mp ha).1

theorem pool_next_index [Inhabited α] (h : Run p live) :
    (∀ i, NextLive p live i ↔ Ahead p live i) ∧
      ∀ i ks q live' j, Iterates p live i ks q live' j → Ahead q live' j →
        ks.Pairwise (· < ·) ∧ ks ⊆ live ∧ ks.length ≤ live.length ∧
          (∀ k, poolNextIndex q j = some k → k ∈ live' ∧ k ∉ ks) ∧
          (poolNextIndex q j = none → ∀ k ∈ live', following i ≤ k → k ∈ ks) := by
  refine ⟨nextLive_iff h, ?_⟩
  intro i ks q live' j hit hahead
  obtain ⟨hrun, hv⟩ := hit.visited h
  have hnext := (nextLive_iff hrun j).mpr hahead
  have hsub : ks ⊆ live := fun k hk => (hv.mem k hk).1
  refine ⟨hv.sorted, hsub, ?_, ?_, ?_⟩
  · exact (subperm_of_subset (hv.sorted.imp Nat.ne_of_lt) hsub).length_le
  · intro k hk
    obtain ⟨⟨hle, hmem⟩, -⟩ := (hnext.some k).mp hk
    refine ⟨hmem, ?_⟩
    intro hin
    exact absurd (hv.mem k hin).2.2 (Nat.not_lt.mpr hle)
  · intro hnone k hk hlo
    exact hv.complete k hk hlo (hnext.none.mp hnone k hk)

/-- Of three elements the middle one is free. -/
theorem pool_next_index_three :
    poolNextIndex (poolPut (poolGet (poolGet (poolGet (.empty : PoolVec Nat)).1).1).1 1) (some 0) = some 2 := by
  have hspec := (pool_next_index (Run.put run_threeGets (show 1 ∈ [2, 1, 0] by decide))).1 (some 0)
  refine ((hspec.mpr ?_).some 2).mpr ⟨by decide, ?_⟩
  · exact .inr ⟨⟨2, by decide, by decide⟩, .inr ⟨2, by decide, by decide, by decide⟩⟩
  · intro j hj
    obtain ⟨hle, hmem⟩ := hj
    have hmem' : j ∈ [2, 0] := hmem
    simp only [mem_cons, not_mem_nil, or_false] at hmem'
    rcases hmem' with rfl | rfl
    · exact Nat.le_refl _
    · exact absurd hle (by decide)

/-- Of three elements the last one is free, and it is found after the first two. -/
theorem pool_next_index_fails : ¬ ∀ (p : PoolVec Nat) (live : List Nat) (i : Option Nat), Run p live →
    NextLive p live i := by
  intro h
  have hrun := Run.put run_threeGets (show 2 ∈ [2, 1, 0] by decide)
  have hnext := h _ _ (some 1) hrun
  have hmem := ((hnext.some 3).mp (by decide)).1.2
  exact absurd hmem (by decide)

end Vpp.Infra
