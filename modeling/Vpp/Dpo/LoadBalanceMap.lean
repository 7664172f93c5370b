import Mathlib.Data.BitVec
import Vpp.Lib.RoundRobin

namespace Vpp.Dpo
open Vpp.Lib List

structure LoadBalanceMapPath where
  lbmpIndex : Nat
  lbmpWeight : Nat

/-- The first pass: the scratch space, the bucket that is looked at and the end of what is written. -/
structure Scratch where
  tmpBuckets : List (BitVec 16)
  bucket : Nat
  jj : Nat

def Scratch.use (s : Scratch) : Scratch :=
  { tmpBuckets := s.tmpBuckets.set s.jj (BitVec.ofNat 16 s.bucket), bucket := s.bucket + 1, jj := s.jj + 1 }

def Scratch.path (fibPathIsResolved : Nat → Bool) (s : Scratch) (lbmp : LoadBalanceMapPath) : Scratch :=
  if fibPathIsResolved lbmp.lbmpIndex then Scratch.use^[lbmp.lbmpWeight] s
  else { s with bucket := s.bucket + lbmp.lbmpWeight }

/-- The second pass: the real buckets, the bucket that is written and the cursor in the scratch space. -/
structure Filling where
  lbmBuckets : List (BitVec 16)
  bucket : Nat
  jj : Nat

def Filling.keep (s : Filling) : Filling :=
  { s with lbmBuckets := s.lbmBuckets.set s.bucket (BitVec.ofNat 16 s.bucket), bucket := s.bucket + 1 }

def Filling.redirect (tmpBuckets : List (BitVec 16)) (s : Filling) : Filling :=
  { lbmBuckets := s.lbmBuckets.set s.bucket (tmpBuckets.getD s.jj 0), bucket := s.bucket + 1,
    jj := (s.jj + 1) % tmpBuckets.length }

def Filling.path (fibPathIsResolved : Nat → Bool) (tmpBuckets : List (BitVec 16)) (s : Filling)
    (lbmp : LoadBalanceMapPath) : Filling :=
  if fibPathIsResolved lbmp.lbmpIndex then Filling.keep^[lbmp.lbmpWeight] s
  else (Filling.redirect tmpBuckets)^[lbmp.lbmpWeight] s

/-- The buckets after the fill. A bucket holds a 16-bit word, the counters are wide enough for any vector. -/
def loadBalanceMapFill (fibPathIsResolved : Nat → Bool) (lbmPaths : List LoadBalanceMapPath)
    (lbmBuckets : List (BitVec 16)) : List (BitVec 16) :=
  let nBuckets := lbmBuckets.length
  let s := lbmPaths.foldl (Scratch.path fibPathIsResolved)
    { tmpBuckets := List.replicate nBuckets 0, bucket := 0, jj := 0 }
  let tmpBuckets := s.tmpBuckets.take s.jj
  if s.jj = nBuckets then
    -- every path is up
    tmpBuckets
  else if tmpBuckets.length = 0 then
    (Filling.keep^[nBuckets] { lbmBuckets, bucket := 0, jj := 0 }).lbmBuckets
  else
    (lbmPaths.foldl (Filling.path fibPathIsResolved tmpBuckets)
      { lbmBuckets, bucket := 0, jj := 0 }).lbmBuckets

def bucketsUp (fibPathIsResolved : Nat → Bool) (lbmPaths : List LoadBalanceMapPath) : List Bool :=
  lbmPaths.flatMap fun lbmp => List.replicate lbmp.lbmpWeight (fibPathIsResolved lbmp.lbmpIndex)

/-- The number of buckets of unusable paths that map to `u`. -/
def redirectedTo (up : List Bool) (buckets : List (BitVec 16)) (u : Nat) : Nat :=
  (up.zip (buckets.map BitVec.toNat)).count (false, u)

def anyResolved (fibPathIsResolved : Nat → Bool) (lbmPaths : List LoadBalanceMapPath) : Prop :=
  ∃ lbmp ∈ lbmPaths, fibPathIsResolved lbmp.lbmpIndex = true

/-- What a map is for: usable buckets stay, the others are shared out evenly over the usable ones. -/
structure FilledRight (anyUp : Prop) (up : List Bool) (buckets : List (BitVec 16)) : Prop where
  all : buckets.length = up.length
  inRange : ∀ b ∈ buckets, b.toNat < up.length
  own : anyUp → ∀ b : Nat, up[b]? = some true → (buckets.map BitVec.toNat)[b]? = some b
  usable : anyUp → ∀ b : Nat, up[b]? = some false →
    ∃ u : Nat, (buckets.map BitVec.toNat)[b]? = some u ∧ up[u]? = some true
  even : anyUp → ∀ u v : Nat, up[u]? = some true → up[v]? = some true →
    redirectedTo up buckets u ≤ redirectedTo up buckets v + 1
  identity : ¬ anyUp → buckets.map BitVec.toNat = List.range up.length

/-- The usable buckets in order, when the first of `up` is bucket `bucket`. -/
def usableFrom : (bucket : Nat) → (up : List Bool) → List Nat
  | _, [] => []
  | bucket, true :: up => bucket :: usableFrom (bucket + 1) up
  | bucket, false :: up => usableFrom (bucket + 1) up

def Scratch.one (s : Scratch) (up : Bool) : Scratch :=
  if up then s.use else { s with bucket := s.bucket + 1 }

def Filling.one (tmpBuckets : List (BitVec 16)) (s : Filling) (up : Bool) : Filling :=
  if up then s.keep else s.redirect tmpBuckets

theorem Scratch.skips (s : Scratch) (n : Nat) :
    (List.replicate n false).foldl Scratch.one s = { s with bucket := s.bucket + n } := by
  induction n generalizing s with
  | zero => rfl
  | succ n ih =>
    rw [List.replicate_succ, foldl_cons, ih]
    simp [Scratch.one, Nat.add_assoc, Nat.add_comm 1 n]

theorem foldl_replicate (f : σ → Bool → σ) (b : Bool) (n : Nat) (s : σ) :
    (List.replicate n b).foldl f s = (fun s => f s b)^[n] s := by
  induction n generalizing s with
  | zero => rfl
  | succ n ih => rw [List.replicate_succ, foldl_cons, ih, Function.iterate_succ_apply]

variable (r : Nat → Bool)

theorem bucketsUp_cons (lbmp : LoadBalanceMapPath) (lbmPaths : List LoadBalanceMapPath) :
    bucketsUp r (lbmp :: lbmPaths)
      = List.replicate lbmp.lbmpWeight (r lbmp.lbmpIndex) ++ bucketsUp r lbmPaths :=
  flatMap_cons

theorem Scratch.foldl_path (lbmPaths : List LoadBalanceMapPath) (s : Scratch) :
    lbmPaths.foldl (Scratch.path r) s = (bucketsUp r lbmPaths).foldl Scratch.one s := by
  induction lbmPaths generalizing s with
  | nil => rfl
  | cons lbmp lbmPaths ih =>
    have hone : Scratch.path r s lbmp
        = (List.replicate lbmp.lbmpWeight (r lbmp.lbmpIndex)).foldl Scratch.one s := by
      cases h : r lbmp.lbmpIndex with
      | true => rw [foldl_replicate, Scratch.path, h]; rfl
      | false => rw [Scratch.skips, Scratch.path, h]; rfl
    rw [foldl_cons, ih, bucketsUp_cons, foldl_append, hone]

theorem Filling.foldl_path (tmp : List (BitVec 16)) (lbmPaths : List LoadBalanceMapPath)
    (s : Filling) :
    lbmPaths.foldl (Filling.path r tmp) s = (bucketsUp r lbmPaths).foldl (Filling.one tmp) s := by
  induction lbmPaths generalizing s with
  | nil => rfl
  | cons lbmp lbmPaths ih =>
    have hone : Filling.path r tmp s lbmp
        = (List.replicate lbmp.lbmpWeight (r lbmp.lbmpIndex)).foldl (Filling.one tmp) s := by
      rw [foldl_replicate]
      cases h : r lbmp.lbmpIndex with
      | true => rw [Filling.path, h]; rfl
      | false => rw [Filling.path, h]; rfl
    rw [foldl_cons, ih, bucketsUp_cons, foldl_append, hone]

theorem bucketsUp_length (lbmPaths : List LoadBalanceMapPath) :
    (bucketsUp r lbmPaths).length = (lbmPaths.map LoadBalanceMapPath.lbmpWeight).sum := by
  simp [bucketsUp, length_flatMap]

theorem true_mem_bucketsUp {r : Nat → Bool} {lbmPaths : List LoadBalanceMapPath}
    (positive : ∀ lbmp ∈ lbmPaths, 0 < lbmp.lbmpWeight) :
    true ∈ bucketsUp r lbmPaths ↔ anyResolved r lbmPaths := by
  rw [bucketsUp, mem_flatMap, anyResolved]
  apply exists_congr
  intro lbmp
  rw [and_congr_right_iff]
  intro h
  have := positive lbmp h
  rw [mem_replicate]
  constructor
  · intro h
    exact h.2.symm
  · intro h
    exact ⟨by omega, h.symm⟩

/-- The buckets from `bucket` on when `k` of them have been redirected so far. -/
def mappedFrom (tmpBuckets : List (BitVec 16)) : (bucket k : Nat) → (up : List Bool) → List (BitVec 16)
  | _, _, [] => []
  | bucket, k, true :: up => BitVec.ofNat 16 bucket :: mappedFrom tmpBuckets (bucket + 1) k up
  | bucket, k, false :: up => turn tmpBuckets 0 k :: mappedFrom tmpBuckets (bucket + 1) (k + 1) up

theorem take_set_succ {xs : List α} {j : Nat} (h : j < xs.length) (x : α) :
    (xs.set j x).take (j + 1) = xs.take j ++ [x] := by
  rw [take_add_one, take_set_of_le (Nat.le_refl j), getElem?_set_self h]
  rfl

theorem Scratch.foldl_one (up : List Bool) (s : Scratch)
    (room : s.jj + (usableFrom s.bucket up).length ≤ s.tmpBuckets.length) :
    let t := up.foldl Scratch.one s
    t.jj = s.jj + (usableFrom s.bucket up).length ∧
      t.tmpBuckets.take t.jj = s.tmpBuckets.take s.jj ++ (usableFrom s.bucket up).map (BitVec.ofNat 16) := by
  induction up generalizing s with
  | nil => simp [usableFrom]
  | cons b up ih =>
    cases b with
    | false => exact ih { s with bucket := s.bucket + 1 } room
    | true =>
      have hlen : (usableFrom s.bucket (true :: up)).length
          = (usableFrom (s.bucket + 1) up).length + 1 := rfl
      rw [hlen] at room
      have hroom : s.use.jj + (usableFrom s.use.bucket up).length ≤ s.use.tmpBuckets.length := by
        simp only [Scratch.use, length_set]
        omega
      obtain ⟨hjj, htake⟩ := ih s.use hroom
      have hj : s.jj < s.tmpBuckets.length := by omega
      have hone : s.one true = s.use := rfl
      simp only [foldl_cons, hone, usableFrom, length_cons, map_cons]
      constructor
      · rw [hjj]
        simp only [Scratch.use]
        omega
      · rw [htake]
        simp only [Scratch.use]
        rw [take_set_succ hj, List.append_assoc]
        rfl

theorem Filling.foldl_one (tmp : List (BitVec 16)) (up : List Bool) (s : Filling) (k : Nat)
    (cursor : s.jj = k % tmp.length) (room : s.bucket + up.length ≤ s.lbmBuckets.length) :
    let t := up.foldl (Filling.one tmp) s
    t.lbmBuckets.length = s.lbmBuckets.length ∧
      t.lbmBuckets.take (s.bucket + up.length)
        = s.lbmBuckets.take s.bucket ++ mappedFrom tmp s.bucket k up := by
  induction up generalizing s k with
  | nil => simp [mappedFrom]
  | cons b up ih =>
    have hlen : (b :: up).length = up.length + 1 := rfl
    rw [hlen] at room
    have hb : s.bucket < s.lbmBuckets.length := by omega
    have hnext : s.bucket + (b :: up).length = s.bucket + 1 + up.length := by omega
    rw [foldl_cons, hnext]
    cases b with
    | true =>
      have hroom : s.keep.bucket + up.length ≤ s.keep.lbmBuckets.length := by
        simp only [Filling.keep, length_set]
        omega
      obtain ⟨hl, htake⟩ := ih s.keep k cursor hroom
      constructor
      · exact hl.trans length_set
      · refine htake.trans ?_
        simp only [Filling.keep, mappedFrom]
        rw [take_set_succ hb, List.append_assoc]
        rfl
    | false =>
      have hroom : (s.redirect tmp).bucket + up.length ≤ (s.redirect tmp).lbmBuckets.length := by
        simp only [Filling.redirect, length_set]
        omega
      have hcursor : (s.redirect tmp).jj = (k + 1) % tmp.length := by
        simp only [Filling.redirect]
        rw [cursor, Nat.mod_add_mod]
      obtain ⟨hl, htake⟩ := ih (s.redirect tmp) (k + 1) hcursor hroom
      constructor
      · exact hl.trans length_set
      · refine htake.trans ?_
        simp only [Filling.redirect, mappedFrom, turn, cursor]
        rw [take_set_succ hb, List.append_assoc]
        rfl

theorem Filling.foldl_whole (tmp : List (BitVec 16)) {up : List Bool} {lbmBuckets : List (BitVec 16)}
    (h : up.length = lbmBuckets.length) :
    (up.foldl (Filling.one tmp) { lbmBuckets, bucket := 0, jj := 0 }).lbmBuckets
      = mappedFrom tmp 0 0 up := by
  have hfold := Filling.foldl_one tmp up { lbmBuckets, bucket := 0, jj := 0 } 0 (Nat.zero_mod _).symm
    (by simp [h])
  obtain ⟨hl, htake⟩ := hfold
  simp only [Nat.zero_add, take_zero, nil_append] at hl htake
  rw [h, ← hl, take_length] at htake
  exact htake

theorem usableFrom_length_le (bucket : Nat) (up : List Bool) : (usableFrom bucket up).length ≤ up.length := by
  induction up generalizing bucket with
  | nil => simp [usableFrom]
  | cons b up ih =>
    have := ih (bucket + 1)
    cases b <;> simp only [usableFrom, length_cons] <;> omega

theorem mappedFrom_of_all (tmp : List (BitVec 16)) (bucket k : Nat) {up : List Bool}
    (h : (usableFrom bucket up).length = up.length) :
    mappedFrom tmp bucket k up = (usableFrom bucket up).map (BitVec.ofNat 16) := by
  induction up generalizing bucket with
  | nil => rfl
  | cons b up ih =>
    cases b with
    | true =>
      simp only [usableFrom, length_cons, Nat.add_right_cancel_iff] at h
      rw [mappedFrom, usableFrom, map_cons, ih _ h]
    | false =>
      have := usableFrom_length_le (bucket + 1) up
      simp only [usableFrom, length_cons] at h
      omega

theorem mappedFrom_replicate (tmp : List (BitVec 16)) (bucket k n : Nat) :
    mappedFrom tmp bucket k (List.replicate n true) = (List.range' bucket n).map (BitVec.ofNat 16) := by
  induction n generalizing bucket with
  | zero => rfl
  | succ n ih => rw [List.replicate_succ, mappedFrom, ih, range'_succ, map_cons]

theorem mem_usableFrom {u bucket : Nat} {up : List Bool} :
    u ∈ usableFrom bucket up ↔ ∃ i : Nat, u = bucket + i ∧ up[i]? = some true := by
  induction up generalizing bucket with
  | nil => simp [usableFrom]
  | cons b up ih =>
    constructor
    · intro h
      cases b with
      | true =>
        rcases mem_cons.1 h with rfl | h
        · exact ⟨0, rfl, rfl⟩
        · obtain ⟨i, rfl, hi⟩ := ih.1 h
          exact ⟨i + 1, by omega, hi⟩
      | false =>
        obtain ⟨i, rfl, hi⟩ := ih.1 h
        exact ⟨i + 1, by omega, hi⟩
    · rintro ⟨i, rfl, hi⟩
      cases i with
      | zero =>
        have : b = true := by simpa using hi
        subst this
        exact mem_cons_self
      | succ i =>
        have hi' : bucket + (i + 1) ∈ usableFrom (bucket + 1) up := ih.2 ⟨i, by omega, hi⟩
        cases b with
        | true => exact mem_cons_of_mem _ hi'
        | false => exact hi'

theorem mem_usable {u : Nat} {up : List Bool} : u ∈ usableFrom 0 up ↔ up[u]? = some true := by
  rw [mem_usableFrom]
  simp

variable {up : List Bool}

theorem usableFrom_eq_nil : usableFrom 0 up = [] ↔ true ∉ up := by
  rw [eq_nil_iff_forall_not_mem, mem_iff_getElem?]
  simp only [mem_usable, not_exists]

theorem usableFrom_nodup (bucket : Nat) (up : List Bool) : (usableFrom bucket up).Nodup := by
  induction up generalizing bucket with
  | nil => exact nodup_nil
  | cons b up ih =>
    cases b with
    | false => exact ih _
    | true =>
      apply nodup_cons.2 ⟨_, ih _⟩
      intro h
      obtain ⟨i, hi, _⟩ := mem_usableFrom.1 h
      omega

theorem loadBalanceMapFill_eq {lbmPaths : List LoadBalanceMapPath}
    {lbmBuckets : List (BitVec 16)}
    (sum : (lbmPaths.map LoadBalanceMapPath.lbmpWeight).sum = lbmBuckets.length) :
    loadBalanceMapFill r lbmPaths lbmBuckets
      = if true ∈ bucketsUp r lbmPaths then
          mappedFrom ((usableFrom 0 (bucketsUp r lbmPaths)).map (BitVec.ofNat 16)) 0 0 (bucketsUp r lbmPaths)
        else (List.range lbmBuckets.length).map (BitVec.ofNat 16) := by
  have hlen : (bucketsUp r lbmPaths).length = lbmBuckets.length := by rw [bucketsUp_length, sum]
  have hroom := usableFrom_length_le 0 (bucketsUp r lbmPaths)
  have hscratch := Scratch.foldl_one (bucketsUp r lbmPaths)
    { tmpBuckets := List.replicate lbmBuckets.length 0, bucket := 0, jj := 0 } (by simp; omega)
  simp only [Nat.zero_add, take_zero, nil_append] at hscratch
  obtain ⟨hjj, htake⟩ := hscratch
  rw [hjj] at htake
  simp only [loadBalanceMapFill, Scratch.foldl_path, Filling.foldl_path, hjj, htake]
  generalize bucketsUp r lbmPaths = up at *
  by_cases hall : (usableFrom 0 up).length = lbmBuckets.length
  · rw [if_pos hall]
    split
    case isTrue => rw [mappedFrom_of_all _ _ _ (hall.trans hlen.symm)]
    case isFalse h =>
      have hnil := usableFrom_eq_nil.2 h
      have hzero : lbmBuckets.length = 0 := by rw [← hall, hnil]; rfl
      rw [hnil, hzero]
      rfl
  · rw [if_neg hall, length_map]
    by_cases h : true ∈ up
    · have hne : (usableFrom 0 up).length ≠ 0 := by
        intro hzero
        exact usableFrom_eq_nil.1 (length_eq_zero_iff.1 hzero) h
      rw [if_neg hne, if_pos h, Filling.foldl_whole _ hlen]
    · have hzero : (usableFrom 0 up).length = 0 := by rw [usableFrom_eq_nil.2 h]; rfl
      have hkeep := foldl_replicate (Filling.one []) true lbmBuckets.length
        { lbmBuckets, bucket := 0, jj := 0 }
      have hn : (List.replicate lbmBuckets.length true).length = lbmBuckets.length := length_replicate
      have hwhole := Filling.foldl_whole [] hn
      rw [hkeep, mappedFrom_replicate] at hwhole
      rw [if_pos hzero, if_neg h, range_eq_range']
      exact hwhole

theorem mappedFrom_length (tmp : List (BitVec 16)) (bucket k : Nat) (up : List Bool) :
    (mappedFrom tmp bucket k up).length = up.length := by
  induction up generalizing bucket k with
  | nil => rfl
  | cons b up ih => cases b <;> simp only [mappedFrom, length_cons, ih]

theorem mappedFrom_own (tmp : List (BitVec 16)) (bucket k : Nat) {up : List Bool} {i : Nat}
    (h : up[i]? = some true) : (mappedFrom tmp bucket k up)[i]? = some (BitVec.ofNat 16 (bucket + i)) := by
  induction up generalizing bucket k i with
  | nil => cases h
  | cons b up ih =>
    cases i with
    | zero =>
      have : b = true := by simpa using h
      subst this
      rfl
    | succ i =>
      have hnext : bucket + (i + 1) = bucket + 1 + i := by omega
      rw [hnext]
      cases b with
      | true => exact ih _ _ h
      | false => exact ih _ _ h

theorem mappedFrom_down (tmp : List (BitVec 16)) (bucket k : Nat) {up : List Bool} {i : Nat}
    (h : up[i]? = some false) : ∃ j, (mappedFrom tmp bucket k up)[i]? = some (turn tmp 0 j) := by
  induction up generalizing bucket k i with
  | nil => cases h
  | cons b up ih =>
    cases i with
    | zero =>
      have : b = false := by simpa using h
      subst this
      exact ⟨k, rfl⟩
    | succ i =>
      cases b with
      | true => exact ih _ _ h
      | false => exact ih _ _ h

theorem toNat_turn (tmp : List (BitVec 16)) (k : Nat) :
    (turn tmp 0 k).toNat = turn (tmp.map BitVec.toNat) 0 k := by
  rw [turn, turn, length_map]
  exact (List.getD_map _ _ BitVec.toNat).symm

theorem redirected_count (tmp : List (BitVec 16)) (bucket k u : Nat) (up : List Bool) :
    redirectedTo up (mappedFrom tmp bucket k up) u
      = ((List.range' k (up.count false)).map (turn (tmp.map BitVec.toNat) 0)).count u := by
  induction up generalizing bucket k with
  | nil => rfl
  | cons b up ih =>
    cases b with
    | true =>
      rw [mappedFrom, count_cons_of_ne (by decide), ← ih (bucket + 1) k]
      simp [redirectedTo]
    | false =>
      rw [mappedFrom, count_cons_self, range'_succ, map_cons, count_cons,
        ← ih (bucket + 1) (k + 1)]
      have hturn : (turn tmp (0#16) k).toNat = turn (tmp.map BitVec.toNat) 0 k := toNat_turn tmp k
      simp [redirectedTo, count_cons, hturn]

/-- The buckets that have to be written into a 16-bit word fit there. -/
def Representable (anyUp : Prop) (up : List Bool) : Prop :=
  (anyUp → ∀ b : Nat, up[b]? = some true → b < 2 ^ 16) ∧ (¬ anyUp → up.length ≤ 2 ^ 16)

theorem FilledRight.representable {anyUp : Prop} {up : List Bool} {buckets : List (BitVec 16)}
    (h : FilledRight anyUp up buckets) : Representable anyUp up := by
  have hword : ∀ b : Nat, (buckets.map BitVec.toNat)[b]? = some b → b < 2 ^ 16 := by
    intro b hb
    rw [getElem?_map] at hb
    obtain ⟨w, _, hw⟩ := Option.map_eq_some_iff.1 hb
    rw [← hw]
    exact w.isLt
  constructor
  · intro hup b hb
    exact hword b (h.own hup b hb)
  · intro hup
    by_contra hlarge
    have hb : (buckets.map BitVec.toNat)[2 ^ 16]? = some (2 ^ 16) := by
      rw [h.identity hup, getElem?_range (by omega)]
    exact absurd (hword _ hb) (Nat.lt_irrefl _)

theorem map_toNat_ofNat {xs : List Nat} (h : ∀ x ∈ xs, x < 2 ^ 16) :
    (xs.map (BitVec.ofNat 16)).map BitVec.toNat = xs := by
  rw [List.map_map]
  calc xs.map (BitVec.toNat ∘ BitVec.ofNat 16)
    _ = xs.map id := map_congr_left fun x hx => Nat.mod_eq_of_lt (h x hx)
    _ = xs := List.map_id xs

theorem map_toNat_mem {buckets : List (BitVec 16)} {b : BitVec 16} (h : b ∈ buckets) :
    ∃ i : Nat, (buckets.map BitVec.toNat)[i]? = some b.toNat := by
  obtain ⟨i, hi⟩ := mem_iff_getElem?.1 h
  exact ⟨i, by rw [getElem?_map, hi]; rfl⟩

theorem lt_of_up {u : Nat} {b : Bool} (h : up[u]? = some b) : u < up.length :=
  (List.getElem?_eq_some_iff.1 h).1

/-- With some path up: every field of the specification for what the passes write. -/
theorem mappedFrom_right (hup : true ∈ up)
    (small : ∀ b : Nat, up[b]? = some true → b < 2 ^ 16) :
    FilledRight True up (mappedFrom ((usableFrom 0 up).map (BitVec.ofNat 16)) 0 0 up) := by
  have htmp : ((usableFrom 0 up).map (BitVec.ofNat 16)).map BitVec.toNat = usableFrom 0 up :=
    map_toNat_ofNat fun u hu => small u (mem_usable.1 hu)
  have hne : usableFrom 0 up ≠ [] := fun h => usableFrom_eq_nil.1 h hup
  generalize hm : (usableFrom 0 up).map (BitVec.ofNat 16) = tmp at *
  have hown : ∀ b : Nat, up[b]? = some true →
      ((mappedFrom tmp 0 0 up).map BitVec.toNat)[b]? = some b := by
    intro b hb
    rw [getElem?_map, mappedFrom_own tmp 0 0 hb, Nat.zero_add]
    exact congrArg some (Nat.mod_eq_of_lt (small b hb))
  have husable : ∀ b : Nat, up[b]? = some false →
      ∃ u : Nat, ((mappedFrom tmp 0 0 up).map BitVec.toNat)[b]? = some u ∧ up[u]? = some true := by
    intro b hb
    obtain ⟨j, hj⟩ := mappedFrom_down tmp 0 0 hb
    use turn (usableFrom 0 up) 0 j
    constructor
    · rw [getElem?_map, hj, Option.map_some, toNat_turn, htmp]
    · exact mem_usable.1 (turn_mem hne 0 j)
  have hlen := mappedFrom_length tmp 0 0 up
  apply FilledRight.mk hlen
  · intro w hw
    obtain ⟨i, hi⟩ := map_toNat_mem hw
    have hiup : i < up.length := by
      rw [← hlen, ← length_map BitVec.toNat]
      exact (List.getElem?_eq_some_iff.1 hi).1
    have hget := List.getElem?_eq_getElem hiup
    cases hb : up[i] with
    | true =>
      have heq := (hown i (hget.trans (congrArg some hb))).symm.trans hi
      rw [← Option.some.inj heq]
      exact hiup
    | false =>
      obtain ⟨u, hu, husup⟩ := husable i (hget.trans (congrArg some hb))
      rw [← Option.some.inj (hu.symm.trans hi)]
      exact lt_of_up husup
  · exact fun _ => hown
  · exact fun _ => husable
  · intro _ u v hu hv
    rw [redirected_count, redirected_count, htmp, ← range_eq_range']
    exact count_turns_le (usableFrom_nodup 0 up) 0 (mem_usable.2 hu) (mem_usable.2 hv) _
  · exact fun h => absurd trivial h

theorem identity_right (small : up.length ≤ 2 ^ 16) :
    FilledRight False up ((List.range up.length).map (BitVec.ofNat 16)) := by
  have hmap : ((List.range up.length).map (BitVec.ofNat 16)).map BitVec.toNat = List.range up.length := by
    apply map_toNat_ofNat
    intro b hb
    have := mem_range.1 hb
    omega
  apply FilledRight.mk
  · simp
  · intro w hw
    have hmem : w.toNat ∈ ((List.range up.length).map (BitVec.ofNat 16)).map BitVec.toNat :=
      List.mem_map_of_mem hw
    rw [hmap] at hmem
    exact mem_range.1 hmem
  · exact fun h => h.elim
  · exact fun h => h.elim
  · exact fun h => h.elim
  · exact fun _ => hmap

/-- The fill is right exactly when the buckets it has to name fit into a bucket. -/
theorem loadBalanceMapFill_right_iff (r : Nat → Bool) (lbmPaths : List LoadBalanceMapPath)
    (lbmBuckets : List (BitVec 16)) (positive : ∀ lbmp ∈ lbmPaths, 0 < lbmp.lbmpWeight)
    (sum : (lbmPaths.map LoadBalanceMapPath.lbmpWeight).sum = lbmBuckets.length) :
    FilledRight (anyResolved r lbmPaths) (bucketsUp r lbmPaths) (loadBalanceMapFill r lbmPaths lbmBuckets) ↔
      Representable (anyResolved r lbmPaths) (bucketsUp r lbmPaths) := by
  constructor
  · exact FilledRight.representable
  · rintro ⟨some, none⟩
    have hlen : (bucketsUp r lbmPaths).length = lbmBuckets.length := by rw [bucketsUp_length, sum]
    rw [loadBalanceMapFill_eq r sum]
    by_cases h : anyResolved r lbmPaths
    · have hup := (true_mem_bucketsUp positive).2 h
      rw [if_pos hup, eq_true h]
      exact mappedFrom_right hup (some h)
    · have hup := mt (true_mem_bucketsUp positive).1 h
      rw [if_neg hup, eq_false h, ← hlen]
      exact identity_right (none h)

theorem loadBalanceMapFill_right_three :
    FilledRight (anyResolved (· ≠ 7) [⟨5, 2⟩, ⟨7, 1⟩, ⟨9, 1⟩]) (bucketsUp (· ≠ 7) [⟨5, 2⟩, ⟨7, 1⟩, ⟨9, 1⟩])
      (loadBalanceMapFill (· ≠ 7) [⟨5, 2⟩, ⟨7, 1⟩, ⟨9, 1⟩] (List.replicate 4 0)) ↔
    Representable (anyResolved (· ≠ 7) [⟨5, 2⟩, ⟨7, 1⟩, ⟨9, 1⟩])
      (bucketsUp (· ≠ 7) [⟨5, 2⟩, ⟨7, 1⟩, ⟨9, 1⟩]) :=
  loadBalanceMapFill_right_iff (· ≠ 7) _ _ (by simp) rfl

theorem bucketsUp_all (lbmPaths : List LoadBalanceMapPath) :
    bucketsUp (fun _ => true) lbmPaths
      = List.replicate (lbmPaths.map LoadBalanceMapPath.lbmpWeight).sum true := by
  induction lbmPaths with
  | nil => rfl
  | cons lbmp lbmPaths ih =>
    rw [bucketsUp_cons, ih, replicate_append_replicate, map_cons, sum_cons]

/-- Two usable paths of the weights 1 and 131071: bucket 65536 becomes bucket 0. -/
theorem loadBalanceMapFill_wraps :
    (∀ lbmp ∈ [LoadBalanceMapPath.mk 5 1, ⟨7, 131071⟩], 0 < lbmp.lbmpWeight) ∧
      ([LoadBalanceMapPath.mk 5 1, ⟨7, 131071⟩].map LoadBalanceMapPath.lbmpWeight).sum
        = (List.replicate 131072 (0 : BitVec 16)).length ∧
      ¬ FilledRight (anyResolved (fun _ => true) [⟨5, 1⟩, ⟨7, 131071⟩])
        (bucketsUp (fun _ => true) [⟨5, 1⟩, ⟨7, 131071⟩])
        (loadBalanceMapFill (fun _ => true) [⟨5, 1⟩, ⟨7, 131071⟩] (List.replicate 131072 0)) := by
  refine ⟨by simp, by rw [length_replicate]; rfl, ?_⟩
  intro h
  have hany : anyResolved (fun _ => true) [⟨5, 1⟩, ⟨7, 131071⟩] := ⟨⟨5, 1⟩, mem_cons_self, rfl⟩
  have hup : (bucketsUp (fun _ => true) [⟨5, 1⟩, ⟨7, 131071⟩])[2 ^ 16]? = some true := by
    have hsum : ([LoadBalanceMapPath.mk 5 1, ⟨7, 131071⟩].map LoadBalanceMapPath.lbmpWeight).sum = 131072 :=
      rfl
    rw [bucketsUp_all, hsum, getElem?_replicate, if_pos (by norm_num)]
  exact Nat.lt_irrefl _ (h.representable.1 hany _ hup)

end Vpp.Dpo
