import Vpp.Dpo.LoadBalance
import Vpp.Lib.Splice

namespace Vpp.Dpo
open List

section

variable {tolerance : ℚ} {weights : List Nat} {qsort : List Path → List Path} {raw nhs : List Path}

/-- The test that ends the search, at a block of `nAdj` adjacencies. -/
def Accepts (tolerance : ℚ) (weights : List Nat) (nAdj : Nat) : Prop :=
  (normalizeLoop nAdj weights.sum weights nAdj 0).2.2 ≤ tolerance * nAdj

instance (tolerance : ℚ) (weights : List Nat) (nAdj : Nat) : Decidable (Accepts tolerance weights nAdj) :=
  inferInstanceAs (Decidable (_ ≤ _))

/-- Every weight is in the block at least once, and `left` is what they leave of it. -/
structure Shares (weights out : List Nat) (nAdj left : Nat) : Prop where
  length_eq : out.length = weights.length
  pos : ∀ weight ∈ out, 1 ≤ weight
  sum_eq : out.sum + left = nAdj

/-- The loop either meets a weight of zero or leaves the shares. -/
theorem normalizeLoop_cases (nAdj sum : Nat) (weights : List Nat) (left : Nat) (error : ℚ) (hleft : left < 2 ^ 32) :
    (normalizeLoop nAdj sum weights left error).2.2 = nAdj ∨
      Shares weights (normalizeLoop nAdj sum weights left error).1 left
        (normalizeLoop nAdj sum weights left error).2.1 := by
  induction weights generalizing left error with
  | nil => exact .inr ⟨rfl, by simp [normalizeLoop], by simp [normalizeLoop]⟩
  | cons weight weights ih =>
    rw [normalizeLoop]
    generalize hn : (if fltRoundNearest (weight * (nAdj / sum)) > left then left
      else fltRoundNearest (weight * (nAdj / sum))) = n
    have hle : n ≤ left := by
      rw [← hn]
      split <;> omega
    simp only
    by_cases hz : n % 2 ^ 32 = 0
    · rw [if_pos hz]
      exact .inl rfl
    · rw [if_neg hz]
      have hmod : n % 2 ^ 32 = n := Nat.mod_eq_of_lt (by omega)
      generalize error + |(weight : ℚ) * (nAdj / sum) - n| = error'
      have hrest := ih (left - n) error' (by omega)
      generalize normalizeLoop nAdj sum weights (left - n) error' = r at hrest ⊢
      obtain ⟨out, left', error''⟩ := r
      rcases hrest with hbreak | hs
      · exact .inl hbreak
      · have hsum := hs.sum_eq
        simp only at hsum
        refine .inr ⟨?_, ?_, ?_⟩
        · rw [length_cons, length_cons, hs.length_eq]
        · intro w hw
          rcases mem_cons.mp hw with rfl | hw
          · omega
          · exact hs.pos w hw
        · simp only [sum_cons]
          omega

/-- Where the test is passed, what is left goes to the first. -/
theorem Accepts.shares (h : Accepts tolerance weights nAdj) (ht : tolerance < 1) (hpos : 0 < nAdj)
    (hlt : nAdj < 2 ^ 32) (hne : weights ≠ []) :
    Shares weights (addToFirst (normalizeLoop nAdj weights.sum weights nAdj 0).2.1
      (normalizeLoop nAdj weights.sum weights nAdj 0).1) nAdj 0 := by
  rcases normalizeLoop_cases nAdj weights.sum weights nAdj 0 hlt with hbreak | hs
  · rw [Accepts, hbreak] at h
    have hq : (0 : ℚ) < nAdj := by exact_mod_cast hpos
    nlinarith
  · generalize (normalizeLoop nAdj weights.sum weights nAdj 0).2.1 = left at hs
    generalize (normalizeLoop nAdj weights.sum weights nAdj 0).1 = out at hs
    cases out with
    | nil => exact absurd (length_eq_zero_iff.mp hs.length_eq.symm) hne
    | cons w out =>
      have hsum := hs.sum_eq
      have hw := hs.pos w mem_cons_self
      rw [sum_cons] at hsum
      have hmod : (w + left) % 2 ^ 32 = w + left := Nat.mod_eq_of_lt (by omega)
      refine ⟨hs.length_eq, ?_, ?_⟩
      · intro v hv
        rw [addToFirst, hmod, mem_cons] at hv
        rcases hv with rfl | hv
        · omega
        · exact hs.pos v (mem_cons_of_mem _ hv)
      · rw [addToFirst, hmod, sum_cons]
        omega

theorem accepts_zero (tolerance : ℚ) (weights : List Nat) : Accepts tolerance weights 0 := by
  cases weights with
  | nil => simp [Accepts, normalizeLoop]
  | cons weight weights =>
    have hround : fltRoundNearest 0 = 0 := by
      rw [fltRoundNearest]
      norm_num
    simp [Accepts, normalizeLoop, hround]

/-- The search ends: at the latest when the size has wrapped to zero. -/
theorem exists_normalizeFrom (tolerance : ℚ) (weights : List Nat) (hk : k ≤ 64) (hfuel : 64 - k < fuel) :
    ∃ j, k ≤ j ∧ j ≤ 64 ∧
      normalizeFrom tolerance weights weights.sum fuel (2 ^ k % 2 ^ 64) =
        some (addToFirst (normalizeLoop (2 ^ j % 2 ^ 64) weights.sum weights (2 ^ j % 2 ^ 64) 0).2.1
          (normalizeLoop (2 ^ j % 2 ^ 64) weights.sum weights (2 ^ j % 2 ^ 64) 0).1, 2 ^ j % 2 ^ 64) ∧
      Accepts tolerance weights (2 ^ j % 2 ^ 64) ∧
      ∀ i, k ≤ i → i < j → ¬ Accepts tolerance weights (2 ^ i % 2 ^ 64) := by
  induction fuel generalizing k with
  | zero => omega
  | succ fuel ih =>
    by_cases ha : Accepts tolerance weights (2 ^ k % 2 ^ 64)
    · refine ⟨k, Nat.le_refl k, hk, ?_, ha, fun i hi hlt => absurd hlt (Nat.not_lt.mpr hi)⟩
      rw [Accepts] at ha
      rw [normalizeFrom]
      simp only [if_pos ha]
    · have hlt : k < 64 := by
        by_contra hge
        obtain rfl : k = 64 := by omega
        exact ha (accepts_zero tolerance weights)
      obtain ⟨j, hj, hle, he, haj, hmin⟩ := ih hlt (by omega)
      have hdouble : 2 ^ k % 2 ^ 64 * 2 % 2 ^ 64 = 2 ^ (k + 1) % 2 ^ 64 := by
        rw [pow_succ (2 : Nat) k, Nat.mod_mul_mod]
      refine ⟨j, by omega, hle, ?_, haj, ?_⟩
      · rw [Accepts] at ha
        rw [normalizeFrom]
        simp only [if_neg ha, hdouble, he]
      · intro i hi hij
        rcases Nat.eq_or_lt_of_le hi with rfl | hlt'
        · exact ha
        · exact hmin i hlt' hij

theorem sortNextHops_perm (hq : ∀ l, (qsort l).Perm l) (raw : List Path) : (sortNextHops qsort raw).Perm raw := by
  rw [sortNextHops.eq_def]
  split
  · split
    · exact List.Perm.swap _ _ _
    · exact .refl _
  · exact hq _

theorem setWeights_map_pathWeight (h : weights.length = nhs.length) :
    (setWeights nhs weights).map Path.pathWeight = weights := by
  induction nhs generalizing weights with
  | nil => exact (length_eq_zero_iff.mp h).symm ▸ rfl
  | cons nh nhs ih =>
    cases weights with
    | nil => exact absurd h (by simp)
    | cons w weights => rw [setWeights, List.zipWith, map_cons, ← setWeights, ih (by simpa using h)]

theorem setWeights_map_pathDpo (h : weights.length = nhs.length) :
    (setWeights nhs weights).map Path.pathDpo = nhs.map Path.pathDpo := by
  induction nhs generalizing weights with
  | nil => simp [setWeights]
  | cons nh nhs ih =>
    cases weights with
    | nil => exact absurd h (by simp)
    | cons w weights => rw [setWeights, List.zipWith, map_cons, ← setWeights, ih (by simpa using h), map_cons]

/-- What the search gives: the size of the block, as a power of two, and the shares of the paths in it. -/
structure Normalized (raw nhs : List Path) (nAdj : Nat) : Prop where
  pow2 : ∃ j, nAdj = 2 ^ j
  length_le : raw.length ≤ nAdj
  pos : ∀ nh ∈ nhs, 1 ≤ nh.pathWeight
  sum_eq : (nhs.map Path.pathWeight).sum = nAdj
  paths : (nhs.map Path.pathDpo).Perm (raw.map Path.pathDpo)

/-- Some block of at most 2 ^ 15 adjacencies passes the test. -/
def FitsBuckets (qsort : List Path → List Path) (tolerance : ℚ) (raw : List Path) : Prop :=
  ∃ i ≤ 15, raw.length ≤ 2 ^ i ∧ Accepts tolerance (savedWeights (sortNextHops qsort raw)) (2 ^ i)

structure PathsOk (raw : List Path) : Prop where
  nonempty : raw ≠ []
  length_lt : raw.length < 2 ^ 32
  pos : ∀ nh ∈ raw, 1 ≤ nh.pathWeight

theorem normalizeSorted_spec (hq : ∀ l, (qsort l).Perm l) (ht : tolerance < 1) (hraw : PathsOk raw) :
    ∃ nhs nAdj, ipMultipathNormalizeNextHops.normalizeSorted tolerance (sortNextHops qsort raw) =
        some (nhs, nAdj) ∧
      (FitsBuckets qsort tolerance raw → nAdj < 2 ^ 16 ∧ Normalized raw nhs nAdj) ∧
      (¬ FitsBuckets qsort tolerance raw → nAdj = 0 ∨ 2 ^ 16 ≤ nAdj) := by
  have hperm := sortNextHops_perm hq raw
  have hlen := hperm.length_eq
  have hpos : 0 < raw.length := length_pos_iff.mpr hraw.nonempty
  rw [ipMultipathNormalizeNextHops.normalizeSorted, hlen]
  simp only [FitsBuckets]
  generalize sortNextHops qsort raw = sorted at hperm hlen
  have hw : (savedWeights sorted).length = sorted.length := by
    rw [savedWeights]
    split <;> simp
  generalize savedWeights sorted = weights at hw
  obtain ⟨k, hk, hbound⟩ := Infra.maxPow2_eq hpos
  have hk32 : k ≤ 32 := (hbound 32).mp (Nat.le_of_lt hraw.length_lt)
  obtain ⟨j, hkj, hj, he, ha, hmin⟩ := exists_normalizeFrom tolerance weights
    (show k ≤ 64 by omega) (show 64 - k < 65 by omega)
  have hk64 : 2 ^ k % 2 ^ 64 = 2 ^ k := Nat.mod_eq_of_lt (Nat.pow_lt_pow_right (by decide) (by omega))
  rw [hk64] at he
  rw [hk, he]
  refine ⟨_, _, rfl, ?_, ?_⟩
  · rintro ⟨i, hi, hlei, hai⟩
    have hji : j ≤ i := by
      by_contra hlt
      refine hmin i ((hbound i).mp hlei) (by omega) ?_
      rw [Nat.mod_eq_of_lt (Nat.pow_lt_pow_right (by decide) (by omega))]
      exact hai
    have hj16 : 2 ^ j < 2 ^ 16 := Nat.pow_lt_pow_right (by decide) (by omega)
    rw [Nat.mod_eq_of_lt (show 2 ^ j < 2 ^ 64 by omega)] at ha ⊢
    rw [Nat.mod_eq_of_lt (show 2 ^ j < 2 ^ 32 by omega)]
    have hs := ha.shares ht (Nat.two_pow_pos j) (by omega) (by
      intro hnil
      rw [hnil, length_nil] at hw
      omega)
    have hlens := hs.length_eq.trans hw
    refine ⟨hj16, ⟨j, rfl⟩, (hbound j).mpr hkj, ?_, ?_, ?_⟩
    · intro nh hmem
      have hmap := List.mem_map_of_mem (f := Path.pathWeight) hmem
      rw [setWeights_map_pathWeight hlens] at hmap
      exact hs.pos _ hmap
    · rw [setWeights_map_pathWeight hlens]
      exact hs.sum_eq
    · rw [setWeights_map_pathDpo hlens]
      exact hperm.map _
  · intro hno
    have hj16 : 16 ≤ j := by
      by_contra hlt
      refine hno ⟨j, by omega, (hbound j).mpr hkj, ?_⟩
      rw [Nat.mod_eq_of_lt (Nat.pow_lt_pow_right (by decide) (by omega))] at ha
      exact ha
    by_cases hj32 : j < 32
    · have hlt : 2 ^ j < 2 ^ 32 := Nat.pow_lt_pow_right (by decide) hj32
      have hge : 2 ^ 16 ≤ 2 ^ j := Nat.pow_le_pow_right (by decide) hj16
      rw [Nat.mod_eq_of_lt (show 2 ^ j < 2 ^ 64 by omega), Nat.mod_eq_of_lt hlt]
      exact .inr hge
    · left
      have hdvd : 2 ^ 32 ∣ 2 ^ j % 2 ^ 64 := by
        rw [Nat.dvd_mod_iff (Nat.pow_dvd_pow 2 (by decide))]
        exact Nat.pow_dvd_pow 2 (by omega)
      exact Nat.mod_eq_zero_of_dvd hdvd

theorem normalizeLoop_exact {weight nAdj sum left : Nat} (h : (weight : ℚ) * (nAdj / sum) = 1) (hleft : 1 ≤ left)
    (error : ℚ) :
    (normalizeLoop nAdj sum (weight :: weights) left error).2.2 =
      (normalizeLoop nAdj sum weights (left - 1) error).2.2 := by
  have hround : fltRoundNearest 1 = 1 := by
    have hfloor : ⌊(1 : ℚ) + 1 / 2⌋ = 1 := by
      rw [Int.floor_eq_iff]
      norm_num
    rw [fltRoundNearest, hfloor]
    rfl
  have hone : (if 1 > left then left else 1) = 1 := if_neg (by omega)
  rw [normalizeLoop]
  simp only [h, hround, hone]
  norm_num

theorem fitsBuckets_one (hq : ∀ l, (qsort l).Perm l) (ht : 0 < tolerance) (hnh : 1 ≤ nh.pathWeight) :
    FitsBuckets qsort tolerance [nh] := by
  have hsort : sortNextHops qsort [nh] = [nh] := perm_singleton.mp (sortNextHops_perm hq [nh])
  have hsaved : savedWeights [nh] = [nh.pathWeight] := if_neg (by simp; omega)
  refine ⟨0, by omega, by simp, ?_⟩
  have hne : (nh.pathWeight : ℚ) ≠ 0 := by
    norm_cast
    omega
  rw [hsort, hsaved, Accepts, normalizeLoop_exact (by simp; field_simp) (by decide), normalizeLoop]
  simp only
  positivity

theorem fitsBuckets_two (ht : 0 < tolerance) (hnh : 1 ≤ nh0.pathWeight)
    (heq : nh0.pathWeight = nh1.pathWeight) : FitsBuckets qsort tolerance [nh0, nh1] := by
  have hcmp : ¬ nextHopSortByWeight nh0 nh1 < 0 := by
    rw [nextHopSortByWeight, heq, BitVec.sub_self]
    decide
  have hsort : sortNextHops qsort [nh0, nh1] = [nh0, nh1] := if_neg hcmp
  have hsaved : savedWeights [nh0, nh1] = [nh1.pathWeight, nh1.pathWeight] := by
    have hsum : ¬ ([nh0, nh1].map Path.pathWeight).sum = 0 := by
      simp
      omega
    rw [savedWeights, if_neg hsum, ← heq]
    simp [heq]
  refine ⟨1, by omega, by simp, ?_⟩
  have hne : (nh1.pathWeight : ℚ) ≠ 0 := by
    norm_cast
    omega
  have hshare : (nh1.pathWeight : ℚ) * (((2 ^ 1 : Nat) : ℚ) /
      (([nh1.pathWeight, nh1.pathWeight].sum : Nat) : ℚ)) = 1 := by
    push_cast [sum_cons, sum_nil]
    field_simp
    ring
  rw [hsort, hsaved, Accepts, normalizeLoop_exact hshare (by decide), normalizeLoop_exact hshare (by decide),
    normalizeLoop]
  simp only
  positivity

theorem ipMultipathNormalizeNextHops_spec (hq : ∀ l, (qsort l).Perm l) (ht0 : 0 < tolerance) (ht1 : tolerance < 1)
    (hraw : PathsOk raw) :
    ∃ nhs nAdj, ipMultipathNormalizeNextHops qsort tolerance raw = some (nhs, nAdj) ∧
      (FitsBuckets qsort tolerance raw → nAdj < 2 ^ 16 ∧ Normalized raw nhs nAdj) ∧
      (¬ FitsBuckets qsort tolerance raw → nAdj = 0 ∨ 2 ^ 16 ≤ nAdj) := by
  have hsorted := normalizeSorted_spec hq ht1 hraw
  match raw with
  | [] => exact absurd rfl hraw.nonempty
  | [nh] =>
    refine ⟨_, _, rfl, fun _ => ⟨by decide, ⟨0, rfl⟩, Nat.le_refl 1, by simp, rfl, .refl _⟩, ?_⟩
    exact fun hno => absurd (fitsBuckets_one hq ht0 (hraw.pos nh mem_cons_self)) hno
  | [nh0, nh1] =>
    rw [ipMultipathNormalizeNextHops]
    by_cases heq : nh0.pathWeight = nh1.pathWeight
    · rw [if_pos heq]
      refine ⟨_, _, rfl, fun _ => ⟨by decide, ⟨1, rfl⟩, Nat.le_refl 2, by simp, rfl, .refl _⟩, ?_⟩
      exact fun hno => absurd (fitsBuckets_two ht0 (hraw.pos nh0 mem_cons_self) heq) hno
    · rw [if_neg heq]
      exact hsorted
  | _ :: _ :: _ :: _ => exact hsorted

end

open Vpp.Lib

variable {lb : LoadBalance} {edge : DpoId → Nat} {nhs : List Path} {a : Arr}

@[simp] theorem LoadBalance.arr_setArr (lb : LoadBalance) (v : List Bucket) (a : Arr) : (lb.setArr v a).arr a = v := by
  cases a <;> rfl

theorem LoadBalance.arr_setArr_ne (lb : LoadBalance) (v : List Bucket) (h : b ≠ a) :
    (lb.setArr v a).arr b = lb.arr b := by
  cases a <;> cases b <;> first | rfl | exact absurd rfl h

@[simp] theorem LoadBalance.setArr_setArr (lb : LoadBalance) (v w : List Bucket) (a : Arr) :
    (lb.setArr v a).setArr w a = lb.setArr w a := by
  cases a <;> rfl

@[simp] theorem LoadBalance.nBuckets_setArr (lb : LoadBalance) (v : List Bucket) (a : Arr) :
    (lb.setArr v a).nBuckets = lb.nBuckets := by
  cases a <;> rfl

@[simp] theorem LoadBalance.nBucketsMinus1_setArr (lb : LoadBalance) (v : List Bucket) (a : Arr) :
    (lb.setArr v a).nBucketsMinus1 = lb.nBucketsMinus1 := by
  cases a <;> rfl

@[simp] theorem LoadBalance.setArr_arr (lb : LoadBalance) (a : Arr) : lb.setArr (lb.arr a) a = lb := by
  cases a <;> rfl

@[simp] theorem LoadBalance.storeAll_nil (lb : LoadBalance) : lb.storeAll [] = lb := rfl

@[simp] theorem LoadBalance.storeAll_cons (lb : LoadBalance) (s : Store) (stores : List Store) :
    lb.storeAll (s :: stores) = (lb.store s).storeAll stores := rfl

theorem LoadBalance.storeAll_append (lb : LoadBalance) (s t : List Store) :
    lb.storeAll (s ++ t) = (lb.storeAll s).storeAll t := foldl_append

theorem LoadBalance.nBuckets_storeAll_lt (h : lb.nBuckets < 2 ^ 16) (stores : List Store) :
    (lb.storeAll stores).nBuckets < 2 ^ 16 := by
  induction stores generalizing lb with
  | nil => exact h
  | cons s stores ih =>
    apply ih
    cases s with
    | nBuckets n => exact Nat.mod_lt n (by decide)
    | nBucketsMinus1 n => exact h
    | map lbmi => exact h
    | bucket a i b => simpa only [LoadBalance.store, LoadBalance.nBuckets_setArr] using h
    | validate a n => simpa only [LoadBalance.store, LoadBalance.nBuckets_setArr] using h
    | install => exact h
    | free a => simpa only [LoadBalance.store, LoadBalance.nBuckets_setArr] using h

theorem storeAll_run (lb : LoadBalance) (a : Arr) (i n : Nat) (b : Bucket) (h : i + n ≤ (lb.arr a).length) :
    lb.storeAll (writeBuckets a i n b) = lb.setArr (splice (lb.arr a) i (List.replicate n b)) a := by
  induction n with
  | zero => simp [writeBuckets, splice_nil]
  | succ n ih =>
    have hrun : i + (List.replicate n b).length ≤ (lb.arr a).length := by
      rw [length_replicate]
      omega
    rw [writeBuckets, range_succ, map_append, LoadBalance.storeAll_append, ← writeBuckets,
      ih (by omega)]
    simp only [map_cons, map_nil, LoadBalance.storeAll_cons, LoadBalance.storeAll_nil,
      LoadBalance.store, LoadBalance.arr_setArr, LoadBalance.setArr_setArr]
    congr 1
    rw [set_eq_splice (by rw [length_splice hrun]; omega)]
    have happ := splice_append (show i ≤ (lb.arr a).length by omega) (List.replicate n b) [b]
    rw [length_replicate, ← List.replicate_succ'] at happ
    exact happ

def bucketsOf (edge : DpoId → Nat) (nhs : List Path) : List Bucket :=
  nhs.flatMap fun nh => List.replicate nh.pathWeight (some (dpoStack edge nh.pathDpo))

theorem length_bucketsOf (edge : DpoId → Nat) (nhs : List Path) :
    (bucketsOf edge nhs).length = (nhs.map Path.pathWeight).sum := by
  induction nhs with
  | nil => rfl
  | cons nh nhs ih =>
    rw [bucketsOf, flatMap_cons, length_append, length_replicate, ← bucketsOf, ih,
      map_cons, sum_cons]

theorem fillBuckets_isSome (h : ∀ nh ∈ nhs, nh.pathWeight < 2 ^ 16) (a : Arr) (i : Nat) :
    ∃ stores, fillBuckets edge a nhs i = some stores := by
  induction nhs generalizing i with
  | nil => exact ⟨_, rfl⟩
  | cons nh nhs ih =>
    obtain ⟨rest, hrest⟩ := ih (fun nh' hmem => h nh' (mem_cons_of_mem _ hmem))
      ((i + nh.pathWeight) % 2 ^ 16)
    rw [fillBuckets, if_pos (h nh mem_cons_self), hrest]
    exact ⟨_, rfl⟩

theorem storeAll_fillBuckets (h : fillBuckets edge a nhs i = some stores)
    (hsum : i + (bucketsOf edge nhs).length < 2 ^ 16) (hlen : i + (bucketsOf edge nhs).length ≤ (lb.arr a).length) :
    lb.storeAll stores = lb.setArr (splice (lb.arr a) i (bucketsOf edge nhs)) a := by
  induction nhs generalizing i stores lb with
  | nil =>
    cases h
    simp [bucketsOf, splice_nil]
  | cons nh nhs ih =>
    have happ : bucketsOf edge (nh :: nhs) =
        List.replicate nh.pathWeight (some (dpoStack edge nh.pathDpo)) ++ bucketsOf edge nhs := rfl
    rw [happ, length_append, length_replicate] at hsum hlen
    rw [fillBuckets, if_pos (by omega)] at h
    obtain ⟨rest, hrest, he⟩ := Option.bind_eq_some_iff.mp h
    cases he
    have hmod : (List.range nh.pathWeight).map (fun ii => Store.bucket a ((i + ii) % 2 ^ 16)
        (some (dpoStack edge nh.pathDpo))) = writeBuckets a i nh.pathWeight (some (dpoStack edge nh.pathDpo)) := by
      apply map_congr_left
      intro ii hii
      rw [mem_range] at hii
      rw [Nat.mod_eq_of_lt (by omega)]
    have hrun : i + (List.replicate nh.pathWeight (some (dpoStack edge nh.pathDpo))).length ≤
        (lb.arr a).length := by
      rw [length_replicate]
      omega
    have hover := splice_append (show i ≤ (lb.arr a).length by omega)
      (List.replicate nh.pathWeight (some (dpoStack edge nh.pathDpo))) (bucketsOf edge nhs)
    rw [length_replicate] at hover
    rw [Nat.mod_eq_of_lt (by omega)] at hrest
    have hlen' := length_splice hrun
    rw [LoadBalance.storeAll_append, hmod, storeAll_run lb a i _ _ (by omega),
      ih hrest (by omega) (by rw [LoadBalance.arr_setArr, hlen']; omega), LoadBalance.arr_setArr, hover,
      LoadBalance.setArr_setArr, happ]

end Vpp.Dpo
