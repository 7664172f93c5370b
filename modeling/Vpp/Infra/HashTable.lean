import Mathlib.Data.BitVec
import Mathlib.Data.List.GetD
import Vpp.Infra.HeapCells
import Vpp.Lib.KeyedList
import Vpp.Lib.SortedVec

namespace Vpp.Infra
open Vpp.Lib List Option

abbrev Uword := BitVec 64

abbrev HashPair (V : Type) := Uword × V

structure HashFlags where
  noAutoGrow : Bool := false
  noAutoShrink : Bool := false
  nextInProgress : Bool := false

/-- What a table is made with. A pair has `2 ^ log2PairSize` words. -/
structure HashHeader where
  keySum : Uword → Uword
  keyEqual : Uword → Uword → Bool
  log2PairSize : Nat
  flags : HashFlags := {}

def HashHeader.equal (hd : HashHeader) (key₁ key₂ : Uword) : Bool := key₁ == key₂ || hd.keyEqual key₁ key₂

def HashHeader.pairLog2Bytes (hd : HashHeader) : Nat := hd.log2PairSize + 3

/-- A bucket is empty, one pair that its bit says is a user's, or an array of pairs with the size of its memory. -/
inductive HashBucket (V : Type)
  | empty
  | direct (p : HashPair V)
  | indirect (pairs : List (HashPair V)) (log2Bytes : Nat)

def HashBucket.pairs : HashBucket V → List (HashPair V)
  | .empty => []
  | .direct p => [p]
  | .indirect pairs _ => pairs

def getIndirect (hd : HashHeader) (pairs : List (HashPair V)) (key : Uword) : Option (HashPair V) :=
  pairs.find? fun p => hd.equal p.1 key

def HashBucket.get (hd : HashHeader) (b : HashBucket V) (key : Uword) : Option (HashPair V) :=
  match b with
  | .empty => none
  | .direct p => if hd.equal p.1 key then some p else none
  | .indirect pairs _ => getIndirect hd pairs key

/-- Five bits for the size of the memory, unless the pairs are a vector. -/
def indirectPairSet (hd : HashHeader) (pairs : List (HashPair V)) (log2Bytes : Nat) : Option (HashBucket V) :=
  if hd.log2PairSize = 0 ∨ log2Bytes < 32 then some (.indirect pairs log2Bytes) else none

def setIndirectIsUser (hd : HashHeader) (p : HashPair V) (key : Uword) (value : V) : Option (HashBucket V) :=
  indirectPairSet hd [p, (key, value)] (1 + hd.pairLog2Bytes)

def setFound (hd : HashHeader) (key : Uword) (value : V) : List (HashPair V) → Option (List (HashPair V) × V)
  | [] => none
  | p :: pairs =>
    if hd.equal p.1 key then some ((p.1, value) :: pairs, p.2)
    else (setFound hd key value pairs).map fun (pairs, old) => (p :: pairs, old)

def setIndirect (hd : HashHeader) (pairs : List (HashPair V)) (log2Bytes : Nat) (key : Uword) (value : V) :
    Option (HashBucket V × Option V) :=
  match setFound hd key value pairs with
  | some (pairs, old) => some (.indirect pairs log2Bytes, some old)
  | none =>
    let newLen := pairs.length + 1
    let log2Bytes := if newLen * 2 ^ hd.pairLog2Bytes > 2 ^ log2Bytes then log2Bytes + 1 else log2Bytes
    (indirectPairSet hd (pairs ++ [(key, value)]) log2Bytes).map fun b => (b, none)

/-- The bucket after a key is set, and the old value when it was there. -/
def HashBucket.set (hd : HashHeader) (b : HashBucket V) (key : Uword) (value : V) : Option (HashBucket V × Option V) :=
  match b with
  | .empty => some (.direct (key, value), none)
  | .direct p =>
    if hd.equal p.1 key then some (.direct (p.1, value), some p.2)
    else (setIndirectIsUser hd p key value).map fun b => (b, none)
  | .indirect pairs log2Bytes => setIndirect hd pairs log2Bytes key value

/-- The pair at `q` goes away. The last two pairs become one direct pair. -/
def unsetIndirect (pairs : List (HashPair V)) (log2Bytes q : Nat) : HashBucket V :=
  if pairs.length ≤ 2 then
    match delSwap pairs q with
    | [] => .empty
    | p :: _ => .direct p
  else .indirect (delSwap pairs q) log2Bytes

def HashBucket.unset (hd : HashHeader) (b : HashBucket V) (key : Uword) : HashBucket V × Option V :=
  match b with
  | .empty => (.empty, none)
  | .direct p => if hd.equal p.1 key then (.empty, some p.2) else (.direct p, none)
  | .indirect pairs log2Bytes =>
    match getIndirect hd pairs key with
    | some p => (unsetIndirect pairs log2Bytes (pairs.findIdx fun p => hd.equal p.1 key), some p.2)
    | none => (.indirect pairs log2Bytes, none)

structure Hash (V : Type) extends HashHeader where
  elts : Nat
  buckets : List (HashBucket V)

def Hash.pairs (h : Hash V) : List (HashPair V) := h.buckets.flatMap HashBucket.pairs

def Hash.index (h : Hash V) (key : Uword) : Nat := (h.keySum key).toNat &&& (h.buckets.length - 1)

def Hash.bucket (h : Hash V) (i : Nat) : HashBucket V := h.buckets.getD i .empty

def lookupGet (h : Hash V) (key : Uword) : Option (HashPair V) := (h.bucket (h.index key)).get h.toHashHeader key

def lookupSet (h : Hash V) (key : Uword) (value : V) : Option (Hash V × Option V) :=
  ((h.bucket (h.index key)).set h.toHashHeader key value).map fun (b, old) =>
    ({ h with elts := h.elts + (if old.isSome then 0 else 1), buckets := h.buckets.set (h.index key) b }, old)

def lookupUnset (h : Hash V) (key : Uword) : Hash V × Option V :=
  let (b, old) := (h.bucket (h.index key)).unset h.toHashHeader key
  ({ h with elts := h.elts - (if old.isSome then 1 else 0), buckets := h.buckets.set (h.index key) b }, old)

abbrev HashPtr (V : Type) := Option (Hash V)

/-- A vector's length has 32 bits. -/
def vecLen32 (n : Nat) : Nat := n % 2 ^ 32

/-- Nothing when the length of the table does not fit a vector. -/
def hashCreate (elts : Nat) (hd : HashHeader) : Option (Hash V) :=
  let len := 2 ^ maxLog2 (max elts 64)
  if len < 2 ^ 32 then some { hd with elts := 0, buckets := List.replicate len .empty } else none

def hashMixStep (s₀ s₁ s₂ : Nat) (x : Uword × Uword × Uword) : Uword × Uword × Uword :=
  let a := (x.1 - (x.2.1 + x.2.2)) ^^^ (x.2.2 >>> s₀)
  let b := (x.2.1 - (x.2.2 + a)) ^^^ (a <<< s₁)
  let c := (x.2.2 - (a + b)) ^^^ (b >>> s₂)
  (a, b, c)

def hashUword (x : Uword) : Uword :=
  let golden : Uword := 0x9e3779b97f4a7c13
  (hashMixStep 12 18 22 (hashMixStep 35 49 11 (hashMixStep 38 23 5 (hashMixStep 43 9 8 (golden + x, golden, 0))))).2.2

def defaultHeader : HashHeader where
  keySum := hashUword
  keyEqual := fun _ _ => false
  log2PairSize := 1

/-- What a table is made with when there is no other one to follow. -/
def neverShrinkingHeader : HashHeader := { defaultHeader with flags := { noAutoShrink := true } }

/-- A new table with the pairs of the old one, each set by `set3`. A table without buckets is no table. -/
def hashResizeInternal (set3 : HashPtr V → HashPair V → Option (HashPtr V)) (old : HashPtr V) (newSize : Nat) :
    Option (HashPtr V) :=
  if newSize > 0 then
    (hashCreate newSize ((old.map Hash.toHashHeader).getD neverShrinkingHeader)).bind fun new =>
      ((old.map Hash.pairs).getD []).foldlM set3 (some new)
  else some none

/-- `fuel` is how deep a set may resize its table while it resizes a table. -/
def hashSet3 : Nat → HashPtr V → Uword → V → Option (HashPtr V × Option V)
  | 0, _, _, _ => none
  | fuel + 1, v, key, value =>
    (v.elim (hashCreate 0 defaultHeader) some).bind fun h =>
      (lookupSet h key value).bind fun (h, old) =>
        if !h.flags.noAutoGrow ∧ 4 * (h.elts + 1) > vecLen32 (3 * h.buckets.length) then
          (hashResizeInternal (fun v p => (hashSet3 fuel v p.1 p.2).map Prod.fst) (some h)
            (vecLen32 (2 * h.buckets.length))).map fun v => (v, old)
        else some (some h, old)

def hashResize (old : HashPtr V) (newSize : Nat) : Option (HashPtr V) :=
  hashResizeInternal (fun v p => (hashSet3 2 v p.1 p.2).map Prod.fst) old newSize

def hashSet (v : HashPtr V) (key : Uword) (value : V) : Option (HashPtr V × Option V) := hashSet3 3 v key value

def hashUnset (v : HashPtr V) (key : Uword) : Option (HashPtr V × Option V) :=
  match v with
  | none => some (none, none)
  | some h =>
    let (h, old) := lookupUnset h key
    if !h.flags.noAutoShrink ∧ h.elts > 32 ∧ 4 * (h.elts + 1) < h.buckets.length then
      (hashResize (some h) (h.buckets.length / 2)).map fun v => (v, old)
    else some (some h, old)

def hashGet (v : HashPtr V) (key : Uword) : Option (HashPair V) :=
  v.bind fun h => if h.elts = 0 then none else lookupGet h key

structure HashNext where
  i : Nat
  j : Nat
  f : HashFlags

def HashNext.start : HashNext := ⟨0, 0, {}⟩

/-- Nothing at the end, where the flags are as they were. -/
def hashNextLoop (h : Hash V) (hn : HashNext) : Hash V × HashNext × Option (HashPair V) :=
  if _ : hn.i ≥ h.buckets.length then ({ h with flags := hn.f }, .start, none)
  else
    match h.bucket hn.i with
    | .direct p => (h, { hn with i := hn.i + 1 }, some p)
    | b =>
      if hn.j ≥ b.pairs.length then hashNextLoop h { hn with i := hn.i + 1, j := 0 }
      else (h, { hn with j := hn.j + 1 }, b.pairs[hn.j]?)
termination_by h.buckets.length - hn.i
decreasing_by exact Nat.sub_succ_lt_self _ _ (Nat.not_le.mp ‹_›)

def hashNext (h : Hash V) (hn : HashNext) : Hash V × HashNext × Option (HashPair V) :=
  if hn.i = 0 ∧ hn.j = 0 then hashNextLoop { h with flags := ⟨true, true, true⟩ } { hn with f := h.flags }
  else hashNextLoop h hn

inductive HashOp (V : Type)
  | set (key : Uword) (value : V)
  | unset (key : Uword)
  | get (key : Uword)
  | resize (newSize : Nat)
  | setFlags (flags : HashFlags)

def hashSetFlags (h : Hash V) (flags : HashFlags) : Hash V :=
  { h with flags :=
    { noAutoGrow := h.flags.noAutoGrow || flags.noAutoGrow
      noAutoShrink := h.flags.noAutoShrink || flags.noAutoShrink
      nextInProgress := h.flags.nextInProgress || flags.nextInProgress } }

def hashStep (v : HashPtr V) : HashOp V → Option (HashPtr V)
  | .set key value => (hashSet v key value).map Prod.fst
  | .unset key => (hashUnset v key).map Prod.fst
  | .get _ => some v
  | .resize newSize => hashResize v newSize
  | .setFlags flags => v.map fun h => some (hashSetFlags h flags)

variable {hd : HashHeader} {b : HashBucket V} {key : Uword} {value : V}

/-- An array has two pairs or more, in a memory that holds them. -/
def HashBucket.Fits (hd : HashHeader) : HashBucket V → Prop
  | .empty => True
  | .direct _ => True
  | .indirect pairs log2Bytes =>
    2 ≤ pairs.length ∧ (hd.log2PairSize ≠ 0 → pairs.length * 2 ^ hd.pairLog2Bytes ≤ 2 ^ log2Bytes ∧ log2Bytes < 32)

/-- The memory of an array for this many pairs can be described. -/
def HashHeader.Room (hd : HashHeader) (n : Nat) : Prop := hd.log2PairSize ≠ 0 → n * 2 ^ hd.pairLog2Bytes ≤ 2 ^ 31

theorem HashHeader.Room.mono (h : hd.Room n) (hle : m ≤ n) : hd.Room m := fun hne =>
  (Nat.mul_le_mul_right _ hle).trans (h hne)

theorem bucket_get (b : HashBucket V) (key : Uword) : b.get hd key = lookKey hd.equal b.pairs key := by
  cases b with
  | empty => rfl
  | direct p =>
    rw [HashBucket.get, HashBucket.pairs, lookKey, find?_cons]
    cases hd.equal p.1 key <;> rfl
  | indirect pairs log2Bytes => rfl

theorem setFound_none {pairs : List (HashPair V)} (h : setFound hd key value pairs = none) :
    ∀ p ∈ pairs, ¬ hd.equal p.1 key = true := by
  induction pairs with
  | nil =>
    intro p hp
    cases hp
  | cons q pairs ih =>
    rw [setFound] at h
    by_cases hq : hd.equal q.1 key = true
    · rw [if_pos hq] at h
      cases h
    · rw [if_neg hq, map_eq_none_iff] at h
      exact forall_mem_cons.mpr ⟨hq, ih h⟩

theorem setFound_some (he : IsEqv hd.equal) {pairs : List (HashPair V)} (hdist : KeyDistinct hd.equal pairs)
    (h : setFound hd key value pairs = some (pairs', old)) :
    pairs' = putKey hd.equal pairs key value ∧ (lookKey hd.equal pairs key).map Prod.snd = some old := by
  induction pairs generalizing pairs' with
  | nil => cases h
  | cons q pairs ih =>
    obtain ⟨hfirst, hrest⟩ := pairwise_cons.mp hdist
    rw [setFound] at h
    by_cases hq : hd.equal q.1 key = true
    · rw [if_pos hq] at h
      obtain ⟨hpairs, hold⟩ := Prod.mk.inj (Option.some.inj h)
      have hnone : ∀ p ∈ pairs, ¬ hd.equal p.1 key = true := fun p hp hk =>
        hfirst p hp (he.trans hq (he.symm hk))
      rw [putKey_of_some mem_cons_self hq, map_cons, map_setKey_of_none hnone, setKey, if_pos hq, lookKey,
        find?_cons, hq]
      exact ⟨hpairs.symm, congrArg some hold⟩
    · rw [if_neg hq] at h
      obtain ⟨⟨rest, old'⟩, hrun, hout⟩ := map_eq_some_iff.mp h
      obtain ⟨hpairs, hold⟩ := Prod.mk.inj hout
      have hold' : old' = old := hold
      rw [hold'] at hrun
      obtain ⟨hput, hlook⟩ := ih hrest hrun
      rw [lookKey, find?_cons, Bool.eq_false_iff.mpr hq]
      apply And.intro _ hlook
      obtain ⟨p, hp⟩ : ∃ p, lookKey hd.equal pairs key = some p := by
        obtain ⟨p, hp, _⟩ := map_eq_some_iff.mp hlook
        exact ⟨p, hp⟩
      obtain ⟨hmem, hk⟩ := (lookKey_eq_some he hrest).mp hp
      rw [← hpairs, hput, putKey_of_some hmem hk, putKey_of_some (mem_cons_of_mem q hmem) hk, map_cons, setKey,
        if_neg hq]

theorem indirectPairSet_some (h : hd.log2PairSize ≠ 0 → log2Bytes < 32) (pairs : List (HashPair V)) :
    indirectPairSet hd pairs log2Bytes = some (.indirect pairs log2Bytes) := by
  apply if_pos
  by_cases hz : hd.log2PairSize = 0
  · exact .inl hz
  · exact .inr (h hz)

theorem setIndirect_spec (he : IsEqv hd.equal) {pairs : List (HashPair V)} (hdist : KeyDistinct hd.equal pairs)
    (hfits : (HashBucket.indirect pairs log2Bytes).Fits hd) (hroom : hd.Room (pairs.length + 1)) (key : Uword)
    (value : V) :
    ∃ b', setIndirect hd pairs log2Bytes key value = some (b', (lookKey hd.equal pairs key).map Prod.snd) ∧
      b'.pairs.Perm (putKey hd.equal pairs key value) ∧ b'.Fits hd := by
  rw [setIndirect]
  cases hfound : setFound hd key value pairs with
  | some out =>
    obtain ⟨hput, hlook⟩ := setFound_some he hdist hfound
    rw [hlook]
    have hlen : out.1.length = pairs.length := by
      rw [hput, length_putKey]
      obtain ⟨p, hp, _⟩ := map_eq_some_iff.mp hlook
      rw [hp]
      rfl
    refine ⟨.indirect out.1 log2Bytes, rfl, ?_, ?_⟩
    · rw [HashBucket.pairs, hput]
    · rw [HashBucket.Fits, hlen]
      exact hfits
  | none =>
    have hnone := setFound_none hfound
    have hlook : lookKey hd.equal pairs key = none := lookKey_eq_none.mpr hnone
    have hperm : (pairs ++ [(key, value)]).Perm (putKey hd.equal pairs key value) := by
      rw [putKey_of_none hnone]
      exact perm_append_singleton _ _
    have hlen : (pairs ++ [(key, value)]).length = pairs.length + 1 := length_append
    have htwo : 2 ≤ pairs.length + 1 := Nat.le_succ_of_le hfits.1
    rw [hlook]
    dsimp only
    by_cases hgrow : (pairs.length + 1) * 2 ^ hd.pairLog2Bytes > 2 ^ log2Bytes
    · rw [if_pos hgrow]
      have hlt : hd.log2PairSize ≠ 0 → log2Bytes + 1 < 32 := by
        intro hne
        have hpow : log2Bytes < 31 := (Nat.pow_lt_pow_iff_right Nat.one_lt_two).mp
            (Nat.lt_of_lt_of_le hgrow (hroom hne))
        omega
      rw [indirectPairSet_some hlt]
      refine ⟨_, rfl, hperm, ?_⟩
      rw [HashBucket.Fits, hlen]
      refine ⟨htwo, fun hne => ⟨?_, hlt hne⟩⟩
      have hone : 2 ^ hd.pairLog2Bytes ≤ 2 ^ log2Bytes := by
        have hpos : 0 < pairs.length := Nat.lt_of_lt_of_le Nat.two_pos hfits.1
        exact (Nat.le_mul_of_pos_left _ hpos).trans (hfits.2 hne).1
      rw [Nat.add_mul, Nat.one_mul, Nat.pow_succ, Nat.mul_two]
      exact Nat.add_le_add (hfits.2 hne).1 hone
    · rw [if_neg hgrow, indirectPairSet_some fun hne => (hfits.2 hne).2]
      refine ⟨_, rfl, hperm, ?_⟩
      rw [HashBucket.Fits, hlen]
      exact ⟨htwo, fun hne => ⟨Nat.not_lt.mp hgrow, (hfits.2 hne).2⟩⟩

theorem bucket_set (he : IsEqv hd.equal) (hdist : KeyDistinct hd.equal b.pairs) (hfits : b.Fits hd)
    (hroom : hd.Room (b.pairs.length + 1)) (key : Uword) (value : V) :
    ∃ b', b.set hd key value = some (b', (lookKey hd.equal b.pairs key).map Prod.snd) ∧
      b'.pairs.Perm (putKey hd.equal b.pairs key value) ∧ b'.Fits hd := by
  cases b with
  | empty => exact ⟨.direct (key, value), rfl, .rfl, trivial⟩
  | direct p =>
    rw [HashBucket.set, HashBucket.pairs]
    by_cases hk : hd.equal p.1 key = true
    · rw [if_pos hk, lookKey, find?_cons, hk, putKey_of_some mem_cons_self hk, map_singleton, setKey, if_pos hk]
      exact ⟨.direct (p.1, value), rfl, .rfl, trivial⟩
    · have hnone : ∀ q ∈ [p], ¬ hd.equal q.1 key = true := forall_mem_singleton.mpr hk
      have hlt : hd.log2PairSize ≠ 0 → 1 + hd.pairLog2Bytes < 32 := by
        intro hne
        have hbytes : 2 * 2 ^ hd.pairLog2Bytes ≤ 2 ^ 31 := hroom hne
        rw [← Nat.pow_succ', Nat.pow_le_pow_iff_right Nat.one_lt_two] at hbytes
        omega
      have hlook : lookKey hd.equal [p] key = none := lookKey_eq_none.mpr hnone
      rw [if_neg hk, setIndirectIsUser, indirectPairSet_some hlt, putKey_of_none hnone, hlook]
      refine ⟨_, rfl, List.Perm.swap _ _ _, le_rfl, fun hne => ⟨?_, hlt hne⟩⟩
      rw [Nat.pow_add, Nat.pow_one]
      rfl
  | indirect pairs log2Bytes => exact setIndirect_spec he hdist hfits hroom key value

theorem dropKey_perm_delSwap (he : IsEqv hd.equal) {pairs : List (HashPair V)} (hdist : KeyDistinct hd.equal pairs)
    (hlook : lookKey hd.equal pairs key = some p) :
    (delSwap pairs (pairs.findIdx fun p => hd.equal p.1 key)).Perm (dropKey hd.equal pairs key) ∧
      (delSwap pairs (pairs.findIdx fun p => hd.equal p.1 key)).length + 1 = pairs.length := by
  obtain ⟨hmem, hk⟩ := (lookKey_eq_some he hdist).mp hlook
  have hlt : pairs.findIdx (fun p => hd.equal p.1 key) < pairs.length := findIdx_lt_length.mpr ⟨p, hmem, hk⟩
  have hperm := perm_delSwap hlt
  have hq := findIdx_getElem (p := fun p : HashPair V => hd.equal p.1 key) (w := hlt)
  apply And.intro
  · apply List.Perm.symm
    apply (dropKey_perm hperm key).trans
    have hdist' : KeyDistinct hd.equal ([] ++ pairs[pairs.findIdx fun p => hd.equal p.1 key] ::
        delSwap pairs (pairs.findIdx fun p => hd.equal p.1 key)) := hdist.perm he hperm
    have hdrop := dropKey_of_mem he hdist' hq
    rw [nil_append, nil_append] at hdrop
    rw [hdrop]
  · exact hperm.length_eq.symm

theorem bucket_unset (he : IsEqv hd.equal) (hdist : KeyDistinct hd.equal b.pairs) (hfits : b.Fits hd) (key : Uword) :
    ∃ b', b.unset hd key = (b', (lookKey hd.equal b.pairs key).map Prod.snd) ∧
      b'.pairs.Perm (dropKey hd.equal b.pairs key) ∧ b'.Fits hd := by
  cases b with
  | empty => exact ⟨.empty, rfl, .rfl, trivial⟩
  | direct p =>
    rw [HashBucket.unset, HashBucket.pairs, lookKey, find?_cons, dropKey, filter_cons]
    cases hd.equal p.1 key with
    | true => exact ⟨.empty, rfl, .rfl, trivial⟩
    | false => exact ⟨.direct p, rfl, .rfl, trivial⟩
  | indirect pairs log2Bytes =>
    rw [HashBucket.unset, getIndirect]
    rw [HashBucket.pairs] at hdist ⊢
    cases hlook : lookKey hd.equal pairs key with
    | none =>
      rw [lookKey] at hlook
      rw [hlook, dropKey_of_none (lookKey_eq_none.mp hlook)]
      exact ⟨.indirect pairs log2Bytes, rfl, .rfl, hfits⟩
    | some p =>
      obtain ⟨hperm, hlen⟩ := dropKey_perm_delSwap he hdist hlook
      rw [lookKey] at hlook
      rw [hlook]
      refine ⟨_, rfl, ?_⟩
      rw [unsetIndirect]
      by_cases htwo : pairs.length ≤ 2
      · rw [if_pos htwo]
        have hone : (delSwap pairs (pairs.findIdx fun p => hd.equal p.1 key)).length = 1 := by
          have hge := hfits.1
          omega
        obtain ⟨r, hr⟩ := length_eq_one_iff.mp hone
        rw [hr] at hperm ⊢
        exact ⟨hperm, trivial⟩
      · rw [if_neg htwo]
        refine ⟨hperm, by omega, fun hne => ⟨?_, (hfits.2 hne).2⟩⟩
        apply (Nat.mul_le_mul_right _ _).trans (hfits.2 hne).1
        omega

structure Hash.Good (h : Hash V) : Prop where
  pow : ∃ k, 6 ≤ k ∧ k ≤ 30 ∧ h.buckets.length = 2 ^ k
  placed : ∀ i b, h.buckets[i]? = some b → ∀ p ∈ b.pairs, h.index p.1 = i
  fits : ∀ b ∈ h.buckets, b.Fits h.toHashHeader
  distinct : KeyDistinct h.equal h.pairs
  elts_eq : h.elts = h.pairs.length

structure HashHeader.Respects (hd : HashHeader) : Prop where
  eqv : IsEqv hd.equal
  sum : ∀ {a b : Uword}, hd.equal a b = true → hd.keySum a = hd.keySum b

variable {h : Hash V}

theorem Hash.Good.index_lt (hg : h.Good) (key : Uword) : h.index key < h.buckets.length := by
  obtain ⟨k, _, _, hlen⟩ := hg.pow
  have hpos := Nat.two_pow_pos k
  rw [index, hlen]
  exact Nat.lt_of_le_of_lt Nat.and_le_right (Nat.sub_lt hpos Nat.one_pos)

/-- The bucket of a key, and the pairs that cannot have the key. -/
theorem Hash.Good.split (hg : h.Good) (hr : h.Respects) (key : Uword) :
    ∃ xs ys, h.buckets = xs ++ h.bucket (h.index key) :: ys ∧ xs.length = h.index key ∧
      (∀ p ∈ xs.flatMap HashBucket.pairs, ¬ h.equal p.1 key = true) ∧
      ∀ p ∈ ys.flatMap HashBucket.pairs, ¬ h.equal p.1 key = true := by
  have hlt := hg.index_lt key
  have hbucket : h.bucket (h.index key) = h.buckets[h.index key] := getD_eq_getElem _ _ hlt
  have hsplit : h.buckets = h.buckets.take (h.index key) ++ h.bucket (h.index key) ::
      h.buckets.drop (h.index key + 1) := by
    rw [hbucket, ← drop_eq_getElem_cons hlt, take_append_drop]
  have hother : ∀ i b, h.buckets[i]? = some b → i ≠ h.index key → ∀ p ∈ b.pairs, ¬ h.equal p.1 key = true := by
    intro i b hb hne p hp hk
    apply hne
    rw [← hg.placed i b hb p hp, index, index, hr.sum hk]
  refine ⟨_, _, hsplit, length_take_of_le (Nat.le_of_lt hlt), ?_, ?_⟩
  · intro p hp
    obtain ⟨b, hb, hpb⟩ := mem_flatMap.mp hp
    obtain ⟨i, hi⟩ := mem_iff_getElem?.mp hb
    have hil : i < h.index key := by
      have hi' := (List.getElem?_eq_some_iff.mp hi).1
      rw [length_take] at hi'
      exact Nat.lt_of_lt_of_le hi' (Nat.min_le_left _ _)
    rw [getElem?_take_of_lt hil] at hi
    exact hother i b hi (Nat.ne_of_lt hil) p hpb
  · intro p hp
    obtain ⟨b, hb, hpb⟩ := mem_flatMap.mp hp
    obtain ⟨i, hi⟩ := mem_iff_getElem?.mp hb
    rw [getElem?_drop] at hi
    exact hother _ b hi (by omega) p hpb

def Hash.withBucket (h : Hash V) (key : Uword) (b : HashBucket V) (elts : Nat) : Hash V :=
  { h with elts := elts, buckets := h.buckets.set (h.index key) b }

theorem Hash.Good.withBucket (hg : h.Good) (hr : h.Respects) {b : HashBucket V} {qs : List (HashPair V)}
    (hfits : b.Fits h.toHashHeader) (hkeys : ∀ p ∈ b.pairs, h.index p.1 = h.index key)
    (hperm : (h.withBucket key b n).pairs.Perm qs) (hdist : KeyDistinct h.equal qs) (hn : n = qs.length) :
    (h.withBucket key b n).Good := by
  have hlen : (h.withBucket key b n).buckets.length = h.buckets.length := length_set
  have hindex : (h.withBucket key b n).index = h.index := by
    funext k
    rw [index, index, hlen]
    rfl
  apply Hash.Good.mk
  · rw [hlen]
    exact hg.pow
  · intro i c hc p hp
    rw [hindex]
    by_cases hi : i = h.index key
    · have hself : (h.withBucket key b n).buckets[h.index key]? = some b := getElem?_set_self (hg.index_lt key)
      rw [hi, hself] at hc
      rw [← Option.some.inj hc] at hp
      rw [hi]
      exact hkeys p hp
    · have hne : (h.withBucket key b n).buckets[i]? = h.buckets[i]? := getElem?_set_ne (Ne.symm hi)
      rw [hne] at hc
      exact hg.placed i c hc p hp
  · intro c hc
    rcases mem_or_eq_of_mem_set hc with hc | hc
    · exact hg.fits c hc
    · rw [hc]
      exact hfits
  · exact hdist.perm hr.eqv hperm.symm
  · rw [hperm.length_eq]
    exact hn

theorem Hash.Good.bucket_mem (hg : h.Good) (key : Uword) : h.bucket (h.index key) ∈ h.buckets := by
  have hlt := hg.index_lt key
  rw [bucket, getD_eq_getElem _ _ hlt]
  exact getElem_mem hlt

theorem Hash.Good.bucket_keys (hg : h.Good) (key : Uword) :
    ∀ p ∈ (h.bucket (h.index key)).pairs, h.index p.1 = h.index key := by
  have hlt := hg.index_lt key
  apply hg.placed
  rw [bucket, getD_eq_getElem _ _ hlt]
  exact List.getElem?_eq_getElem hlt

theorem Hash.Good.pairs_withBucket (hg : h.Good) (hr : h.Respects) (key : Uword) :
    ∃ X Y : List (HashPair V), h.pairs = X ++ ((h.bucket (h.index key)).pairs ++ Y) ∧
      (∀ b n, (h.withBucket key b n).pairs = X ++ (b.pairs ++ Y)) ∧
      (∀ p ∈ X, ¬ h.equal p.1 key = true) ∧ ∀ p ∈ Y, ¬ h.equal p.1 key = true := by
  obtain ⟨xs, ys, hsplit, hlen, hxs, hys⟩ := hg.split hr key
  refine ⟨_, _, ?_, ?_, hxs, hys⟩
  · rw [Hash.pairs, hsplit, flatMap_append, flatMap_cons]
  · intro b n
    have hset : (h.withBucket key b n).buckets = xs ++ b :: ys := by
      have hself : h.buckets.set (h.index key) b = xs ++ b :: ys := by
        rw [← hlen]
        rw [← hlen] at hsplit
        rw [hsplit, set_append_right _ _ (Nat.le_refl _), Nat.sub_self, set_cons_zero]
      exact hself
    rw [Hash.pairs, hset, flatMap_append, flatMap_cons]

theorem lookupGet_eq (hg : h.Good) (hr : h.Respects) (key : Uword) :
    lookupGet h key = lookKey h.equal h.pairs key := by
  obtain ⟨X, Y, hpairs, _, hX, hY⟩ := hg.pairs_withBucket hr key
  rw [lookupGet, bucket_get, hpairs, lookKey_between hX hY]

structure SameTable (h h' : Hash V) : Prop where
  header : h'.toHashHeader = h.toHashHeader
  length : h'.buckets.length = h.buckets.length

theorem lookupSet_spec (hg : h.Good) (hr : h.Respects) (hroom : h.Room (h.elts + 1)) (key : Uword) (value : V) :
    ∃ h', lookupSet h key value = some (h', (lookKey h.equal h.pairs key).map Prod.snd) ∧ SameTable h h' ∧
      h'.pairs.Perm (putKey h.equal h.pairs key value) ∧ h'.Good := by
  obtain ⟨X, Y, hpairs, hwith, hX, hY⟩ := hg.pairs_withBucket hr key
  have hdist : KeyDistinct h.equal (h.bucket (h.index key)).pairs := by
    have hall := hg.distinct
    rw [hpairs] at hall
    exact (pairwise_append.mp (pairwise_append.mp hall).2.1).1
  have hlen : (h.bucket (h.index key)).pairs.length ≤ h.elts := by
    rw [hg.elts_eq, hpairs, length_append, length_append]
    omega
  obtain ⟨b, hset, hperm, hfits⟩ := bucket_set hr.eqv hdist (hg.fits _ (hg.bucket_mem key))
    (hroom.mono (Nat.succ_le_succ hlen)) key value
  have hlook : lookKey h.equal (h.bucket (h.index key)).pairs key = lookKey h.equal h.pairs key := by
    rw [hpairs, lookKey_between hX hY]
  rw [hlook] at hset
  have hall : (h.withBucket key b (h.elts + if ((lookKey h.equal h.pairs key).map Prod.snd).isSome then 0
      else 1)).pairs.Perm
      (putKey h.equal h.pairs key value) := by
    rw [hwith, hpairs]
    apply List.Perm.trans _ (putKey_between hX hY value).symm
    exact (hperm.append_right Y).append_left X
  have hkeys : ∀ p ∈ b.pairs, h.index p.1 = h.index key := by
    intro p hp
    rcases key_of_mem_putKey (hperm.mem_iff.mp hp) with hk | ⟨q, hq, hk⟩
    · rw [hk]
    · rw [← hk]
      exact hg.bucket_keys key q hq
  have hcount : (h.elts + if ((lookKey h.equal h.pairs key).map Prod.snd).isSome then 0 else 1) =
      (putKey h.equal h.pairs key value).length := by
    rw [length_putKey, hg.elts_eq, isSome_map]
  have hgood := hg.withBucket hr hfits hkeys hall (hg.distinct.put hr.eqv key value) hcount
  refine ⟨h.withBucket key b _, ?_, ⟨rfl, length_set⟩, hall, hgood⟩
  rw [lookupSet, hset]
  rfl

theorem lookupUnset_spec (hg : h.Good) (hr : h.Respects) (key : Uword) :
    ∃ h', lookupUnset h key = (h', (lookKey h.equal h.pairs key).map Prod.snd) ∧ SameTable h h' ∧
      h'.pairs.Perm (dropKey h.equal h.pairs key) ∧ h'.Good := by
  obtain ⟨X, Y, hpairs, hwith, hX, hY⟩ := hg.pairs_withBucket hr key
  have hdist : KeyDistinct h.equal (h.bucket (h.index key)).pairs := by
    have hall := hg.distinct
    rw [hpairs] at hall
    exact (pairwise_append.mp (pairwise_append.mp hall).2.1).1
  obtain ⟨b, hunset, hperm, hfits⟩ := bucket_unset hr.eqv hdist (hg.fits _ (hg.bucket_mem key)) key
  have hlook : lookKey h.equal (h.bucket (h.index key)).pairs key = lookKey h.equal h.pairs key := by
    rw [hpairs, lookKey_between hX hY]
  rw [hlook] at hunset
  have hall : (h.withBucket key b (h.elts - if ((lookKey h.equal h.pairs key).map Prod.snd).isSome then 1
      else 0)).pairs.Perm
      (dropKey h.equal h.pairs key) := by
    rw [hwith, hpairs, dropKey_between hX hY]
    exact (hperm.append_right Y).append_left X
  have hkeys : ∀ p ∈ b.pairs, h.index p.1 = h.index key := fun p hp =>
    hg.bucket_keys key p (mem_of_mem_filter (hperm.mem_iff.mp hp))
  have hcount : (h.elts - if ((lookKey h.equal h.pairs key).map Prod.snd).isSome then 1 else 0) =
      (dropKey h.equal h.pairs key).length := by
    rw [hg.elts_eq, ← length_dropKey hr.eqv hg.distinct key, isSome_map, Nat.add_sub_cancel]
  have hgood := hg.withBucket hr hfits hkeys hall (hg.distinct.drop key) hcount
  refine ⟨h.withBucket key b _, ?_, ⟨rfl, length_set⟩, hall, hgood⟩
  rw [lookupUnset, hunset]
  rfl

end Vpp.Infra
