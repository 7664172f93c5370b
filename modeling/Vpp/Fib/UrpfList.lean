import Vpp.Lib.Reading

namespace Vpp.Fib
open Vpp.Lib Function List

structure FibUrpfList where
  furpfItfs : List Nat
  baked : Bool
  deriving DecidableEq, Repr

structure VecSort where
  sort : List Nat → List Nat
  perm : ∀ v, (sort v).Perm v
  sorted : ∀ v, (sort v).Pairwise (· ≤ ·)

def fibUrpfListAppend (urpf : FibUrpfList) (swIfIndex : Nat) : FibUrpfList :=
  { urpf with furpfItfs := urpf.furpfItfs ++ [swIfIndex] }

def fibUrpfListCombine (urpf1 urpf2 : FibUrpfList) : FibUrpfList :=
  { urpf1 with furpfItfs := urpf1.furpfItfs ++ urpf2.furpfItfs }

/-- Search forward for an element that differs from the one at `i`. -/
def skipSame (m : Nat → Nat) (len i : Nat) : Nat → Nat → Reading (Option Nat)
  | 0, _ => pure none
  | n + 1, j => do
    let x ← Reading.elt m i
    let y ← Reading.elt m j
    if x = y ∧ j < len then skipSame m len i n (j + 1) else pure (some j)

theorem skipSame_succ : skipSame m len i (n + 1) j = (do
    let x ← Reading.elt m i
    let y ← Reading.elt m j
    if x = y ∧ j < len then skipSame m len i n (j + 1) else pure (some j)) := rfl

/-- The loop over the sorted vector `m` of length `len`; no result when `n` rounds are not enough. -/
def uniqLoop (len : Nat) : Nat → (Nat → Nat) → Nat → Nat → Reading (Option ((Nat → Nat) × Nat))
  | 0, _, _, _ => pure none
  | n + 1, m, i, j =>
    if j < len then do
      let x ← Reading.elt m i
      let y ← Reading.elt m j
      if x = y then do
        let found ← skipSame m len i n j
        match found with
        | none => pure none
        | some j' =>
          if j' = len then pure (some (m, i))
          else do
            let z ← Reading.elt m j'
            uniqLoop len n (update m (i + 1) z) (i + 1) (j' + 1)
      else uniqLoop len n m (i + 1) (j + 1)
    else pure (some (m, i))

theorem uniqLoop_succ : uniqLoop len (n + 1) m i j =
    if j < len then do
      let x ← Reading.elt m i
      let y ← Reading.elt m j
      if x = y then do
        match ← skipSame m len i n j with
        | none => pure none
        | some j' =>
          if j' = len then pure (some (m, i))
          else do
            let z ← Reading.elt m j'
            uniqLoop len n (update m (i + 1) z) (i + 1) (j' + 1)
      else uniqLoop len n m (i + 1) (j + 1)
    else pure (some (m, i)) := rfl

/-- The elements of a vector; `beyond` is what lies behind it in memory. -/
def vecAt (v : List Nat) (beyond : Nat → Nat) : Nat → Nat := fun k => v.getD k (beyond k)

def firstElts (m : Nat → Nat) (n : Nat) : List Nat := (List.range n).map m

def fibUrpfListBake (vecSort : VecSort) (beyond : Nat → Nat) (urpf : FibUrpfList) : Reading (Option FibUrpfList) :=
  if 1 < urpf.furpfItfs.length then do
    let r ← uniqLoop urpf.furpfItfs.length (urpf.furpfItfs.length + 2) (vecAt (vecSort.sort urpf.furpfItfs) beyond) 0 1
    pure (r.map fun r => ⟨firstElts r.1 (r.2 + 1), true⟩)
  else pure (some { urpf with baked := true })

/-- `rest` is what lies from `j` on. -/
def RestAt (m : Nat → Nat) (len j : Nat) (rest : List Nat) : Prop :=
  j + rest.length = len ∧ ∀ k (h : k < rest.length), m (j + k) = rest[k]

theorem RestAt.head (h : RestAt m len j (y :: rest)) : m j = y := h.2 0 (Nat.zero_lt_succ _)

theorem RestAt.tail (h : RestAt m len j (y :: rest)) : RestAt m len (j + 1) rest := by
  refine ⟨?_, fun k hk => ?_⟩
  · rw [← h.1, length_cons]
    omega
  · have hm := h.2 (k + 1) (Nat.succ_lt_succ hk)
    rw [getElem_cons_succ] at hm
    rw [← hm, Nat.add_assoc, Nat.add_comm 1 k]

theorem RestAt.lt (h : RestAt m len j (y :: rest)) : j < len := by
  rw [← h.1, length_cons]
  omega

theorem RestAt.nil_eq (h : RestAt m len j []) : j = len := h.1

theorem RestAt.update (h : RestAt m len j rest) (hp : p < j) (z : Nat) : RestAt (update m p z) len j rest := by
  refine ⟨h.1, fun k hk => ?_⟩
  rw [update_of_ne (by omega)]
  exact h.2 k hk

def others (x : Nat) (rest : List Nat) : List Nat := rest.dropWhile fun y => decide (x = y)

theorem others_same (h : x = y) (rest : List Nat) : others x (y :: rest) = others x rest :=
  dropWhile_cons_of_pos (decide_eq_true h)

theorem others_other (h : x ≠ y) (rest : List Nat) : others x (y :: rest) = y :: rest :=
  dropWhile_cons_of_neg (by simp [h])

theorem RestAt.others (h : RestAt m len j rest) (x : Nat) :
    RestAt m len (len - (others x rest).length) (others x rest) ∧ j ≤ len - (Fib.others x rest).length := by
  induction rest generalizing j with
  | nil =>
    have hj := h.nil_eq
    refine ⟨⟨?_, fun k hk => absurd hk (Nat.not_lt_zero k)⟩, ?_⟩
    · simp [Fib.others]
    · simp [Fib.others, hj]
  | cons y rest ih =>
    by_cases hy : x = y
    · rw [others_same hy]
      have hrest := ih h.tail
      exact ⟨hrest.1, Nat.le_of_succ_le hrest.2⟩
    · have hlen := h.1
      have hj : len - (y :: rest).length = j := by omega
      rw [others_other hy, hj]
      exact ⟨h, le_refl j⟩

theorem RestAt.mono (h : RestAt m len j rest) (hs : rest.Pairwise (· ≤ ·)) (hj : j ≤ k) (hkl : k ≤ l) (hl : l < len) :
    m k ≤ m l := by
  have hlen := h.1
  have hk' : k - j < rest.length := by omega
  have hl' : l - j < rest.length := by omega
  have hmk := h.2 (k - j) hk'
  have hml := h.2 (l - j) hl'
  rw [Nat.add_sub_cancel' hj] at hmk
  rw [Nat.add_sub_cancel' (hj.trans hkl)] at hml
  rw [hmk, hml]
  obtain heq | hlt := Nat.eq_or_lt_of_le hkl
  · subst heq
    exact le_refl _
  · exact pairwise_iff_getElem.mp hs _ _ hk' hl' (by omega)

theorem skipSame_value (h : RestAt m len j rest) (hn : rest.length < n) :
    (skipSame m len i n j).value = some (len - (others (m i) rest).length) := by
  induction rest generalizing n j with
  | nil =>
    cases n with
    | zero => exact absurd hn (Nat.not_lt_zero _)
    | succ n =>
      have hj := h.nil_eq
      rw [skipSame_succ, Reading.bind_value, Reading.bind_value, if_neg (by omega), hj]
      rfl
  | cons y rest ih =>
    cases n with
    | zero => exact absurd hn (Nat.not_lt_zero _)
    | succ n =>
      rw [skipSame_succ, Reading.bind_value, Reading.bind_value, Reading.elt_value, Reading.elt_value, h.head]
      by_cases hy : m i = y
      · rw [if_pos ⟨hy, h.lt⟩, ih h.tail (Nat.lt_of_succ_lt_succ hn), others_same hy]
      · have hlen := h.1
        rw [if_neg (fun hc => hy hc.1), others_other hy, ← hlen, Nat.add_sub_cancel]
        rfl

theorem skipSame_within (h : RestAt m len j rest) (hi : i < len) (hn : rest.length < n) :
    (skipSame m len i n j).Within 0 len ↔ others (m i) rest ≠ [] := by
  induction rest generalizing n j with
  | nil =>
    cases n with
    | zero => exact absurd hn (Nat.not_lt_zero _)
    | succ n =>
      have hj := h.nil_eq
      rw [skipSame_succ, Reading.within_bind, Reading.within_bind, Reading.elt_within, Reading.elt_within]
      simp [others]
      omega
  | cons y rest ih =>
    cases n with
    | zero => exact absurd hn (Nat.not_lt_zero _)
    | succ n =>
      have hlt := h.lt
      rw [skipSame_succ, Reading.within_bind, Reading.within_bind, Reading.elt_within, Reading.elt_within,
        Reading.elt_value, Reading.elt_value, h.head]
      by_cases hy : m i = y
      · rw [if_pos ⟨hy, hlt⟩, ih h.tail (Nat.lt_of_succ_lt_succ hn), others_same hy]
        simp [hi, hlt]
      · rw [if_neg (fun hc => hy hc.1), others_other hy]
        simp [hi, hlt, Reading.within_pure]

/-- The vector is squeezed right with `x` at the write cursor and `rest` from the read cursor on: behind a gap (`gap`)
each further element but the last has to be there twice, and the last (after `dup` copies) must not be. -/
def Squeezes (dup gap : Bool) (x : Nat) : List Nat → Prop
  | [] => dup = false
  | y :: rest =>
    if x = y then Squeezes true gap x rest
    else if dup then Squeezes false true y rest
    else gap = false ∧ Squeezes false false y rest

/-- The elements behind `x` without repetitions. -/
def uniqTail (x : Nat) : List Nat → List Nat
  | [] => []
  | y :: rest => if x = y then uniqTail x rest else y :: uniqTail y rest

theorem squeezes_dup (gap : Bool) (x : Nat) (rest : List Nat) :
    Squeezes true gap x rest ↔ ∃ z r, others x rest = z :: r ∧ Squeezes false true z r := by
  induction rest with
  | nil => simp [Squeezes, others]
  | cons y rest ih =>
    by_cases hy : x = y
    · rw [Squeezes, if_pos hy, others_same hy, ih]
    · rw [Squeezes, if_neg hy, if_pos rfl, others_other hy]
      constructor
      · exact fun h => ⟨y, rest, rfl, h⟩
      · rintro ⟨z, r, heq, h⟩
        cases heq
        exact h

theorem uniqTail_others (x : Nat) (rest : List Nat) : uniqTail x rest = uniqTail x (others x rest) := by
  induction rest with
  | nil => rfl
  | cons y rest ih =>
    by_cases hy : x = y
    · rw [uniqTail, if_pos hy, others_same hy, ih]
    · rw [others_other hy]

theorem others_head_ne (h : others x rest = z :: r) : x ≠ z := by
  induction rest with
  | nil => cases h
  | cons y rest ih =>
    by_cases hy : x = y
    · exact ih ((others_same hy rest).symm.trans h)
    · rw [others_other hy] at h
      cases h
      exact hy

theorem firstElts_succ (m : Nat → Nat) (n : Nat) : firstElts m (n + 1) = firstElts m n ++ [m n] := by
  rw [firstElts, range_succ, map_append, firstElts, map_singleton]

theorem uniqLoop_frame {i : Nat} (h : (uniqLoop len n m i j).value = some (m', i')) :
    i ≤ i' ∧ ∀ k ≤ i, m' k = m k := by
  induction n generalizing m i j with
  | zero => cases h
  | succ n ih =>
    rw [uniqLoop_succ] at h
    split at h
    · rw [Reading.bind_value, Reading.bind_value, Reading.elt_value, Reading.elt_value] at h
      split at h
      · rw [Reading.bind_value] at h
        split at h
        · cases h
        · split at h
          · cases h
            exact ⟨le_refl _, fun _ _ => rfl⟩
          · rw [Reading.bind_value] at h
            obtain ⟨hle, hkeep⟩ := ih h
            refine ⟨Nat.le_of_succ_le hle, fun k hk => ?_⟩
            rw [hkeep k (Nat.le_succ_of_le hk), update_of_ne (by omega)]
      · obtain ⟨hle, hkeep⟩ := ih h
        exact ⟨Nat.le_of_succ_le hle, fun k hk => hkeep k (Nat.le_succ_of_le hk)⟩
    · cases h
      exact ⟨le_refl _, fun _ _ => rfl⟩

section Rounds

variable {m : Nat → Nat} {len i j n : Nat} {rest : List Nat}

theorem uniqLoop_done (h : RestAt m len j []) : uniqLoop len (n + 1) m i j = pure (some (m, i)) := by
  have hj := h.nil_eq
  rw [uniqLoop_succ, if_neg (by omega)]

theorem uniqLoop_other (h : RestAt m len j (y :: rest)) (hij : i < j) (hne : m i ≠ y) :
    (uniqLoop len (n + 1) m i j).value = (uniqLoop len n m (i + 1) (j + 1)).value ∧
      ((uniqLoop len (n + 1) m i j).Within 0 len ↔ (uniqLoop len n m (i + 1) (j + 1)).Within 0 len) := by
  have hlt := h.lt
  have hi : i < len := hij.trans hlt
  rw [uniqLoop_succ, if_pos hlt, Reading.bind_value, Reading.bind_value, Reading.within_bind, Reading.within_bind,
    Reading.elt_within, Reading.elt_within, Reading.elt_value, Reading.elt_value, h.head, if_neg hne]
  simp [hi, hlt]

theorem uniqLoop_end (h : RestAt m len j (y :: rest)) (hij : i < j) (heq : m i = y) (ho : others (m i) rest = [])
    (hn : (y :: rest).length < n) :
    (uniqLoop len (n + 1) m i j).value = some (m, i) ∧ ¬ (uniqLoop len (n + 1) m i j).Within 0 len := by
  have hlt := h.lt
  have hi : i < len := hij.trans hlt
  have ho' : others (m i) (y :: rest) = [] := (others_same heq rest).trans ho
  have hskip := skipSame_value (i := i) h hn
  have hread := skipSame_within h hi hn
  rw [ho', length_nil, Nat.sub_zero] at hskip
  rw [uniqLoop_succ, if_pos hlt, Reading.bind_value, Reading.bind_value, Reading.within_bind, Reading.within_bind,
    Reading.elt_value, Reading.elt_value, h.head, if_pos heq, Reading.bind_value, Reading.within_bind, hskip, hread]
  simp [ho']

theorem uniqLoop_same (h : RestAt m len j (y :: rest)) (hij : i < j) (heq : m i = y)
    (ho : others (m i) rest = z :: r) (hn : (y :: rest).length < n) :
    (uniqLoop len (n + 1) m i j).value =
        (uniqLoop len n (update m (i + 1) z) (i + 1) (len - (z :: r).length + 1)).value ∧
      ((uniqLoop len (n + 1) m i j).Within 0 len ↔
        (uniqLoop len n (update m (i + 1) z) (i + 1) (len - (z :: r).length + 1)).Within 0 len) := by
  have hlt := h.lt
  have hi : i < len := hij.trans hlt
  have ho' : others (m i) (y :: rest) = z :: r := (others_same heq rest).trans ho
  have hskip := skipSame_value (i := i) h hn
  have hread := skipSame_within h hi hn
  have hat : RestAt m len (len - (z :: r).length) (z :: r) := by
    have hrest := (h.others (m i)).1
    rwa [ho'] at hrest
  have hz := hat.head
  have hj' := hat.lt
  rw [ho'] at hskip
  rw [uniqLoop_succ, if_pos hlt, Reading.bind_value, Reading.bind_value, Reading.within_bind, Reading.within_bind,
    Reading.elt_within, Reading.elt_within, Reading.elt_value, Reading.elt_value, h.head, if_pos heq,
    Reading.bind_value, Reading.within_bind, hskip, hread]
  simp only [if_neg hj'.ne, Reading.bind_value, Reading.within_bind, Reading.elt_value, Reading.elt_within, hz]
  have hpos : 0 < len := Nat.zero_lt_of_lt hlt
  simp [hi, hlt, ho', hpos]

end Rounds

/-- Where the elements are squeezed right, no others are read and what is left is the elements once each. -/
theorem uniqLoop_squeezes {m : Nat → Nat} {i : Nat} (h : RestAt m len j rest) (hij : i < j)
    (hgap : gap = false → j = i + 1) (hs : Squeezes false gap (m i) rest) (hn : rest.length + 1 < n) :
    ∃ m' i', (uniqLoop len n m i j).value = some (m', i') ∧ (uniqLoop len n m i j).Within 0 len ∧
      firstElts m' (i' + 1) = firstElts m (i + 1) ++ uniqTail (m i) rest := by
  induction n generalizing m i j rest gap with
  | zero => exact absurd hn (Nat.not_lt_zero _)
  | succ n ih =>
    cases rest with
    | nil =>
      rw [uniqLoop_done h]
      exact ⟨m, i, rfl, Reading.within_pure _ _ _, (append_nil _).symm⟩
    | cons y rest =>
      have hlen : (y :: rest).length < n := Nat.lt_of_succ_lt_succ hn
      rw [Squeezes] at hs
      split at hs
      · next heq =>
        obtain ⟨z, r, ho, hs'⟩ := (squeezes_dup gap (m i) rest).mp hs
        obtain ⟨hv, hw⟩ := uniqLoop_same h hij heq ho hlen
        have ho' : others (m i) (y :: rest) = z :: r := (others_same heq rest).trans ho
        obtain ⟨hat, hle⟩ := h.others (m i)
        rw [ho'] at hat hle
        have hself : update m (i + 1) z (i + 1) = z := update_self (i + 1) z m
        have hall := h.1
        have hzr : (z :: r).length = r.length + 1 := rfl
        have hyr : (y :: rest).length = rest.length + 1 := rfl
        have hbehind : i + 1 < len - (z :: r).length + 1 := by omega
        have hfuel : r.length + 1 < n := by omega
        have hs'' : Squeezes false true (update m (i + 1) z (i + 1)) r := by
          rw [hself]
          exact hs'
        obtain ⟨m', i', hv', hw', hfirst⟩ := ih (hat.tail.update hbehind z) hbehind (by simp) hs'' hfuel
        refine ⟨m', i', hv.trans hv', hw.mpr hw', ?_⟩
        have hkeep : firstElts (update m (i + 1) z) (i + 1) = firstElts m (i + 1) := by
          apply map_congr_left
          intro k hk
          have hne : k ≠ i + 1 := (mem_range.mp hk).ne
          exact update_of_ne hne z m
        rw [hfirst, firstElts_succ, hself, hkeep, uniqTail_others (m i) (y :: rest), ho', uniqTail,
            if_neg (others_head_ne ho),
          List.append_assoc, singleton_append]
      · next hne =>
        rw [if_neg Bool.false_ne_true] at hs
        obtain ⟨hv, hw⟩ := uniqLoop_other (n := n) h hij hne
        have hj := hgap hs.1
        subst hj
        have hy := h.head
        have hs' : Squeezes false false (m (i + 1)) rest := by
          rw [hy]
          exact hs.2
        obtain ⟨m', i', hv', hw', hfirst⟩ := ih h.tail (Nat.lt_succ_self _) (fun _ => rfl) hs' hlen
        refine ⟨m', i', hv.trans hv', hw.mpr hw', ?_⟩
        rw [hfirst, firstElts_succ, hy, uniqTail, if_neg hne, List.append_assoc, singleton_append]

theorem uniqLoop_stops {i : Nat} (h : RestAt m len j rest) (hij : i < j) (hn : rest.length + 1 < n) :
    ∃ m' i', (uniqLoop len n m i j).value = some (m', i') := by
  induction n generalizing m i j rest with
  | zero => exact absurd hn (Nat.not_lt_zero _)
  | succ n ih =>
    cases rest with
    | nil => exact ⟨m, i, congrArg Reading.value (uniqLoop_done h)⟩
    | cons y rest =>
      have hlen : (y :: rest).length < n := Nat.lt_of_succ_lt_succ hn
      by_cases heq : m i = y
      · cases ho : others (m i) rest with
        | nil => exact ⟨m, i, (uniqLoop_end h hij heq ho hlen).1⟩
        | cons z r =>
          obtain ⟨hat, hle⟩ := h.tail.others (m i)
          rw [ho] at hat hle
          have hall := h.1
          have hzr : (z :: r).length = r.length + 1 := rfl
          have hyr : (y :: rest).length = rest.length + 1 := rfl
          have hj' := hat.lt
          have hbehind : i + 1 < len - (z :: r).length + 1 := by omega
          obtain ⟨m', i', hv⟩ := ih (hat.tail.update hbehind z) hbehind (by omega)
          exact ⟨m', i', (uniqLoop_same h hij heq ho hlen).1.trans hv⟩
      · obtain ⟨m', i', hv⟩ := ih (i := i + 1) h.tail (Nat.succ_lt_succ hij) hlen
        exact ⟨m', i', (uniqLoop_other h hij heq).1.trans hv⟩

/-- Where they are not, the loop reads beyond the vector, or steps behind a gap onto an element that was squeezed
out. -/
theorem uniqLoop_not_squeezes {m : Nat → Nat} {i : Nat} (h : RestAt m len j rest) (hij : i < j)
    (hgap : gap = false → j = i + 1) (hgap' : gap = true → i + 1 < j) (hsort : (m i :: rest).Pairwise (· ≤ ·))
    (hstale : ∀ k, i < k → k < j → m k ≤ m i) (hs : ¬ Squeezes false gap (m i) rest) (hn : rest.length + 1 < n) :
    ∃ m' i', (uniqLoop len n m i j).value = some (m', i') ∧
      ((uniqLoop len n m i j).Within 0 len → ∃ k, k < i' ∧ m' (k + 1) ≤ m' k) := by
  induction n generalizing m i j rest gap with
  | zero => exact absurd hn (Nat.not_lt_zero _)
  | succ n ih =>
    cases rest with
    | nil => exact absurd rfl hs
    | cons y rest =>
      have hlen : (y :: rest).length < n := Nat.lt_of_succ_lt_succ hn
      have hyr : (y :: rest).length = rest.length + 1 := rfl
      rw [Squeezes] at hs
      split at hs
      · next heq =>
        rw [squeezes_dup] at hs
        cases ho : others (m i) rest with
        | nil =>
          obtain ⟨hv, hw⟩ := uniqLoop_end h hij heq ho hlen
          exact ⟨m, i, hv, fun hin => absurd hin hw⟩
        | cons z r =>
          obtain ⟨hv, hw⟩ := uniqLoop_same h hij heq ho hlen
          have ho' : others (m i) (y :: rest) = z :: r := (others_same heq rest).trans ho
          obtain ⟨hat, hle⟩ := h.tail.others (m i)
          rw [ho] at hat hle
          have hself : update m (i + 1) z (i + 1) = z := update_self (i + 1) z m
          have hall := h.1
          have hzr : (z :: r).length = r.length + 1 := rfl
          have hj' := hat.lt
          have hbehind : i + 1 < len - (z :: r).length + 1 := by omega
          have hgap'' : i + 1 + 1 < len - (z :: r).length + 1 := by omega
          have hfuel : r.length + 1 < n := by omega
          have hsub : (z :: r).Sublist (y :: rest) := ho' ▸ dropWhile_sublist _
          have hz : m i ≤ z := (pairwise_cons.mp hsort).1 z (hsub.subset mem_cons_self)
          have hsort' : (update m (i + 1) z (i + 1) :: r).Pairwise (· ≤ ·) := by
            rw [hself]
            exact (pairwise_cons.mp hsort).2.sublist hsub
          have hstale' (k : Nat) (hk : i + 1 < k) (hkj : k < len - (z :: r).length + 1) :
              update m (i + 1) z k ≤ update m (i + 1) z (i + 1) := by
            rw [hself, update_of_ne hk.ne']
            by_cases hkold : k < j
            · exact (hstale k (by omega) hkold).trans hz
            · have hmono := h.mono (pairwise_cons.mp hsort).2 (Nat.le_of_not_lt hkold) (Nat.le_of_lt_succ hkj) hj'
              rwa [hat.head] at hmono
          have hs' : ¬ Squeezes false true (update m (i + 1) z (i + 1)) r := by
            rw [hself]
            exact fun hsq => hs ⟨z, r, ho, hsq⟩
          obtain ⟨m', i', hv', hbad⟩ := ih (hat.tail.update hbehind z) hbehind (by simp) (fun _ => hgap'')
            hsort' hstale' hs' hfuel
          exact ⟨m', i', hv.trans hv', fun hin => hbad (hw.mp hin)⟩
      · next hne =>
        rw [if_neg Bool.false_ne_true] at hs
        obtain ⟨hv, hw⟩ := uniqLoop_other (n := n) h hij hne
        cases gap with
        | true =>
          obtain ⟨m', i', hv'⟩ := uniqLoop_stops (i := i + 1) h.tail (Nat.succ_lt_succ hij) hlen
          obtain ⟨hle, hkeep⟩ := uniqLoop_frame hv'
          refine ⟨m', i', hv.trans hv', fun _ => ⟨i, hle, ?_⟩⟩
          rw [hkeep (i + 1) (le_refl _), hkeep i (Nat.le_succ i)]
          exact hstale (i + 1) (Nat.lt_succ_self i) (hgap' rfl)
        | false =>
          have hj := hgap rfl
          subst hj
          have hy := h.head
          have hsort' : (m (i + 1) :: rest).Pairwise (· ≤ ·) := by
            rw [hy]
            exact (pairwise_cons.mp hsort).2
          have hs' : ¬ Squeezes false false (m (i + 1)) rest := by
            rw [hy]
            exact fun hsq => hs ⟨rfl, hsq⟩
          obtain ⟨m', i', hv', hbad⟩ := ih h.tail (Nat.lt_succ_self _) (fun _ => rfl) (by simp) hsort'
            (fun k hk hk' => by omega) hs' hlen
          exact ⟨m', i', hv.trans hv', fun hin => hbad (hw.mp hin)⟩

end Vpp.Fib
