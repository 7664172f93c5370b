import Vpp.Bihash.Template

namespace Vpp.Bihash
open Vpp.Lib List

section

variable {K V : Type} {t : Template K V} {n b L : Nat} {linear : Bool} {values : List (K × V)}

/-- Pairs that are left to be moved into an array of bucket `b`: cleared or storable, of that
bucket, with keys that occur neither twice nor in the array already. -/
structure Movable (t : Template K V) (n b : Nat) (old values : List (K × V)) : Prop where
  cells : ∀ kv ∈ old, kv = t.ones ∨ t.Storable kv
  bucket : ∀ kv ∈ old, kv ≠ t.ones → bucketIndex t n kv.1 = b
  distinct : old.Pairwise fun kv kv' => kv ≠ t.ones → kv.1 ≠ kv'.1
  absent : ∀ kv ∈ old, kv ≠ t.ones → ∀ i, (slot t values i).1 ≠ kv.1

theorem Movable.tail (h : Movable t n b (kv :: old) values) : Movable t n b old values :=
  ⟨fun kv' hm => h.cells kv' (.tail _ hm), fun kv' hm => h.bucket kv' (.tail _ hm),
    (pairwise_cons.mp h.distinct).2, fun kv' hm => h.absent kv' (.tail _ hm)⟩

theorem Movable.put (h : Movable t n b (kv :: old) values) (hj : j < values.length)
    (hne : kv ≠ t.ones) : Movable t n b old (values.set j kv) := by
  refine { h.tail with absent := ?_ }
  intro kv' hm hne' i
  rw [slot_set hj]
  split
  · exact (pairwise_cons.mp h.distinct).1 kv' hm hne
  · exact h.absent kv' (.tail _ hm) hne' i

theorem Movable.isFree_iff (hl : t.Lawful) (h : Movable t n b (kv :: old) values) :
    t.isFree kv = true ↔ kv = t.ones := by
  constructor
  · intro hf
    rcases h.cells kv (.head _) with he | hs
    · exact he
    · exact absurd (hs.1.symm.trans hf) (by decide)
  · rintro rfl
    exact hl.ones_free

theorem Movable.storable (h : Movable t n b (kv :: old) values) (hne : kv ≠ t.ones) :
    t.Storable kv := (h.cells kv (.head _)).resolve_left hne

theorem ArrayOk.movable (h : ArrayOk t n b linear L values) (m : Nat) :
    Movable t n b values (List.replicate m t.ones) := by
  have hslot (i : Nat) (hi : i < values.length) : slot t values i = values[i] := by
    simp [slot, hi]
  refine ⟨?_, ?_, ?_, ?_⟩
  · intro kv hm
    obtain ⟨i, hi, rfl⟩ := mem_iff_getElem.mp hm
    exact hslot i hi ▸ h.cells i
  · intro kv hm
    obtain ⟨i, hi, rfl⟩ := mem_iff_getElem.mp hm
    rw [← hslot i hi]
    exact fun hne => (h.home i hne).1
  · rw [pairwise_iff_getElem]
    intro i j hi hj hij
    rw [← hslot i hi, ← hslot j hj]
    intro hne hk
    exact Nat.ne_of_lt hij (h.unique i j hne hk)
  · intro kv hm hne i
    rw [slot_replicate]
    obtain ⟨j, hj, rfl⟩ := mem_iff_getElem.mp hm
    rw [← hslot j hj] at hne ⊢
    exact (h.storable hne).2.symm

theorem holds_iff_mem (values : List (K × V)) (k : K) (v : V) :
    Holds t values k v ↔ (k, v) ≠ t.ones ∧ (k, v) ∈ values := by
  constructor
  · rintro ⟨hne, i, hi⟩
    have hlt := lt_length_of_slot_ne (hi ▸ hne)
    refine ⟨hne, mem_iff_getElem.mpr ⟨i, hlt, ?_⟩⟩
    rw [← hi]
    simp [slot, hlt]
  · rintro ⟨hne, hm⟩
    obtain ⟨i, hi, he⟩ := mem_iff_getElem.mp hm
    exact ⟨hne, i, by rw [← he]; simp [slot, hi]⟩

/-- `values'` holds what `values` held and the pairs of `old`. -/
def Moved (t : Template K V) (values old values' : List (K × V)) : Prop :=
  ∀ k v, Holds t values' k v ↔ Holds t values k v ∨ (k, v) ≠ t.ones ∧ (k, v) ∈ old

theorem Moved.nil (t : Template K V) (values : List (K × V)) : Moved t values [] values :=
  fun k v => by simp

theorem Moved.skip (h : Moved t values old values') : Moved t values (t.ones :: old) values' := by
  intro k v
  rw [h, mem_cons]
  constructor
  · rintro (h | ⟨hne, h⟩)
    · exact .inl h
    · exact .inr ⟨hne, .inr h⟩
  · rintro (h | ⟨hne, h | h⟩)
    · exact .inl h
    · exact absurd h hne
    · exact .inr ⟨hne, h⟩

theorem ArrayOk.move (ha : ArrayOk t n b linear L values) (hm : Movable t n b (kv :: old) values)
    (hne : kv ≠ t.ones) (hj : Searched t n linear L kv.1 j) (hfree : slot t values j = t.ones) :
    ArrayOk t n b linear L (values.set j kv) ∧ Movable t n b old (values.set j kv) ∧
      ∀ values', Moved t (values.set j kv) old values' → Moved t values (kv :: old) values' := by
  have hs := hm.storable hne
  have habs := hm.absent kv (.head _) hne
  have hno (i : Nat) (hi : (slot t values i).1 = kv.1) : i = j := absurd hi (habs i)
  have hlt : j < values.length := ha.length ▸ hj.lt_size
  refine ⟨ha.put hs (hm.bucket kv (.head _) hne) hj hno, hm.put hlt hne, ?_⟩
  intro values' h k v
  rw [h, ha.holds_put hs hj hno (.inl hfree), mem_cons]
  constructor
  · rintro ((⟨rfl, rfl⟩ | ⟨_, h⟩) | ⟨hne', h⟩)
    · exact .inr ⟨hne, .inl rfl⟩
    · exact .inl h
    · exact .inr ⟨hne', .inr h⟩
  · rintro (h | ⟨hne', rfl | h⟩)
    · refine .inl (.inr ⟨?_, h⟩)
      rintro rfl
      obtain ⟨_, i, hi⟩ := h
      exact habs i (by rw [hi])
    · exact .inl (.inl ⟨rfl, rfl⟩)
    · exact .inr ⟨hne', h⟩

theorem rehashInto_spec (hl : t.Lawful) (ha : ArrayOk t n b false L values)
    (hm : Movable t n b old values) (hr : rehashInto t n L old values = some values') :
    ArrayOk t n b false L values' ∧ Moved t values old values' := by
  induction old generalizing values with
  | nil =>
    obtain rfl := Option.some.inj hr
    exact ⟨ha, .nil t values⟩
  | cons kv old ih =>
    unfold rehashInto at hr
    split at hr
    · next hf =>
      obtain rfl := (hm.isFree_iff hl).mp hf
      obtain ⟨ha', hh⟩ := ih ha hm.tail hr
      exact ⟨ha', hh.skip⟩
    · next hf =>
      split at hr
      · next j hj =>
        obtain ⟨h1, h2, hfree⟩ := findSlot_some hj
        obtain ⟨hput, hm', hmove⟩ := ha.move hm (fun he => hf ((hm.isFree_iff hl).mpr he)) ⟨h1, h2⟩
          ((ha.isFree_iff hl).mp hfree)
        obtain ⟨ha', hh⟩ := ih hput hm' hr
        exact ⟨ha', hmove _ hh⟩
      · exact absurd hr (by simp)

/-- The linear rehash of fewer pairs than cells never fails, and it fills cells from the front. -/
theorem rehashLinear_spec (hl : t.Lawful) (ha : ArrayOk t n b true L values)
    (hm : Movable t n b old values) (hfit : j + old.length < pagesSize L)
    (hrest : ∀ i, j ≤ i → slot t values i = t.ones) :
    ∃ values', rehashLinear t (pagesSize L) old values j = some values' ∧
      ArrayOk t n b true L values' ∧ Moved t values old values' ∧
      ∀ i, j + old.length ≤ i → slot t values' i = t.ones := by
  induction old generalizing values j with
  | nil => exact ⟨values, rfl, ha, .nil t values, hrest⟩
  | cons kv old ih =>
    rw [length_cons] at hfit
    obtain ⟨m, hstep⟩ : ∃ m, pagesSize L - j = m + 1 := ⟨pagesSize L - j - 1, by omega⟩
    unfold rehashLinear
    rw [hstep]
    unfold placeLinear
    by_cases hf : t.isFree kv = true
    · obtain rfl := (hm.isFree_iff hl).mp hf
      obtain ⟨values', hr, ha', hh, hrest'⟩ := ih ha hm.tail (by omega) hrest
      refine ⟨values', ?_, ha', hh.skip, fun i hi => hrest' i (by rw [length_cons] at hi; omega)⟩
      simp only [hf, ↓reduceIte]
      exact hr
    · have hone := hrest j (Nat.le_refl _)
      obtain ⟨hput, hm', hmove⟩ := ha.move hm (fun he => hf ((hm.isFree_iff hl).mpr he))
        (searched_linear (by omega)) hone
      have hlt : j < values.length := by
        rw [ha.length]
        omega
      obtain ⟨values', hr, ha', hh, hrest'⟩ := ih hput hm' (show j + 1 + old.length < _ by omega) (by
        intro i hi
        rw [slot_set hlt, if_neg (by omega)]
        exact hrest i (by omega))
      refine ⟨values', ?_, ha', hmove _ hh, fun i hi => hrest' i (by rw [length_cons] at hi; omega)⟩
      simp only [hf, hone, hl.ones_free, Bool.false_eq_true, ↓reduceIte]
      exact hr

end

section

variable {K V : Type} {t : Template K V}

def Table.offsets (h : Table K V) : Set Nat :=
  fun o => o ≠ 0 ∧ ∃ i, i < h.nbuckets ∧ (h.buckets i).offset = o

/-- Every bucket has an array of its own, in order, and together they hold the map `m`. -/
structure TableInv (t : Template K V) (h : Table K V) (m : K → Option V) : Prop where
  owns : h.heap.Owns pagesSize h.offsets
  distinct : ∀ i j, i < h.nbuckets → j < h.nbuckets → (h.buckets i).offset ≠ 0 →
    (h.buckets i).offset = (h.buckets j).offset → i = j
  array : ∀ i, i < h.nbuckets → (h.buckets i).offset ≠ 0 →
    ArrayOk t h.log2Nbuckets i (h.buckets i).linearSearch (h.buckets i).log2Pages
      (h.values (h.buckets i))
  map : ∀ k v, m k = some v ↔ (h.buckets (bucketIndex t h.log2Nbuckets k)).offset ≠ 0 ∧
    Holds t (h.values (h.buckets (bucketIndex t h.log2Nbuckets k))) k v

theorem TableInv.init (t : Template K V) (n : Nat) :
    TableInv t (clibBihashInit n) fun _ => none := by
  refine ⟨?_, ?_, ?_, ?_⟩
  · apply SlabHeap.Owns.empty.mono
    rintro o ⟨hne, i, _, rfl⟩
    exact absurd rfl hne
  · intro i j _ _ hne
    exact absurd rfl hne
  · intro i _ hne
    exact absurd rfl hne
  · intro k v
    constructor
    · intro h
      exact absurd h (by simp)
    · rintro ⟨hne, _⟩
      exact absurd rfl hne

theorem TableInv.mem_offsets {h : Table K V} (hi : i < h.nbuckets) (ho : (h.buckets i).offset ≠ 0) :
    (h.buckets i).offset ∈ h.offsets := ⟨ho, i, hi, rfl⟩

theorem Table.bucketIndex_lt (h : Table K V) (t : Template K V) (key : K) :
    bucketIndex t h.log2Nbuckets key < h.nbuckets := Bihash.bucketIndex_lt t h.log2Nbuckets key

/-- A step that gives bucket `i` an array with the pair under `key` changed, and leaves the arrays
of the other buckets alone. -/
theorem TableInv.replace [DecidableEq K] {h h' : Table K V} (hi : TableInv t h m)
    (hlog : h'.log2Nbuckets = h.log2Nbuckets) (hb : bucketIndex t h.log2Nbuckets key = i)
    (hbuck : ∀ j, j ≠ i → h'.buckets j = h.buckets j)
    (hblock : ∀ o ∈ h.offsets, o ≠ (h.buckets i).offset → h'.heap.block o = h.heap.block o)
    (howns : h'.heap.Owns pagesSize h'.offsets) (hne : (h'.buckets i).offset ≠ 0)
    (hnew : ∀ j, j < h.nbuckets → j ≠ i → (h.buckets j).offset ≠ (h'.buckets i).offset)
    (harray : ArrayOk t h.log2Nbuckets i (h'.buckets i).linearSearch (h'.buckets i).log2Pages
      (h'.values (h'.buckets i)))
    (hholds : ∀ k v, bucketIndex t h.log2Nbuckets k = i →
      (Holds t (h'.values (h'.buckets i)) k v ↔ k = key ∧ ov = some v ∨
        k ≠ key ∧ (h.buckets i).offset ≠ 0 ∧ Holds t (h.values (h.buckets i)) k v)) :
    TableInv t h' (Function.update m key ov) := by
  have hnb : h'.nbuckets = h.nbuckets := by simp only [Table.nbuckets, hlog]
  have hval (j : Nat) (hj : j < h.nbuckets) (hji : j ≠ i) (ho : (h.buckets j).offset ≠ 0) :
      h'.values (h.buckets j) = h.values (h.buckets j) := by
    apply hblock _ (TableInv.mem_offsets hj ho)
    intro he
    exact hji (hi.distinct j i hj (hb ▸ h.bucketIndex_lt t key) ho he)
  constructor
  case owns => exact howns
  case distinct =>
    intro j j' hj hj' ho he
    rw [hnb] at hj hj'
    by_cases hji : j = i
    · by_cases hji' : j' = i
      · rw [hji, hji']
      · rw [hji, hbuck j' hji'] at he
        exact absurd he.symm (hnew j' hj' hji')
    · by_cases hji' : j' = i
      · rw [hji', hbuck j hji] at he
        exact absurd he (hnew j hj hji)
      · rw [hbuck j hji] at ho he
        rw [hbuck j' hji'] at he
        exact hi.distinct j j' hj hj' ho he
  case array =>
    intro j hj ho
    rw [hnb] at hj
    rw [hlog]
    by_cases hji : j = i
    · subst hji
      exact harray
    · rw [hbuck j hji] at ho ⊢
      rw [hval j hj hji ho]
      exact hi.array j hj ho
  case map =>
    intro k v
    rw [hlog, Function.update_apply]
    by_cases hk : bucketIndex t h.log2Nbuckets k = i
    · rw [hk, hholds k v hk]
      constructor
      · intro hm
        refine ⟨hne, ?_⟩
        split at hm
        · next he => exact .inl ⟨he, hm⟩
        · next he => exact .inr ⟨he, hk ▸ (hi.map k v).mp hm⟩
      · rintro ⟨_, ⟨he, hv⟩ | ⟨he, hv⟩⟩
        · rw [if_pos he, hv]
        · rw [if_neg he, hi.map, hk]
          exact hv
    · have hkey : k ≠ key := by
        rintro rfl
        exact hk hb
      rw [if_neg hkey, hi.map, hbuck _ hk]
      constructor
      · rintro ⟨ho, hh⟩
        rw [hval _ (h.bucketIndex_lt t k) hk ho]
        exact ⟨ho, hh⟩
      · rintro ⟨ho, hh⟩
        rw [hval _ (h.bucketIndex_lt t k) hk ho] at hh
        exact ⟨ho, hh⟩

theorem Table.offsets_update {h h' : Table K V} (hlog : h'.log2Nbuckets = h.log2Nbuckets)
    (hbuck : ∀ j, j ≠ i → h'.buckets j = h.buckets j) (ho : o ∈ h'.offsets) :
    o = (h'.buckets i).offset ∨ o ∈ h.offsets ∧ ∃ j, j < h.nbuckets ∧ j ≠ i ∧ (h.buckets j).offset = o := by
  obtain ⟨hne, j, hj, he⟩ := ho
  have hnb : h'.nbuckets = h.nbuckets := by simp only [Table.nbuckets, hlog]
  rw [hnb] at hj
  by_cases hji : j = i
  · exact .inl (hji ▸ he.symm)
  · rw [hbuck j hji] at he
    exact .inr ⟨⟨hne, j, hj, he⟩, j, hj, hji, he⟩

end

variable {K V : Type} {t : Template K V} {h h' h'' : Table K V} {s : Set Nat}

/-- `h'` differs from `h` at most outside the arrays in use. -/
structure Keeps (h h' : Table K V) (s : Set Nat) : Prop where
  log : h'.log2Nbuckets = h.log2Nbuckets
  buckets : h'.buckets = h.buckets
  owns : h'.heap.Owns pagesSize s
  block : ∀ o ∈ s, h'.heap.block o = h.heap.block o

/-- `h'` has one more array, at offset `o`. -/
structure Extended (h h' : Table K V) (s : Set Nat) (o : Nat) : Prop where
  log : h'.log2Nbuckets = h.log2Nbuckets
  buckets : h'.buckets = h.buckets
  not_mem : o ∉ s
  owns : h'.heap.Owns pagesSize (insert o s)
  block : ∀ o' ∈ s, h'.heap.block o' = h.heap.block o'

theorem Extended.ne_zero (he : Extended h h' s o) : o ≠ 0 :=
  Nat.pos_iff_ne_zero.mp (he.owns.lt_next o (Set.mem_insert _ _)).1

theorem Extended.offset_ne (he : Extended h h' h.offsets o) (hj : j < h.nbuckets) :
    (h.buckets j).offset ≠ o := by
  rintro rfl
  exact he.not_mem (TableInv.mem_offsets hj he.ne_zero)

theorem Keeps.extended (hk : Keeps h h' s) (he : Extended h' h'' s o) : Extended h h'' s o :=
  ⟨he.log.trans hk.log, he.buckets.trans hk.buckets, he.not_mem, he.owns,
    fun o' hm => (he.block o' hm).trans (hk.block o' hm)⟩

theorem Keeps.trans (hk : Keeps h h' s) (hk' : Keeps h' h'' s) : Keeps h h'' s :=
  ⟨hk'.log.trans hk.log, hk'.buckets.trans hk.buckets, hk'.owns,
    fun o hm => (hk'.block o hm).trans (hk.block o hm)⟩

theorem valueAlloc_extended (ho : h.heap.Owns pagesSize s) (t : Template K V) (L : Nat) :
    Extended h (valueAlloc t h L).1 s (valueAlloc t h L).2 ∧
      (valueAlloc t h L).1.heap.block (valueAlloc t h L).2 = List.replicate (pagesSize L) t.ones := by
  have hf := ho.alloc L t.ones
  exact ⟨⟨rfl, rfl, hf.not_mem, hf.owns, hf.block_eq⟩, hf.block_self⟩

theorem Extended.setValues (he : Extended h h' s o) (values : List (K × V)) :
    Extended h (setValues h' o values) s o ∧ (Bihash.setValues h' o values).heap.block o = values := by
  refine ⟨⟨he.log, he.buckets, he.not_mem, he.owns.write (Set.mem_insert _ _) values, ?_⟩,
    SlabHeap.write_self ..⟩
  intro o' hm
  have hne : o' ≠ o := by
    rintro rfl
    exact he.not_mem hm
  exact (SlabHeap.write_ne _ _ hne).trans (he.block o' hm)

theorem log2_pagesSize (L : Nat) : Nat.log2 (pagesSize L / kvpPerPage) = L := by
  rw [pagesSize, Nat.mul_div_cancel_left _ (by decide), Nat.log2_two_pow]

theorem Extended.free (he : Extended h h' s o) (hl : (h'.heap.block o).length = pagesSize L) :
    Keeps h (valueFree h' o) s := by
  refine ⟨he.log, he.buckets, ?_, he.block⟩
  have hfree := he.owns.free (Set.mem_insert o s)
    (show _ = pagesSize (Nat.log2 ((h'.heap.block o).length / kvpPerPage)) by
      rw [hl, log2_pagesSize])
  apply hfree.mono
  intro o' hm
  refine ⟨Set.mem_insert_of_mem _ hm, ?_⟩
  rintro rfl
  exact he.not_mem hm

/-- The array at `o` is a rehashed copy of `old`. -/
structure SplitOk (t : Template K V) (h h' : Table K V) (s : Set Nat) (b : Nat) (linear : Bool) (L : Nat)
    (old : List (K × V)) (o : Nat) : Prop where
  extended : Extended h h' s o
  array : ArrayOk t h.log2Nbuckets b linear L (h'.heap.block o)
  holds : ∀ k v, Holds t (h'.heap.block o) k v ↔ Holds t old k v

theorem Moved.of_cleared (hm : Moved t (List.replicate m t.ones) old values) (k : K) (v : V) :
    Holds t values k v ↔ Holds t old k v := by
  rw [hm, holds_iff_mem old]
  constructor
  · rintro (⟨hne, i, hi⟩ | hmem)
    · rw [slot_replicate] at hi
      exact absurd hi.symm hne
    · exact hmem
  · exact .inr

theorem splitAndRehash_spec (hl : t.Lawful) (ho : h.heap.Owns pagesSize s)
    (ha : ArrayOk t h.log2Nbuckets b linear L old) (L' : Nat) :
    (∃ h', splitAndRehash t h old L' = (h', none) ∧ Keeps h h' s) ∨
      ∃ h' o, splitAndRehash t h old L' = (h', some o) ∧ SplitOk t h h' s b false L' old o := by
  obtain ⟨he, hblock⟩ := valueAlloc_extended ho t L'
  simp only [splitAndRehash]
  split
  · next values hr =>
    rw [hblock] at hr
    obtain ⟨hok, hm⟩ := rehashInto_spec hl (ArrayOk.cleared t _ b false L') (ha.movable _) hr
    obtain ⟨he', hv⟩ := he.setValues values
    exact .inr ⟨_, _, rfl, he', hv.symm ▸ hok, fun k v => hv.symm ▸ hm.of_cleared k v⟩
  · refine .inl ⟨_, rfl, he.free (L := L') ?_⟩
    rw [hblock, length_replicate]

theorem splitAndRehashLinear_spec (hl : t.Lawful) (ho : h.heap.Owns pagesSize s)
    (ha : ArrayOk t h.log2Nbuckets b linear L old) (hfit : pagesSize L < pagesSize L') :
    ∃ h' o, splitAndRehashLinear t h old L' = (h', some o) ∧ SplitOk t h h' s b true L' old o ∧
      slot t (h'.heap.block o) (pagesSize L) = t.ones := by
  obtain ⟨he, hblock⟩ := valueAlloc_extended ho t L'
  obtain ⟨values, hr, hok, hm, hrest⟩ := rehashLinear_spec (j := 0) hl
    (ArrayOk.cleared t h.log2Nbuckets b true L') (ha.movable _)
    (by rw [ha.length]; omega) (fun i _ => slot_replicate ..)
  obtain ⟨he', hv⟩ := he.setValues values
  refine ⟨_, _, ?_, ⟨he', hv.symm ▸ hok, fun k v => hv.symm ▸ hm.of_cleared k v⟩, ?_⟩
  · simp only [splitAndRehashLinear, hblock, hr]
  · rw [hv]
    exact hrest _ (by rw [ha.length]; omega)

/-- The array at `o` holds the pairs of `old` and the new pair `kv`. -/
structure AddedOk (t : Template K V) (h h' : Table K V) (s : Set Nat) (b : Nat) (linear : Bool) (L : Nat)
    (old : List (K × V)) (kv : K × V) (o : Nat) : Prop where
  extended : Extended h h' s o
  array : ArrayOk t h.log2Nbuckets b linear L (h'.heap.block o)
  holds : ∀ k v, Holds t (h'.heap.block o) k v ↔
    k = kv.1 ∧ v = kv.2 ∨ k ≠ kv.1 ∧ Holds t old k v

theorem addToSplit_spec (hl : t.Lawful) (hs : SplitOk t h h' s b linear L old o)
    (hkv : t.Storable kv) (hb : bucketIndex t h.log2Nbuckets kv.1 = b)
    (hno : ∀ v, ¬ Holds t old kv.1 v) :
    addToSplit t h' kv o linear L = none ∧ Keeps h (valueFree h' o) s ∧
        (∀ i, Searched t h.log2Nbuckets linear L kv.1 i → slot t (h'.heap.block o) i ≠ t.ones) ∨
      ∃ h'', addToSplit t h' kv o linear L = some h'' ∧ AddedOk t h h'' s b linear L old kv o := by
  have habs (i : Nat) : (slot t (h'.heap.block o) i).1 ≠ kv.1 := by
    intro hk
    have hne := slot_ne_of_key hkv.2 hk
    refine hno (slot t (h'.heap.block o) i).2 ((hs.holds _ _).mp ⟨?_, i, ?_⟩)
    · rw [← hk]
      exact hne
    · rw [← hk]
  unfold addToSplit
  rw [hs.extended.log]
  cases hf : findSlot t t.isFree (h'.heap.block o) (searchLimit linear L)
      (searchStart t h.log2Nbuckets linear L kv.1) with
  | none =>
    refine .inl ⟨rfl, hs.extended.free hs.array.length, ?_⟩
    intro i hi he
    have := findSlot_none hf hi.1 hi.2
    rw [he, hl.ones_free] at this
    exact absurd this (by decide)
  | some j =>
    obtain ⟨h1, h2, hfree⟩ := findSlot_some hf
    have hsrch : Searched t h.log2Nbuckets linear L kv.1 j := ⟨h1, h2⟩
    have hone := (hs.array.isFree_iff hl).mp hfree
    have hj (i : Nat) (hi : (slot t (h'.heap.block o) i).1 = kv.1) : i = j := absurd hi (habs i)
    obtain ⟨he, hv⟩ := hs.extended.setValues ((h'.heap.block o).set j kv)
    refine .inr ⟨_, rfl, he, hv.symm ▸ hs.array.put hkv hb hsrch hj, ?_⟩
    intro k v
    rw [hv, hs.array.holds_put hkv hsrch hj (.inl hone), hs.holds]

end Vpp.Bihash
