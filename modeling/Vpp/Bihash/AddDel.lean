import Vpp.Bihash.Split

namespace Vpp.Bihash
open Vpp.Lib Function

variable {K V : Type} {t : Template K V} {h h' h'' : Table K V} {m : K → Option V} {kv : K × V}

/-- The bucket of `kv` has an array without its key. -/
structure Overflowing (t : Template K V) (h : Table K V) (m : K → Option V) (kv : K × V) (i : Nat) :
    Prop where
  inv : TableInv t h m
  bucket : bucketIndex t h.log2Nbuckets kv.1 = i
  used : (h.buckets i).offset ≠ 0
  storable : t.Storable kv
  absent : ∀ v, ¬ Holds t (h.values (h.buckets i)) kv.1 v

theorem Overflowing.lt (hv : Overflowing t h m kv i) : i < h.nbuckets :=
  hv.bucket ▸ h.bucketIndex_lt t kv.1

theorem Overflowing.arrayOk (hv : Overflowing t h m kv i) :
    ArrayOk t h.log2Nbuckets i (h.buckets i).linearSearch (h.buckets i).log2Pages
      (h.values (h.buckets i)) := hv.inv.array i hv.lt hv.used

/-- Bucket `i` is pointed at a new array, which has what the old one had and the pair `kv`. -/
theorem TableInv.repoint [DecidableEq K] (hi : TableInv t h m) (he : Extended h h' h.offsets o)
    (hb : bucketIndex t h.log2Nbuckets kv.1 = i) (hlog : h''.log2Nbuckets = h'.log2Nbuckets)
    (hbuck : h''.buckets = update h'.buckets i ⟨o, linear, L⟩)
    (hblock : h''.heap.block = h'.heap.block) (howns : h''.heap.Owns pagesSize h''.offsets)
    (ha : ArrayOk t h.log2Nbuckets i linear L (h'.heap.block o))
    (hh : ∀ k v, Holds t (h'.heap.block o) k v ↔ k = kv.1 ∧ v = kv.2 ∨
      k ≠ kv.1 ∧ (h.buckets i).offset ≠ 0 ∧ Holds t (h.values (h.buckets i)) k v) :
    TableInv t h'' (update m kv.1 (some kv.2)) := by
  have hself : h''.buckets i = ⟨o, linear, L⟩ := by rw [hbuck, update_self]
  have hvals : h''.values (h''.buckets i) = h'.heap.block o := by
    rw [hself, Table.values, hblock]
  apply hi.replace (hlog.trans he.log) hb
  case hbuck =>
    intro j hj
    rw [hbuck, update_of_ne hj, he.buckets]
  case hblock =>
    intro o' hm _
    rw [hblock]
    exact he.block o' hm
  case howns => exact howns
  case hne =>
    rw [hself]
    exact he.ne_zero
  case hnew =>
    intro j hj _
    rw [hself]
    exact he.offset_ne hj
  case harray =>
    rw [hvals, hself]
    exact ha
  case hholds =>
    intro k v _
    rw [hvals, hh]
    constructor
    · rintro (⟨hk, rfl⟩ | hk)
      · exact .inl ⟨hk, rfl⟩
      · exact .inr hk
    · rintro (⟨hk, hv⟩ | hk)
      · exact .inl ⟨hk, (Option.some.inj hv).symm⟩
      · exact .inr hk

theorem Extended.offsets_repoint (he : Extended h h' h.offsets o) (ho' : o' ∈ h''.offsets)
    (hlog : h''.log2Nbuckets = h'.log2Nbuckets)
    (hbuck : h''.buckets = update h'.buckets i ⟨o, linear, L⟩) :
    o' = o ∨ o' ∈ h.offsets ∧ ∃ j, j < h.nbuckets ∧ j ≠ i ∧ (h.buckets j).offset = o' := by
  have hother (j : Nat) (hj : j ≠ i) : h''.buckets j = h.buckets j := by
    rw [hbuck, update_of_ne hj, he.buckets]
  have hcase := Table.offsets_update (hlog.trans he.log) hother ho'
  rw [hbuck, update_self] at hcase
  exact hcase

theorem Overflowing.expandOk [DecidableEq K] (hv : Overflowing t h m kv i)
    (ha : AddedOk t h h' h.offsets i linear L (h.values (h.buckets i)) kv o) :
    TableInv t (expandOk h' i (h.buckets i) o linear L) (update m kv.1 (some kv.2)) := by
  have hmem := TableInv.mem_offsets hv.lt hv.used
  have hlen : (h'.heap.block (h.buckets i).offset).length = pagesSize (h.buckets i).log2Pages := by
    rw [ha.extended.block _ hmem]
    exact hv.arrayOk.length
  apply hv.inv.repoint ha.extended hv.bucket
  case hlog => rfl
  case hbuck => rfl
  case hblock => rfl
  case howns =>
    have hfree := ha.extended.owns.free (Set.mem_insert_of_mem o hmem)
      (show _ = pagesSize (Nat.log2 ((h'.heap.block (h.buckets i).offset).length / kvpPerPage)) by
        rw [hlen, log2_pagesSize])
    apply hfree.mono
    intro o' ho'
    obtain rfl | ⟨hm, j, hj, hji, rfl⟩ := ha.extended.offsets_repoint ho' rfl rfl
    · exact ⟨Set.mem_insert _ _, fun he => ha.extended.offset_ne hv.lt he.symm⟩
    · exact ⟨Set.mem_insert_of_mem _ hm, fun he => hji (hv.inv.distinct j i hj hv.lt hm.1 he)⟩
  case ha => exact ha.array
  case hh =>
    intro k v
    rw [ha.holds]
    simp only [hv.used, ne_eq, not_false_eq_true, true_and]

theorem SplitOk.of_keeps (hk : Keeps h h' s) (hs : SplitOk t h' h'' s b linear L old o) :
    SplitOk t h h'' s b linear L old o :=
  ⟨hk.extended hs.extended, hk.log ▸ hs.array, hs.holds⟩

theorem markLinear_spec [DecidableEq K] (hl : t.Lawful) (hv : Overflowing t h m kv i) (hk : Keeps h h' h.offsets)
    (hlt : (h.buckets i).log2Pages < L) :
    ∃ h'', markLinear t i (h.buckets i) (h.values (h.buckets i)) kv h' (L + 1) = some h'' ∧
      TableInv t h'' (update m kv.1 (some kv.2)) ∧ h''.log2Nbuckets = h.log2Nbuckets := by
  have hfit : pagesSize (h.buckets i).log2Pages < pagesSize L := by
    have := Nat.pow_lt_pow_right (a := 2) (by decide) hlt
    simp only [pagesSize, kvpPerPage]
    omega
  obtain ⟨h1, o, hsplit, hs, hroom⟩ := splitAndRehashLinear_spec hl hk.owns
    (hk.log.symm ▸ hv.arrayOk) hfit
  simp only [markLinear, hsplit]
  obtain ⟨_, _, hfull⟩ | ⟨h2, hadd, ha⟩ :=
    addToSplit_spec hl (hs.of_keeps hk) hv.storable hv.bucket hv.absent
  · exact absurd hroom (hfull _ (searched_linear hfit))
  · rw [hadd]
    exact ⟨_, rfl, hv.expandOk ha, ha.extended.log⟩

theorem tryResplit_spec [DecidableEq K] (hl : t.Lawful) (hv : Overflowing t h m kv i) (hk : Keeps h h' h.offsets) :
    ∃ h'', tryResplit t i (h.buckets i) (h.values (h.buckets i)) kv h'
        ((h.buckets i).log2Pages + 1 + 1) = some h'' ∧
      TableInv t h'' (update m kv.1 (some kv.2)) ∧ h''.log2Nbuckets = h.log2Nbuckets := by
  obtain ⟨h1, hsplit, hk'⟩ | ⟨h1, o, hsplit, hs⟩ := splitAndRehash_spec hl hk.owns
    (hk.log.symm ▸ hv.arrayOk) ((h.buckets i).log2Pages + 1 + 1)
  · simp only [tryResplit, hsplit]
    exact markLinear_spec hl hv (hk.trans hk') (Nat.lt_succ_self _)
  · simp only [tryResplit, hsplit]
    obtain ⟨hadd, hk', _⟩ | ⟨h2, hadd, ha⟩ :=
      addToSplit_spec hl (hs.of_keeps hk) hv.storable hv.bucket hv.absent
    · rw [hadd]
      exact markLinear_spec hl hv hk' (Nat.lt_succ_self _)
    · rw [hadd]
      exact ⟨_, rfl, hv.expandOk ha, ha.extended.log⟩

theorem splitBucket_spec [DecidableEq K] (hl : t.Lawful) (hv : Overflowing t h m kv i) :
    ∃ h'', splitBucket t i (h.buckets i) (h.values (h.buckets i)) kv h = some h'' ∧
      TableInv t h'' (update m kv.1 (some kv.2)) ∧ h''.log2Nbuckets = h.log2Nbuckets := by
  obtain ⟨h1, hsplit, hk'⟩ | ⟨h1, o, hsplit, hs⟩ := splitAndRehash_spec hl hv.inv.owns hv.arrayOk
    ((h.buckets i).log2Pages + 1)
  · simp only [splitBucket, hsplit]
    exact tryResplit_spec hl hv hk'
  · simp only [splitBucket, hsplit]
    obtain ⟨hadd, hk', _⟩ | ⟨h2, hadd, ha⟩ :=
      addToSplit_spec hl hs hv.storable hv.bucket hv.absent
    · rw [hadd]
      exact tryResplit_spec hl hv hk'
    · rw [hadd]
      exact ⟨_, rfl, hv.expandOk ha, ha.extended.log⟩

theorem TableInv.setValues [DecidableEq K] (hi : TableInv t h m)
    (hb : bucketIndex t h.log2Nbuckets key = i) (hu : (h.buckets i).offset ≠ 0)
    (ha : ArrayOk t h.log2Nbuckets i (h.buckets i).linearSearch (h.buckets i).log2Pages values)
    (hh : ∀ k v, Holds t values k v ↔ k = key ∧ ov = some v ∨
      k ≠ key ∧ Holds t (h.values (h.buckets i)) k v) :
    TableInv t (setValues h (h.buckets i).offset values) (update m key ov) := by
  have hlt : i < h.nbuckets := hb ▸ h.bucketIndex_lt t key
  have hself : (Bihash.setValues h (h.buckets i).offset values).values (h.buckets i) = values :=
    SlabHeap.write_self ..
  apply hi.replace _ hb
  case hbuck => exact fun _ _ => rfl
  case hblock =>
    intro o _ hne
    exact SlabHeap.write_ne _ _ hne
  case howns => exact hi.owns.write (TableInv.mem_offsets hlt hu) values
  case hne => exact hu
  case hnew =>
    intro j hj hji he
    exact hji (hi.distinct i j hlt hj hu he.symm).symm
  case harray =>
    exact hself.symm ▸ ha
  case hholds =>
    intro k v _
    refine (hself.symm ▸ hh k v).trans ?_
    constructor
    · rintro (hk | ⟨hk, hv⟩)
      · exact .inl hk
      · exact .inr ⟨hk, hu, hv⟩
    · rintro (hk | ⟨hk, _, hv⟩)
      · exact .inl hk
      · exact .inr ⟨hk, hv⟩
  rfl

/-- The first element of a bucket goes to the first cell of a new page. -/
theorem TableInv.first [DecidableEq K] (hi : TableInv t h m) (hs : t.Storable kv)
    (hb : bucketIndex t h.log2Nbuckets kv.1 = i) (hz : (h.buckets i).offset = 0)
    (ha : valueAlloc t h 0 = (h', o)) :
    TableInv t { Bihash.setValues h' o ((h'.heap.block o).set 0 kv) with
      buckets := update h'.buckets i ⟨o, false, 0⟩ } (update m kv.1 (some kv.2)) := by
  obtain ⟨he, hblock⟩ := valueAlloc_extended hi.owns t 0
  simp only [ha] at he hblock
  obtain ⟨he', hv⟩ := he.setValues ((h'.heap.block o).set 0 kv)
  rw [hblock] at he' hv ⊢
  have hcl := ArrayOk.cleared t h.log2Nbuckets i false 0
  have hsrch : Searched t h.log2Nbuckets false 0 kv.1 0 := by
    simp [Searched, searchStart, searchLimit, homePage, kvpPerPage]
  have hno (j : Nat) (hj : (slot t (List.replicate (pagesSize 0) t.ones) j).1 = kv.1) : j = 0 := by
    rw [slot_replicate] at hj
    exact absurd hj.symm hs.2
  apply hi.repoint he' hb
  case hlog => rfl
  case hbuck => rfl
  case hblock => rfl
  case howns =>
    apply he'.owns.mono
    intro o' ho'
    obtain rfl | ⟨hm, _⟩ := he'.offsets_repoint ho' rfl rfl
    · exact Set.mem_insert _ _
    · exact Set.mem_insert_of_mem _ hm
  case ha =>
    rw [hv]
    exact hcl.put hs hb hsrch hno
  case hh =>
    intro k v
    rw [hv, hcl.holds_put hs hsrch hno (.inl (slot_replicate ..))]
    constructor
    · rintro (hk | ⟨_, hne, j, hj⟩)
      · exact .inl hk
      · rw [slot_replicate] at hj
        exact absurd hj.symm hne
    · rintro (hk | ⟨_, hne, _⟩)
      · exact .inl hk
      · exact absurd hz hne

theorem ArrayOk.not_holds [DecidableEq K] (ha : ArrayOk t n b linear L values)
    (hf : findSlot t (fun kv => decide (kv.1 = key)) values (searchLimit linear L)
      (searchStart t n linear L key) = none) (v : V) : ¬ Holds t values key v := by
  intro hh
  obtain ⟨i, hi, hs⟩ := ha.searched hh
  have := findSlot_none hf hs.1 hs.2
  simp [hi] at this

theorem clibBihashAddDel_add [DecidableEq K] (hl : t.Lawful) (hi : TableInv t h m)
    (hs : t.Storable kv) :
    ∃ h', clibBihashAddDel t h kv true = some (h', 0) ∧
      TableInv t h' (update m kv.1 (some kv.2)) ∧ h'.log2Nbuckets = h.log2Nbuckets := by
  have hlt := h.bucketIndex_lt t kv.1
  obtain ⟨i, hb⟩ : ∃ i, bucketIndex t h.log2Nbuckets kv.1 = i := ⟨_, rfl⟩
  rw [hb] at hlt
  by_cases hz : (h.buckets i).offset = 0
  · obtain ⟨⟨h', o⟩, hn⟩ : ∃ p, valueAlloc t h 0 = p := ⟨_, rfl⟩
    refine ⟨_, ?_, hi.first hs hb hz hn, ?_⟩
    · simp only [clibBihashAddDel, hb, hz, hn, ↓reduceIte, Bool.true_eq_false, setValues]
    · exact congrArg (fun p => p.1.log2Nbuckets) hn.symm
  have ha := hi.array i hlt hz
  simp only [clibBihashAddDel, hb, hz, ↓reduceIte]
  cases hk : findSlot t (fun p => decide (p.1 = kv.1)) (h.values (h.buckets i))
      (searchLimit (h.buckets i).linearSearch (h.buckets i).log2Pages)
      (searchStart t h.log2Nbuckets (h.buckets i).linearSearch (h.buckets i).log2Pages kv.1) with
  | some j =>
    obtain ⟨h1, h2, hkey⟩ := findSlot_some hk
    have hkey := of_decide_eq_true hkey
    have hno (j' : Nat) (hj : (slot t (h.values (h.buckets i)) j').1 = kv.1) : j' = j :=
      (ha.unique j j' (slot_ne_of_key hs.2 hkey) (hkey.trans hj.symm)).symm
    refine ⟨_, rfl, hi.setValues hb hz (ha.put hs hb ⟨h1, h2⟩ hno) ?_, rfl⟩
    intro k v
    rw [ha.holds_put hs ⟨h1, h2⟩ hno (.inr hkey), Option.some.injEq, eq_comm (a := v)]
  | none =>
    have habs := ha.not_holds hk
    cases hf : findSlot t t.isFree (h.values (h.buckets i))
        (searchLimit (h.buckets i).linearSearch (h.buckets i).log2Pages)
        (searchStart t h.log2Nbuckets (h.buckets i).linearSearch (h.buckets i).log2Pages kv.1) with
    | some j =>
      obtain ⟨h1, h2, hfree⟩ := findSlot_some hf
      have hno (j' : Nat) (hj : (slot t (h.values (h.buckets i)) j').1 = kv.1) : j' = j := by
        refine absurd ⟨?_, j', rfl⟩ (hj ▸ habs (slot t (h.values (h.buckets i)) j').2)
        exact slot_ne_of_key hs.2 hj
      refine ⟨_, rfl, hi.setValues hb hz (ha.put hs hb ⟨h1, h2⟩ hno) ?_, rfl⟩
      intro k v
      rw [ha.holds_put hs ⟨h1, h2⟩ hno (.inl ((ha.isFree_iff hl).mp hfree)), Option.some.injEq,
        eq_comm (a := v)]
    | none =>
      obtain ⟨h', he, hinv, hlog⟩ := splitBucket_spec hl ⟨hi, hb, hz, hs, habs⟩
      refine ⟨h', ?_, hinv, hlog⟩
      simp only [he, Option.map_some]

theorem clibBihashAddDel_del [DecidableEq K] (hi : TableInv t h m) (hk : kv.1 ≠ t.ones.1) :
    ∃ h' rv, clibBihashAddDel t h kv false = some (h', rv) ∧
      TableInv t h' (update m kv.1 none) ∧ h'.log2Nbuckets = h.log2Nbuckets ∧
      (rv = 0 ↔ m kv.1 ≠ none) := by
  have hlt := h.bucketIndex_lt t kv.1
  obtain ⟨i, hb⟩ : ∃ i, bucketIndex t h.log2Nbuckets kv.1 = i := ⟨_, rfl⟩
  rw [hb] at hlt
  have hmap := hi.map kv.1
  rw [hb] at hmap
  have hsame (habs : m kv.1 = none) : update m kv.1 none = m := by
    rw [← habs, update_eq_self]
  by_cases hz : (h.buckets i).offset = 0
  · have habs : m kv.1 = none := by
      cases hm : m kv.1 with
      | none => rfl
      | some v => exact absurd hz ((hmap v).mp hm).1
    refine ⟨h, -1, ?_, (hsame habs).symm ▸ hi, rfl, by simp [habs]⟩
    simp only [clibBihashAddDel, hb, hz, ↓reduceIte]
  have ha := hi.array i hlt hz
  simp only [clibBihashAddDel, hb, hz, ↓reduceIte, Bool.false_eq_true]
  cases hf : findSlot t (fun p => decide (p.1 = kv.1)) (h.values (h.buckets i))
      (searchLimit (h.buckets i).linearSearch (h.buckets i).log2Pages)
      (searchStart t h.log2Nbuckets (h.buckets i).linearSearch (h.buckets i).log2Pages kv.1) with
  | some j =>
    obtain ⟨_, _, hkey⟩ := findSlot_some hf
    have hkey := of_decide_eq_true hkey
    refine ⟨_, 0, rfl, hi.setValues hb hz (ha.clear j) ?_, rfl, ?_⟩
    · intro k v
      rw [ha.holds_clear hk hkey]
      simp
    · have hm : m kv.1 = some (slot t (h.values (h.buckets i)) j).2 := by
        rw [hmap]
        exact ⟨hz, hkey ▸ slot_ne_of_key hk hkey, j, by rw [← hkey]⟩
      simp [hm]
  | none =>
    have habs : m kv.1 = none := by
      cases hm : m kv.1 with
      | none => rfl
      | some v => exact absurd ((hmap v).mp hm).2 (ha.not_holds hf v)
    exact ⟨h, -3, rfl, (hsame habs).symm ▸ hi, rfl, by simp [habs]⟩

end Vpp.Bihash
