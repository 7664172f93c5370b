import Vpp.Dpo.Update
import Vpp.Lib.Along

namespace Vpp.Dpo
open Vpp.Lib

variable {lb : LoadBalance} {edge : DpoId → Nat} {nhs : List Path} {a : Arr} {bs : List Bucket}
    {stores filled : List Store}

def LoadBalance.forward (lb : LoadBalance) (hash : Nat) : Option DpoId :=
  ((lb.arr lb.getBuckets)[hash &&& lb.nBucketsMinus1]?).join

def LoadBalance.Safe (lb : LoadBalance) : Prop := ∀ hash, (lb.forward hash).isSome = true

/-- The first `n` buckets of an array have been written. -/
def LoadBalance.Written (lb : LoadBalance) (a : Arr) (n : Nat) : Prop := ∀ i < n, ∃ d, (lb.arr a)[i]? = some (some d)

/-- The counts are `n` and `m`, and the array selected by the one has been written as far as the other. -/
structure LoadBalance.Serves (lb : LoadBalance) (n m : Nat) : Prop where
  count : lb.nBuckets = n
  minus1 : lb.nBucketsMinus1 = m
  written : lb.Written lb.getBuckets (m + 1)

theorem LoadBalance.Serves.safe (h : lb.Serves n m) : lb.Safe := by
  intro hash
  obtain ⟨d, hd⟩ := h.written (hash &&& m) (Nat.lt_succ_of_le Nat.and_le_right)
  rw [LoadBalance.forward, h.minus1, hd]
  rfl

theorem LoadBalance.not_safe_of_length_le (h : (lb.arr lb.getBuckets).length ≤ lb.nBucketsMinus1) : ¬ lb.Safe := by
  intro hsafe
  have hm := hsafe lb.nBucketsMinus1
  rw [LoadBalance.forward, Nat.and_self, List.getElem?_eq_none h] at hm
  exact absurd hm (by decide)

theorem LoadBalance.Written.mono (h : lb.Written a n) (hk : k ≤ n) : lb.Written a k :=
  fun i hi => h i (Nat.lt_of_lt_of_le hi hk)

/-- The store leaves the counts and the first `n` buckets of the array `a`, or writes some of them. -/
def Store.Keeps (a : Arr) (n : Nat) : Store → Prop
  | .nBuckets _ | .nBucketsMinus1 _ | .install => False
  | .map _ | .validate _ _ => True
  | .bucket b i v => b ≠ a ∨ n ≤ i ∨ v.isSome = true
  | .free b => b ≠ a

theorem LoadBalance.Written.set (h : lb.Written a n) (hs : Store.Keeps a n (.bucket b i v)) :
    (lb.store (.bucket b i v)).Written a n := by
  intro j hj
  obtain ⟨d, hd⟩ := h j hj
  rw [LoadBalance.store]
  by_cases hb : b = a
  · subst hb
    rw [LoadBalance.arr_setArr]
    by_cases hij : i = j
    · subst hij
      obtain hne | hle | hsome := hs
      · exact absurd rfl hne
      · omega
      · obtain ⟨d', rfl⟩ := Option.isSome_iff_exists.mp hsome
        exact ⟨d', List.getElem?_set_self (List.getElem?_eq_some_iff.mp hd).1⟩
    · exact ⟨d, (List.getElem?_set_ne hij).trans hd⟩
  · rw [LoadBalance.arr_setArr_ne _ _ (Ne.symm hb)]
    exact ⟨d, hd⟩

theorem LoadBalance.Written.store (h : lb.Written a n) (hs : s.Keeps a n) : (lb.store s).Written a n := by
  cases s with
  | nBuckets _ => exact absurd hs id
  | nBucketsMinus1 _ => exact absurd hs id
  | install => exact absurd hs id
  | map lbmi =>
    intro i hi
    obtain ⟨d, hd⟩ := h i hi
    cases a <;> exact ⟨d, hd⟩
  | bucket b i v => exact h.set hs
  | validate b k =>
    intro i hi
    obtain ⟨d, hd⟩ := h i hi
    rw [LoadBalance.store]
    by_cases hb : b = a
    · subst hb
      rw [LoadBalance.arr_setArr]
      exact ⟨d, (List.getElem?_append_left (List.getElem?_eq_some_iff.mp hd).1).trans hd⟩
    · rw [LoadBalance.arr_setArr_ne _ _ (Ne.symm hb)]
      exact ⟨d, hd⟩
  | free b =>
    intro i hi
    rw [LoadBalance.store, LoadBalance.arr_setArr_ne _ _ (Ne.symm hs)]
    exact h i hi

theorem LoadBalance.counts_store (lb : LoadBalance) (hs : Store.Keeps a n s) :
    (lb.store s).nBuckets = lb.nBuckets ∧ (lb.store s).nBucketsMinus1 = lb.nBucketsMinus1 := by
  cases s with
  | nBuckets _ => exact absurd hs id
  | nBucketsMinus1 _ => exact absurd hs id
  | install => exact absurd hs id
  | map lbmi => exact ⟨rfl, rfl⟩
  | bucket b i v => exact ⟨lb.nBuckets_setArr _ _, lb.nBucketsMinus1_setArr _ _⟩
  | validate b k => exact ⟨lb.nBuckets_setArr _ _, lb.nBucketsMinus1_setArr _ _⟩
  | free b => exact ⟨lb.nBuckets_setArr _ _, lb.nBucketsMinus1_setArr _ _⟩

def selected (n : Nat) : Arr := if n ≤ lbNumInlineBuckets then .inline else .outline

theorem LoadBalance.Serves.along (h : lb.Serves n m) (hk : ∀ s ∈ stores, Store.Keeps (selected n) (m + 1) s) :
    Along LoadBalance.store LoadBalance.Safe lb stores ∧ (lb.storeAll stores).Serves n m := by
  refine along_of_keeps (Q := fun lb => LoadBalance.Serves lb n m) (fun _ h => h.safe) ?_ h
  intro s hs lb hlb
  obtain ⟨hn, hm⟩ := lb.counts_store (hk s hs)
  have hcount := hn.trans hlb.count
  have hw : lb.Written (selected lb.nBuckets) (m + 1) := hlb.written
  rw [hlb.count] at hw
  refine ⟨hcount, hm.trans hlb.minus1, ?_⟩
  show (lb.store s).Written (selected (lb.store s).nBuckets) (m + 1)
  rw [hcount]
  exact hw.store (hk s hs)

theorem LoadBalance.Serves.along_setNBuckets (h : lb.Serves old m) (hpos : 0 < n) (hlt : n < 2 ^ 16)
    (hold : lb.Written (selected n) (m + 1)) (hnew : lb.Written (selected n) n) :
    Along LoadBalance.store LoadBalance.Safe lb (setNBuckets n) ∧ (lb.storeAll (setNBuckets n)).Serves n (n - 1) := by
  have hn : n % 2 ^ 16 = n := Nat.mod_eq_of_lt hlt
  have hm : (n + 2 ^ 32 - 1) % 2 ^ 16 = n - 1 := by omega
  have hfirst : (lb.store (.nBuckets n)).Serves n m := by
    refine ⟨hn, h.minus1, ?_⟩
    show lb.Written (selected (n % 2 ^ 16)) (m + 1)
    rw [hn]
    exact hold
  have hsecond : ((lb.store (.nBuckets n)).store (.nBucketsMinus1 (n + 2 ^ 32 - 1))).Serves n (n - 1) := by
    refine ⟨hn, hm, ?_⟩
    show lb.Written (selected (n % 2 ^ 16)) (n - 1 + 1)
    rw [hn, Nat.sub_add_cancel hpos]
    exact hnew
  exact ⟨⟨h.safe, hfirst.safe, hsecond.safe⟩, hsecond⟩

theorem mem_fillBuckets (h : fillBuckets edge b nhs i = some filled) (hs : s ∈ filled) :
    ∃ j d, s = .bucket b j (some d) := by
  induction nhs generalizing i filled with
  | nil =>
    cases h
    exact absurd hs List.not_mem_nil
  | cons nh nhs ih =>
    rw [fillBuckets] at h
    split at h
    · obtain ⟨rest, hrest, he⟩ := Option.bind_eq_some_iff.mp h
      cases he
      rcases List.mem_append.mp hs with hs | hs
      · obtain ⟨ii, -, rfl⟩ := List.mem_map.mp hs
        exact ⟨_, _, rfl⟩
      · exact ih hrest hs
    · cases h

theorem keeps_fillBuckets (h : fillBuckets edge b nhs i = some filled) (a : Arr) (n : Nat) :
    ∀ s ∈ filled, Store.Keeps a n s := by
  intro s hs
  obtain ⟨j, d, rfl⟩ := mem_fillBuckets h hs
  exact .inr (.inr rfl)

theorem keeps_writeBuckets (h : b ≠ a ∨ n ≤ i) (k : Nat) (v : Bucket) :
    ∀ s ∈ writeBuckets b i k v, Store.Keeps a n s := by
  intro s hs
  obtain ⟨ii, -, rfl⟩ := List.mem_map.mp hs
  rcases h with hne | hle
  · exact .inl hne
  · exact .inr (.inl (by omega))

theorem written_splice (hsome : ∀ b ∈ bs, b.isSome = true) (h : lb.arr a = splice v 0 bs) : lb.Written a bs.length := by
  intro i hi
  have hget : (lb.arr a)[i]? = bs[i]? := by
    have htake := take_splice_zero v bs
    rw [h, ← List.getElem?_take_of_lt hi, htake]
  obtain ⟨d, hd⟩ := Option.isSome_iff_exists.mp (hsome _ (List.getElem_mem hi))
  exact ⟨d, by rw [hget, List.getElem?_eq_getElem hi, hd]⟩

theorem isSome_bucketsOf (edge : DpoId → Nat) (nhs : List Path) : ∀ b ∈ bucketsOf edge nhs, b.isSome = true := by
  intro b hb
  obtain ⟨nh, -, hmem⟩ := List.mem_flatMap.mp hb
  rw [List.eq_of_mem_replicate hmem]
  rfl

theorem LoadBalance.Serves.along_update (h : Along LoadBalance.store LoadBalance.Safe lb before)
    (hserves : (lb.storeAll before).Serves old m) (hpos : 0 < n) (hlt : n < 2 ^ 16)
    (hold : (lb.storeAll before).Written (selected n) (m + 1)) (hnew : (lb.storeAll before).Written (selected n) n)
    (hafter : ∀ s ∈ after, Store.Keeps (selected n) n s) :
    Along LoadBalance.store LoadBalance.Safe lb (before ++ setNBuckets n ++ after) := by
  obtain ⟨hset, hserves'⟩ := hserves.along_setNBuckets hpos hlt hold hnew
  have hafter' : ∀ s ∈ after, Store.Keeps (selected n) (n - 1 + 1) s := by
    rw [Nat.sub_add_cancel hpos]
    exact hafter
  refine (h.append hset).append ?_
  rw [List.foldl_append]
  exact (hserves'.along hafter').1

structure LoadBalance.Live (lb : LoadBalance) : Prop where
  ok : lb.Ok
  pos : 0 < lb.nBuckets
  written : lb.Written lb.getBuckets lb.nBuckets

theorem LoadBalance.Live.serves (h : lb.Live) : lb.Serves lb.nBuckets (lb.nBuckets - 1) := by
  have hpos := h.pos
  have hminus1 := h.ok.minus1
  have hcount := h.ok.count
  refine ⟨rfl, by omega, ?_⟩
  rw [Nat.sub_add_cancel hpos]
  exact h.written

theorem selected_of_le (h : n ≤ lbNumInlineBuckets) : selected n = .inline := if_pos h

theorem selected_of_gt (h : lbNumInlineBuckets < n) : selected n = .outline := if_neg (by omega)

section Paths
variable (lbmi : Nat)

theorem LoadBalance.Live.along_same (h : lb.Live) (hfill : fillBuckets edge a nhs 0 = some filled) :
    Along LoadBalance.store LoadBalance.Safe lb (filled ++ [.map lbmi]) := by
  refine (h.serves.along ?_).1
  intro s hs
  rcases List.mem_append.mp hs with hs | hs
  · exact keeps_fillBuckets hfill _ _ s hs
  · rw [List.mem_singleton.mp hs]
    trivial

theorem LoadBalance.Live.along_grow_inline (h : lb.Live) (hfill : fillBuckets edge .inline nhs 0 = some filled)
    (hf : Fills .inline bs filled) (hbs : ∀ b ∈ bs, b.isSome = true) (hgt : lb.nBuckets < bs.length)
    (hle : bs.length ≤ lbNumInlineBuckets) :
    Along LoadBalance.store LoadBalance.Safe lb (filled ++ setNBuckets bs.length ++ [.map lbmi]) := by
  have hpos := h.pos
  have h16 : bs.length < 2 ^ 16 := by
    simp only [lbNumInlineBuckets] at hle
    omega
  have hroom : bs.length ≤ lb.bucketsInline.length := h.ok.inline ▸ hle
  obtain ⟨halong, hserves⟩ := h.serves.along (keeps_fillBuckets hfill _ _)
  have hw : (lb.storeAll filled).Written (selected bs.length) bs.length := by
    rw [selected_of_le hle, hf.inline lb hroom]
    exact written_splice hbs rfl
  apply hserves.along_update halong (by omega) h16 (hw.mono (by omega)) hw
  intro s hs
  rw [List.mem_singleton.mp hs]
  trivial

theorem LoadBalance.Live.along_grow_across (h : lb.Live) (hfill : fillBuckets edge .outline nhs 0 = some filled)
    (hf : Fills .outline bs filled) (hbs : ∀ b ∈ bs, b.isSome = true) (hgt : lb.nBuckets < bs.length)
    (hout : lbNumInlineBuckets < bs.length) (hlt : bs.length < 2 ^ 16) :
    Along LoadBalance.store LoadBalance.Safe lb ([.validate .outline bs.length] ++ filled ++
      setNBuckets bs.length ++ (writeBuckets .inline 0 lbNumInlineBuckets none ++ [.map lbmi])) := by
  have hkeep : ∀ s ∈ [.validate .outline bs.length] ++ filled,
      Store.Keeps (selected lb.nBuckets) (lb.nBuckets - 1 + 1) s := by
    intro s hs
    rcases List.mem_append.mp hs with hs | hs
    · rw [List.mem_singleton.mp hs]
      trivial
    · exact keeps_fillBuckets hfill _ _ s hs
  obtain ⟨halong, hserves⟩ := h.serves.along hkeep
  have hpos := h.pos
  have hw : (lb.storeAll ([.validate .outline bs.length] ++ filled)).Written (selected bs.length) bs.length := by
    rw [selected_of_gt hout, LoadBalance.storeAll_append, hf.outline]
    · exact written_splice hbs rfl
    · show bs.length ≤ (lb.buckets ++ List.replicate (bs.length - lb.buckets.length) none).length
      rw [List.length_append, List.length_replicate]
      omega
  apply hserves.along_update halong (by omega) hlt (hw.mono (by omega)) hw
  intro s hs
  rcases List.mem_append.mp hs with hs | hs
  · rw [selected_of_gt hout]
    exact keeps_writeBuckets (.inl (by decide)) _ _ s hs
  · rw [List.mem_singleton.mp hs]
    trivial

theorem LoadBalance.Live.along_grow_outline (h : lb.Live) (hfill : fillBuckets edge .scratch nhs 0 = some filled)
    (hf : Fills .scratch bs filled) (hbs : ∀ b ∈ bs, b.isSome = true) (hold : lbNumInlineBuckets < lb.nBuckets)
    (hgt : lb.nBuckets < bs.length) (hlt : bs.length < 2 ^ 16) (k : Nat) :
    Along LoadBalance.store LoadBalance.Safe lb ([.validate .scratch bs.length] ++ filled ++ [.install] ++
      setNBuckets bs.length ++ (writeBuckets .scratch 0 k none ++ [.free .scratch] ++ [.map lbmi])) := by
  have hkeep : ∀ s ∈ [.validate .scratch bs.length] ++ filled,
      Store.Keeps (selected lb.nBuckets) (lb.nBuckets - 1 + 1) s := by
    intro s hs
    rcases List.mem_append.mp hs with hs | hs
    · rw [List.mem_singleton.mp hs]
      trivial
    · exact keeps_fillBuckets hfill _ _ s hs
  obtain ⟨halong, hserves⟩ := h.serves.along hkeep
  have hpos := h.pos
  have hscratch : (lb.storeAll ([.validate .scratch bs.length] ++ filled)).Written .scratch bs.length := by
    rw [LoadBalance.storeAll_append, hf.scratch]
    · exact written_splice hbs rfl
    · show bs.length ≤ (lb.scratch ++ List.replicate (bs.length - lb.scratch.length) none).length
      rw [List.length_append, List.length_replicate]
      omega
  have hw : (lb.storeAll ([.validate .scratch bs.length] ++ filled ++ [.install])).Written .outline bs.length := by
    rw [LoadBalance.storeAll_append]
    exact hscratch
  have hserves' : (lb.storeAll ([.validate .scratch bs.length] ++ filled ++ [.install])).Serves lb.nBuckets
      (lb.nBuckets - 1) := by
    have hcount : (lb.storeAll ([.validate .scratch bs.length] ++ filled ++ [.install])).nBuckets = lb.nBuckets := by
      rw [LoadBalance.storeAll_append]
      exact hserves.count
    refine ⟨hcount, ?_, ?_⟩
    · rw [LoadBalance.storeAll_append]
      exact hserves.minus1
    · show LoadBalance.Written _ (selected (LoadBalance.nBuckets _)) _
      rw [hcount, selected_of_gt hold]
      exact hw.mono (by omega)
  have halong' : Along LoadBalance.store LoadBalance.Safe lb
      ([.validate .scratch bs.length] ++ filled ++ [.install]) := by
    refine halong.append ⟨hserves.safe, ?_⟩
    have hsafe := hserves'.safe
    rw [LoadBalance.storeAll_append] at hsafe
    exact hsafe
  rw [← selected_of_gt (show lbNumInlineBuckets < bs.length by omega)] at hw
  apply hserves'.along_update halong' (by omega) hlt (hw.mono (by omega)) hw
  intro s hs
  rw [selected_of_gt (by omega)]
  rcases List.mem_append.mp hs with hs | hs
  · rcases List.mem_append.mp hs with hs | hs
    · exact keeps_writeBuckets (.inl (by decide)) _ _ s hs
    · rw [List.mem_singleton.mp hs]
      exact Arr.noConfusion
  · rw [List.mem_singleton.mp hs]
    trivial

theorem LoadBalance.Live.along_shrink (h : lb.Live)
    (hfill : fillBuckets edge (selected lb.nBuckets) nhs 0 = some filled)
    (hpos : 0 < n) (hlt : n < lb.nBuckets) (hsel : selected n = selected lb.nBuckets) (k : Nat) :
    Along LoadBalance.store LoadBalance.Safe lb ([.map lbmi] ++ setNBuckets n ++
      (filled ++ writeBuckets (selected lb.nBuckets) n k none)) := by
  have hcount := h.ok.count
  have hmap : ∀ s ∈ [Store.map lbmi], Store.Keeps (selected lb.nBuckets) (lb.nBuckets - 1 + 1) s := by
    intro s hs
    rw [List.mem_singleton.mp hs]
    trivial
  obtain ⟨halong, hserves⟩ := h.serves.along hmap
  have hw : (lb.storeAll [.map lbmi]).Written (selected n) lb.nBuckets := by
    rw [hsel]
    exact h.written
  apply hserves.along_update halong hpos (by omega) (hw.mono (by omega)) (hw.mono (by omega))
  intro s hs
  rcases List.mem_append.mp hs with hs | hs
  · exact keeps_fillBuckets hfill _ _ s hs
  · exact keeps_writeBuckets (.inr (Nat.le_refl n)) _ _ s hs

end Paths

theorem LoadBalance.Live.along_updateStores (h : lb.Live) (hpos : 0 < (bucketsOf edge nhs).length)
    (hlt : (bucketsOf edge nhs).length < 2 ^ 16)
    (hacross : ¬ (lbNumInlineBuckets < lb.nBuckets ∧ (bucketsOf edge nhs).length ≤ lbNumInlineBuckets)) (lbmi : Nat) :
    ∃ stores, updateStores edge lb nhs (bucketsOf edge nhs).length lbmi = some stores ∧
      Along LoadBalance.store LoadBalance.Safe lb stores := by
  obtain ⟨inl, hinl, hfinl⟩ := fills_fillBuckets hlt .inline
  obtain ⟨out, hout, hfout⟩ := fills_fillBuckets hlt .outline
  obtain ⟨scr, hscr, hfscr⟩ := fills_fillBuckets hlt .scratch
  have hbs := isSome_bucketsOf edge nhs
  have hsel : lb.getBuckets = selected lb.nBuckets := rfl
  have hz := h.pos
  generalize bucketsOf edge nhs = bs at *
  simp only [updateStores]
  rw [if_neg (by omega), hsel]
  by_cases hold : lb.nBuckets ≤ lbNumInlineBuckets
  · have hin := selected_of_le hold
    rw [hin]
    by_cases heq : bs.length = lb.nBuckets
    · rw [if_pos heq, hinl]
      exact ⟨_, rfl, h.along_same lbmi hinl⟩
    · rw [if_neg heq]
      by_cases hgt : bs.length > lb.nBuckets
      · rw [if_pos hgt]
        by_cases hn : bs.length ≤ lbNumInlineBuckets
        · rw [if_neg (by omega), if_pos hn, hinl]
          exact ⟨_, rfl, h.along_grow_inline lbmi hinl hfinl hbs hgt hn⟩
        · rw [if_pos (by omega), hout]
          refine ⟨_, rfl, ?_⟩
          rw [List.append_assoc _ (writeBuckets _ _ _ _)]
          exact h.along_grow_across lbmi hout hfout hbs hgt (by omega) hlt
      · rw [if_neg hgt, if_neg (by omega), hinl]
        refine ⟨_, rfl, ?_⟩
        rw [List.append_assoc _ inl, ← hin]
        exact h.along_shrink lbmi (hin ▸ hinl) hpos (by omega) (by rw [hin, selected_of_le (by omega)]) _
  · have hin := selected_of_gt (show lbNumInlineBuckets < lb.nBuckets by omega)
    rw [hin]
    by_cases heq : bs.length = lb.nBuckets
    · rw [if_pos heq, hout]
      exact ⟨_, rfl, h.along_same lbmi hout⟩
    · rw [if_neg heq]
      by_cases hgt : bs.length > lb.nBuckets
      · rw [if_pos hgt, if_neg (by omega), if_neg (by omega), hscr]
        refine ⟨_, rfl, ?_⟩
        rw [List.append_assoc _ [_], List.append_assoc _ (writeBuckets _ _ _ _),
            ← List.append_assoc (writeBuckets _ _ _ _)]
        exact h.along_grow_outline lbmi hscr hfscr hbs (by omega) hgt hlt _
      · rw [if_neg hgt, if_neg (by omega), hout]
        refine ⟨_, rfl, ?_⟩
        rw [List.append_assoc _ out, ← hin]
        exact h.along_shrink lbmi (hin ▸ hout) hpos (by omega) (by rw [hin, selected_of_gt (by omega)]) _

def Store.KeepsInline : Store → Prop
  | .validate a _ | .free a => a ≠ .inline
  | _ => True

theorem LoadBalance.inline_storeAll (lb : LoadBalance) (hs : ∀ s ∈ stores, s.KeepsInline) :
    (lb.storeAll stores).bucketsInline.length = lb.bucketsInline.length := by
  induction stores generalizing lb with
  | nil => rfl
  | cons s stores ih =>
    rw [LoadBalance.storeAll_cons, ih _ fun t ht => hs t (List.mem_cons_of_mem _ ht)]
    have hk := hs s List.mem_cons_self
    cases s with
    | bucket a i b =>
      cases a with
      | inline => exact List.length_set
      | outline => rfl
      | scratch => rfl
    | validate a n =>
      cases a with
      | inline => exact absurd rfl hk
      | outline => rfl
      | scratch => rfl
    | free a =>
      cases a with
      | inline => exact absurd rfl hk
      | outline => rfl
      | scratch => rfl
    | nBuckets _ => rfl
    | nBucketsMinus1 _ => rfl
    | map _ => rfl
    | install => rfl

theorem keepsInline_fillBuckets (h : fillBuckets edge a nhs i = some filled) : ∀ s ∈ filled, s.KeepsInline := by
  intro s hs
  obtain ⟨j, d, rfl⟩ := mem_fillBuckets h hs
  trivial

theorem LoadBalance.not_safe_inline (hlen : lb.bucketsInline.length = lbNumInlineBuckets)
    (hn : lb.nBuckets ≤ lbNumInlineBuckets) (hm : lbNumInlineBuckets ≤ lb.nBucketsMinus1) : ¬ lb.Safe := by
  have hsel : lb.getBuckets = .inline := if_pos hn
  refine not_safe_of_length_le ?_
  rw [hsel]
  show lb.bucketsInline.length ≤ _
  omega

theorem LoadBalance.Ok.not_safe_empty (h : lb.Ok) (hz : lb.nBuckets = 0) : ¬ lb.Safe := by
  have hm := h.minus1
  refine not_safe_inline h.inline (by omega) ?_
  simp only [lbNumInlineBuckets]
  omega

theorem LoadBalance.Ok.not_safe_overflow (h : lb.Ok) (hn : n % 2 ^ 16 = 0) (hs : ∀ s ∈ stores, s.KeepsInline) :
    ¬ (lb.storeAll (stores ++ setNBuckets n)).Safe := by
  have hlen := (lb.inline_storeAll hs).trans h.inline
  rw [LoadBalance.storeAll_append]
  generalize lb.storeAll stores = lb₁ at hlen
  apply LoadBalance.not_safe_inline
  · exact hlen
  · show n % 2 ^ 16 ≤ lbNumInlineBuckets
    rw [hn]
    exact Nat.zero_le _
  · show lbNumInlineBuckets ≤ (n + 2 ^ 32 - 1) % 2 ^ 16
    simp only [lbNumInlineBuckets]
    omega

/-- The first of the two counts is stored, and the mask is still that of the outline buckets. -/
theorem LoadBalance.Ok.not_safe_shrink_across (h : lb.Ok) (hold : lbNumInlineBuckets < lb.nBuckets)
    (hn : n ≤ lbNumInlineBuckets) (hfill : fillBuckets edge .inline nhs 0 = some filled) (lbmi : Nat) :
    ¬ (lb.storeAll ([.map lbmi] ++ filled ++ [.nBuckets n])).Safe := by
  have hkeeps : ∀ s ∈ [.map lbmi] ++ filled, Store.Keeps .scratch 0 s ∧ s.KeepsInline := by
    intro s hs
    rcases List.mem_append.mp hs with hs | hs
    · rw [List.mem_singleton.mp hs]
      exact ⟨trivial, trivial⟩
    · exact ⟨keeps_fillBuckets hfill _ _ s hs, keepsInline_fillBuckets hfill s hs⟩
  have hlen := (lb.inline_storeAll fun s hs => (hkeeps s hs).2).trans h.inline
  have hminus1 : (lb.storeAll ([.map lbmi] ++ filled)).nBucketsMinus1 = lb.nBucketsMinus1 := by
    refine (along_of_keeps (P := fun _ => True) (Q := fun lb' : LoadBalance => lb'.nBucketsMinus1 = lb.nBucketsMinus1)
      (fun _ _ => trivial) ?_ rfl).2
    intro s hs lb' hlb'
    exact (lb'.counts_store (hkeeps s hs).1).2.trans hlb'
  have hcount := h.count
  have hm := h.minus1
  rw [LoadBalance.storeAll_append]
  generalize lb.storeAll ([.map lbmi] ++ filled) = lb₁ at hlen hminus1
  apply LoadBalance.not_safe_inline
  · exact hlen
  · show n % 2 ^ 16 ≤ lbNumInlineBuckets
    exact Nat.le_trans (Nat.mod_le _ _) hn
  · show lbNumInlineBuckets ≤ lb₁.nBucketsMinus1
    omega

theorem LoadBalance.Ok.not_along_overflow (h : lb.Ok) (hz : 0 < lb.nBuckets) (hmod : n % 2 ^ 16 = 0)
    (hge : 2 ^ 16 ≤ n) (hst : updateStores edge lb nhs n lbmi = some stores) :
    ∃ pre, pre <+: stores ∧ ¬ (lb.storeAll pre).Safe := by
  have hcount := h.count
  have hbig : lbNumInlineBuckets < n := by
    simp only [lbNumInlineBuckets]
    omega
  simp only [updateStores] at hst
  rw [if_neg (by omega), if_neg (by omega), if_pos (by omega)] at hst
  by_cases hold : lb.nBuckets ≤ lbNumInlineBuckets
  · rw [if_pos ⟨hbig, hold⟩] at hst
    obtain ⟨filled, hfill, he⟩ := Option.bind_eq_some_iff.mp hst
    cases he
    refine ⟨[.validate .outline n] ++ filled ++ setNBuckets n, ?_, h.not_safe_overflow hmod ?_⟩
    · exact (List.prefix_append _ _).trans (List.prefix_append _ _)
    · intro s hs
      rcases List.mem_append.mp hs with hs | hs
      · rw [List.mem_singleton.mp hs]
        exact Arr.noConfusion
      · exact keepsInline_fillBuckets hfill s hs
  · rw [if_neg (fun hc => hold hc.2), if_neg (by omega)] at hst
    obtain ⟨filled, hfill, he⟩ := Option.bind_eq_some_iff.mp hst
    cases he
    refine ⟨[.validate .scratch n] ++ filled ++ [.install] ++ setNBuckets n, ?_, h.not_safe_overflow hmod ?_⟩
    · exact ((List.prefix_append _ _).trans (List.prefix_append _ _)).trans (List.prefix_append _ _)
    · intro s hs
      rcases List.mem_append.mp hs with hs | hs
      · rcases List.mem_append.mp hs with hs | hs
        · rw [List.mem_singleton.mp hs]
          exact Arr.noConfusion
        · exact keepsInline_fillBuckets hfill s hs
      · rw [List.mem_singleton.mp hs]
        trivial

theorem LoadBalance.Ok.not_along_shrink_across (h : lb.Ok) (hold : lbNumInlineBuckets < lb.nBuckets)
    (hn : n ≤ lbNumInlineBuckets) (hst : updateStores edge lb nhs n lbmi = some stores) :
    ∃ pre, pre <+: stores ∧ ¬ (lb.storeAll pre).Safe := by
  simp only [updateStores] at hst
  rw [if_neg (by omega), if_neg (by omega), if_neg (by omega), if_pos ⟨hn, hold⟩] at hst
  obtain ⟨filled, hfill, he⟩ := Option.bind_eq_some_iff.mp hst
  have hno := h.not_safe_shrink_across hold hn hfill lbmi
  refine ⟨_, ?_, hno⟩
  rw [← Option.some.inj he]
  have hset : setNBuckets n = [.nBuckets n] ++ [.nBucketsMinus1 (n + 2 ^ 32 - 1)] := rfl
  rw [hset, ← List.append_assoc]
  exact ((List.prefix_append _ _).trans (List.prefix_append _ _)).trans (List.prefix_append _ _)

/-- Every packet in flight finds a bucket, after every store of an update, exactly when the load-balance had
buckets before, the new number of them fits its field and the buckets do not move from the outline array to
the inline one. -/
theorem load_balance_update_in_flight (h : lb.Ok) (hw : lb.Written lb.getBuckets lb.nBuckets)
    (hn : (bucketsOf edge nhs).length = 2 ^ k) (hst : updateStores edge lb nhs (2 ^ k) lbmi = some stores) :
    (∀ pre, pre <+: stores → (lb.storeAll pre).Safe) ↔
      0 < lb.nBuckets ∧ 2 ^ k < 2 ^ 16 ∧ ¬ (lbNumInlineBuckets < lb.nBuckets ∧ 2 ^ k ≤ lbNumInlineBuckets) := by
  constructor
  · intro hsafe
    refine ⟨Nat.pos_of_ne_zero fun hz => ?_, Nat.lt_of_not_le fun hge => ?_, fun ⟨hold, hle⟩ => ?_⟩
    · exact h.not_safe_empty hz (hsafe [] List.nil_prefix)
    · by_cases hz : lb.nBuckets = 0
      · exact h.not_safe_empty hz (hsafe [] List.nil_prefix)
      · have hk : 16 ≤ k := (Nat.pow_le_pow_iff_right (by decide)).mp hge
        have hmod : 2 ^ k % 2 ^ 16 = 0 := Nat.mod_eq_zero_of_dvd (Nat.pow_dvd_pow 2 hk)
        obtain ⟨pre, hpre, hno⟩ := h.not_along_overflow (Nat.pos_of_ne_zero hz) hmod hge hst
        exact hno (hsafe pre hpre)
    · obtain ⟨pre, hpre, hno⟩ := h.not_along_shrink_across hold hle hst
      exact hno (hsafe pre hpre)
  · intro ⟨hz, hlt, hacross⟩
    have hlive : lb.Live := ⟨h, hz, hw⟩
    obtain ⟨stores', hst', halong⟩ := hlive.along_updateStores (hn ▸ Nat.two_pow_pos k) (hn ▸ hlt)
      (hn ▸ hacross) lbmi
    rw [hn] at hst'
    cases hst.symm.trans hst'
    exact along_iff_prefix.mp halong

def eightBuckets : LoadBalance :=
  ⟨8, 7, 0, [none, none, none, none], List.replicate 8 (some (dpo 1)), []⟩

theorem ok_eightBuckets : eightBuckets.Ok :=
  ⟨by decide, by decide, rfl, by decide, fun h => absurd h (by decide), rfl⟩

theorem written_eightBuckets : eightBuckets.Written eightBuckets.getBuckets eightBuckets.nBuckets := by
  intro i hi
  exact ⟨dpo 1, List.getElem?_replicate_of_lt hi⟩

/-- The update that writes eight buckets over eight. -/
theorem load_balance_update_in_flight_same : ∃ stores,
    updateStores (fun _ => 7) eightBuckets [⟨dpo 2, 4⟩, ⟨dpo 3, 4⟩] (2 ^ 3) 0 = some stores ∧
      ∀ pre, pre <+: stores → (eightBuckets.storeAll pre).Safe := by
  obtain ⟨stores, hst⟩ : ∃ stores,
      updateStores (fun _ => 7) eightBuckets [⟨dpo 2, 4⟩, ⟨dpo 3, 4⟩] (2 ^ 3) 0 = some stores := ⟨_, rfl⟩
  refine ⟨stores, hst, (load_balance_update_in_flight ok_eightBuckets written_eightBuckets ?_ hst).mpr ?_⟩
  · decide
  · decide

/-- The update to two buckets stores the two and the count, and packets still take the mask of the eight. -/
theorem load_balance_update_in_flight_across :
    ¬ ∀ stores, updateStores (fun _ => 7) eightBuckets [⟨dpo 2, 1⟩, ⟨dpo 3, 1⟩] 2 0 = some stores →
      ∀ pre, pre <+: stores → (eightBuckets.storeAll pre).Safe := by
  intro hall
  obtain ⟨stores, hst⟩ : ∃ stores,
      updateStores (fun _ => 7) eightBuckets [⟨dpo 2, 1⟩, ⟨dpo 3, 1⟩] 2 0 = some stores := ⟨_, rfl⟩
  obtain ⟨pre, hpre, hno⟩ := ok_eightBuckets.not_along_shrink_across (by decide) (by decide) hst
  exact hno (hall stores hst pre hpre)

end Vpp.Dpo
