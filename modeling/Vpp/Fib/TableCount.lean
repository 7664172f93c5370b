import Vpp.Fib.EntrySrcSteps
import Vpp.Fib.Table

namespace Vpp.Fib
open Vpp.Lib List

section

variable {e e' : FibEntry} {s t b : FibSource} {vft : Vft}

theorem isSourced_iff : fibEntryIsSourced e s = true ↔ s ∈ sources e := by
  rw [fibEntryIsSourced, fibEntrySrcFind, look, find?_isSome, sources, List.mem_map]
  simp

variable (vft : Vft)

theorem sources_activate (e : FibEntry) (s : FibSource) :
    sources (fibEntrySrcActionActivate vft e s) = sources e := by
  unfold fibEntrySrcActionActivate
  cases hs : fibEntrySrcFind e s with
  | none => rfl
  | some x =>
    dsimp only
    split
    all_goals exact sources_updateSrc (e := e) (s := s) (f := fun esrc => { esrc with
      active := true
      fesPl := ((vft s).fesvActivate x.fesPl).1 }) (fun _ => rfl)

theorem sources_reactivate (e : FibEntry) (s : FibSource) : sources (fibEntrySrcActionReactivate e s) = sources e := by
  unfold fibEntrySrcActionReactivate
  cases fibEntrySrcFind e s <;> rfl

theorem sources_sourceChange (e : FibEntry) (best : Option FibSource) (s : FibSource) :
    sources (fibEntrySourceChange vft e best s) = sources e := by
  unfold fibEntrySourceChange
  cases best with
  | none => rfl
  | some b =>
    dsimp only
    split
    · rw [sources_activate, sources_deactivate]
    · split
      · rfl
      · rw [sources_activate, sources_deactivate]

theorem sources_fallBack (e : FibEntry) : sources (fibEntryFallBack vft e) = sources e := by
  unfold fibEntryFallBack
  cases fibEntryGetBestSource e with
  | none => rfl
  | some b => exact sources_activate vft e b

/-- The source is there now, and the others as before. -/
structure Gains (e e' : FibEntry) (s : FibSource) : Prop where
  nodup : (sources e).Nodup → (sources e').Nodup
  mem : ∀ t, t ∈ sources e' ↔ t ∈ sources e ∨ t = s

theorem Gains.of_eq (h : Gains e e' s) (he : sources e'' = sources e') : Gains e e'' s := ⟨he ▸ h.nodup, he ▸ h.mem⟩

theorem gains_self (hs : s ∈ sources e) : Gains e e s := ⟨id, fun _ => (or_iff_left_of_imp fun ht => ht ▸ hs).symm⟩

theorem gains_findOrCreate (e : FibEntry) (s : FibSource) : Gains e (fibEntrySrcFindOrCreate e s) s := by
  unfold fibEntrySrcFindOrCreate
  cases hs : (fibEntrySrcFind e s).isSome with
  | true =>
    rw [if_pos rfl]
    exact gains_self (isSourced_iff.mp hs)
  | false =>
    rw [if_neg Bool.false_ne_true]
    have hnew : s ∉ sources e := fun hm => Bool.false_ne_true (hs.symm.trans (isSourced_iff.mpr hm))
    have hperm : (sources (fibEntrySrcActionInit e s)).Perm (s :: sources e) := by
      have hsort := (perm_insertionSort (fun x y : FibEntrySrc => x.fesSrc ≤ y.fesSrc)
        (e.feSrcs ++ [⟨pathListInvalid, s, false, false, 0⟩])).map FibEntrySrc.fesSrc
      rw [map_append] at hsort
      exact hsort.trans (perm_append_singleton s _)
    refine ⟨fun hnd => hperm.nodup_iff.mpr (nodup_cons.mpr ⟨hnew, hnd⟩), ?_⟩
    intro t
    rw [hperm.mem_iff, mem_cons, or_comm]

theorem gains_add (e : FibEntry) (s : FibSource) : Gains e (fibEntrySrcActionAdd vft e s) s := by
  apply (gains_findOrCreate e s).of_eq
  apply sources_updateSrc
  intro x
  dsimp only
  split <;> rfl

theorem gains_update (e : FibEntry) (s : FibSource) : Gains e (fibEntrySrcActionUpdate vft e s) s := by
  apply (gains_findOrCreate e s).of_eq
  apply sources_updateSrc
  exact fun _ => rfl

theorem gains_findOrAdd (e : FibEntry) (s : FibSource) :
    Gains e (if (fibEntrySrcFind e s).isSome then e else fibEntrySrcActionAdd vft e s) s := by
  split
  · next hs => exact gains_self (isSourced_iff.mp hs)
  · exact gains_add vft e s

theorem gains_pathAdd (e : FibEntry) (s : FibSource) : Gains e (fibEntrySrcActionPathAdd vft e s) s := by
  apply (gains_findOrAdd vft e s).of_eq
  apply sources_updateSrc
  exact fun _ => rfl

theorem gains_pathSwap (e : FibEntry) (s : FibSource) : Gains e (fibEntrySrcActionPathSwap vft e s) s := by
  apply (gains_findOrAdd vft e s).of_eq
  apply sources_updateSrc
  exact fun _ => rfl

/-- Only the source may have gone. -/
structure Loses (e e' : FibEntry) (s : FibSource) : Prop where
  nodup : (sources e').Nodup
  sub : ∀ t, t ∈ sources e' → t ∈ sources e
  other : ∀ t, t ∈ sources e → t ≠ s → t ∈ sources e'

theorem Loses.of_eq (h : Loses e e' s) (he : sources e'' = sources e') : Loses e e'' s :=
  ⟨he ▸ h.nodup, he ▸ h.sub, he ▸ h.other⟩

theorem loses_of_eq (hnd : (sources e).Nodup) (he : sources e' = sources e) : Loses e e' s :=
  ⟨he ▸ hnd, fun _ h => he ▸ h, fun _ h _ => he ▸ h⟩

theorem loses_deinit (hs : s ∈ sources e) (hnd : (sources e).Nodup) : Loses e (fibEntrySrcActionDeinit e s) s := by
  have hlt : fibEntrySrcIndex e s < e.feSrcs.length := by
    apply findIdx_lt_length_of_exists
    obtain ⟨x, hx, hxs⟩ := List.mem_map.mp hs
    exact ⟨x, hx, decide_eq_true hxs⟩
  have hself : (e.feSrcs[fibEntrySrcIndex e s]).fesSrc = s :=
    of_decide_eq_true (findIdx_getElem (p := fun x : FibEntrySrc => decide (x.fesSrc = s)) (w := hlt))
  have hperm : (sources e).Perm (s :: sources (fibEntrySrcActionDeinit e s)) := by
    have hp := (perm_delSwap hlt).map FibEntrySrc.fesSrc
    rw [map_cons, hself] at hp
    exact hp
  refine ⟨(nodup_cons.mp (hperm.nodup_iff.mp hnd)).2, ?_, ?_⟩
  · exact fun t ht => hperm.symm.subset (mem_cons_of_mem s ht)
  · exact fun t ht hts => mem_of_ne_of_mem hts (hperm.subset ht)

theorem loses_remove (hnd : (sources e).Nodup) (s : FibSource) :
    Loses e (fibEntrySrcActionRemove vft e s).1 s ∧
      ((fibEntrySrcActionRemove vft e s).2 = true → sources (fibEntrySrcActionRemove vft e s).1 = sources e) := by
  unfold fibEntrySrcActionRemove
  cases hs : fibEntrySrcFind e s with
  | none => exact ⟨loses_of_eq hnd rfl, fun _ => rfl⟩
  | some x =>
    have hm : s ∈ sources e := isSourced_iff.mp (by rw [fibEntryIsSourced, hs]; rfl)
    have hcount := sources_updateSrc (e := e) (s := s)
        (f := fun esrc => { esrc with fesRefCount := esrc.fesRefCount - 1 }) (fun _ => rfl)
    dsimp only
    split
    · exact ⟨loses_of_eq hnd hcount, fun _ => hcount⟩
    · refine ⟨?_, nofun⟩
      have hsame : sources ((if x.active = true then fibEntrySrcActionDeactivate vft (e.updateSrc s fun esrc =>
          { esrc with fesRefCount := esrc.fesRefCount - 1 }) s else e.updateSrc s fun esrc =>
          { esrc with fesRefCount := esrc.fesRefCount - 1 }).updateSrc s fun esrc =>
          { esrc with fesPl := (vft s).fesvRemove esrc.fesPl }) = sources e := by
        rw [sources_updateSrc]
        · split
          · rw [sources_deactivate, hcount]
          · exact hcount
        · exact fun _ => rfl
      have hdeinit := loses_deinit (hsame ▸ hm) (hsame ▸ hnd)
      exact ⟨hdeinit.nodup, hsame ▸ hdeinit.sub, hsame ▸ hdeinit.other⟩

theorem loses_pathRemove (hnd : (sources e).Nodup) (s : FibSource) :
    Loses e (fibEntrySrcActionPathRemove vft e s).1 s ∧
      ((fibEntrySrcActionPathRemove vft e s).2 = true →
          sources (fibEntrySrcActionPathRemove vft e s).1 = sources e) := by
  have hpl := sources_updateSrc (e := e) (s := s)
      (f := fun esrc => { esrc with fesPl := (vft s).fesvPathRemove esrc.fesPl })
    (fun _ => rfl)
  unfold fibEntrySrcActionPathRemove
  dsimp only
  split
  · refine ⟨?_, nofun⟩
    have hrem := (loses_remove vft (hpl.symm ▸ hnd) s).1
    exact ⟨hrem.nodup, hpl ▸ hrem.sub, hpl ▸ hrem.other⟩
  · exact ⟨loses_of_eq hnd hpl, fun _ => hpl⟩

theorem addedAfter_iff {r : FibEntry × Bool} (hne : sources e ≠ []) (hl : Loses e r.1 s)
    (hr : r.2 = true → sources r.1 = sources e) :
    addedAfter (fibEntryGetBestSource e) s r = true ↔ sources r.1 ≠ [] := by
  have hbest (e : FibEntry) : fibEntryGetBestSource e = (sources e).head? := by
    rw [fibEntryGetBestSource, sources, head?_map]
  unfold addedAfter
  split
  · next hother =>
    refine iff_of_true rfl ?_
    cases hs : sources e with
    | nil => exact absurd hs hne
    | cons b rest =>
      rw [hbest, hs] at hother
      have hm := hl.other b (hs ▸ mem_cons_self) fun he => hother (congrArg some he)
      exact ne_nil_of_mem hm
  · cases hadded : r.2 with
    | true => exact iff_of_true rfl (hr hadded ▸ hne)
    | false =>
      show (fibEntryGetBestSource r.1).isSome = true ↔ _
      rw [hbest, isSome_head?]

theorem gains_specialAdd (e : FibEntry) (s : FibSource) : Gains e (fibEntrySpecialAdd vft e s) s :=
  (gains_add vft e s).of_eq (sources_sourceChange ..)

theorem gains_specialUpdate (e : FibEntry) (s : FibSource) : Gains e (fibEntrySpecialUpdate vft e s) s :=
  (gains_update vft e s).of_eq (sources_sourceChange ..)

theorem gains_entryPathAdd (e : FibEntry) (s : FibSource) : Gains e (fibEntryPathAdd vft e s) s :=
  (gains_pathAdd vft e s).of_eq (sources_sourceChange ..)

theorem gains_entryUpdate (e : FibEntry) (s : FibSource) : Gains e (fibEntryUpdate vft e s) s :=
  (gains_pathSwap vft e s).of_eq (sources_sourceChange ..)

theorem gains_createSpecial (s : FibSource) : Gains fibEntryAlloc (fibEntryCreateSpecial vft s) s :=
  (gains_add vft fibEntryAlloc s).of_eq (sources_activate ..)

theorem gains_create (s : FibSource) : Gains fibEntryAlloc (fibEntryCreate vft s) s := by
  have hadd := gains_add vft fibEntryAlloc s
  have hswap := gains_pathSwap vft (fibEntrySrcActionAdd vft fibEntryAlloc s) s
  have hboth : Gains fibEntryAlloc
      (fibEntrySrcActionPathSwap vft (fibEntrySrcActionAdd vft fibEntryAlloc s) s) s := by
    refine ⟨fun hnd => hswap.nodup (hadd.nodup hnd), ?_⟩
    intro t
    rw [hswap.mem, hadd.mem, or_assoc, or_self]
  exact hboth.of_eq (sources_activate ..)

structure Takes (e e' : FibEntry) (added : Bool) (s : FibSource) : Prop extends Loses e e' s where
  flag : sources e ≠ [] → (added = true ↔ sources e' ≠ [])

theorem takes_specialRemove (hnd : (sources e).Nodup) (s : FibSource) :
    Takes e (fibEntrySpecialRemove vft e s) (fibEntrySpecialRemoveFlag vft e s) s := by
  obtain ⟨hl, hadded⟩ := loses_remove vft hnd s
  have hsame : sources (fibEntrySpecialRemove vft e s) = sources (fibEntrySrcActionRemove vft e s).1 := by
    unfold fibEntrySpecialRemove
    dsimp only
    split
    · rfl
    · split
      · exact sources_fallBack ..
      · exact sources_reactivate ..
  exact ⟨hl.of_eq hsame, fun hne => hsame ▸ addedAfter_iff hne hl hadded⟩

theorem takes_pathRemove (hnd : (sources e).Nodup) (s : FibSource) :
    Takes e (fibEntryPathRemove vft e s) (fibEntryPathRemoveFlag vft e s) s := by
  obtain ⟨hl, hadded⟩ := loses_pathRemove vft hnd s
  have hsame : sources (fibEntryPathRemove vft e s) = sources (fibEntrySrcActionPathRemove vft e s).1 := by
    unfold fibEntryPathRemove
    dsimp only
    split
    · rfl
    · split
      · exact sources_fallBack ..
      · rw [sources_activate, sources_deactivate]
  exact ⟨hl.of_eq hsame, fun hne => hsame ▸ addedAfter_iff hne hl hadded⟩

section
variable {P : Type} [DecidableEq P] {t t' : FibTable P} {p q : P} {total : BitVec 32} {counts : FibSource → BitVec 32}
  {inner after : FibTable P → FibTable P}

/-- The prefixes with a source. -/
def FibTable.withSource (t : FibTable P) (s : FibSource) :
    Finset P := t.prefixes.filter fun p => s ∈ sources (t.entry p)

structure Accounted (t : FibTable P) (total : BitVec 32) (counts : FibSource → BitVec 32) : Prop where
  nodup : ∀ p, (sources (t.entry p)).Nodup
  sourced : ∀ p, p ∈ t.prefixes ↔ sources (t.entry p) ≠ []
  total : t.ftTotalRouteCounts = BitVec.ofNat 32 t.prefixes.card + total
  counts : ∀ s, t.ftSrcRouteCounts s = BitVec.ofNat 32 (t.withSource s).card + counts s

def SameAt (t t' : FibTable P) (p : P) : Prop := (p ∈ t'.prefixes ↔ p ∈ t.prefixes) ∧ t'.entry p = t.entry p

omit [DecidableEq P] in
theorem SameAt.trans (h : SameAt t t' p) (h' : SameAt t' t'' p) : SameAt t t'' p :=
  ⟨h'.1.trans h.1, h'.2.trans h.2⟩

/-- What calls do to the table, of which some are on `ps`. -/
structure Keeps (f : FibTable P → FibTable P) (ps : List P) : Prop where
  accounted : ∀ t total counts, Accounted t total counts → Accounted (f t) total counts
  same : ∀ t p, p ∉ ps → SameAt t (f t) p

def mark (e : FibEntry) (s : FibSource) : Nat := if s ∈ sources e then 1 else 0

theorem Accounted.card_withSource (h : Accounted t total counts) (p : P) (s : FibSource) :
    (t.withSource s).card = ((t.prefixes.erase p).filter fun q => s ∈ sources (t.entry q)).card +
        mark (t.entry p) s := by
  have herase : (t.prefixes.erase p).filter (fun q => s ∈ sources (t.entry q)) = (t.withSource s).erase p :=
    Finset.filter_erase ..
  rw [herase, mark]
  split
  · next hs =>
    have hp : p ∈ t.withSource s := Finset.mem_filter.mpr ⟨(h.sourced p).mpr (ne_nil_of_mem hs), hs⟩
    exact (Finset.card_erase_add_one hp).symm
  · next hs =>
    have hp : p ∉ t.withSource s := fun hp => hs (Finset.mem_filter.mp hp).2
    rw [Finset.erase_eq_of_notMem hp]
    rfl

/-- A change at one prefix, which is still to be counted for the sources. -/
theorem Accounted.changeAt (h : Accounted t total counts) (hpre : t'.prefixes.erase p = t.prefixes.erase p)
    (hent : ∀ q, q ≠ p → t'.entry q = t.entry q) (hnd : (sources (t'.entry p)).Nodup)
    (hs : p ∈ t'.prefixes ↔ sources (t'.entry p) ≠ [])
    (ht : t'.ftTotalRouteCounts = t.ftTotalRouteCounts + BitVec.ofNat 32 t'.prefixes.card -
        BitVec.ofNat 32 t.prefixes.card)
    (hc : t'.ftSrcRouteCounts = t.ftSrcRouteCounts) :
    Accounted t' total fun s => counts s + BitVec.ofNat 32 (mark (t.entry p) s) -
        BitVec.ofNat 32 (mark (t'.entry p) s) := by
  have hother {q : P} (hq : q ≠ p) : q ∈ t'.prefixes ↔ q ∈ t.prefixes := by
    have hm : q ∈ t'.prefixes.erase p ↔ q ∈ t.prefixes.erase p := by rw [hpre]
    rwa [Finset.mem_erase, Finset.mem_erase, and_iff_right hq, and_iff_right hq] at hm
  have hsourced (q : P) : q ∈ t'.prefixes ↔ sources (t'.entry q) ≠ [] := by
    by_cases hq : q = p
    · exact hq ▸ hs
    · rw [hother hq, hent q hq]
      exact h.sourced q
  have hnew : Accounted t' (t'.ftTotalRouteCounts - BitVec.ofNat 32 t'.prefixes.card)
      (fun s => t'.ftSrcRouteCounts s - BitVec.ofNat 32 (t'.withSource s).card) := by
    refine ⟨?_, hsourced, ?_, ?_⟩
    · intro q
      by_cases hq : q = p
      · exact hq ▸ hnd
      · rw [hent q hq]
        exact h.nodup q
    · rw [BitVec.add_comm, BitVec.sub_add_cancel]
    · intro s
      rw [BitVec.add_comm, BitVec.sub_add_cancel]
  have htotal : t'.ftTotalRouteCounts - BitVec.ofNat 32 t'.prefixes.card = total := by
    rw [ht, h.total]
    grind
  have hcounts : (fun s => t'.ftSrcRouteCounts s - BitVec.ofNat 32 (t'.withSource s).card) = fun s =>
      counts s + BitVec.ofNat 32 (mark (t.entry p) s) - BitVec.ofNat 32 (mark (t'.entry p) s) := by
    funext s
    have hsame : (t'.prefixes.erase p).filter (fun q => s ∈ sources (t'.entry q)) =
        (t.prefixes.erase p).filter fun q => s ∈ sources (t.entry q) := by
      rw [hpre]
      apply Finset.filter_congr
      intro q hq
      rw [hent q (Finset.ne_of_mem_erase hq)]
    rw [hc, h.counts, h.card_withSource p, hnew.card_withSource p, hsame, BitVec.ofNat_add, BitVec.ofNat_add]
    grind
  rw [htotal, hcounts] at hnew
  exact hnew

omit [DecidableEq P] in
theorem Accounted.countSrc (h : Accounted t total counts) (s : FibSource) (n : BitVec 32) :
    Accounted (t.countSrc s n) total (Function.update counts s (counts s + n)) := by
  refine ⟨h.nodup, h.sourced, h.total, ?_⟩
  intro u
  show Function.update t.ftSrcRouteCounts s (t.ftSrcRouteCounts s + n) u = BitVec.ofNat 32 (t.withSource u).card + _
  rw [Function.update_apply, Function.update_apply]
  split
  · next he => rw [he, h.counts, BitVec.add_assoc]
  · exact h.counts u

theorem sameAt_setEntry (h : q ≠ p) (e : FibEntry) : SameAt t (t.setEntry p e) q :=
  ⟨.rfl, Function.update_of_ne h ..⟩

theorem sameAt_insert (h : q ≠ p) (e : FibEntry) : SameAt t (fibTableEntryInsert t p e) q := by
  unfold fibTableEntryInsert
  dsimp only
  split
  · exact ⟨.rfl, rfl⟩
  · refine ⟨?_, Function.update_of_ne h ..⟩
    show q ∈ insert p t.prefixes ↔ _
    rw [Finset.mem_insert, or_iff_right h]

omit [DecidableEq P] in
theorem sameAt_counted {c : Prop} [Decidable c] {n : BitVec 32} (h : SameAt t t' q) :
    SameAt t (if c then t'.countSrc s n else t') q := by
  split
  · exact h
  · exact h

theorem sameAt_remove (h : q ≠ p) : SameAt t (fibTableEntryRemove t p) q := by
  refine ⟨?_, rfl⟩
  show q ∈ t.prefixes.erase p ↔ _
  rw [Finset.mem_erase, and_iff_right h]

theorem counts_settled {e e' : FibEntry} {n : BitVec 32} (hother : ∀ u, u ≠ s → (u ∈ sources e' ↔ u ∈ sources e))
    (hself : n = BitVec.ofNat 32 (mark e' s) - BitVec.ofNat 32 (mark e s)) :
    Function.update (fun u => counts u + BitVec.ofNat 32 (mark e u) - BitVec.ofNat 32 (mark e' u)) s
      (counts s + BitVec.ofNat 32 (mark e s) - BitVec.ofNat 32 (mark e' s) + n) = counts := by
  funext u
  rw [Function.update_apply]
  split
  · next he =>
    rw [he, hself]
    grind
  · next hne =>
    have hmark : mark e' u = mark e u := if_congr (hother u hne) rfl rfl
    rw [hmark, BitVec.add_sub_cancel]

omit [DecidableEq P] in
theorem Accounted.settle {e e' : FibEntry} {n : BitVec 32} (h : Accounted t total fun u =>
      counts u + BitVec.ofNat 32 (mark e u) - BitVec.ofNat 32 (mark e' u))
    (hother : ∀ u, u ≠ s → (u ∈ sources e' ↔ u ∈ sources e))
    (hn : s ∈ sources e' ∧ s ∉ sources e ∧ n = 1 ∨ s ∉ sources e' ∧ s ∈ sources e ∧ n = -1) :
    Accounted (t.countSrc s n) total counts := by
  have hcount := h.countSrc s n
  rwa [counts_settled hother] at hcount
  unfold mark
  rcases hn with ⟨hs, hs', rfl⟩ | ⟨hs, hs', rfl⟩
  · rw [if_pos hs, if_neg hs']
    rfl
  · rw [if_neg hs, if_pos hs']
    rfl

omit [DecidableEq P] in
theorem Accounted.settled {e e' : FibEntry} (h : Accounted t total fun u =>
      counts u + BitVec.ofNat 32 (mark e u) - BitVec.ofNat 32 (mark e' u))
    (hsame : ∀ u, u ∈ sources e' ↔ u ∈ sources e) : Accounted t total counts := by
  have hcounts : (fun u => counts u + BitVec.ofNat 32 (mark e u) - BitVec.ofNat 32 (mark e' u)) = counts := by
    funext u
    have hmark : mark e' u = mark e u := if_congr (hsame u) rfl rfl
    rw [hmark, BitVec.add_sub_cancel]
  rwa [hcounts] at h

theorem accounted_setEntry {e : FibEntry} (h : Accounted t total counts) (hnd : (sources e).Nodup)
    (hs : p ∈ t.prefixes ↔ sources e ≠ []) : Accounted (t.setEntry p e) total fun u =>
      counts u + BitVec.ofNat 32 (mark (t.entry p) u) - BitVec.ofNat 32 (mark e u) := by
  have hself : (t.setEntry p e).entry p = e := Function.update_self ..
  have hset : Accounted (t.setEntry p e) total fun u => counts u +
      BitVec.ofNat 32 (mark (t.entry p) u) - BitVec.ofNat 32 (mark ((t.setEntry p e).entry p) u) := by
    apply h.changeAt
    · rfl
    · exact fun q hq => Function.update_of_ne hq ..
    · rwa [hself]
    · rwa [hself]
    · exact (BitVec.add_sub_cancel ..).symm
    · rfl
  rwa [hself] at hset

theorem accounted_remove {e : FibEntry} (h : Accounted t total counts) (hp : p ∈ t.prefixes) (hnil : sources e = []) :
    Accounted (fibTableEntryRemove (t.setEntry p e) p) total fun u =>
      counts u + BitVec.ofNat 32 (mark (t.entry p) u) - BitVec.ofNat 32 (mark e u) := by
  have hself : (fibTableEntryRemove (t.setEntry p e) p).entry p = e := Function.update_self ..
  have hpre : (fibTableEntryRemove (t.setEntry p e) p).prefixes = t.prefixes.erase p := rfl
  have hrem : Accounted (fibTableEntryRemove (t.setEntry p e) p) total fun u => counts u +
      BitVec.ofNat 32 (mark (t.entry p) u) -
        BitVec.ofNat 32 (mark ((fibTableEntryRemove (t.setEntry p e) p).entry p) u) := by
    apply h.changeAt
    · rw [hpre, Finset.erase_idem]
    · exact fun q hq => Function.update_of_ne hq ..
    · rw [hself, hnil]
      exact nodup_nil
    · rw [hself, hnil, hpre]
      exact iff_of_false (Finset.notMem_erase p _) fun hne => hne rfl
    · rw [hpre, ← Finset.card_erase_add_one hp, BitVec.ofNat_add]
      show t.ftTotalRouteCounts - 1 = _
      grind
    · rfl
  rwa [hself] at hrem

theorem accounted_insert {e : FibEntry} (h : Accounted t total counts) (hp : p ∉ t.prefixes)
    (hnd : (sources e).Nodup) (hne : sources e ≠ []) : Accounted (fibTableEntryInsert t p e) total fun u =>
      counts u + BitVec.ofNat 32 (mark (t.entry p) u) -
          BitVec.ofNat 32 (mark ((fibTableEntryInsert t p e).entry p) u) := by
  have hself : (fibTableEntryInsert t p e).entry p = e := by
    unfold fibTableEntryInsert
    rw [if_neg hp]
    exact Function.update_self ..
  have hpre : (fibTableEntryInsert t p e).prefixes = insert p t.prefixes := by
    unfold fibTableEntryInsert
    rw [if_neg hp]
  apply h.changeAt
  · rw [hpre, Finset.erase_insert hp, Finset.erase_eq_of_notMem hp]
  · exact fun q hq => (sameAt_insert hq e).2
  · rwa [hself]
  · rw [hself, hpre]
    exact iff_of_true (Finset.mem_insert_self p _) hne
  · rw [hpre, Finset.card_insert_of_notMem hp, BitVec.ofNat_add]
    have htotal : (fibTableEntryInsert t p e).ftTotalRouteCounts = t.ftTotalRouteCounts + 1 := by
      unfold fibTableEntryInsert
      rw [if_neg hp]
      rfl
    rw [htotal]
    grind
  · unfold fibTableEntryInsert
    rw [if_neg hp]
    rfl

theorem addSource_keeps {create : FibEntry} {change : Bool → FibEntry → FibEntry} {xs ys : List P}
    (hc : Gains fibEntryAlloc create s) (hch : ∀ w e, Gains e (change w e) s) (hin : Keeps inner xs)
    (haf : Keeps after ys) (hpx : p ∉ xs) (hpy : p ∉ ys) :
    Keeps (fun t => addSource create change inner after t p s) (p :: (xs ++ ys)) := by
  constructor
  · intro t total counts ht
    have ht1 := hin.accounted t total counts ht
    obtain ⟨hp1, he1⟩ := hin.same t p hpx
    unfold addSource
    split
    · next hp =>
      have hg := hch (fibEntryIsSourced (t.entry p) s) ((inner t).entry p)
      have hs : s ∈ sources (change (fibEntryIsSourced (t.entry p) s) ((inner t).entry p)) := (hg.mem s).mpr (.inr rfl)
      dsimp only
      generalize hw : fibEntryIsSourced (t.entry p) s = w at *
      generalize he' : change w ((inner t).entry p) = e' at *
      have hself : ((inner t).setEntry p e').entry p = e' := Function.update_self ..
      have ht2 : Accounted ((inner t).setEntry p e') total fun u => counts u +
          BitVec.ofNat 32 (mark (t.entry p) u) - BitVec.ofNat 32 (mark e' u) := by
        have hset := accounted_setEntry ht1 (hg.nodup (ht1.nodup p)) (iff_of_true (hp1.mpr hp) (ne_nil_of_mem hs))
        rwa [he1] at hset
      have ht3 := haf.accounted _ _ _ ht2
      have hentry : (after ((inner t).setEntry p e')).entry p = e' := (haf.same _ p hpy).2.trans hself
      have hmem (u : FibSource) : u ∈ sources e' ↔ u ∈ sources (t.entry p) ∨ u = s := by
        rw [hg.mem, he1]
      rw [hentry, isSourced_iff.mpr hs]
      cases w with
      | false =>
        rw [if_pos Bool.false_ne_true]
        have hnew : s ∉ sources (t.entry p) := fun hm => Bool.false_ne_true (hw.symm.trans (isSourced_iff.mpr hm))
        exact ht3.settle (fun u hu => (hmem u).trans (or_iff_left hu)) (.inl ⟨hs, hnew, rfl⟩)
      | true =>
        rw [if_neg fun h => h rfl]
        have hold := isSourced_iff.mp hw
        exact ht3.settled fun u => (hmem u).trans (or_iff_left_of_imp fun hu => hu ▸ hold)
    · next hp =>
      have hs : s ∈ sources create := (hc.mem s).mpr (.inr rfl)
      have hp1' : p ∉ (inner t).prefixes := fun h => hp (hp1.mp h)
      have hold : sources ((inner t).entry p) = [] := by
        by_contra hne
        exact hp1' ((ht1.sourced p).mpr hne)
      have hself : (fibTableEntryInsert (inner t) p create).entry p = create := by
        unfold fibTableEntryInsert
        rw [if_neg hp1']
        exact Function.update_self ..
      have ht3 := haf.accounted _ _ _ (accounted_insert ht1 hp1' (hc.nodup nodup_nil) (ne_nil_of_mem hs))
      rw [hself] at ht3
      refine ht3.settle ?_ (.inl ⟨hs, ?_, rfl⟩)
      · intro u hu
        rw [hc.mem, hold, or_iff_left hu]
        rfl
      · rw [hold]
        exact not_mem_nil
  · intro t q hq
    rw [mem_cons, mem_append, not_or, not_or] at hq
    obtain ⟨hqp, hqx, hqy⟩ := hq
    unfold addSource
    have h1 := hin.same t q hqx
    split
    · have h2 := (h1.trans (sameAt_setEntry hqp _)).trans (haf.same ((inner t).setEntry p (change
        (fibEntryIsSourced (t.entry p) s) ((inner t).entry p))) q hqy)
      exact sameAt_counted h2
    · exact (h1.trans (sameAt_insert hqp create)).trans (haf.same _ q hqy)

theorem removeSource_keeps {change : FibEntry → FibEntry} {added : FibEntry → Bool} {xs ys : List P}
    (hch : ∀ e, (sources e).Nodup → Takes e (change e) (added e) s) (hin : Keeps inner xs) (haf : Keeps after ys)
    (hpx : p ∉ xs) (hpy : p ∉ ys) :
    Keeps (fun t => removeSource change added inner after t p s) (p :: (xs ++ ys)) := by
  constructor
  · intro t total counts ht
    unfold removeSource
    split
    · next hp =>
      have ht1 := hin.accounted t total counts ht
      obtain ⟨hp1, he1⟩ := hin.same t p hpx
      have hp1' := hp1.mpr hp
      dsimp only
      have hne := (ht1.sourced p).mp hp1'
      have hg := hch _ (ht1.nodup p)
      generalize hw : fibEntryIsSourced (t.entry p) s = w at *
      generalize he' : change ((inner t).entry p) = e' at *
      have ht2 : Accounted (if added ((inner t).entry p) = true then (inner t).setEntry p e'
            else fibTableEntryRemove ((inner t).setEntry p e') p) total fun u => counts u +
          BitVec.ofNat 32 (mark (t.entry p) u) - BitVec.ofNat 32 (mark e' u) := by
        rw [← he1]
        split
        · next hadded => exact accounted_setEntry ht1 hg.nodup (iff_of_true hp1' ((hg.flag hne).mp hadded))
        · next hgone => exact accounted_remove ht1 hp1' (by_contra fun hs => hgone ((hg.flag hne).mpr hs))
      have ht3 := haf.accounted _ _ _ ht2
      have hentry : (after (if added ((inner t).entry p) = true then (inner t).setEntry p e'
          else fibTableEntryRemove ((inner t).setEntry p e') p)).entry p = e' := by
        rw [(haf.same _ p hpy).2]
        split
        · exact Function.update_self ..
        · exact Function.update_self ..
      have hother (u : FibSource) (hu : u ≠ s) : u ∈ sources e' ↔ u ∈ sources (t.entry p) :=
        he1 ▸ ⟨hg.sub u, fun hm => hg.other u hm hu⟩
      rw [hentry]
      by_cases hs : s ∈ sources e'
      · have hold : s ∈ sources (t.entry p) := he1 ▸ hg.sub s hs
        rw [isSourced_iff.mpr hs, ← hw, isSourced_iff.mpr hold, if_neg fun h => h rfl]
        apply ht3.settled
        intro u
        by_cases hu : u = s
        · exact hu ▸ iff_of_true hs hold
        · exact hother u hu
      · have hgone : fibEntryIsSourced e' s = false := by
          rw [← Bool.not_eq_true]
          exact fun h => hs (isSourced_iff.mp h)
        rw [hgone]
        cases w with
        | false =>
          rw [if_neg fun h => h rfl]
          have hold : s ∉ sources (t.entry p) := fun hm => Bool.false_ne_true (hw.symm.trans (isSourced_iff.mpr hm))
          apply ht3.settled
          intro u
          by_cases hu : u = s
          · exact hu ▸ iff_of_false hs hold
          · exact hother u hu
        | true =>
          rw [if_pos fun h => Bool.false_ne_true h.symm]
          exact ht3.settle hother (.inr ⟨hs, isSourced_iff.mp hw, rfl⟩)
    · exact ht
  · intro t q hq
    rw [mem_cons, mem_append, not_or, not_or] at hq
    obtain ⟨hqp, hqx, hqy⟩ := hq
    unfold removeSource
    split
    · have h2 := (hin.same t q hqx).trans (sameAt_setEntry hqp (change ((inner t).entry p)))
      have h3 : SameAt t (if added ((inner t).entry p) = true then (inner t).setEntry p (change ((inner t).entry p))
          else fibTableEntryRemove ((inner t).setEntry p (change ((inner t).entry p))) p) q := by
        split
        · exact h2
        · exact h2.trans (sameAt_remove hqp)
      exact sameAt_counted (h3.trans (haf.same _ q hqy))
    · exact ⟨.rfl, rfl⟩

end

end

/-- The prefixes are those with a source, and the counts are those of the prefixes, in 32 bits. -/
structure FibTable.Sound (t : FibTable P) : Prop where
  sourced : ∀ p, p ∈ t.prefixes ↔ (t.entry p).feSrcs ≠ []
  total : t.ftTotalRouteCounts = BitVec.ofNat 32 t.prefixes.card
  counts : ∀ s, t.ftSrcRouteCounts s =
    BitVec.ofNat 32 (t.prefixes.filter fun p => fibEntryIsSourced (t.entry p) s = true).card

section
variable {P : Type} [DecidableEq P]

omit [DecidableEq P] in
theorem Keeps.trans {f g : FibTable P → FibTable P} (hf : Keeps f xs) (hg : Keeps g ys) :
    Keeps (fun t => g (f t)) (xs ++ ys) := by
  refine ⟨fun t total counts ht => hg.accounted _ _ _ (hf.accounted t total counts ht), ?_⟩
  intro t p hp
  rw [mem_append, not_or] at hp
  exact (hf.same t p hp.1).trans (hg.same _ p hp.2)

theorem TableFunction.keeps (f : TableFunction) (vft : Vft) {inner after : FibTable P → FibTable P} {p : P}
    {xs ys : List P}
    (s : FibSource) (hin : Keeps inner xs) (haf : Keeps after ys) (hpx : p ∉ xs) (hpy : p ∉ ys) :
    Keeps (fun t => f.run vft inner after t p s) (p :: (xs ++ ys)) := by
  cases f with
  | specialDpoAdd =>
    exact addSource_keeps (gains_createSpecial vft s) (fun _ e => gains_specialAdd vft e s) hin haf hpx hpy
  | specialDpoUpdate =>
    have hch : ∀ (w : Bool) e, Gains e (if w then fibEntrySpecialUpdate vft e s else fibEntrySpecialAdd vft e s) s := by
      intro w e
      cases w with
      | false => exact gains_specialAdd vft e s
      | true => exact gains_specialUpdate vft e s
    exact addSource_keeps (gains_createSpecial vft s) hch hin haf hpx hpy
  | pathAdd2 => exact addSource_keeps (gains_create vft s) (fun _ e => gains_entryPathAdd vft e s) hin haf hpx hpy
  | update => exact addSource_keeps (gains_create vft s) (fun _ e => gains_entryUpdate vft e s) hin haf hpx hpy
  | pathRemove2 => exact removeSource_keeps (fun _ hnd => takes_pathRemove vft hnd s) hin haf hpx hpy
  | specialRemove => exact removeSource_keeps (fun _ hnd => takes_specialRemove vft hnd s) hin haf hpx hpy
  | delete => exact removeSource_keeps (fun _ hnd => takes_specialRemove vft hnd s) hin haf hpx hpy

omit [DecidableEq P] in
theorem keeps_nothing : Keeps (fun t : FibTable P => t) [] := ⟨fun _ _ _ ht => ht, fun _ _ _ => ⟨.rfl, rfl⟩⟩

omit [DecidableEq P] in
theorem accounted_empty : Accounted (emptyFib : FibTable P) 0 fun _ => 0 := by
  refine ⟨fun _ => nodup_nil, fun p => iff_of_false (Finset.notMem_empty p) fun h => h rfl, rfl, fun s => ?_⟩
  rw [FibTable.withSource]
  rfl

end

section
variable {proto : FibProtocol} {fibIndex : BitVec 32}

mutual

theorem TableCall.keeps : ∀ c : TableCall, c.Outward proto fibIndex → Keeps (c.run proto fibIndex) (c.on proto fibIndex)
  | ⟨f, vft, pre, s, plFlags, paths, shared, inner, after⟩, h => by
    rw [TableCall.Outward] at h
    obtain ⟨hpaths, hpx, hpy, hin, haf⟩ := h
    have hresolve : Keeps (fun t => if (callFlags pre plFlags paths).shared ∧ shared then t
        else resolvePaths proto fibIndex (callFlags pre plFlags paths) paths t)
        (if (callFlags pre plFlags paths).shared ∧ shared then []
          else pathsOn proto fibIndex (callFlags pre plFlags paths) paths) := by
      split
      · exact keeps_nothing
      · next hnew => exact resolvePaths_keeps _ paths (hpaths hnew).2
    have hfirst : pre ∉ (if (callFlags pre plFlags paths).shared ∧ shared then []
          else pathsOn proto fibIndex (callFlags pre plFlags paths) paths) ++ callsOn proto fibIndex inner := by
      rw [mem_append, not_or]
      refine ⟨?_, hpx⟩
      split
      · exact not_mem_nil
      · next hnew => exact (hpaths hnew).1
    have hkeeps := f.keeps vft s (hresolve.trans (runCalls_keeps inner hin)) (runCalls_keeps after haf) hfirst hpy
    have hrun : TableCall.run proto fibIndex ⟨f, vft, pre, s, plFlags, paths, shared, inner, after⟩ = fun t =>
        f.run vft (fun t => runCalls proto fibIndex inner (if (callFlags pre plFlags paths).shared ∧ shared then t
          else resolvePaths proto fibIndex (callFlags pre plFlags paths) paths t))
          (runCalls proto fibIndex after) t pre s := by
      funext t
      rw [TableCall.run]
    rw [hrun, TableCall.on]
    exact hkeeps

theorem runCalls_keeps : ∀ cs : List TableCall, CallsOutward proto fibIndex cs →
    Keeps (runCalls proto fibIndex cs) (callsOn proto fibIndex cs)
  | [], _ => by
    have hrun : runCalls proto fibIndex [] = fun t => t := by
      funext t
      rw [runCalls]
    rw [hrun, callsOn]
    exact keeps_nothing
  | c :: cs, h => by
    rw [CallsOutward] at h
    have hboth := (TableCall.keeps c h.1).trans (runCalls_keeps cs h.2)
    have hrun : runCalls proto fibIndex (c :: cs) = fun t => runCalls proto fibIndex cs (c.run proto fibIndex t) := by
      funext t
      rw [runCalls]
    rw [hrun, callsOn]
    exact hboth

theorem PathCall.keeps (plFlags : FibPathListFlags) : ∀ c : PathCall, c.Outward proto fibIndex plFlags →
    Keeps (c.resolve proto fibIndex plFlags) (c.on proto fibIndex plFlags)
  | ⟨rpath, vft, inner, after⟩, h => by
    rw [PathCall.Outward] at h
    cases hvia : viaHere proto fibIndex plFlags rpath with
    | none =>
      have hrun : PathCall.resolve proto fibIndex plFlags ⟨rpath, vft, inner, after⟩ = fun t => t := by
        funext t
        rw [PathCall.resolve, hvia]
      rw [hrun, PathCall.on, hvia]
      exact keeps_nothing
    | some via =>
      obtain ⟨hpx, hpy, hin, haf⟩ := h via hvia
      have hrun : PathCall.resolve proto fibIndex plFlags ⟨rpath, vft, inner, after⟩ = fun t =>
          fibTableEntrySpecialDpoAdd vft (runCalls proto fibIndex inner) (runCalls proto fibIndex after) t via .rr := by
        funext t
        rw [PathCall.resolve, hvia]
      rw [hrun, PathCall.on, hvia]
      exact TableFunction.specialDpoAdd.keeps vft .rr (runCalls_keeps inner hin) (runCalls_keeps after haf) hpx hpy

theorem resolvePaths_keeps (plFlags : FibPathListFlags) : ∀ cs : List PathCall, PathsOutward proto fibIndex plFlags cs →
    Keeps (resolvePaths proto fibIndex plFlags cs) (pathsOn proto fibIndex plFlags cs)
  | [], _ => by
    have hrun : resolvePaths proto fibIndex plFlags [] = fun t => t := by
      funext t
      rw [resolvePaths]
    rw [hrun, pathsOn]
    exact keeps_nothing
  | c :: cs, h => by
    rw [PathsOutward] at h
    have hboth := (PathCall.keeps plFlags c h.1).trans (resolvePaths_keeps plFlags cs h.2)
    have hrun : resolvePaths proto fibIndex plFlags (c :: cs) = fun t =>
        resolvePaths proto fibIndex plFlags cs (c.resolve proto fibIndex plFlags t) := by
      funext t
      rw [resolvePaths]
    rw [hrun, pathsOn]
    exact hboth

end

theorem callFlags_drop (pre : FibPrefix) (plFlags : FibPathListFlags) (paths : List PathCall) (last : PathCall) :
    (callFlags pre plFlags (paths ++ [last])).drop = fibRouteRecursesViaSelf pre last.rpath := by
  rw [callFlags, map_append, map_cons, map_nil, foldl_append]
  rw [fibPathListFlagsFixup]
  split <;> rfl

/-- Only where a path through the own address is followed by one that is not does the list lead to the own prefix. -/
theorem viaHere_own {paths : List PathCall} {last : PathCall} {rpath : FibRoutePath} (hip : rpath.frpProto ≠ .mpls)
    (hvia : viaHere proto fibIndex (callFlags pre plFlags (paths ++ [last])) rpath = some pre) :
    fibRouteRecursesViaSelf pre rpath = true ∧ fibRouteRecursesViaSelf pre last.rpath = false := by
  have hflag := callFlags_drop pre plFlags paths last
  generalize callFlags pre plFlags (paths ++ [last]) = flags at *
  unfold viaHere at hvia
  split at hvia
  · next via tbl hrec =>
    have hpre : via = pre := by
      split at hvia
      · exact Option.some.inj hvia
      · cases hvia
    unfold recursesVia at hrec
    dsimp only at hrec
    split at hrec
    · next nh t hdrop hdata =>
      have hproto : (fibPathConf rpath.frpProto (fibPathListFlags2PathFlags flags) rpath).fpNhProto ≠ .mpls := hip
      have haddr : fibPrefixFromIp46Addr nh = pre := by
        rw [if_neg hproto] at hrec
        exact (Prod.mk.inj (Option.some.inj hrec)).1.trans hpre
      obtain ⟨hzero, hif, hnh⟩ : rpath.frpAddr ≠ 0 ∧ rpath.frpSwIfIndex = indexInvalid ∧ nh = rpath.frpAddr := by
        simp only [fibPathConf, fibPathData, if_neg hip] at hdata
        split_ifs at hdata with h1 h2 h3 h4 h5
        obtain ⟨hnh, -⟩ := FibPathData.recursive.inj hdata
        exact ⟨h4, not_not.mp h2, hnh.symm⟩
      have hself : rpath.frpAddr = pre.fpAddr := by
        rw [← haddr, ← hnh, fibPrefixFromIp46Addr]
        split <;> rfl
      exact ⟨decide_eq_true ⟨hzero, hif, hself⟩, hflag.symm.trans hdrop⟩
    · cases hrec
  · cases hvia

/-- The accounts of a table are right as long as no call leads to another one on its own prefix. -/
theorem fib_table_accounting (proto : FibProtocol) (fibIndex : BitVec 32) (calls : List TableCall)
    (h : CallsOutward proto fibIndex calls) : (runCalls proto fibIndex calls emptyFib).Sound := by
  have ht := (runCalls_keeps calls h).accounted _ _ _ accounted_empty
  refine ⟨?_, ?_, ?_⟩
  · intro p
    rw [ht.sourced, sources, ne_eq, map_eq_nil_iff]
  · exact ht.total.trans (BitVec.add_zero _)
  · intro s
    refine (ht.counts s).trans ((BitVec.add_zero _).trans ?_)
    have hfilter : (runCalls proto fibIndex calls emptyFib).withSource s =
        (runCalls proto fibIndex calls emptyFib).prefixes.filter fun p =>
          fibEntryIsSourced ((runCalls proto fibIndex calls emptyFib).entry p) s = true := by
      apply Finset.filter_congr
      exact fun p _ => isSourced_iff.symm
    rw [hfilter]

def idleVft : Vft := fun _ => ⟨id, id, fun pl => (pl, true), id, id, id, id⟩

/-- A path through an IPv4 address of table 0, or the next hop on an interface. -/
def pathVia (addr : BitVec 128) (swIfIndex : BitVec 32) : PathCall :=
  ⟨⟨.ip4, addr, swIfIndex, 0, 1, false, false, false, false⟩, idleVft, [], []⟩

/-- The route 5.5.5.6/32, with paths that are in no list yet. -/
def routeVia (paths : List PathCall) : List TableCall :=
  [⟨.pathAdd2, idleVft, ⟨32, .ip4, 0x05050506⟩, .api, ⟨true, false, false, false⟩, paths, false, [], []⟩]

/-- The second path clears the flag that the first one sets. -/
theorem fib_table_accounting_fails :
    ¬ ∀ calls : List TableCall, (runCalls .ip4 0 calls emptyFib).Sound := by
  intro hall
  have htotal := (hall (routeVia [pathVia 0x05050506 indexInvalid, pathVia 0x0a0a0a01 1])).total
  exact absurd htotal (by decide)

/-- A path through another address gets an entry, and the last path through the own one only a drop. -/
theorem fib_table_accounting_through :
    (runCalls .ip4 0 (routeVia [pathVia 0x0a0a0a01 indexInvalid] ++ routeVia [pathVia 0x05050506 indexInvalid])
      emptyFib).Sound := by
  apply fib_table_accounting
  simp [routeVia, pathVia, CallsOutward, TableCall.Outward, PathsOutward, PathCall.Outward, pathsOn, PathCall.on,
    callsOn, callFlags, PathCall.rpath]
  decide

end

end Vpp.Fib
