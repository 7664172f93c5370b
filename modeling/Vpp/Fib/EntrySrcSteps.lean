import Vpp.Fib.EntrySrc

namespace Vpp.Fib
open Vpp.Lib Function List Option

variable {e e' e'' : FibEntry} {s t b : FibSource} {x y : FibEntrySrc} {refs refs' : FibSource → Nat} {vft : Vft}

abbrev FibEntry.Sorted (e : FibEntry) : Prop := SortedBy FibEntrySrc.fesSrc e.feSrcs

/-- All that changes is the source `s`. -/
structure Touched (e e' : FibEntry) (s : FibSource) (x : FibEntrySrc) : Prop where
  sorted : e'.Sorted
  find : fibEntrySrcFind e' = update (fibEntrySrcFind e) s (some x)
  parent : e'.feParent = e.feParent
  lb : e'.feLb = e.feLb

theorem Touched.trans (h : Touched e e' s x) (h' : Touched e' e'' s y) : Touched e e'' s y := by
  refine ⟨h'.sorted, ?_, h'.parent.trans h.parent, h'.lb.trans h.lb⟩
  rw [h'.find, h.find, update_idem]

theorem Touched.find_self (h : Touched e e' s x) : fibEntrySrcFind e' s = some x := by
  rw [h.find, update_self]

theorem Touched.find_of_ne (h : Touched e e' s x) (hne : t ≠ s) : fibEntrySrcFind e' t = fibEntrySrcFind e t := by
  rw [h.find, update_of_ne hne]

theorem touched_self (he : e.Sorted) (hs : fibEntrySrcFind e s = some x) : Touched e e s x :=
  ⟨he, by rw [← hs, update_eq_self], rfl, rfl⟩

theorem touched_updateSrc (he : e.Sorted) (hs : fibEntrySrcFind e s = some x) (hf : ∀ x, (f x).fesSrc = x.fesSrc) :
    Touched e (e.updateSrc s f) s (f x) := by
  refine ⟨he.updateFirst hf, ?_, rfl, rfl⟩
  have hlook := look_updateFirst (k := s) hf e.feSrcs
  rw [fibEntrySrcFind] at hs
  rw [hs] at hlook
  exact hlook

/-- A source before its first reference. -/
def newSrc (s : FibSource) : FibEntrySrc := ⟨pathListInvalid, s, false, false, 0⟩

theorem touched_findOrCreate (he : e.Sorted) (s : FibSource) :
    Touched e (fibEntrySrcFindOrCreate e s) s ((fibEntrySrcFind e s).getD (newSrc s)) := by
  rw [fibEntrySrcFindOrCreate]
  cases hs : fibEntrySrcFind e s with
  | none => exact ⟨he.sortBy_concat hs, he.look_sortBy_concat hs, rfl, rfl⟩
  | some x => exact touched_self he hs

theorem touched_add_new (vft : Vft) (he : e.Sorted) (hs : fibEntrySrcFind e s = none) :
    Touched e (fibEntrySrcActionAdd vft e s) s ⟨(vft s).fesvAdd pathListInvalid, s, false, true, 1⟩ := by
  have h := touched_findOrCreate he s
  rw [hs] at h
  refine h.trans (touched_updateSrc h.sorted h.find_self fun x => ?_)
  simp only
  split <;> rfl

theorem touched_add_again (vft : Vft) (he : e.Sorted) (hs : fibEntrySrcFind e s = some x)
    (hone : x.fesRefCount + 1 ≠ 1) :
    Touched e (fibEntrySrcActionAdd vft e s) s { x with fesRefCount := x.fesRefCount + 1 } := by
  have h := touched_findOrCreate he s
  rw [hs, getD_some] at h
  have hup := touched_updateSrc (f := fun esrc =>
      if esrc.fesRefCount + 1 ≠ 1 then { esrc with fesRefCount := esrc.fesRefCount + 1 }
      else ⟨(vft s).fesvAdd esrc.fesPl, esrc.fesSrc, esrc.active, true, esrc.fesRefCount + 1⟩) h.sorted h.find_self (by
    intro x
    split <;> rfl)
  simp only [if_pos hone] at hup
  exact h.trans hup

theorem touched_update (vft : Vft) (he : e.Sorted) (hs : fibEntrySrcFind e s = some x) :
    Touched e (fibEntrySrcActionUpdate vft e s) s { x with fesPl := (vft s).fesvAdd x.fesPl, added := true } := by
  have h := touched_findOrCreate he s
  rw [hs, getD_some] at h
  exact h.trans (touched_updateSrc h.sorted h.find_self fun x => rfl)

theorem activate_spec (vft : Vft) (he : e.Sorted) (hs : fibEntrySrcFind e s = some x) :
    ∃ pl, (fibEntrySrcActionActivate vft e s).Sorted ∧
      fibEntrySrcFind (fibEntrySrcActionActivate vft e s) =
        update (fibEntrySrcFind e) s (some { x with active := true, fesPl := pl }) ∧
      (fibEntrySrcActionActivate vft e s).feParent = pl ∧
      ((fibEntrySrcActionActivate vft e s).feLb = some (s, pl) ∨
        (fibEntrySrcActionActivate vft e s).feLb = none ∧ ((vft s).fesvActivate x.fesPl).2 = false) := by
  have hup := touched_updateSrc (f := fun esrc =>
    { esrc with active := true, fesPl := ((vft s).fesvActivate x.fesPl).1 })
    he hs (fun x => rfl)
  refine ⟨((vft s).fesvActivate x.fesPl).1, ?_⟩
  rw [fibEntrySrcActionActivate, hs]
  simp only
  cases hgo : ((vft s).fesvActivate x.fesPl).2 with
  | true =>
    refine ⟨hup.sorted, hup.find, rfl, .inl ?_⟩
    have hself := hup.find_self
    exact congrArg (Option.map fun esrc : FibEntrySrc => (s, esrc.fesPl)) hself
  | false => exact ⟨hup.sorted, hup.find, rfl, .inr ⟨rfl, rfl⟩⟩

theorem deactivate_spec (vft : Vft) (he : e.Sorted) (hs : fibEntrySrcFind e s = some x) :
    (fibEntrySrcActionDeactivate vft e s).Sorted ∧
      fibEntrySrcFind (fibEntrySrcActionDeactivate vft e s) = update (fibEntrySrcFind e) s
        (some { x with fesPl := (vft s).fesvDeactivate x.fesPl, active := false }) ∧
      (fibEntrySrcActionDeactivate vft e s).feLb = e.feLb := by
  have hup := touched_updateSrc (f := fun esrc =>
    { esrc with fesPl := (vft s).fesvDeactivate esrc.fesPl, active := false }) he hs (fun x => rfl)
  exact ⟨hup.sorted, hup.find, hup.lb⟩

/-- The best source has the least number. -/
def Best (e : FibEntry) (b : FibSource) : Prop :=
  (fibEntrySrcFind e b).isSome ∧ ∀ t, (fibEntrySrcFind e t).isSome → b ≤ t

theorem best_iff (he : e.Sorted) : fibEntryGetBestSource e = some b ↔ Best e b := by
  have hsome : ∀ t, (fibEntrySrcFind e t).isSome ↔ ∃ x ∈ e.feSrcs, x.fesSrc = t := by
    intro t
    rw [isSome_iff_exists]
    exact exists_congr fun x => he.look_iff
  rw [fibEntryGetBestSource, map_eq_some_iff]
  constructor
  · rintro ⟨x, hx, rfl⟩
    obtain ⟨hmem, hmin⟩ := he.head_iff.mp hx
    refine ⟨(hsome _).mpr ⟨x, hmem, rfl⟩, fun t ht => ?_⟩
    obtain ⟨y, hy, rfl⟩ := (hsome t).mp ht
    exact hmin y hy
  · rintro ⟨hb, hmin⟩
    obtain ⟨x, hmem, rfl⟩ := (hsome b).mp hb
    exact ⟨x, he.head_iff.mpr ⟨hmem, fun y hy => hmin _ ((hsome _).mpr ⟨y, hy, rfl⟩)⟩, rfl⟩

theorem Best.unique (h : Best e s) (h' : Best e t) : s = t := le_antisymm (h.2 t h'.1) (h'.2 s h.1)

/-- The sources are those with a reference, and their counts are right. -/
structure Counted (e : FibEntry) (refs : FibSource → Nat) : Prop where
  sorted : e.Sorted
  found : ∀ s x, fibEntrySrcFind e s = some x → x.added = true ∧ 0 < refs s ∧ x.fesRefCount.toNat = refs s
  absent : ∀ s, fibEntrySrcFind e s = none → refs s = 0

/-- No source has an objection to installing the entry. -/
def AllGo (vft : Vft) : Prop := ∀ s pl, ((vft s).fesvActivate pl).2 = true

/-- The best source is the active one. Where `go` holds, no source had an objection. -/
structure Arbitrated (go : Prop) (e : FibEntry) (refs : FibSource → Nat) : Prop extends Counted e refs where
  active : ∀ s x, fibEntrySrcFind e s = some x → (x.active = true ↔ Best e s)
  parent : ∀ s x, fibEntrySrcFind e s = some x → Best e s → e.feParent = x.fesPl
  lb : ∀ s x, fibEntrySrcFind e s = some x → Best e s → e.feLb = some (s, x.fesPl) ∨ e.feLb = none ∧ ¬ go
  gone : (∀ s, fibEntrySrcFind e s = none) → e.feLb = none

theorem Counted.update (h : Counted e refs) (hsorted : e'.Sorted) (hs : fibEntrySrcFind e s = some x)
    (hfind : fibEntrySrcFind e' = update (fibEntrySrcFind e) s (some y)) (hadded : y.added = x.added)
    (hcount : y.fesRefCount = x.fesRefCount) : Counted e' refs := by
  refine ⟨hsorted, fun t z hz => ?_, fun t hz => ?_⟩
  · rw [hfind] at hz
    by_cases ht : t = s
    · subst ht
      rw [update_self] at hz
      obtain rfl := Option.some.inj hz
      rw [hadded, hcount]
      exact h.found t x hs
    · rw [update_of_ne ht] at hz
      exact h.found t z hz
  · rw [hfind] at hz
    by_cases ht : t = s
    · subst ht
      rw [update_self] at hz
      cases hz
    · rw [update_of_ne ht] at hz
      exact h.absent t hz

/-- To activate the best source makes the entry its own, where no other is active. -/
theorem Counted.activate (hgo : go → AllGo vft) (h : Counted e refs) (hs : Best e s)
    (hact : ∀ t y, fibEntrySrcFind e t = some y → y.active = true → t = s) :
    Arbitrated go (fibEntrySrcActionActivate vft e s) refs := by
  obtain ⟨x, hx⟩ := isSome_iff_exists.mp hs.1
  obtain ⟨pl, hsorted, hfind, hparent, hlb⟩ := activate_spec vft h.sorted hx
  have hsome : ∀ t, (fibEntrySrcFind (fibEntrySrcActionActivate vft e s) t).isSome = (fibEntrySrcFind e t).isSome := by
    intro t
    rw [hfind]
    by_cases ht : t = s
    · subst ht
      rw [update_self, hx]
      rfl
    · rw [update_of_ne ht]
  have hbest : Best (fibEntrySrcActionActivate vft e s) s := by
    refine ⟨(hsome s).trans hs.1, fun t ht => hs.2 t ?_⟩
    rwa [hsome] at ht
  have hself : ∀ t z, fibEntrySrcFind (fibEntrySrcActionActivate vft e s) t = some z → t = s →
      z = { x with active := true, fesPl := pl } := by
    rintro t z hz rfl
    rw [hfind, update_self] at hz
    exact (Option.some.inj hz).symm
  refine ⟨h.update hsorted hx hfind rfl rfl, fun t z hz => ⟨fun ha => ?_, fun hb => ?_⟩, fun t z hz hb => ?_,
    fun t z hz hb => ?_, fun hnone => ?_⟩
  · by_cases ht : t = s
    · exact ht ▸ hbest
    · rw [hfind, update_of_ne ht] at hz
      exact absurd (hact t z hz ha) ht
  · rw [hself t z hz (hb.unique hbest)]
  · rw [hself t z hz (hb.unique hbest), hparent]
  · obtain rfl := hb.unique hbest
    rw [hself t z hz rfl]
    refine hlb.imp_right fun hnone => ⟨hnone.1, fun hg => ?_⟩
    rw [hgo hg] at hnone
    cases hnone.2
  · have := hbest.1
    rw [hnone s] at this
    cases this

theorem isSome_update (hs : (fibEntrySrcFind e s).isSome)
    (hfind : fibEntrySrcFind e' = update (fibEntrySrcFind e) s (some x)) (t : FibSource) :
    (fibEntrySrcFind e' t).isSome = (fibEntrySrcFind e t).isSome := by
  rw [hfind]
  by_cases ht : t = s
  · subst ht
    rw [update_self, hs]
    rfl
  · rw [update_of_ne ht]

theorem Best.congr (hs : ∀ t, (fibEntrySrcFind e' t).isSome = (fibEntrySrcFind e t).isSome) : Best e' s ↔ Best e s := by
  rw [Best, Best, hs]
  exact and_congr_right fun _ => forall_congr' fun t => by rw [hs]

theorem Counted.handOver (hgo : go → AllGo vft) (h : Counted e refs) (hb : (fibEntrySrcFind e b).isSome) (hs : Best e s)
    (hact : ∀ t y, fibEntrySrcFind e t = some y → y.active = true → t = b) :
    Arbitrated go (fibEntrySrcActionActivate vft (fibEntrySrcActionDeactivate vft e b) s) refs := by
  obtain ⟨x, hx⟩ := isSome_iff_exists.mp hb
  obtain ⟨hsorted, hfind, -⟩ := deactivate_spec vft h.sorted hx
  have hcount := h.update hsorted hx hfind rfl rfl
  have hbest := (Best.congr (isSome_update hb hfind)).mpr hs
  refine hcount.activate hgo hbest fun t y hy ha => ?_
  rw [hfind] at hy
  by_cases ht : t = b
  · subst ht
    rw [update_self] at hy
    obtain rfl := Option.some.inj hy
    cases ha
  · rw [update_of_ne ht] at hy
    exact absurd (hact t y hy ha) ht

variable (h : Arbitrated go e refs) (hbest : Best e b)
include h hbest

theorem Arbitrated.active_eq (ht : fibEntrySrcFind e t = some y) (ha : y.active = true) : t = b :=
  ((h.active t y ht).mp ha).unique hbest

/-- What happens to a source that is not the best one is of no matter. -/
theorem Arbitrated.loser (hlt : b < s) (hs : fibEntrySrcFind e' = update (fibEntrySrcFind e) s o)
    (hparent : e'.feParent = e.feParent) (hlb : e'.feLb = e.feLb) (ho : ∀ x, o = some x → x.active = false)
    (hcount : Counted e' refs') : Arbitrated go e' refs' := by
  have hfind : ∀ t, t ≠ s → fibEntrySrcFind e' t = fibEntrySrcFind e t := by
    intro t ht
    rw [hs, update_of_ne ht]
  have hbest' : Best e' b := by
    refine ⟨(hfind b hlt.ne).symm ▸ hbest.1, fun t ht => ?_⟩
    by_cases hts : t = s
    · exact hts ▸ hlt.le
    · rw [hfind t hts] at ht
      exact hbest.2 t ht
  have hiff : ∀ t, Best e' t ↔ t = b := fun t => ⟨fun ht => ht.unique hbest', fun ht => ht ▸ hbest'⟩
  refine ⟨hcount, fun t y hy => ?_, fun t y hy ht => ?_, fun t y hy ht => ?_, fun hnone => ?_⟩
  · rw [hiff]
    by_cases hts : t = s
    · subst hts
      rw [hs, update_self] at hy
      rw [ho y hy]
      exact ⟨fun hf => (by cases hf), fun heq => absurd heq hlt.ne'⟩
    · rw [hfind t hts] at hy
      rw [h.active t y hy]
      exact ⟨fun ht => ht.unique hbest, fun ht => ht ▸ hbest⟩
  · obtain rfl := (hiff t).mp ht
    rw [hfind t hlt.ne] at hy
    rw [hparent, h.parent t y hy hbest]
  · obtain rfl := (hiff t).mp ht
    rw [hfind t hlt.ne] at hy
    rw [hlb]
    exact h.lb t y hy hbest
  · have hsome := hbest'.1
    rw [hnone b] at hsome
    cases hsome

theorem Arbitrated.sourceChange (hgo : go → AllGo vft) (ht : Touched e e' s x) (hx : x.active = true → Best e s)
    (hcount : Counted e' refs') :
    Arbitrated go (fibEntrySourceChange vft e' (some b) s) refs' := by
  have hact : ∀ t y, fibEntrySrcFind e' t = some y → y.active = true → t = b := by
    intro t y hy ha
    by_cases hts : t = s
    · subst hts
      rw [ht.find_self] at hy
      obtain rfl := Option.some.inj hy
      exact (hx ha).unique hbest
    · rw [ht.find_of_ne hts] at hy
      exact h.active_eq hbest hy ha
  have hsome : ∀ t, (fibEntrySrcFind e' t).isSome → t = s ∨ b ≤ t := by
    intro t htt
    by_cases hts : t = s
    · exact .inl hts
    · rw [ht.find_of_ne hts] at htt
      exact .inr (hbest.2 t htt)
  have hself : (fibEntrySrcFind e' s).isSome := by
    rw [ht.find_self]
    rfl
  rw [fibEntrySourceChange]
  split
  · next hlt =>
    have hb : (fibEntrySrcFind e' b).isSome := by
      rw [ht.find_of_ne hlt.ne']
      exact hbest.1
    refine hcount.handOver hgo hb ⟨hself, fun t htt => ?_⟩ hact
    exact (hsome t htt).elim (fun heq => heq.ge) (fun hle => hlt.le.trans hle)
  · next hnlt =>
    split
    · next hgt =>
      refine h.loser hbest hgt ht.find ht.parent ht.lb ?_ hcount
      intro y hy
      obtain rfl := Option.some.inj hy
      cases ha : x.active with
      | false => rfl
      | true => exact absurd ((hx ha).unique hbest) hgt.ne'
    · next hngt =>
      obtain rfl := le_antisymm (not_lt.mp hnlt) (not_lt.mp hngt)
      refine hcount.handOver hgo hself ⟨hself, fun t htt => ?_⟩ hact
      exact (hsome t htt).elim (fun heq => heq.ge) id

omit h hbest

/-- At most one source comes after it. -/
def InLastTwo (e : FibEntry) (s : FibSource) : Prop := e.feSrcs.length ≤ fibEntrySrcIndex e s + 2

def sources (e : FibEntry) : List FibSource := e.feSrcs.map FibEntrySrc.fesSrc

theorem fibEntrySrcIndex_eq (e : FibEntry) (s : FibSource) : fibEntrySrcIndex e s = (sources e).findIdx (· = s) := by
  rw [sources, findIdx_map]
  rfl

theorem sources_updateSrc (hf : ∀ x, (f x).fesSrc = x.fesSrc) : sources (e.updateSrc s f) = sources e :=
  map_key_updateFirst hf e.feSrcs

theorem sources_deactivate : sources (fibEntrySrcActionDeactivate vft e s) = sources e :=
  map_key_updateFirst (by exact fun _ => rfl) e.feSrcs

theorem InLastTwo.congr (h : InLastTwo e s) (hsrcs : sources e' = sources e) : InLastTwo e' s := by
  have hlen := congrArg List.length hsrcs
  rw [sources, sources, length_map, length_map] at hlen
  rw [InLastTwo, fibEntrySrcIndex_eq] at h ⊢
  rw [hsrcs, hlen]
  exact h

theorem deinit_spec (he : e.Sorted) (hs : (fibEntrySrcFind e s).isSome) (hlast : InLastTwo e s) :
    (fibEntrySrcActionDeinit e s).Sorted ∧
      fibEntrySrcFind (fibEntrySrcActionDeinit e s) = update (fibEntrySrcFind e) s none := by
  obtain ⟨x, hx⟩ := isSome_iff_exists.mp hs
  obtain ⟨hmem, hkey⟩ := he.look_iff.mp hx
  have hi : fibEntrySrcIndex e s < e.feSrcs.length := findIdx_lt_length_of_exists ⟨x, hmem, by simpa using hkey⟩
  have hat : e.feSrcs[fibEntrySrcIndex e s].fesSrc = s := of_decide_eq_true (findIdx_getElem (w := hi))
  have herase := delSwap_eq_eraseIdx hi hlast
  have hlook := he.look_eraseIdx hi
  rw [hat, ← herase] at hlook
  refine ⟨?_, hlook⟩
  rw [FibEntry.Sorted, fibEntrySrcActionDeinit, herase]
  exact he.eraseIdx _

theorem toNat_sub_one {c : BitVec 8} (hpos : 0 < c.toNat) : (c - 1).toNat = c.toNat - 1 := by
  have hle : (1 : BitVec 8).toNat ≤ c.toNat := hpos
  rw [BitVec.toNat_sub_of_le (BitVec.le_def.mpr hle)]
  rfl

theorem sub_one_eq_zero {c : BitVec 8} (hpos : 0 < c.toNat) : c - 1 = 0 ↔ c.toNat = 1 := by
  rw [← BitVec.toNat_inj, toNat_sub_one hpos]
  show c.toNat - 1 = 0 ↔ _
  omega

theorem remove_more (vft : Vft) (h : Counted e refs) (hs : fibEntrySrcFind e s = some x) (hmore : refs s ≠ 1) :
    (fibEntrySrcActionRemove vft e s).2 = true ∧
      Touched e (fibEntrySrcActionRemove vft e s).1 s { x with fesRefCount := x.fesRefCount - 1 } ∧
      Counted (fibEntrySrcActionRemove vft e s).1 (update refs s (refs s - 1)) := by
  obtain ⟨hadded, hpos, hcount⟩ := h.found s x hs
  have hpos' : 0 < x.fesRefCount.toNat := hcount ▸ hpos
  have hne : x.fesRefCount - 1 ≠ 0 := by
    rw [Ne, sub_one_eq_zero hpos', hcount]
    exact hmore
  have hup := touched_updateSrc (f := fun esrc => { esrc with fesRefCount := esrc.fesRefCount - 1 }) h.sorted hs
    (fun x => rfl)
  have hrem : fibEntrySrcActionRemove vft e s =
      (e.updateSrc s fun esrc => { esrc with fesRefCount := esrc.fesRefCount - 1 }, x.added) := by
    simp only [fibEntrySrcActionRemove, hs, if_pos hne]
  rw [hrem]
  refine ⟨hadded, hup, hup.sorted, fun t y hy => ?_, fun t hy => ?_⟩
  · by_cases ht : t = s
    · subst ht
      rw [hup.find_self] at hy
      obtain rfl := Option.some.inj hy
      rw [update_self]
      refine ⟨hadded, by omega, ?_⟩
      rw [toNat_sub_one hpos', hcount]
    · rw [hup.find_of_ne ht] at hy
      rw [update_of_ne ht]
      exact h.found t y hy
  · by_cases ht : t = s
    · subst ht
      rw [hup.find_self] at hy
      cases hy
    · rw [hup.find_of_ne ht] at hy
      rw [update_of_ne ht]
      exact h.absent t hy

theorem remove_last (vft : Vft) (h : Counted e refs) (hs : fibEntrySrcFind e s = some x) (hone : refs s = 1)
    (hlast : InLastTwo e s) :
    (fibEntrySrcActionRemove vft e s).2 = false ∧
      fibEntrySrcFind (fibEntrySrcActionRemove vft e s).1 = update (fibEntrySrcFind e) s none ∧
      (x.active = false → (fibEntrySrcActionRemove vft e s).1.feParent = e.feParent) ∧
      (fibEntrySrcActionRemove vft e s).1.feLb = e.feLb ∧
      Counted (fibEntrySrcActionRemove vft e s).1 (update refs s (refs s - 1)) := by
  obtain ⟨hadded, hpos, hcount⟩ := h.found s x hs
  have hzero : ¬ x.fesRefCount - 1 ≠ 0 := by
    rw [not_not, sub_one_eq_zero (hcount ▸ hpos), hcount]
    exact hone
  have hup := touched_updateSrc (f := fun esrc => { esrc with fesRefCount := esrc.fesRefCount - 1 }) h.sorted hs
    (fun x => rfl)
  -- the source is quiet before it goes
  obtain ⟨e₁, y, hdeact, hsorted₁, hfind₁, hlb₁, hparent₁, hsrcs₁⟩ : ∃ e₁ y,
      (if x.active then fibEntrySrcActionDeactivate vft
        (e.updateSrc s fun esrc => { esrc with fesRefCount := esrc.fesRefCount - 1 }) s
        else e.updateSrc s fun esrc => { esrc with fesRefCount := esrc.fesRefCount - 1 }) = e₁ ∧ e₁.Sorted ∧
      fibEntrySrcFind e₁ = update (fibEntrySrcFind e) s (some y) ∧ e₁.feLb = e.feLb ∧
      (x.active = false → e₁.feParent = e.feParent) ∧ sources e₁ = sources e := by
    cases ha : x.active with
    | false =>
      exact ⟨_, _, if_neg Bool.false_ne_true, hup.sorted, hup.find, hup.lb, fun _ => hup.parent,
        sources_updateSrc (by exact fun _ => rfl)⟩
    | true =>
      obtain ⟨hsorted, hfind, hlb⟩ := deactivate_spec vft hup.sorted hup.find_self
      rw [hup.find, update_idem] at hfind
      refine ⟨_, _, if_pos rfl, hsorted, hfind, hlb, fun hf => (by cases hf), ?_⟩
      exact sources_deactivate.trans (sources_updateSrc (by exact fun _ => rfl))
  have hself : fibEntrySrcFind e₁ s = some y := by rw [hfind₁, update_self]
  have hup₂ := touched_updateSrc (f := fun esrc => { esrc with fesPl := (vft s).fesvRemove esrc.fesPl }) hsorted₁ hself
    (fun x => rfl)
  have hsome₂ : (fibEntrySrcFind (e₁.updateSrc s fun esrc =>
      { esrc with fesPl := (vft s).fesvRemove esrc.fesPl }) s).isSome := by
    rw [hup₂.find_self]
    rfl
  obtain ⟨hsorted, hfind⟩ := deinit_spec hup₂.sorted hsome₂
    (hlast.congr ((sources_updateSrc (by exact fun _ => rfl)).trans hsrcs₁))
  rw [hup₂.find, hfind₁, update_idem, update_idem] at hfind
  have hrem : fibEntrySrcActionRemove vft e s = (fibEntrySrcActionDeinit (e₁.updateSrc s fun esrc =>
      { esrc with fesPl := (vft s).fesvRemove esrc.fesPl }) s, false) := by
    simp only [fibEntrySrcActionRemove, hs, if_neg hzero, hdeact]
  rw [hrem]
  refine ⟨rfl, hfind, hparent₁, hlb₁, hsorted, fun t z hz => ?_, fun t hz => ?_⟩
  · rw [hfind] at hz
    by_cases ht : t = s
    · subst ht
      rw [update_self] at hz
      cases hz
    · rw [update_of_ne ht] at hz ⊢
      exact h.found t z hz
  · rw [hfind] at hz
    by_cases ht : t = s
    · subst ht
      rw [update_self, hone]
    · rw [update_of_ne ht] at hz ⊢
      exact h.absent t hz

end Vpp.Fib
