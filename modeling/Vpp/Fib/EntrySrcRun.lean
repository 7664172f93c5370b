import Vpp.Fib.EntrySrcSteps

namespace Vpp.Fib
open Vpp.Lib Option

variable {e e' : FibEntry} {s b : FibSource} {x : FibEntrySrc} {refs : FibSource → Nat} {vft : Vft}

inductive EntryOp where
  | specialAdd (source : FibSource)
  | specialUpdate (source : FibSource)
  | pathAdd (source : FibSource)
  | update (source : FibSource)
  | pathRemove (source : FibSource)
  | specialRemove (source : FibSource)

def EntryOp.call (vft : Vft) (e : FibEntry) : EntryOp → FibEntry
  | .specialAdd s => fibEntrySpecialAdd vft e s
  | .specialUpdate s => fibEntrySpecialUpdate vft e s
  | .pathAdd s => fibEntryPathAdd vft e s
  | .update s => fibEntryUpdate vft e s
  | .pathRemove s => fibEntryPathRemove vft e s
  | .specialRemove s => fibEntrySpecialRemove vft e s

/-- The references that the callers hold. Paths hold one together, as long as there is one. -/
def EntryOp.refsAfter (vft : Vft) (e : FibEntry) (refs : FibSource → Nat) : EntryOp → FibSource → Nat
  | .specialAdd s => Function.update refs s (refs s + 1)
  | .specialUpdate _ => refs
  | .pathAdd s => if refs s = 0 then Function.update refs s 1 else refs
  | .update s => if refs s = 0 then Function.update refs s 1 else refs
  | .pathRemove s => if lastPath vft e s then Function.update refs s (refs s - 1) else refs
  | .specialRemove s => Function.update refs s (refs s - 1)

/-- Updates and paths to remove are of a source that is there. -/
def EntryOp.Legal (e : FibEntry) : EntryOp → Prop
  | .specialUpdate s => (fibEntrySrcFind e s).isSome
  | .pathRemove s => (fibEntrySrcFind e s).isSome
  | _ => True

/-- The byte of a count does not wrap, and a source that goes is one of the last two. -/
def EntryOp.InOrder (vft : Vft) (e : FibEntry) (refs : FibSource → Nat) : EntryOp → Prop
  | .specialAdd s => refs s < 255
  | .pathRemove s => lastPath vft e s → refs s = 1 → InLastTwo e s
  | .specialRemove s => refs s = 1 → InLastTwo e s
  | _ => True

theorem Counted.add (vft : Vft) (h : Counted e refs) (hlt : refs s < 255) :
    ∃ x, Touched e (fibEntrySrcActionAdd vft e s) s x ∧
        Counted (fibEntrySrcActionAdd vft e s) (Function.update refs s (refs s + 1)) ∧
      (x.active = true → ∃ y, fibEntrySrcFind e s = some y ∧ y.active = true) := by
  have hcounted : ∀ x, Touched e (fibEntrySrcActionAdd vft e s) s x → x.added = true →
      x.fesRefCount.toNat = refs s + 1 →
      Counted (fibEntrySrcActionAdd vft e s) (Function.update refs s (refs s + 1)) := by
    intro x ht hadded hcount
    refine ⟨ht.sorted, fun t y hy => ?_, fun t hy => ?_⟩
    · by_cases hts : t = s
      · subst hts
        rw [ht.find_self] at hy
        obtain rfl := Option.some.inj hy
        rw [Function.update_self]
        exact ⟨hadded, Nat.succ_pos _, hcount⟩
      · rw [ht.find_of_ne hts] at hy
        rw [Function.update_of_ne hts]
        exact h.found t y hy
    · by_cases hts : t = s
      · subst hts
        rw [ht.find_self] at hy
        cases hy
      · rw [ht.find_of_ne hts] at hy
        rw [Function.update_of_ne hts]
        exact h.absent t hy
  cases hs : fibEntrySrcFind e s with
  | none =>
    have ht := touched_add_new vft h.sorted hs
    refine ⟨_, ht, hcounted _ ht rfl ?_, fun ha => by cases ha⟩
    rw [h.absent s hs]
    rfl
  | some x =>
    obtain ⟨hadded, hpos, hcount⟩ := h.found s x hs
    have hsum : (x.fesRefCount + 1).toNat = refs s + 1 := by
      rw [BitVec.toNat_add, hcount]
      exact Nat.mod_eq_of_lt (Nat.succ_lt_succ hlt)
    have hone : x.fesRefCount + 1 ≠ 1 := by
      intro heq
      rw [heq] at hsum
      have hsum : 1 = refs s + 1 := hsum
      omega
    have ht := touched_add_again vft h.sorted hs hone
    exact ⟨_, ht, hcounted _ ht hadded hsum, fun ha => ⟨x, rfl, ha⟩⟩

theorem Counted.setPl (h : Counted e refs) (hs : fibEntrySrcFind e s = some x) (f : PathList → PathList) :
    Touched e (e.updateSrc s fun esrc => { esrc with fesPl := f esrc.fesPl }) s { x with fesPl := f x.fesPl } ∧
      Counted (e.updateSrc s fun esrc => { esrc with fesPl := f esrc.fesPl }) refs := by
  have ht := touched_updateSrc (f := fun esrc => { esrc with fesPl := f esrc.fesPl }) h.sorted hs (fun x => rfl)
  exact ⟨ht, h.update ht.sorted hs ht.find rfl rfl⟩

theorem Counted.paths (vft : Vft) (h : Counted e refs) (f : PathList → PathList) :
    ∃ x, Touched e ((if (fibEntrySrcFind e s).isSome then e else fibEntrySrcActionAdd vft e s).updateSrc s fun esrc =>
        { esrc with fesPl := f esrc.fesPl }) s x ∧
      Counted ((if (fibEntrySrcFind e s).isSome then e else fibEntrySrcActionAdd vft e s).updateSrc s fun esrc =>
        { esrc with fesPl := f esrc.fesPl }) (if refs s = 0 then Function.update refs s 1 else refs) ∧
      (x.active = true → ∃ y, fibEntrySrcFind e s = some y ∧ y.active = true) := by
  cases hs : fibEntrySrcFind e s with
  | none =>
    have hzero := h.absent s hs
    obtain ⟨x, ht, hcount, hx⟩ := h.add vft (s := s) (by omega)
    obtain ⟨ht', hcount'⟩ := hcount.setPl ht.find_self f
    rw [hzero] at hcount'
    rw [if_pos hzero, isSome_none, if_neg Bool.false_ne_true]
    refine ⟨_, ht.trans ht', hcount', fun ha => ?_⟩
    rw [← hs]
    exact hx ha
  | some x =>
    have hpos := (h.found s x hs).2.1
    obtain ⟨ht, hcount⟩ := h.setPl hs f
    rw [if_neg hpos.ne', isSome_some, if_pos rfl]
    exact ⟨_, ht, hcount, fun ha => ⟨x, rfl, ha⟩⟩

section Calls
variable (hgo : go → AllGo vft) (h : Arbitrated go e refs) (hbest : Best e b)
include hgo h hbest

theorem Arbitrated.changed (ht : Touched e e' s x) (hcount : Counted e' refs')
    (hx : x.active = true → ∃ y, fibEntrySrcFind e s = some y ∧ y.active = true) :
    Arbitrated go (fibEntrySourceChange vft e' (fibEntryGetBestSource e) s) refs' := by
  rw [(best_iff h.sorted).mpr hbest]
  refine h.sourceChange hbest hgo ht (fun ha => ?_) hcount
  obtain ⟨y, hy, hactive⟩ := hx ha
  exact (h.active s y hy).mp hactive

theorem Arbitrated.specialAdd (hlt : refs s < 255) :
    Arbitrated go (fibEntrySpecialAdd vft e s) (Function.update refs s (refs s + 1)) := by
  obtain ⟨x, ht, hcount, hx⟩ := h.toCounted.add vft hlt
  exact h.changed hgo hbest ht hcount hx

theorem Arbitrated.specialUpdate (hs : (fibEntrySrcFind e s).isSome) :
    Arbitrated go (fibEntrySpecialUpdate vft e s) refs := by
  obtain ⟨x, hx⟩ := isSome_iff_exists.mp hs
  have ht := touched_update vft h.sorted hx
  exact h.changed hgo hbest ht (h.update ht.sorted hx ht.find (h.found s x hx).1.symm rfl) fun ha => ⟨x, hx, ha⟩

theorem Arbitrated.pathAdd (s : FibSource) :
    Arbitrated go (fibEntryPathAdd vft e s) (if refs s = 0 then Function.update refs s 1 else refs) := by
  obtain ⟨x, ht, hcount, hx⟩ := h.toCounted.paths vft (s := s) (vft s).fesvPathAdd
  exact h.changed hgo hbest ht hcount hx

theorem Arbitrated.pathSwap (s : FibSource) :
    Arbitrated go (fibEntryUpdate vft e s) (if refs s = 0 then Function.update refs s 1 else refs) := by
  obtain ⟨x, ht, hcount, hx⟩ := h.toCounted.paths vft (s := s) (vft s).fesvPathSwap
  exact h.changed hgo hbest ht hcount hx

/-- A source is gone, and if it was the best one, the next takes over. -/
theorem Arbitrated.removed (hs : (fibEntrySrcFind e s).isSome)
    (hfind : fibEntrySrcFind e' = Function.update (fibEntrySrcFind e) s none)
    (hparent : b ≠ s → e'.feParent = e.feParent) (hlb : e'.feLb = e.feLb) (hcount : Counted e' refs') :
    Arbitrated go (if fibEntryGetBestSource e ≠ some s then e' else fibEntryFallBack vft e') refs' := by
  rw [(best_iff h.sorted).mpr hbest]
  by_cases hbs : b = s
  · subst hbs
    rw [if_neg (not_not_intro rfl), fibEntryFallBack]
    have hother : ∀ t y, fibEntrySrcFind e' t = some y → y.active = false := by
      intro t y hy
      rw [hfind] at hy
      by_cases hts : t = b
      · rw [hts, Function.update_self] at hy
        cases hy
      · rw [Function.update_of_ne hts] at hy
        cases ha : y.active with
        | false => rfl
        | true => exact absurd (h.active_eq hbest hy ha) hts
    cases hnext : fibEntryGetBestSource e' with
    | none =>
      have hnone : ∀ t, fibEntrySrcFind e' t = none := by
        have hnil : e'.feSrcs = [] := by simpa [fibEntryGetBestSource] using hnext
        intro t
        rw [fibEntrySrcFind, hnil]
        rfl
      have hkeep : ∀ t, fibEntrySrcFind (fibEntrySrcActionUninstall e') t = none := hnone
      refine ⟨⟨hcount.sorted, hcount.found, hcount.absent⟩, fun t y hy => ?_, fun t y hy => ?_, fun t y hy =>
        ?_, fun _ => rfl⟩
      all_goals
        rw [hkeep t] at hy
        cases hy
    | some b' =>
      refine hcount.activate hgo ((best_iff hcount.sorted).mp hnext) fun t y hy ha => ?_
      rw [hother t y hy] at ha
      cases ha
  · have hlt : b < s := lt_of_le_of_ne (hbest.2 s hs) hbs
    rw [if_pos fun heq => hbs (Option.some.inj heq)]
    exact h.loser hbest hlt hfind (hparent hbs) hlb (fun x hx => (by cases hx)) hcount

omit hgo in
theorem Arbitrated.touchedLoser (hbs : b ≠ s) (hs : fibEntrySrcFind e s = some y) (ht : Touched e e' s x)
    (hx : x.active = y.active) (hcount : Counted e' refs') : Arbitrated go e' refs' := by
  have hlt : b < s := by
    refine lt_of_le_of_ne (hbest.2 s ?_) hbs
    rw [hs]
    rfl
  refine h.loser hbest hlt ht.find ht.parent ht.lb (fun z hz => ?_) hcount
  obtain rfl := Option.some.inj hz
  rw [hx]
  cases ha : y.active with
  | false => rfl
  | true => exact absurd (h.active_eq hbest hs ha).symm hbs

omit hgo h in
theorem Best.touched (hs : (fibEntrySrcFind e b).isSome) (ht : Touched e e' b x) : Best e' b :=
  (Best.congr (isSome_update hs ht.find)).mpr hbest

omit hgo in
theorem Arbitrated.reactivate (hs : fibEntrySrcFind e b = some y) (ht : Touched e e' b x) (hx : x.active = y.active)
    (hcount : Counted e' refs') : Arbitrated go (fibEntrySrcActionReactivate e' b) refs' := by
  have hbest' := hbest.touched (hs ▸ rfl) ht
  have hre : fibEntrySrcActionReactivate e' b = { e' with feParent := x.fesPl, feLb := some (b, x.fesPl) } := by
    rw [fibEntrySrcActionReactivate, ht.find_self]
    show fibEntrySrcActionInstall { e' with feParent := x.fesPl } b = _
    have hfind : fibEntrySrcFind { e' with feParent := x.fesPl } b = some x := ht.find_self
    rw [fibEntrySrcActionInstall, hfind]
    rfl
  rw [hre]
  have hself : ∀ t z, fibEntrySrcFind e' t = some z → Best e' t → t = b ∧ z = x := by
    intro t z hz hbt
    obtain rfl := hbt.unique hbest'
    rw [ht.find_self] at hz
    exact ⟨rfl, (Option.some.inj hz).symm⟩
  refine ⟨⟨hcount.sorted, hcount.found, hcount.absent⟩, fun t z hz => ?_, fun t z hz hbt => ?_, fun t z hz hbt => ?_,
    fun hnone => ?_⟩
  · show _ ↔ Best e' t
    have hz : fibEntrySrcFind e' t = some z := hz
    by_cases htb : t = b
    · subst htb
      obtain ⟨-, rfl⟩ := hself t z hz hbest'
      rw [hx, h.active t y hs]
      exact ⟨fun _ => hbest', fun _ => hbest⟩
    · rw [ht.find_of_ne htb] at hz
      rw [h.active t z hz]
      exact ⟨fun hb => absurd (hb.unique hbest) htb, fun hb => absurd (hb.unique hbest') htb⟩
  · rw [(hself t z hz hbt).2]
  · obtain ⟨rfl, rfl⟩ := hself t z hz hbt
    exact .inl rfl
  · have hsome := hbest'.1
    rw [show fibEntrySrcFind e' b = none from hnone b] at hsome
    cases hsome

theorem Arbitrated.specialRemove (hlast : refs s = 1 → InLastTwo e s) :
    Arbitrated go (fibEntrySpecialRemove vft e s) (Function.update refs s (refs s - 1)) := by
  have hb := (best_iff h.sorted).mpr hbest
  cases hs : fibEntrySrcFind e s with
  | none =>
    have hbs : b ≠ s := by
      rintro rfl
      have := hbest.1
      rw [hs] at this
      cases this
    have hrem : fibEntrySpecialRemove vft e s = e := by
      rw [fibEntrySpecialRemove, fibEntrySrcActionRemove, hs]
      simp only [hb]
      rw [if_pos fun heq => hbs (Option.some.inj heq)]
    have hzero : Function.update refs s (refs s - 1) = refs := by
      rw [Function.update_eq_self_iff, h.absent s hs]
    rw [hrem, hzero]
    exact h
  | some x =>
    rw [fibEntrySpecialRemove]
    by_cases hone : refs s = 1
    · obtain ⟨hflag, hfind, hparent, hlb, hcount⟩ := remove_last vft h.toCounted hs hone (hlast hone)
      simp only [hflag, Bool.not_false, if_true]
      refine h.removed hgo hbest (hs ▸ rfl) hfind (fun hbs => hparent ?_) hlb hcount
      cases ha : x.active with
      | false => rfl
      | true => exact absurd (h.active_eq hbest hs ha).symm hbs
    · obtain ⟨hflag, ht, hcount⟩ := remove_more vft h.toCounted hs hone
      simp only [hflag, hb, Bool.not_true, Bool.false_eq_true, if_false]
      by_cases hbs : b = s
      · subst hbs
        rw [if_neg (not_not_intro rfl)]
        exact h.reactivate hbest hs ht rfl hcount
      · rw [if_pos fun heq => hbs (Option.some.inj heq)]
        exact h.touchedLoser hbest hbs hs ht rfl hcount

theorem Arbitrated.pathRemove (hs : (fibEntrySrcFind e s).isSome)
    (hlast : lastPath vft e s → refs s = 1 → InLastTwo e s) :
    Arbitrated go (fibEntryPathRemove vft e s)
      (if lastPath vft e s then Function.update refs s (refs s - 1) else refs) := by
  have hb := (best_iff h.sorted).mpr hbest
  obtain ⟨x, hx⟩ := isSome_iff_exists.mp hs
  obtain ⟨ht, hcount⟩ := h.toCounted.setPl hx (vft s).fesvPathRemove
  rw [fibEntryPathRemove, fibEntrySrcActionPathRemove]
  by_cases hempty : lastPath vft e s
  · simp only [hempty, if_true, Bool.not_false]
    by_cases hone : refs s = 1
    · have hin := (hlast hempty hone).congr (sources_updateSrc (s := s)
        (f := fun esrc => { esrc with fesPl := (vft s).fesvPathRemove esrc.fesPl }) fun _ => rfl)
      obtain ⟨-, hfind, hparent, hlb, hcount'⟩ := remove_last vft hcount ht.find_self hone hin
      rw [ht.find, Function.update_idem] at hfind
      refine h.removed hgo hbest hs hfind (fun hbs => (hparent ?_).trans ht.parent) (hlb.trans ht.lb) hcount'
      cases ha : x.active with
      | false => rfl
      | true => exact absurd (h.active_eq hbest hx ha).symm hbs
    · obtain ⟨-, ht', hcount'⟩ := remove_more vft hcount ht.find_self hone
      have htt := ht.trans ht'
      rw [hb]
      by_cases hbs : b = s
      · subst hbs
        have hbest' := hbest.touched hs htt
        rw [if_neg (not_not_intro rfl), fibEntryFallBack, (best_iff hcount'.sorted).mpr hbest']
        refine hcount'.activate hgo hbest' fun t y hy ha => ?_
        by_cases htb : t = b
        · exact htb
        · rw [htt.find_of_ne htb] at hy
          exact h.active_eq hbest hy ha
      · rw [if_pos fun heq => hbs (Option.some.inj heq)]
        exact h.touchedLoser hbest hbs hx htt rfl hcount'
  · simp only [hempty, if_false, Bool.false_eq_true, Bool.not_true, hb]
    by_cases hbs : b = s
    · subst hbs
      rw [if_neg (not_not_intro rfl)]
      refine hcount.handOver hgo (hbest.touched hs ht).1 (hbest.touched hs ht) fun t y hy ha => ?_
      by_cases htb : t = b
      · exact htb
      · rw [ht.find_of_ne htb] at hy
        exact h.active_eq hbest hy ha
    · rw [if_pos fun heq => hbs (Option.some.inj heq)]
      exact h.touchedLoser hbest hbs hx ht rfl hcount

end Calls

theorem find_alloc (s : FibSource) : fibEntrySrcFind fibEntryAlloc s = none := rfl

theorem counted_alloc : Counted fibEntryAlloc fun _ => 0 :=
  ⟨List.Pairwise.nil, fun s x hx => (by cases hx), fun _ _ => rfl⟩

theorem arbitrated_first (hgo : go → AllGo vft) (ht : Touched fibEntryAlloc e s x) (hcount : Counted e refs) :
    Arbitrated go (fibEntrySrcActionActivate vft e s) refs := by
  have hself : (fibEntrySrcFind e s).isSome := by
    rw [ht.find_self]
    rfl
  have honly : ∀ t, (fibEntrySrcFind e t).isSome → t = s := by
    intro t hsome
    by_contra hts
    rw [ht.find_of_ne hts, find_alloc] at hsome
    cases hsome
  refine hcount.activate hgo ⟨hself, fun t hsome => (honly t hsome).ge⟩ fun t y hy _ => honly t ?_
  rw [hy]
  rfl

theorem add_alloc (vft : Vft) (s : FibSource) :
    Touched fibEntryAlloc (fibEntrySrcActionAdd vft fibEntryAlloc s) s
        ⟨(vft s).fesvAdd pathListInvalid, s, false, true, 1⟩ ∧
      Counted (fibEntrySrcActionAdd vft fibEntryAlloc s) (Function.update (fun _ => 0) s 1) := by
  obtain ⟨x, ht, hcount, -⟩ := counted_alloc.add vft (s := s) (by decide)
  exact ⟨touched_add_new vft counted_alloc.sorted (find_alloc s), hcount⟩

theorem arbitrated_createSpecial (hgo : go → AllGo vft) (s : FibSource) :
    Arbitrated go (fibEntryCreateSpecial vft s) (Function.update (fun _ => 0) s 1) := by
  obtain ⟨ht, hcount⟩ := add_alloc vft s
  exact arbitrated_first hgo ht hcount

theorem arbitrated_create (hgo : go → AllGo vft) (s : FibSource) :
    Arbitrated go (fibEntryCreate vft s) (Function.update (fun _ => 0) s 1) := by
  obtain ⟨ht, hcount⟩ := add_alloc vft s
  obtain ⟨ht', hcount'⟩ := hcount.setPl ht.find_self (vft s).fesvPathSwap
  have hswap : fibEntrySrcActionPathSwap vft (fibEntrySrcActionAdd vft fibEntryAlloc s) s =
      (fibEntrySrcActionAdd vft fibEntryAlloc s).updateSrc s fun esrc =>
        { esrc with fesPl := (vft s).fesvPathSwap esrc.fesPl } := by
    rw [fibEntrySrcActionPathSwap, ht.find_self]
    rfl
  rw [fibEntryCreate, hswap]
  exact arbitrated_first hgo (ht.trans ht') hcount'

/-- Calls that change one entry from its creation on, and the references. Each call finds the tables as they are then.
Where `go` holds, no source objects to installing the entry. -/
inductive EntryRun (go : Prop) : FibEntry → (FibSource → Nat) → Prop
  | createSpecial (vft : Vft) (s : FibSource) : (go → AllGo vft) →
      EntryRun go (fibEntryCreateSpecial vft s) (Function.update (fun _ => 0) s 1)
  | create (vft : Vft) (s : FibSource) : (go → AllGo vft) →
      EntryRun go (fibEntryCreate vft s) (Function.update (fun _ => 0) s 1)
  | step {e : FibEntry} {refs : FibSource → Nat} (vft : Vft) (op : EntryOp) : (go → AllGo vft) →
      EntryRun go e refs → e.feSrcs ≠ [] → op.Legal e →
      op.InOrder vft e refs → EntryRun go (op.call vft e) (op.refsAfter vft e refs)

theorem EntryRun.arbitrated (h : EntryRun go e refs) : Arbitrated go e refs := by
  induction h with
  | createSpecial vft s hgo => exact arbitrated_createSpecial hgo s
  | create vft s hgo => exact arbitrated_create hgo s
  | @step e refs vft op hgo _ hne hlegal horder ih =>
    obtain ⟨b, hb⟩ : ∃ b, fibEntryGetBestSource e = some b := by
      cases hsrcs : e.feSrcs with
      | nil => exact absurd hsrcs hne
      | cons x xs => exact ⟨x.fesSrc, by rw [fibEntryGetBestSource, hsrcs]; rfl⟩
    have hbest := (best_iff ih.sorted).mp hb
    cases op with
    | specialAdd s => exact ih.specialAdd hgo hbest horder
    | specialUpdate s => exact ih.specialUpdate hgo hbest hlegal
    | pathAdd s => exact ih.pathAdd hgo hbest s
    | update s => exact ih.pathSwap hgo hbest s
    | pathRemove s => exact ih.pathRemove hgo hbest hlegal horder
    | specialRemove s => exact ih.specialRemove hgo hbest horder

/-- The sources are in order, the best one is the active one, and it is where the entry forwards; each source is
there as long as it is referenced. -/
theorem fib_entry_source_arbitration (h : EntryRun go e refs) :
    (e.feSrcs.Pairwise fun x y => x.fesSrc < y.fesSrc) ∧
    (∀ x ∈ e.feSrcs, x.active = true ↔ ∀ y ∈ e.feSrcs, x.fesSrc ≤ y.fesSrc) ∧
    (∀ x ∈ e.feSrcs, x.active = true → e.feParent = x.fesPl ∧
      (e.feLb = some (x.fesSrc, x.fesPl) ∨ e.feLb = none ∧ ¬ go)) ∧
    (e.feSrcs = [] → e.feLb = none) ∧
    ∀ s, (∃ x ∈ e.feSrcs, x.fesSrc = s) ↔ 0 < refs s := by
  have h := h.arbitrated
  have hfind : ∀ x ∈ e.feSrcs, fibEntrySrcFind e x.fesSrc = some x := fun x hx => h.sorted.look_iff.mpr ⟨hx, rfl⟩
  have hmem : ∀ s, (fibEntrySrcFind e s).isSome ↔ ∃ x ∈ e.feSrcs, x.fesSrc = s := by
    intro s
    rw [isSome_iff_exists]
    exact exists_congr fun x => h.sorted.look_iff
  have hleast : ∀ x ∈ e.feSrcs, Best e x.fesSrc ↔ ∀ y ∈ e.feSrcs, x.fesSrc ≤ y.fesSrc := by
    intro x hx
    refine ⟨fun hb y hy => hb.2 _ ((hmem _).mpr ⟨y, hy, rfl⟩), fun hmin => ⟨(hmem _).mpr ⟨x, hx, rfl⟩, fun t ht => ?_⟩⟩
    obtain ⟨y, hy, rfl⟩ := (hmem t).mp ht
    exact hmin y hy
  refine ⟨h.sorted, fun x hx => ?_, fun x hx ha => ?_, fun hnil => ?_, fun s => ?_⟩
  · rw [h.active _ x (hfind x hx), hleast x hx]
  · have hb := (h.active _ x (hfind x hx)).mp ha
    exact ⟨h.parent _ x (hfind x hx) hb, h.lb _ x (hfind x hx) hb⟩
  · apply h.gone
    intro s
    rw [fibEntrySrcFind, hnil]
    rfl
  · rw [← hmem]
    cases hs : fibEntrySrcFind e s with
    | none => rw [h.absent s hs]; decide
    | some x => exact ⟨fun _ => (h.found s x hs).2.1, fun _ => rfl⟩

/-- Each source gives its own path-list, and goes along with all. -/
def plainVft : Vft := fun s =>
  ⟨fun _ => BitVec.ofNat 32 s.ctorIdx, id, fun pl => (pl, true), id, id, fun _ => BitVec.ofNat 32 s.ctorIdx,
      fun _ => pathListInvalid⟩

def afterAll (e : FibEntry) (ops : List EntryOp) : FibEntry := ops.foldl (fun e op => op.call plainVft e) e

/-- The API is overruled by an interface, until that is gone. -/
theorem fib_entry_source_arbitration_fall_back :
    (afterAll (fibEntryCreateSpecial plainVft .api) [.specialAdd .interface, .specialRemove .interface]).feLb =
      some (.api, 4) := by
  have hall : True → AllGo plainVft := fun _ _ _ => rfl
  have hrun := EntryRun.step plainVft (.specialRemove .interface) hall
    (.step plainVft (.specialAdd .interface) hall (.createSpecial plainVft .api hall) (by decide) trivial
      (by show _ < 255; decide))
    (by decide) trivial (fun _ => by show _ ≤ _; decide)
  obtain ⟨-, hlb⟩ := (fib_entry_source_arbitration hrun).2.2.1 ⟨4, .api, true, true, 1⟩ (by decide) rfl
  exact hlb.resolve_right fun hno => hno.2 trivial

/-- The source of the highest priority goes from in front of two others, and the last of them comes before the other. -/
theorem fib_entry_source_arbitration_fails :
    let e := afterAll (fibEntryCreateSpecial plainVft .special) [.specialAdd .interface, .specialAdd .api]
    let e' := fibEntrySpecialRemove plainVft e .special
    e.feSrcs.map (·.fesSrc) = [.special, .interface, .api] ∧ e'.feSrcs.map (·.fesSrc) = [.api, .interface] ∧
      e'.feSrcs.map (·.active) = [true, false] ∧ e'.feLb = some (.api, 4) := by
  decide

end Vpp.Fib
