import Vpp.TimingWheel.Place

namespace Vpp.TimingWheel.Wheel.Moving
open Vpp.Lib

/-- What has become of the elements of `w`: some are still in bins, those that were due have been
returned unless deleted, and the others wait to be inserted again. -/
structure Accounts (w : Wheel) (adv : Nat) (s : Moving) (due : List Elt) : Prop where
  stored : (w.elts.map Filed.elt).Perm (s.wheel.elts.map Filed.elt ++ (due ++ s.unexpiredEltsPendingInsert))
  returned : s.expiredUserData = (due.map Elt.userData).filter fun u => !w.eltIsDeleted u
  due : ∀ e ∈ due, w.eltTimeIndex e ≤ adv
  later : ∀ e ∈ s.unexpiredEltsPendingInsert, adv < w.eltTimeIndex e

/-- Bins of `w` have been emptied on the way to `adv`, and nothing else has changed yet. -/
structure Moves (w : Wheel) (adv : Nat) (s : Moving) : Prop where
  wheel : s.wheel = { w with elts := s.wheel.elts }
  sub : s.wheel.elts ⊆ w.elts
  account : ∃ due, Accounts w adv s due

theorem Moves.start (w : Wheel) (adv : Nat) : Moves w adv ⟨w, [], []⟩ where
  wheel := rfl
  sub := List.Subset.refl _
  account := ⟨[], .of_eq (List.append_nil _).symm, rfl, fun _ h => absurd h List.not_mem_nil,
    fun _ h => absurd h List.not_mem_nil⟩

variable {s : Moving}

theorem Moves.binsPerWheel (h : Moves w adv s) : s.wheel.binsPerWheel = w.binsPerWheel :=
  (congrArg Wheel.binsPerWheel h.wheel).trans rfl

theorem Moves.log2BinsPerWheel (h : Moves w adv s) : s.wheel.log2BinsPerWheel = w.log2BinsPerWheel :=
  (congrArg Wheel.log2BinsPerWheel h.wheel).trans rfl

theorem Moves.nLevels (h : Moves w adv s) : s.wheel.nLevels = w.nLevels :=
  (congrArg Wheel.nLevels h.wheel).trans rfl

theorem Moves.currentTimeWheelIndex (h : Moves w adv s) (levelIndex : Nat) :
    s.wheel.currentTimeWheelIndex levelIndex = w.currentTimeWheelIndex levelIndex :=
  congrArg (fun v => v.currentTimeWheelIndex levelIndex) h.wheel

theorem Moves.eltTimeIndex (h : Moves w adv s) (e : Elt) : s.wheel.eltTimeIndex e = w.eltTimeIndex e :=
  congrArg (fun v => v.eltTimeIndex e) h.wheel

theorem Moves.eltIsDeleted (h : Moves w adv s) (u : Nat) : s.wheel.eltIsDeleted u = w.eltIsDeleted u :=
  congrArg (fun v => v.eltIsDeleted u) h.wheel

theorem inBin_iff {levelIndex wheelIndex : Nat} {f : Filed} :
    inBin levelIndex wheelIndex f = true ↔ f.level = levelIndex ∧ f.bin = wheelIndex := decide_eq_true_iff

theorem mem_clearBin {w : Wheel} {levelIndex wheelIndex : Nat} {f : Filed} :
    f ∈ (w.clearBin levelIndex wheelIndex).elts ↔ f ∈ w.elts ∧ ¬ (f.level = levelIndex ∧ f.bin = wheelIndex) := by
  rw [clearBin, List.mem_filter, ← inBin_iff]
  simp

theorem clearBin_perm (w : Wheel) (levelIndex wheelIndex : Nat) :
    (w.elts.map Filed.elt).Perm
      (w.bin levelIndex wheelIndex ++ (w.clearBin levelIndex wheelIndex).elts.map Filed.elt) := by
  have hsplit := (List.filter_append_perm (inBin levelIndex wheelIndex) w.elts).map Filed.elt
  rw [List.map_append] at hsplit
  exact hsplit.symm

theorem perm_parts [DecidableEq α] {all stored kept out due later : List α} {p : α → Bool}
    (hall : all.Perm (stored ++ (due ++ later))) (hstored : stored.Perm (out ++ kept)) :
    all.Perm (kept ++ ((due ++ out.filter p) ++ (later ++ out.filter fun e => !p e))) := by
  have hout := List.filter_append_perm p out
  rw [List.perm_iff_count] at hall hstored hout ⊢
  intro x
  have h1 := hall x
  have h2 := hstored x
  have h3 := hout x
  simp only [List.count_append] at h1 h2 h3 ⊢
  omega

theorem Moves.refillBin (h : Moves w adv s) (levelIndex wheelIndex : Nat) :
    Moves w adv (s.refillBin adv levelIndex wheelIndex) := by
  obtain ⟨due, hacc⟩ := h.account
  have hlater : (fun e => decide (¬ s.wheel.eltTimeIndex e ≤ adv)) = fun e => !decide (s.wheel.eltTimeIndex e ≤ adv) :=
    funext fun e => decide_not
  have hdeleted : (fun u => !s.wheel.eltIsDeleted u) = fun u => !w.eltIsDeleted u :=
    funext fun u => congrArg (!·) (h.eltIsDeleted u)
  constructor
  · exact congrArg (fun v => v.clearBin levelIndex wheelIndex) h.wheel
  · exact fun f hf => h.sub (mem_clearBin.1 hf).1
  · apply Exists.intro (due ++ (s.wheel.bin levelIndex wheelIndex).filter fun e => s.wheel.eltTimeIndex e ≤ adv)
    constructor
    · rw [Moving.refillBin, hlater]
      exact perm_parts hacc.stored (clearBin_perm s.wheel levelIndex wheelIndex)
    · rw [List.map_append, List.filter_append, ← hacc.returned, ← hdeleted]
      rfl
    · intro e he
      rcases List.mem_append.1 he with he | he
      · exact hacc.due e he
      · rw [← h.eltTimeIndex]
        exact of_decide_eq_true (List.mem_filter.1 he).2
    · intro e he
      rcases List.mem_append.1 he with he | he
      · exact hacc.later e he
      · rw [← h.eltTimeIndex]
        exact Nat.lt_of_not_le (of_decide_eq_true (List.mem_filter.1 he).2)

theorem Moves.refillBins (h : Moves w adv s) (levelIndex : Nat) (bins : List Nat) :
    Moves w adv (bins.foldl (Moving.refillBin adv levelIndex) s) := by
  induction bins generalizing s with
  | nil => exact h
  | cons b bins ih => exact ih (h.refillBin levelIndex b)

theorem mem_refillBins {levelIndex : Nat} {bins : List Nat} {f : Filed} :
    f ∈ (bins.foldl (Moving.refillBin adv levelIndex) s).wheel.elts
      ↔ f ∈ s.wheel.elts ∧ ¬ (f.level = levelIndex ∧ f.bin ∈ bins) := by
  induction bins generalizing s with
  | nil => simp
  | cons b bins ih =>
    rw [List.foldl_cons, ih, Moving.refillBin, mem_clearBin, List.mem_cons]
    grind

theorem mem_refillBin_pending {levelIndex wheelIndex : Nat} {e : Elt} :
    e ∈ (s.refillBin adv levelIndex wheelIndex).unexpiredEltsPendingInsert ↔
      e ∈ s.unexpiredEltsPendingInsert ∨
        ∃ f ∈ s.wheel.elts, f.level = levelIndex ∧ f.bin = wheelIndex ∧ f.elt = e ∧ adv < s.wheel.eltTimeIndex e := by
  have hbin : e ∈ s.wheel.bin levelIndex wheelIndex ↔
      ∃ f ∈ s.wheel.elts, f.level = levelIndex ∧ f.bin = wheelIndex ∧ f.elt = e := by
    simp only [Wheel.bin, List.mem_map, List.mem_filter, inBin_iff, and_assoc]
  rw [Moving.refillBin, List.mem_append, List.mem_filter, hbin, decide_eq_true_iff, Nat.not_le]
  constructor
  · rintro (he | ⟨⟨f, hf, hl, hb, he⟩, hlater⟩)
    · exact .inl he
    · exact .inr ⟨f, hf, hl, hb, he, hlater⟩
  · rintro (he | ⟨f, hf, hl, hb, he, hlater⟩)
    · exact .inl he
    · exact .inr ⟨⟨f, hf, hl, hb, he⟩, hlater⟩

theorem mem_refillBins_pending {levelIndex : Nat} {bins : List Nat} {e : Elt} :
    e ∈ (bins.foldl (Moving.refillBin adv levelIndex) s).unexpiredEltsPendingInsert ↔
      e ∈ s.unexpiredEltsPendingInsert ∨
        ∃ f ∈ s.wheel.elts, f.level = levelIndex ∧ f.bin ∈ bins ∧ f.elt = e ∧ adv < s.wheel.eltTimeIndex e := by
  induction bins generalizing s with
  | nil => simp
  | cons b bins ih =>
    have htime : (s.refillBin adv levelIndex b).wheel.eltTimeIndex e = s.wheel.eltTimeIndex e := rfl
    have hmem (f : Filed) : f ∈ (s.refillBin adv levelIndex b).wheel.elts ↔
        f ∈ s.wheel.elts ∧ ¬ (f.level = levelIndex ∧ f.bin = b) := by rw [Moving.refillBin, mem_clearBin]
    simp only [List.foldl_cons, ih, mem_refillBin_pending, htime, hmem, List.mem_cons]
    grind

theorem Moves.expireBin_eq (h : Moves w adv s) {levelIndex wheelIndex : Nat}
    (due : ∀ f ∈ s.wheel.elts, f.level = levelIndex → f.bin = wheelIndex → w.eltTimeIndex f.elt ≤ adv) :
    s.expireBin levelIndex wheelIndex = s.refillBin adv levelIndex wheelIndex := by
  have hdue : ∀ e ∈ s.wheel.bin levelIndex wheelIndex, s.wheel.eltTimeIndex e ≤ adv := by
    intro e he
    obtain ⟨f, hf, rfl⟩ := List.mem_map.1 he
    obtain ⟨hmem, hin⟩ := List.mem_filter.1 hf
    rw [h.eltTimeIndex]
    exact due f hmem (inBin_iff.1 hin).1 (inBin_iff.1 hin).2
  have hall : (s.wheel.bin levelIndex wheelIndex).filter (fun e => s.wheel.eltTimeIndex e ≤ adv)
      = s.wheel.bin levelIndex wheelIndex := List.filter_eq_self.2 fun e he => decide_eq_true (hdue e he)
  have hnone : (s.wheel.bin levelIndex wheelIndex).filter (fun e => ¬ s.wheel.eltTimeIndex e ≤ adv) = [] :=
    List.filter_eq_nil_iff.2 fun e he => by simpa using hdue e he
  rw [Moving.expireBin, Moving.refillBin, hall, hnone, List.append_nil]
  rfl

theorem Moves.expireBins_eq (h : Moves w adv s) {levelIndex : Nat} {bins : List Nat}
    (due : ∀ f ∈ s.wheel.elts, f.level = levelIndex → f.bin ∈ bins → w.eltTimeIndex f.elt ≤ adv) :
    bins.foldl (Moving.expireBin levelIndex) s = bins.foldl (Moving.refillBin adv levelIndex) s := by
  induction bins generalizing s with
  | nil => rfl
  | cons b bins ih =>
    have hb := h.expireBin_eq fun f hf hl hbin => due f hf hl (hbin ▸ List.mem_cons_self)
    rw [List.foldl_cons, List.foldl_cons, hb]
    apply ih (h.refillBin levelIndex b)
    intro f hf hl hbin
    exact due f (mem_clearBin.1 hf).1 hl (List.mem_cons_of_mem b hbin)

/-- An element was not met when its level was gone through between the last digits of the two times there. -/
def Unvisited (w : Wheel) (adv : Nat) (f : Filed) : Prop :=
  w.currentTimeIndex / w.binsPerWheel ^ f.level % w.binsPerWheel ≠ adv / w.binsPerWheel ^ f.level % w.binsPerWheel →
  f.bin ∉ turnBins w.binsPerWheel w.binsPerWheel
    (w.currentTimeIndex / w.binsPerWheel ^ f.level % w.binsPerWheel) (adv / w.binsPerWheel ^ f.level % w.binsPerWheel)

def refillStep (adv levelIndex c a : Nat) (s : Moving) : Moving :=
  if c ≠ a then s.refillLevel levelIndex adv c a else s

theorem Moves.refillStep (h : Moves w adv s) (levelIndex c a : Nat) :
    Moves w adv (s.refillStep adv levelIndex c a) := by
  rw [Moving.refillStep]
  split
  case isTrue => exact h.refillBins _ _
  case isFalse => exact h

theorem mem_refillStep {f : Filed} {levelIndex c a : Nat} :
    f ∈ (s.refillStep adv levelIndex c a).wheel.elts ↔ f ∈ s.wheel.elts ∧ (f.level = levelIndex + 1 → c ≠ a →
      f.bin ∉ turnBins s.wheel.binsPerWheel s.wheel.binsPerWheel c a) := by
  rw [Moving.refillStep]
  split
  case isTrue hne =>
    rw [Moving.refillLevel, mem_refillBins]
    constructor
    · exact fun ⟨hmem, hnot⟩ => ⟨hmem, fun hl _ hbin => hnot ⟨hl, hbin⟩⟩
    · exact fun ⟨hmem, hnot⟩ => ⟨hmem, fun ⟨hl, hbin⟩ => hnot hl hne hbin⟩
  case isFalse he => exact ⟨fun hf => ⟨hf, fun _ hne => absurd hne he⟩, fun hf => hf.1⟩

theorem mem_refillStep_pending {e : Elt} {levelIndex c a : Nat} :
    e ∈ (s.refillStep adv levelIndex c a).unexpiredEltsPendingInsert ↔ e ∈ s.unexpiredEltsPendingInsert ∨
      ∃ f ∈ s.wheel.elts, f.level = levelIndex + 1 ∧
        ¬ (c ≠ a → f.bin ∉ turnBins s.wheel.binsPerWheel s.wheel.binsPerWheel c a) ∧ f.elt = e ∧
          adv < s.wheel.eltTimeIndex e := by
  rw [Moving.refillStep]
  split
  case isTrue hne =>
    simp only [Moving.refillLevel, mem_refillBins_pending, hne, ne_eq, not_false_eq_true, forall_const, not_not]
  case isFalse he =>
    have heq : c = a := not_not.1 he
    simp only [heq, ne_eq, not_true_eq_false, IsEmpty.forall_iff, false_and, and_false, exists_false, or_false]

theorem div_pow_eq_of_le {x y n k l : Nat} (h : x / n ^ k = y / n ^ k) (hle : k ≤ l) : x / n ^ l = y / n ^ l := by
  obtain ⟨d, rfl⟩ := Nat.exists_eq_add_of_le hle
  rw [Nat.pow_add, ← Nat.div_div_eq_div_mul, ← Nat.div_div_eq_div_mul, h]

theorem div_pow_succ (x n k : Nat) : x / n ^ k / n = x / n ^ (k + 1) := by
  rw [Nat.div_div_eq_div_mul, Nat.pow_succ]

theorem unvisited_of_eq {f : Filed} {levelIndex : Nat}
    (h : w.currentTimeIndex / w.binsPerWheel ^ levelIndex = adv / w.binsPerWheel ^ levelIndex)
    (hle : levelIndex ≤ f.level) : Unvisited w adv f :=
  fun hne => absurd (congrArg (· % w.binsPerWheel) (div_pow_eq_of_le h hle)) hne

theorem level_up (h : Moves w adv s) {x levelIndex t : Nat} (hx : x = t / w.binsPerWheel ^ levelIndex) :
    x >>> s.wheel.log2BinsPerWheel = t / w.binsPerWheel ^ (levelIndex + 1) := by
  rw [hx, h.log2BinsPerWheel, shift_eq_div, ← div_pow_succ]
  rfl

/-- An element whose level is refilled past its bin is taken out of it. -/
def Refilled (w : Wheel) (adv : Nat) (f : Filed) : Prop := 0 < f.level ∧ ¬ Unvisited w adv f

instance (w : Wheel) (adv : Nat) (f : Filed) : Decidable (Refilled w adv f) :=
  inferInstanceAs (Decidable (_ ∧ ¬ (_ → _)))

/-- The levels above `levelIndex` have been gone through, and `s'` has what was not met and what waits. -/
structure RefilledFrom (w : Wheel) (adv levelIndex : Nat) (s s' : Moving) : Prop where
  elts : ∀ f, f ∈ s'.wheel.elts ↔ f ∈ s.wheel.elts ∧ (levelIndex < f.level → Unvisited w adv f)
  pending : ∀ e, e ∈ s'.unexpiredEltsPendingInsert ↔ e ∈ s.unexpiredEltsPendingInsert ∨
    ∃ f ∈ s.wheel.elts, levelIndex < f.level ∧ ¬ Unvisited w adv f ∧ f.elt = e ∧ adv < w.eltTimeIndex e

theorem RefilledFrom.same (h : ∀ f : Filed, levelIndex < f.level → Unvisited w adv f) :
    RefilledFrom w adv levelIndex s s where
  elts := fun f => ⟨fun hf => ⟨hf, h f⟩, fun hf => hf.1⟩
  pending := fun _ => ⟨.inl, fun he => he.resolve_right fun ⟨f, _, hl, hnot, _⟩ => hnot (h f hl)⟩

theorem RefilledFrom.up {s s₁ s₂ : Moving} (helts : ∀ f, f ∈ s₁.wheel.elts ↔ f ∈ s.wheel.elts ∧
      (f.level = levelIndex + 1 → Unvisited w adv f))
    (hpending : ∀ e, e ∈ s₁.unexpiredEltsPendingInsert ↔ e ∈ s.unexpiredEltsPendingInsert ∨
      ∃ f ∈ s.wheel.elts, f.level = levelIndex + 1 ∧ ¬ Unvisited w adv f ∧ f.elt = e ∧ adv < w.eltTimeIndex e)
    (h : RefilledFrom w adv (levelIndex + 1) s₁ s₂) : RefilledFrom w adv levelIndex s s₂ := by
  have hsplit (f : Filed) : levelIndex < f.level ↔ f.level = levelIndex + 1 ∨ levelIndex + 1 < f.level := by omega
  constructor
  · intro f
    rw [h.elts, helts, hsplit, or_imp, and_assoc]
  · intro e
    rw [h.pending, hpending]
    constructor
    · rintro ((he | ⟨f, hf, hl, hrest⟩) | ⟨f, hf, hl, hrest⟩)
      · exact .inl he
      · exact .inr ⟨f, hf, by omega, hrest⟩
      · exact .inr ⟨f, ((helts f).1 hf).1, by omega, hrest⟩
    · rintro (he | ⟨f, hf, hl, hrest⟩)
      · exact .inl (.inl he)
      · rcases (hsplit f).1 hl with heq | hlt
        · exact .inl (.inr ⟨f, hf, heq, hrest⟩)
        · exact .inr ⟨f, (helts f).2 ⟨hf, fun heq => absurd heq (by omega)⟩, hlt, hrest⟩

/-- By induction on the fuel, which the new time bounds on every level. -/
theorem Moves.refillLevels (h : Moves w adv s) (hM : 0 < w.log2BinsPerWheel)
    (hle : w.currentTimeIndex ≤ adv) {fuel levelIndex c a : Nat}
    (hc : c = w.currentTimeIndex / w.binsPerWheel ^ (levelIndex + 1))
    (ha : a = adv / w.binsPerWheel ^ (levelIndex + 1)) (hfuel : a ≤ fuel) :
    Moves w adv (Moving.refillLevels adv fuel s levelIndex c a) ∧
      RefilledFrom w adv levelIndex s (Moving.refillLevels adv fuel s levelIndex c a) := by
  induction fuel generalizing s levelIndex c a with
  | zero =>
    have hca : c ≤ a := hc ▸ ha ▸ Nat.div_le_div_right hle
    have he : c = a := by omega
    exact ⟨h, .same fun f hl => unvisited_of_eq (hc ▸ ha ▸ he) hl⟩
  | succ fuel ih =>
    rw [Moving.refillLevels]
    split
    case isFalse he => exact ⟨h, .same fun f hl => unvisited_of_eq (hc ▸ ha ▸ not_not.1 he) hl⟩
    case isTrue hne =>
      have hstep := h.refillStep levelIndex (c % s.wheel.binsPerWheel) (a % s.wheel.binsPerWheel)
      have hsmall : a >>> s.wheel.log2BinsPerWheel ≤ fuel := by
        rw [shift_eq_div, h.log2BinsPerWheel]
        rcases Nat.eq_zero_or_pos a with h0 | hpos
        · rw [h0, Nat.zero_div]
          exact Nat.zero_le _
        · have := Nat.div_lt_self hpos (two_le_two_pow hM)
          omega
      obtain ⟨hmoves, hrest⟩ := ih hstep (level_up h hc) (level_up h ha) hsmall
      have hhere (f : Filed) (hl : f.level = levelIndex + 1) :
          (c % s.wheel.binsPerWheel ≠ a % s.wheel.binsPerWheel → f.bin ∉ turnBins s.wheel.binsPerWheel
            s.wheel.binsPerWheel (c % s.wheel.binsPerWheel) (a % s.wheel.binsPerWheel)) ↔ Unvisited w adv f := by
        rw [Unvisited, h.binsPerWheel, hc, ha, hl]
      refine ⟨hmoves, .up (fun f => ?_) (fun e => ?_) hrest⟩
      · rw [mem_refillStep]
        exact and_congr_right fun _ => forall_congr' fun hl => hhere f hl
      · rw [mem_refillStep_pending, h.eltTimeIndex]
        constructor
        · rintro (he | ⟨f, hf, hl, hnot, hrest⟩)
          · exact .inl he
          · exact .inr ⟨f, hf, hl, mt (hhere f hl).2 hnot, hrest⟩
        · rintro (he | ⟨f, hf, hl, hnot, hrest⟩)
          · exact .inl he
          · exact .inr ⟨f, hf, hl, mt (hhere f hl).1 hnot, hrest⟩

/-- Bins are emptied that hold only what is due. -/
structure OnlyDueGone (w : Wheel) (adv : Nat) (s s' : Moving) : Prop where
  sub : s'.wheel.elts ⊆ s.wheel.elts
  later : ∀ f ∈ s.wheel.elts, adv < w.eltTimeIndex f.elt → f ∈ s'.wheel.elts
  pending : s'.unexpiredEltsPendingInsert = s.unexpiredEltsPendingInsert

theorem OnlyDueGone.refl (s : Moving) : OnlyDueGone w adv s s :=
  ⟨List.Subset.refl _, fun _ hf _ => hf, rfl⟩

theorem OnlyDueGone.trans {s s' s'' : Moving} (h : OnlyDueGone w adv s s') (h' : OnlyDueGone w adv s' s'') :
    OnlyDueGone w adv s s'' :=
  ⟨fun _ hf => h.sub (h'.sub hf), fun f hf hlater => h'.later f (h.later f hf hlater) hlater,
    h'.pending.trans h.pending⟩

theorem onlyDueGone_expireBins {levelIndex : Nat} {bins : List Nat}
    (due : ∀ f ∈ s.wheel.elts, f.level = levelIndex → f.bin ∈ bins → w.eltTimeIndex f.elt ≤ adv) :
    OnlyDueGone w adv s (bins.foldl (Moving.expireBin levelIndex) s) := by
  induction bins generalizing s with
  | nil => exact .refl s
  | cons b bins ih =>
    have hone : OnlyDueGone w adv s (s.expireBin levelIndex b) := by
      refine ⟨fun f hf => ?_, fun f hf hlater => ?_, rfl⟩ <;> rw [Moving.expireBin, mem_clearBin] at *
      · exact hf.1
      refine ⟨hf, fun ⟨hl, hb⟩ => ?_⟩
      exact absurd (due f hf hl (hb ▸ List.mem_cons_self)) (Nat.not_le.2 hlater)
    rw [List.foldl_cons]
    refine hone.trans (ih fun f hf hl hbin => ?_)
    rw [Moving.expireBin, mem_clearBin] at hf
    exact due f hf.1 hl (List.mem_cons_of_mem b hbin)

theorem Moves.expireLevel (h : Moves w adv s) (right : ∀ f ∈ w.elts, w.RightBin f) {levelIndex : Nat}
    (due : ∀ f ∈ s.wheel.elts, f.level = levelIndex → w.eltTimeIndex f.elt ≤ adv) :
    Moves w adv (s.expireLevel levelIndex) ∧ OnlyDueGone w adv s (s.expireLevel levelIndex) ∧
      ∀ f ∈ (s.expireLevel levelIndex).wheel.elts, f ∈ s.wheel.elts ∧ f.level ≠ levelIndex := by
  have hgone : OnlyDueGone w adv s (s.expireLevel levelIndex) := onlyDueGone_expireBins fun f hf hl _ => due f hf hl
  refine ⟨?_, hgone, ?_⟩ <;> rw [Moving.expireLevel, h.expireBins_eq fun f hf hl _ => due f hf hl]
  · exact h.refillBins _ _
  intro f hf
  obtain ⟨hmem, hnot⟩ := mem_refillBins.1 hf
  apply And.intro hmem
  intro hl
  apply hnot ⟨hl, List.mem_range.2 _⟩
  rw [h.binsPerWheel]
  exact (right f (h.sub hmem)).bin_lt

theorem Moves.expireLevels (h : Moves w adv s) (right : ∀ f ∈ w.elts, w.RightBin f) (levels : List Nat)
    (due : ∀ f ∈ s.wheel.elts, f.level ∈ levels → w.eltTimeIndex f.elt ≤ adv) :
    Moves w adv (levels.foldl Moving.expireLevel s) ∧ OnlyDueGone w adv s (levels.foldl Moving.expireLevel s) ∧
      ∀ f ∈ (levels.foldl Moving.expireLevel s).wheel.elts, f ∈ s.wheel.elts ∧ f.level ∉ levels := by
  induction levels generalizing s with
  | nil => exact ⟨h, .refl s, fun f hf => ⟨hf, List.not_mem_nil⟩⟩
  | cons l levels ih =>
    obtain ⟨hlevel, hgone, hleft⟩ := h.expireLevel right fun f hf hl => due f hf (hl ▸ List.mem_cons_self)
    obtain ⟨hmoves, hgone', hrest⟩ := ih hlevel fun f hf hl => due f (hleft f hf).1 (List.mem_cons_of_mem l hl)
    refine ⟨hmoves, hgone.trans hgone', ?_⟩
    intro f hf
    obtain ⟨hmem, hnot⟩ := hrest f hf
    obtain ⟨hold, hne⟩ := hleft f hmem
    exact ⟨hold, fun hl => (List.mem_cons.1 hl).elim hne hnot⟩

/-- No wheel above the lowest one that holds an element goes round a whole turn, unless the step takes
all of its reach. -/
def JumpOk (w : Wheel) (adv : Nat) : Prop :=
  ∀ f ∈ w.elts, 0 < f.level →
    adv / w.binsPerWheel ^ f.level < w.currentTimeIndex / w.binsPerWheel ^ f.level + w.binsPerWheel ∨
      w.currentTimeIndex + span w.binsPerWheel (f.level + 1) ≤ adv

instance (w : Wheel) (adv : Nat) : Decidable (JumpOk w adv) :=
  inferInstanceAs (Decidable (∀ f ∈ w.elts, 0 < f.level → _ ∨ _))

theorem JumpOk.inTurn {f : Filed} {L r : Nat} (h : JumpOk w adv) (hf : f ∈ w.elts) (hlevel : 0 < f.level)
    (hle : w.currentTimeIndex ≤ adv) (hr : Reaches w.binsPerWheel (adv - w.currentTimeIndex) L r) (hL : L ≤ f.level) :
    adv / w.binsPerWheel ^ f.level < w.currentTimeIndex / w.binsPerWheel ^ f.level + w.binsPerWheel := by
  rcases h f hf hlevel with hturn | hspan
  · exact hturn
  · have hlt := hr.lt_span
    have hmono := span_mono w.binsPerWheel (Nat.succ_le_succ hL)
    rw [Nat.succ_eq_add_one, Nat.succ_eq_add_one] at hmono
    omega

/-- The step ends `r` bins ahead on level `L`. -/
structure Stepping (w : Wheel) (adv L r : Nat) : Prop where
  right : ∀ f ∈ w.elts, w.RightBin f
  jump : JumpOk w adv
  forward : w.currentTimeIndex ≤ adv
  reaches : Reaches w.binsPerWheel (adv - w.currentTimeIndex) L r

theorem Stepping.due_below {L r : Nat} (h : Stepping w adv L r) {f : Filed} (hf : f ∈ w.elts) (hl : f.level < L) :
    w.eltTimeIndex f.elt ≤ adv := by
  obtain ⟨b, hfiled⟩ := (h.right f hf).filed
  apply hfiled.passed
  have hspan := h.reaches.span_le
  have hmono := span_mono w.binsPerWheel (show f.level + 1 ≤ L from hl)
  have hle := h.forward
  omega

theorem Stepping.due_here {L r : Nat} (h : Stepping w adv L r) {f : Filed} (hf : f ∈ w.elts) (hl : f.level = L)
    (hunvisited : 0 < L → Unvisited w adv f)
    (hbin : f.bin ∈ turnBins w.binsPerWheel w.binsPerWheel (w.currentTimeIndex / w.binsPerWheel ^ L % w.binsPerWheel)
      ((w.currentTimeIndex / w.binsPerWheel ^ L + r) % w.binsPerWheel)) : w.eltTimeIndex f.elt ≤ adv := by
  subst hl
  obtain ⟨b, hfiled⟩ := (h.right f hf).filed
  have hn := w.binsPerWheel_pos
  have hb : b ≤ w.currentTimeIndex / w.binsPerWheel ^ f.level + r :=
    (hfiled.visited_iff hn (Nat.le_add_right _ _) (Nat.add_lt_add_left h.reaches.inWheel _)).1 hbin
  have hle := add_reach_le_div hn h.forward h.reaches
  rcases Nat.eq_zero_or_pos f.level with h0 | hpos
  · rw [h0, Nat.pow_zero, Nat.div_one, Nat.div_one] at hle
    rw [h0, Nat.pow_zero, Nat.div_one] at hb
    rw [hfiled.exact h0]
    exact Nat.le_trans hb hle
  · have hspan : w.currentTimeIndex + span w.binsPerWheel f.level ≤ adv := by
      have := h.reaches.span_le
      have := h.forward
      omega
    have hturn := h.jump.inTurn hf hpos h.forward h.reaches (Nat.le_refl _)
    have hbeyond := hfiled.beyond hn (div_lt_of_span hn hspan hpos) hturn (hunvisited hpos)
    omega

/-- What neither loop has met is still in the right bin, and not due. -/
theorem Stepping.kept {L r : Nat} (h : Stepping w adv L r) {f : Filed} (hf : f ∈ w.elts) (hl : L ≤ f.level)
    (hunvisited : 0 < f.level → Unvisited w adv f)
    (hbin : f.level = L → f.bin ∉ turnBins w.binsPerWheel w.binsPerWheel
      (w.currentTimeIndex / w.binsPerWheel ^ L % w.binsPerWheel)
      ((w.currentTimeIndex / w.binsPerWheel ^ L + r) % w.binsPerWheel)) :
    (∃ b, FiledAt w.binsPerWheel adv f.level f.bin (w.eltTimeIndex f.elt) b) ∧ adv < w.eltTimeIndex f.elt := by
  obtain ⟨b, hfiled⟩ := (h.right f hf).filed
  have hn := w.binsPerWheel_pos
  rcases Nat.eq_zero_or_pos f.level with h0 | hpos
  · have hL : L = 0 := Nat.le_zero.1 (h0 ▸ hl)
    subst hL
    have hlow := h.reaches.low
    have hhigh := h.reaches.high
    have hin := h.reaches.inWheel
    have hle := h.forward
    simp only [span, Nat.pow_zero] at hlow hhigh
    have hr : w.currentTimeIndex + r = adv := by omega
    have hnot := hbin h0
    rw [Nat.pow_zero, Nat.div_one, hr] at hnot
    rw [h0] at hfiled ⊢
    have hlater : adv < w.eltTimeIndex f.elt :=
      Nat.lt_of_not_le fun hdue => hnot ((hfiled.zero_visited hn hle (by omega)).2 hdue)
    exact ⟨⟨b, hfiled.zero_kept hle hlater⟩, hlater⟩
  · have hturn := h.jump.inTurn hf hpos h.forward h.reaches hl
    obtain ⟨hkept, hlater⟩ := hfiled.kept hn hpos h.forward hturn (hunvisited hpos)
    exact ⟨⟨b, hkept⟩, hlater⟩

theorem Moves.expirePassed {L r : Nat} (h : Moves w adv s) (step : Stepping w adv L r)
    (hunvisited : ∀ f ∈ s.wheel.elts, 0 < f.level → Unvisited w adv f) :
    Moves w adv (s.expirePassed L (w.rtimeToWheelIndex L r)) ∧
      OnlyDueGone w adv s (s.expirePassed L (w.rtimeToWheelIndex L r)) ∧
      ∀ f ∈ (s.expirePassed L (w.rtimeToWheelIndex L r)).wheel.elts,
        (∃ b, FiledAt w.binsPerWheel adv f.level f.bin (w.eltTimeIndex f.elt) b) ∧ adv < w.eltTimeIndex f.elt := by
  obtain ⟨hlevels, hgone, hleft⟩ := h.expireLevels step.right (List.range (min L s.wheel.nLevels))
    fun f hf hl => step.due_below (h.sub hf) (Nat.lt_of_lt_of_le (List.mem_range.1 hl) (Nat.min_le_left _ _))
  have habove : ∀ f ∈ ((List.range (min L s.wheel.nLevels)).foldl Moving.expireLevel s).wheel.elts,
      f ∈ s.wheel.elts ∧ L ≤ f.level ∧ f.level < w.nLevels := by
    intro f hf
    obtain ⟨hmem, hnot⟩ := hleft f hf
    have hlt := (step.right f (h.sub hmem)).level
    rw [List.mem_range, h.nLevels] at hnot
    exact ⟨hmem, by omega, hlt⟩
  rw [Moving.expirePassed]
  generalize (List.range (min L s.wheel.nLevels)).foldl Moving.expireLevel s = s' at hlevels hgone habove
  split
  case isTrue hL =>
    rw [hlevels.binsPerWheel, hlevels.currentTimeWheelIndex, currentTimeWheelIndex_eq, rtimeToWheelIndex_eq]
    have hdue (f : Filed) (hf : f ∈ s'.wheel.elts) (hl : f.level = L)
        (hbin : f.bin ∈ turnBins w.binsPerWheel w.binsPerWheel
          (w.currentTimeIndex / w.binsPerWheel ^ L % w.binsPerWheel)
          ((w.currentTimeIndex / w.binsPerWheel ^ L + r) % w.binsPerWheel)) : w.eltTimeIndex f.elt ≤ adv :=
      step.due_here (hlevels.sub hf) hl (fun hpos => hunvisited f (habove f hf).1 (hl ▸ hpos)) hbin
    refine ⟨?_, hgone.trans (onlyDueGone_expireBins hdue), ?_⟩ <;> rw [hlevels.expireBins_eq hdue]
    · exact hlevels.refillBins _ _
    · intro f hf
      obtain ⟨hmem, hnot⟩ := mem_refillBins.1 hf
      exact step.kept (hlevels.sub hmem) (habove f hmem).2.1 (hunvisited f (habove f hmem).1)
        fun hl hbin => hnot ⟨hl, hbin⟩
  case isFalse hL =>
    rw [hlevels.nLevels] at hL
    exact ⟨hlevels, hgone, fun f hf => absurd (habove f hf) (by omega)⟩

end Vpp.TimingWheel.Wheel.Moving
