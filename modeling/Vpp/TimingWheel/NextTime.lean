import Vpp.TimingWheel.Places

namespace Vpp.TimingWheel.Wheel
open Vpp.Lib List Option

variable {w : Wheel}

theorem mem_bin {levelIndex wheelIndex : Nat} {e : Elt} :
    e ∈ w.bin levelIndex wheelIndex ↔ ∃ f ∈ w.elts, f.level = levelIndex ∧ f.bin = wheelIndex ∧ f.elt = e := by
  simp [bin, inBin]
  grind

theorem foldl_min_le (f : α → Nat) (xs : List α) (t : Nat) :
    xs.foldl (fun t x => min t (f x)) t ≤ t ∧ ∀ x ∈ xs, xs.foldl (fun t x => min t (f x)) t ≤ f x := by
  induction xs generalizing t with
  | nil => exact ⟨Nat.le_refl _, fun _ h => absurd h not_mem_nil⟩
  | cons x xs ih =>
    obtain ⟨ht, hxs⟩ := ih (min t (f x))
    rw [foldl_cons]
    apply And.intro (Nat.le_trans ht (Nat.min_le_left _ _))
    intro y hy
    rcases mem_cons.1 hy with rfl | hy
    · exact Nat.le_trans ht (Nat.min_le_right _ _)
    · exact hxs y hy

theorem minDt_le (es : List Elt) (dt : Nat) : minDt es dt ≤ dt ∧ ∀ e ∈ es, minDt es dt ≤ e.cpuTimeRelativeToBase :=
  foldl_min_le Elt.cpuTimeRelativeToBase es dt

theorem firstOccupied_eq_some {levelIndex p : Nat} (h : w.firstOccupied levelIndex = some p) :
    w.bin levelIndex (w.rtimeToWheelIndex levelIndex p) ≠ [] ∧ p < w.binsPerWheel ∧
      ∀ q < p, w.bin levelIndex (w.rtimeToWheelIndex levelIndex q) = [] := by
  obtain ⟨hp, hlt, hbefore⟩ := find?_range_eq_some.1 h
  apply And.intro (of_decide_eq_true hp)
  apply And.intro (mem_range.1 hlt)
  intro q hq
  simpa using hbefore q hq

theorem firstOccupied_ne_none {f : Filed} (hf : f ∈ w.elts) (hright : w.RightBin f) :
    w.firstOccupied f.level ≠ none := by
  intro hnone
  obtain ⟨b, hfiled⟩ := hright.filed
  have hnot := find?_range_eq_none.1 hnone (b - w.currentTimeIndex / w.binsPerWheel ^ f.level)
    (by have := hfiled.inTurn; have := hfiled.notBefore; omega)
  have hbin : w.rtimeToWheelIndex f.level (b - w.currentTimeIndex / w.binsPerWheel ^ f.level) = f.bin := by
    rw [rtimeToWheelIndex_eq, Nat.add_sub_cancel' hfiled.notBefore, hfiled.place]
  have hmem : f.elt ∈ w.bin f.level f.bin := mem_bin.2 ⟨f, hf, rfl, rfl, rfl⟩
  rw [hbin] at hnot
  simp [ne_nil_of_mem hmem] at hnot

/-- No timer is due before all of those in a bin of level `L`, `p` bins ahead, that is in the bin after it
or, when `p` is 0, in the current bin of the next level. -/
def NoneBefore (w : Wheel) (L p : Nat) : Prop :=
  ∀ f ∈ w.elts, w.eltIsDeleted f.elt.userData = false →
    (0 < L ∧ f.level = L ∧ f.bin = w.rtimeToWheelIndex L (p + 1) ∨
      p = 0 ∧ f.level = L + 1 ∧ f.bin = w.currentTimeWheelIndex (L + 1)) →
    ∃ e ∈ w.bin L (w.rtimeToWheelIndex L p), e.cpuTimeRelativeToBase ≤ f.elt.cpuTimeRelativeToBase

def ahead (w : Wheel) (adv : Nat) (q : Placed) : Nat :=
  (q.bin + w.binsPerWheel - w.wheelIndexAt adv q.level) % w.binsPerWheel

/-- A timer in the first occupied bin of the lowest occupied level, where the scan stops. -/
def IsFirst (w : Wheel) (adv : Nat) (ps : List Placed) (q : Placed) : Prop :=
  ∀ q' ∈ ps, q.level < q'.level ∨ q.level = q'.level ∧ w.ahead adv q ≤ w.ahead adv q'

/-- The scan that stops at `q` does not look into the next bin of the level, and into the current bin of
the next level only if `q` is not in its current bin. -/
def LeftOut (w : Wheel) (adv : Nat) (q q' : Placed) : Prop :=
  0 < q.level ∧ q'.level = q.level ∧ q'.bin = (q.bin + 1) % w.binsPerWheel ∨
    w.ahead adv q = 0 ∧ q'.level = q.level + 1 ∧ q'.bin = w.wheelIndexAt adv (q.level + 1)

/-- No timer that is left out is before all of those in the bin where the scan stops. -/
def InOrder (w : Wheel) (adv : Nat) (ps : List Placed) : Prop :=
  ∀ q ∈ ps, w.IsFirst adv ps q → ∀ q' ∈ ps, w.eltIsDeleted q'.userData = false → w.LeftOut adv q q' →
    ∃ q₁ ∈ ps, w.IsFirst adv ps q₁ ∧ q₁.cpuTime ≤ q'.cpuTime

instance (w : Wheel) (adv : Nat) (ps : List Placed) (q : Placed) : Decidable (w.IsFirst adv ps q) :=
  inferInstanceAs (Decidable (∀ q' ∈ ps, _ ∨ _))

instance (w : Wheel) (adv : Nat) (q q' : Placed) : Decidable (w.LeftOut adv q q') :=
  inferInstanceAs (Decidable (_ ∨ _))

instance (w : Wheel) (adv : Nat) (ps : List Placed) : Decidable (w.InOrder adv ps) :=
  inferInstanceAs (Decidable (∀ q ∈ ps, w.IsFirst adv ps q → ∀ q' ∈ ps, _ → _ → ∃ q₁ ∈ ps, _ ∧ _))

theorem InOrder.congr {w v : Wheel} {ps ps' : List Placed} (h : w.InOrder adv ps) (config : SameConfig w v)
    (hmem : ∀ q, q ∈ ps' ↔ q ∈ ps) : v.InOrder adv ps' := by
  have hbins : v.binsPerWheel = w.binsPerWheel := by rw [binsPerWheel, binsPerWheel, config.bins]
  simp only [InOrder, IsFirst, LeftOut, ahead, hmem, hbins, wheelIndexAt_congr config, config.eltIsDeleted] at h ⊢
  exact h

theorem turn_ahead {n c b : Nat} (hle : c ≤ b) (hlt : b < c + n) : (b % n + n - c % n) % n = b - c := by
  obtain ⟨d, rfl⟩ := Nat.exists_eq_add_of_le hle
  have hd : d < n := by omega
  have hc : c % n < n := Nat.mod_lt _ (by omega)
  have hmod : (c + d) % n = (c % n + d) % n := (Nat.mod_add_mod c n d).symm
  rw [hmod, Nat.add_sub_cancel_left]
  by_cases hover : c % n + d < n
  · have hsum : c % n + d + n - c % n = d + n := by omega
    rw [Nat.mod_eq_of_lt hover, hsum, Nat.add_mod_right, Nat.mod_eq_of_lt hd]
  · have hsum : c % n + d - n + n - c % n = d := by omega
    rw [Nat.mod_eq_sub_mod (Nat.le_of_not_lt hover), Nat.mod_eq_of_lt (show c % n + d - n < n by omega), hsum,
      Nat.mod_eq_of_lt hd]

theorem ahead_of_filed {f : Filed} {b : Nat}
    (h : FiledAt w.binsPerWheel w.currentTimeIndex f.level f.bin ti b) :
    w.ahead w.currentTimeIndex (w.place f) = b - w.currentTimeIndex / w.binsPerWheel ^ f.level := by
  have hindex : w.wheelIndexAt w.currentTimeIndex f.level
      = w.currentTimeIndex / w.binsPerWheel ^ f.level % w.binsPerWheel := currentTimeWheelIndex_eq w f.level
  rw [ahead, place, hindex, h.place]
  exact turn_ahead h.notBefore h.inTurn

theorem relative_le_of_index_lt {e e' : Elt} (h : w.eltTimeIndex e < w.eltTimeIndex e') :
    e.cpuTimeRelativeToBase ≤ e'.cpuTimeRelativeToBase := by
  by_contra hlt
  have hle : w.eltCpuTime e' ≤ w.eltCpuTime e := Nat.add_le_add_left (Nat.le_of_not_le hlt) _
  have hshift : w.eltTimeIndex e' ≤ w.eltTimeIndex e := by
    rw [eltTimeIndex, eltTimeIndex, shift_eq_div, shift_eq_div]
    exact Nat.div_le_div_right hle
  omega

theorem filedAt_of_bin (right : ∀ f ∈ w.elts, w.RightBin f) {L p : Nat} (hp : p < w.binsPerWheel) {f : Filed}
    (hf : f ∈ w.elts) (hlevel : f.level = L) (hbin : f.bin = w.rtimeToWheelIndex L p) :
    FiledAt w.binsPerWheel w.currentTimeIndex L f.bin (w.eltTimeIndex f.elt)
      (w.currentTimeIndex / w.binsPerWheel ^ L + p) := by
  subst hlevel
  obtain ⟨b, hfiled⟩ := (right f hf).filed
  have hb : b = w.currentTimeIndex / w.binsPerWheel ^ f.level + p := by
    apply mod_inj_of_turn hfiled.notBefore hfiled.inTurn (Nat.le_add_right _ _) (Nat.add_lt_add_left hp _)
    rw [← hfiled.place, hbin, rtimeToWheelIndex_eq]
  rw [← hb]
  exact hfiled

theorem levelMin_le_bin {L p dt : Nat} (hfirst : w.firstOccupied L = some p) (hdt : w.levelMin L = some dt) :
    (∀ e ∈ w.bin L (w.rtimeToWheelIndex L p), dt ≤ e.cpuTimeRelativeToBase) ∧
      (p ≠ 0 → L + 1 < w.nLevels →
        ∀ e ∈ w.bin (L + 1) (w.currentTimeWheelIndex (L + 1)), dt ≤ e.cpuTimeRelativeToBase) := by
  have hmin := minDt_le (w.bin L (w.rtimeToWheelIndex L p)) (2 ^ 32 - 1)
  have hnext := minDt_le (w.bin (L + 1) (w.currentTimeWheelIndex (L + 1)))
    (minDt (w.bin L (w.rtimeToWheelIndex L p)) (2 ^ 32 - 1))
  rw [levelMin, hfirst, map_some] at hdt
  by_cases hwrapped : p ≠ 0 ∧ L + 1 < w.nLevels
  · rw [if_pos hwrapped] at hdt
    cases hdt
    exact ⟨fun e he => Nat.le_trans hnext.1 (hmin.2 e he), fun _ _ => hnext.2⟩
  · rw [if_neg hwrapped] at hdt
    cases hdt
    exact ⟨hmin.2, fun hp hlevels => absurd ⟨hp, hlevels⟩ hwrapped⟩

theorem first_le_bin {L p b : Nat} (hfirst : w.firstOccupied L = some p) {f : Filed} (hf : f ∈ w.elts)
    (hlevel : f.level = L) (hfiled : FiledAt w.binsPerWheel w.currentTimeIndex L f.bin (w.eltTimeIndex f.elt) b) :
    w.currentTimeIndex / w.binsPerWheel ^ L + p ≤ b := by
  by_contra hlt
  have hle := hfiled.notBefore
  have hempty := (firstOccupied_eq_some hfirst).2.2 (b - w.currentTimeIndex / w.binsPerWheel ^ L) (by omega)
  rw [rtimeToWheelIndex_eq, Nat.add_sub_cancel' hle, ← hfiled.place] at hempty
  exact ne_nil_of_mem (mem_bin.2 ⟨f, hf, hlevel, rfl, rfl⟩) hempty

theorem isFirst_iff (right : ∀ f ∈ w.elts, w.RightBin f) {L p : Nat}
    (hfirst : w.firstOccupied L = some p) (hlow : ∀ l < L, w.firstOccupied l = none) {f : Filed} (hf : f ∈ w.elts) :
    w.IsFirst w.currentTimeIndex w.placed (w.place f) ↔ f.level = L ∧ f.bin = w.rtimeToWheelIndex L p := by
  obtain ⟨hoccupied, hp, _⟩ := firstOccupied_eq_some hfirst
  have hlevel (g : Filed) (hg : g ∈ w.elts) : L ≤ g.level := by
    by_contra hlt
    exact firstOccupied_ne_none hg (right g hg) (hlow g.level (Nat.lt_of_not_le hlt))
  have hahead (g : Filed) (hg : g ∈ w.elts) (hgl : g.level = L) : p ≤ w.ahead w.currentTimeIndex (w.place g) := by
    obtain ⟨b, hfiled⟩ := (right g hg).filed
    rw [ahead_of_filed hfiled, hgl]
    have := first_le_bin hfirst hg hgl (hgl ▸ hfiled)
    omega
  have hat (g : Filed) (hg : g ∈ w.elts) (hgl : g.level = L) (hgb : g.bin = w.rtimeToWheelIndex L p) :
      w.ahead w.currentTimeIndex (w.place g) = p := by
    have hfiled := filedAt_of_bin right hp hg hgl hgb
    rw [← hgl] at hfiled
    rw [ahead_of_filed hfiled, Nat.add_sub_cancel_left]
  constructor
  · intro hisFirst
    obtain ⟨e, he⟩ := exists_mem_of_ne_nil _ hoccupied
    obtain ⟨g, hg, hgl, hgb, rfl⟩ := mem_bin.1 he
    obtain ⟨b, hfiled⟩ := (right f hf).filed
    rcases hisFirst (w.place g) (List.mem_map_of_mem hg) with hlt | ⟨heq, hle⟩
    · have hbelow : f.level < g.level := hlt
      have := hlevel f hf
      omega
    · have hfl : f.level = L := Eq.trans heq hgl
      rw [hat g hg hgl hgb] at hle
      have hp' : b - w.currentTimeIndex / w.binsPerWheel ^ f.level = p := by
        rw [← ahead_of_filed hfiled]
        exact Nat.le_antisymm hle (hahead f hf hfl)
      have hb : b = w.currentTimeIndex / w.binsPerWheel ^ L + p := by
        have := hfiled.notBefore
        rw [hfl] at this hp'
        omega
      exact ⟨hfl, by rw [hfiled.place, hb, rtimeToWheelIndex_eq]⟩
  · rintro ⟨hfl, hfb⟩ q' hq'
    obtain ⟨g, hg, rfl⟩ := List.mem_map.1 hq'
    rcases Nat.eq_or_lt_of_le (hlevel g hg) with heq | hlt
    · refine .inr ⟨Eq.trans hfl heq, ?_⟩
      rw [hat f hf hfl hfb]
      exact hahead g hg heq.symm
    · exact .inl (Nat.lt_of_le_of_lt (Nat.le_of_eq hfl) hlt)

theorem InOrder.noneBefore (h : w.InOrder w.currentTimeIndex w.placed) (right : ∀ f ∈ w.elts, w.RightBin f)
    {L p : Nat} (hfirst : w.firstOccupied L = some p) (hlow : ∀ l < L, w.firstOccupied l = none) :
    w.NoneBefore L p := by
  obtain ⟨hoccupied, hp, _⟩ := firstOccupied_eq_some hfirst
  obtain ⟨e, he⟩ := exists_mem_of_ne_nil _ hoccupied
  obtain ⟨g, hg, hgl, hgb, rfl⟩ := mem_bin.1 he
  intro f hf hlive hwhere
  have hleft : w.LeftOut w.currentTimeIndex (w.place g) (w.place f) := by
    rcases hwhere with ⟨hpos, hfl, hfb⟩ | ⟨rfl, hfl, hfb⟩
    · refine .inl ⟨Nat.lt_of_lt_of_eq hpos hgl.symm, Eq.trans hfl hgl.symm, Eq.trans hfb ?_⟩
      rw [rtimeToWheelIndex_eq, place, hgb, rtimeToWheelIndex_eq, Nat.mod_add_mod, Nat.add_assoc]
    · have hfiled := filedAt_of_bin right hp hg hgl hgb
      rw [← hgl] at hfiled
      refine .inr ⟨?_, Eq.trans hfl (congrArg (· + 1) hgl.symm), Eq.trans hfb (congrArg _ (congrArg (· + 1) hgl.symm))⟩
      rw [ahead_of_filed hfiled, Nat.add_zero, Nat.sub_self]
  obtain ⟨q₁, hq₁, hisFirst, hle⟩ := h (w.place g) (List.mem_map_of_mem hg)
    ((isFirst_iff right hfirst hlow hg).2 ⟨hgl, hgb⟩) (w.place f) (List.mem_map_of_mem hf) hlive hleft
  obtain ⟨g₁, hg₁, rfl⟩ := List.mem_map.1 hq₁
  obtain ⟨hgl₁, hgb₁⟩ := (isFirst_iff right hfirst hlow hg₁).1 hisFirst
  exact ⟨g₁.elt, mem_bin.2 ⟨g₁, hg₁, hgl₁, hgb₁, rfl⟩, Nat.le_of_add_le_add_left hle⟩

/-- What the scan of the lowest occupied level finds is no later than any timer in the bins. -/
theorem levelMin_le (right : ∀ f ∈ w.elts, w.RightBin f) {L p dt : Nat}
    (hfirst : w.firstOccupied L = some p) (hlow : ∀ l < L, w.firstOccupied l = none) (hok : w.NoneBefore L p)
    (hdt : w.levelMin L = some dt) {f : Filed} (hf : f ∈ w.elts) (hlive : w.eltIsDeleted f.elt.userData = false) :
    dt ≤ f.elt.cpuTimeRelativeToBase := by
  have hn := w.binsPerWheel_pos
  obtain ⟨hoccupied, hp, _⟩ := firstOccupied_eq_some hfirst
  obtain ⟨hmin, hwrapped⟩ := levelMin_le_bin hfirst hdt
  obtain ⟨e, he⟩ := exists_mem_of_ne_nil _ hoccupied
  obtain ⟨g, hg, hglevel, hgbin, rfl⟩ := mem_bin.1 he
  have hgfiled := filedAt_of_bin right hp hg hglevel hgbin
  have hafter : w.eltTimeIndex g.elt < w.eltTimeIndex f.elt → dt ≤ f.elt.cpuTimeRelativeToBase := fun hlt =>
    Nat.le_trans (hmin g.elt he) (relative_le_of_index_lt hlt)
  obtain ⟨b, hfiled⟩ := (right f hf).filed
  have hL : L ≤ f.level := by
    by_contra hlt
    exact firstOccupied_ne_none hf (right f hf) (hlow f.level (Nat.lt_of_not_le hlt))
  rcases Nat.eq_or_lt_of_le hL with heq | hlt
  · rw [← heq] at hfiled
    have hle := first_le_bin hfirst hf heq.symm hfiled
    rcases Nat.lt_trichotomy b (w.currentTimeIndex / w.binsPerWheel ^ L + p + 1) with hb | hb | hb
    · have hsame : b = w.currentTimeIndex / w.binsPerWheel ^ L + p := by omega
      apply hmin
      apply mem_bin.2
      exact ⟨f, hf, heq.symm, by rw [hfiled.place, hsame, rtimeToWheelIndex_eq], rfl⟩
    · rcases Nat.eq_zero_or_pos L with h0 | hpos
      · apply hafter
        rw [hgfiled.exact h0, hfiled.exact h0]
        omega
      · have hbin : f.bin = w.rtimeToWheelIndex L (p + 1) := by
          rw [hfiled.place, hb, rtimeToWheelIndex_eq, Nat.add_assoc]
        obtain ⟨e, he, hbefore⟩ := hok f hf hlive (.inl ⟨hpos, heq.symm, hbin⟩)
        exact Nat.le_trans (hmin e he) hbefore
    · exact hafter (hgfiled.lt_of_bin hfiled (by omega))
  · by_cases hcurrent : f.level = L + 1 ∧ b = w.currentTimeIndex / w.binsPerWheel ^ f.level
    · obtain ⟨hlevel, hb⟩ := hcurrent
      have hbin : f.bin = w.currentTimeWheelIndex (L + 1) := by
        rw [hfiled.place, hb, currentTimeWheelIndex_eq, hlevel]
      by_cases h0 : p = 0
      · obtain ⟨e, he, hbefore⟩ := hok f hf hlive (.inr ⟨h0, hlevel, hbin⟩)
        exact Nat.le_trans (hmin e he) hbefore
      · have hlevels := (right f hf).level
        rw [hlevel] at hlevels
        exact hwrapped h0 hlevels f.elt (mem_bin.2 ⟨f, hf, hlevel, hbin, rfl⟩)
    · apply hafter
      apply hgfiled.lt_of_level hfiled hn hlt
      have := hfiled.notBefore
      omega

theorem levelMin_eq_none {L : Nat} : w.levelMin L = none ↔ w.firstOccupied L = none := by
  rw [levelMin, map_eq_none_iff]

theorem levelMin_lt {L dt : Nat} (h : w.levelMin L = some dt) : dt < 2 ^ 32 := by
  have hpos : 2 ^ 32 - 1 < 2 ^ 32 := by decide
  obtain ⟨p, hfirst, hdt⟩ := map_eq_some_iff.1 h
  have hmin := (minDt_le (w.bin L (w.rtimeToWheelIndex L p)) (2 ^ 32 - 1)).1
  have hnext := (minDt_le (w.bin (L + 1) (w.currentTimeWheelIndex (L + 1)))
    (minDt (w.bin L (w.rtimeToWheelIndex L p)) (2 ^ 32 - 1))).1
  rw [← hdt]
  dsimp only
  split
  case isTrue => exact Nat.lt_of_le_of_lt (Nat.le_trans hnext hmin) hpos
  case isFalse => exact Nat.lt_of_le_of_lt hmin hpos

theorem findSome_range {f : Nat → Option β} {n : Nat} {b : β} (h : (List.range n).findSome? f = some b) :
    ∃ L < n, f L = some b ∧ ∀ l < L, f l = none := by
  induction n with
  | zero => cases h
  | succ n ih =>
    rw [range_succ, findSome?_append] at h
    cases hn : (List.range n).findSome? f with
    | some b' =>
      rw [hn] at h
      cases h
      obtain ⟨L, hL, hfound, hbefore⟩ := ih hn
      exact ⟨L, Nat.lt_succ_of_lt hL, hfound, hbefore⟩
    | none =>
      rw [hn] at h
      have hlast : f n = some b := by simpa using h
      exact ⟨n, Nat.lt_succ_self n, hlast, fun l hl => findSome?_eq_none_iff.1 hn l (mem_range.2 hl)⟩

theorem scanned_le (sound : w.Sound) (hok : w.InOrder w.currentTimeIndex w.placed) {dt : Nat}
    (hscan : (List.range w.nLevels).findSome? w.levelMin = some dt) : ∀ x ∈ w.pending, w.cpuTimeBase + dt ≤ x.1 := by
  obtain ⟨L, hL, hdt, hbefore⟩ := findSome_range hscan
  obtain ⟨p, hfirst, _⟩ := map_eq_some_iff.1 hdt
  have hlow : ∀ l < L, w.firstOccupied l = none := fun l hl => levelMin_eq_none.1 (hbefore l hl)
  have hnone := hok.noneBefore sound.right hfirst hlow
  intro x hx
  obtain ⟨hstored, hlive⟩ := mem_filter.1 hx
  rcases mem_append.1 hstored with hmem | hmem
  · obtain ⟨f, hf, rfl⟩ := List.mem_map.1 hmem
    have hle := levelMin_le sound.right hfirst hlow hnone hdt hf (by simpa using hlive)
    exact Nat.add_le_add_left hle _
  · obtain ⟨oe, hoe, rfl⟩ := List.mem_map.1 hmem
    have hfar := sound.overflow oe hoe
    have hlt := levelMin_lt hdt
    dsimp only
    omega

theorem onWheel_eq_nil (sound : w.Sound) (hscan : (List.range w.nLevels).findSome? w.levelMin = none) :
    w.onWheel = [] := by
  rw [onWheel, map_eq_nil_iff]
  apply eq_nil_iff_forall_not_mem.2
  intro f hf
  have hright := sound.right f hf
  have hnone := findSome?_eq_none_iff.1 hscan f.level (mem_range.2 hright.level)
  exact firstOccupied_ne_none hf hright (levelMin_eq_none.1 hnone)

theorem timingWheelNextExpiringEltTime_le (sound : w.Sound)
    (hok : w.InOrder w.currentTimeIndex w.placed) :
    ∀ x ∈ w.pending, w.timingWheelNextExpiringEltTime ≤ x.1 := by
  rw [timingWheelNextExpiringEltTime]
  cases hscan : (List.range w.nLevels).findSome? w.levelMin with
  | some dt => exact scanned_le sound hok hscan
  | none =>
    intro x hx
    have hstored := (mem_filter.1 hx).1
    rw [timers, onWheel_eq_nil sound hscan, nil_append] at hstored
    obtain ⟨oe, hoe, rfl⟩ := List.mem_map.1 hstored
    exact (foldl_min_le OverflowElt.cpuTime w.overflowPool (2 ^ 64 - 1)).2 oe hoe

/-- Timers are not set for the past, which the base may be ahead of, and time does not go back. -/
def NotPast (w : Wheel) : Op → Prop
  | .insert t _ => w.currentTimeIndex ≤ t >>> w.log2ClocksPerBin
  | .delete _ => True
  | .advance t _ => w.currentTimeIndex ≤ t >>> w.log2ClocksPerBin

/-- A timer that goes to the overflow pool is not before the minimum that is known, and an advance that has to
look for the next time finds the timers in order. -/
def MinKept (w : Wheel) : Op → Prop
  | .insert t _ =>
    w.fits t ∨ w.cpuTimeBase ≤ t ∧ (w.cachedMinCpuTimeOnWheel = 0 ∨ w.cachedMinCpuTimeOnWheel ≤ t)
  | .delete _ => True
  | .advance _ false => True
  | .advance t true =>
    (w.cachedMinCpuTimeOnWheel ≠ 0 ∧ ∀ x ∈ w.pending, Timers.isDue w.log2ClocksPerBin t x = false) ∨
      w.InOrder (t >>> w.log2ClocksPerBin) (w.placedAfter (t >>> w.log2ClocksPerBin))

instance (w : Wheel) : (op : Op) → Decidable (w.NotPast op)
  | .insert _ _ => inferInstanceAs (Decidable (_ ≤ _))
  | .delete _ => instDecidableTrue
  | .advance _ _ => inferInstanceAs (Decidable (_ ≤ _))

instance (w : Wheel) : (op : Op) → Decidable (w.MinKept op)
  | .insert _ _ => inferInstanceAs (Decidable (_ ∨ _))
  | .delete _ => instDecidableTrue
  | .advance _ false => instDecidableTrue
  | .advance _ true => inferInstanceAs (Decidable (_ ∨ _))

/-- The wheel holds the timers that are set, and the minimum that is known, if any, is no later than any of them. -/
structure Wakes (w : Wheel) (ts : List (Nat × Nat)) : Prop where
  refines : Refines w ts
  cached : w.cachedMinCpuTimeOnWheel = 0 ∨ ∀ x ∈ ts, w.cachedMinCpuTimeOnWheel ≤ x.1

theorem timingWheelInsertHelper_cached (w : Wheel) (t u : Nat) :
    (w.fits t → (w.timingWheelInsertHelper t u).cachedMinCpuTimeOnWheel = min t w.cachedMinCpuTimeOnWheel) ∧
      (¬ w.fits t → (w.timingWheelInsertHelper t u).cachedMinCpuTimeOnWheel = w.cachedMinCpuTimeOnWheel) := by
  rw [timingWheelInsertHelper]
  dsimp only
  constructor
  · intro h
    rw [if_pos h, min_def_lt]
    rfl
  · intro h
    rw [if_neg h]

theorem removeDeleted_cached (w : Wheel) (u : Nat) :
    (w.removeDeleted u).cachedMinCpuTimeOnWheel = w.cachedMinCpuTimeOnWheel := by
  rw [removeDeleted]
  split <;> rfl

theorem timingWheelInsert_cached {t : Nat} (u : Nat)
    (hmin : w.fits t ∨ w.cpuTimeBase ≤ t ∧ (w.cachedMinCpuTimeOnWheel = 0 ∨ w.cachedMinCpuTimeOnWheel ≤ t)) :
    (w.timingWheelInsert t u).cachedMinCpuTimeOnWheel = 0 ∨
      (w.timingWheelInsert t u).cachedMinCpuTimeOnWheel ≤ t ∧
        (w.timingWheelInsert t u).cachedMinCpuTimeOnWheel ≤ w.cachedMinCpuTimeOnWheel := by
  have hsame : (w.removeDeleted u).fits t ↔ w.fits t := by
    rw [fits, fits, removeDeleted_base]
  obtain ⟨hon, hover⟩ := timingWheelInsertHelper_cached (w.removeDeleted u) t u
  rw [hsame, removeDeleted_cached] at hon hover
  by_cases hfits : w.fits t
  · exact .inr ⟨(hon hfits).trans_le (Nat.min_le_left _ _), (hon hfits).trans_le (Nat.min_le_right _ _)⟩
  · rcases hmin with hfits' | ⟨_, h0 | hle⟩
    · exact absurd hfits' hfits
    · exact .inl ((hover hfits).trans h0)
    · exact .inr ⟨(hover hfits).trans_le hle, (hover hfits).le⟩

theorem Wakes.insert (h : Wakes w ts) {t u : Nat} (hpast : w.currentTimeIndex ≤ t >>> w.log2ClocksPerBin)
    (hmin : w.fits t ∨ w.cpuTimeBase ≤ t ∧ (w.cachedMinCpuTimeOnWheel = 0 ∨ w.cachedMinCpuTimeOnWheel ≤ t)) :
    Wakes (w.timingWheelInsert t u) (ts ++ [(t, u)]) := by
  have hbase : w.cpuTimeBase ≤ t := hmin.elim (fun hfits => hfits.1) (fun hfar => hfar.1)
  constructor
  · exact ⟨timingWheelInsert_sound h.refines.sound u hpast hbase,
      (timingWheelInsert_pending w t u).trans (h.refines.pending.append_right _)⟩
  · rcases timingWheelInsert_cached u hmin with h0 | ⟨hnew, hle⟩
    · exact .inl h0
    · rcases h.cached with h0 | hall
      · exact .inl (Nat.le_zero.1 (h0 ▸ hle))
      · apply Or.inr
        intro x hx
        rcases mem_append.1 hx with hx | hx
        · exact Nat.le_trans hle (hall x hx)
        · rw [mem_singleton.1 hx]
          exact hnew

theorem Wakes.delete (h : Wakes w ts) (u : Nat) :
    Wakes (w.timingWheelDelete u) (ts.filter fun x => x.2 ≠ u) := by
  have hpending := h.refines.pending.filter fun x => x.2 ≠ u
  rw [← timingWheelDelete_pending] at hpending
  exact ⟨⟨h.refines.sound.deleted _, hpending⟩, h.cached.imp_right fun hall x hx => hall x (mem_of_mem_filter hx)⟩

theorem Wakes.move (h : Wakes w ts) {t : Nat} (wantsNext : Bool)
    (hpast : w.currentTimeIndex ≤ t >>> w.log2ClocksPerBin) (hturn : Moving.JumpOk w (t >>> w.log2ClocksPerBin)) :
    Wakes (w.move t).1 (Timers.step w.log2ClocksPerBin ts (.advance t wantsNext)).1 := by
  obtain ⟨hadvanced, _⟩ := move_spec h.refines.sound hpast hturn
  apply Wakes.mk (h.refines.move t wantsNext hpast hturn).1
  rcases h.cached with h0 | hall
  · exact .inl (Nat.le_zero.1 (h0 ▸ hadvanced.cached))
  · exact .inr fun x hx => Nat.le_trans hadvanced.cached (hall x (mem_of_mem_filter hx))

/-- Nothing expires and the minimum is still known, or the bins are in order when they are scanned. -/
theorem moved_ok (h : Wakes w ts) {t : Nat} (hpast : w.currentTimeIndex ≤ t >>> w.log2ClocksPerBin)
    (hturn : Moving.JumpOk w (t >>> w.log2ClocksPerBin)) (hmin : w.MinKept (.advance t true)) :
    ((w.move t).2 = [] ∧ (w.move t).1.cachedMinCpuTimeOnWheel ≠ 0) ∨
      (w.move t).1.InOrder (w.move t).1.currentTimeIndex (w.move t).1.placed := by
  obtain ⟨hadvanced, hlater⟩ := move_spec h.refines.sound hpast hturn
  rcases hmin with ⟨hknown, hnone⟩ | hok
  · have hdue := (hadvanced.pending_perm hlater).2
    have hempty : w.pending.filter (fun x => x.1 >>> w.log2ClocksPerBin ≤ t >>> w.log2ClocksPerBin) = [] :=
      filter_eq_nil_iff.2 fun x hx => Bool.eq_false_iff.1 (hnone x hx)
    rw [hempty] at hdue
    exact .inl ⟨hdue.eq_nil, hadvanced.known hknown⟩
  · rw [hadvanced.clock]
    exact .inr (hok.congr hadvanced.config fun _ => move_placed h.refines.sound hpast hturn)

theorem Wakes.nextExpiry_le {v : Wheel} (h : Wakes v ts) {expired : List Nat}
    (hmin : (expired = [] ∧ v.cachedMinCpuTimeOnWheel ≠ 0) ∨ v.InOrder v.currentTimeIndex v.placed) :
    ∀ x ∈ ts, v.nextExpiry expired ≤ x.1 := by
  rw [nextExpiry]
  split
  case isTrue hknown => exact h.cached.resolve_left hknown.2
  case isFalse hunknown =>
    intro x hx
    exact timingWheelNextExpiringEltTime_le h.refines.sound (hmin.resolve_left hunknown) x
      (h.refines.pending.mem_iff.2 hx)

theorem timingWheelAdvance_next (w : Wheel) (t : Nat) :
    (w.timingWheelAdvance t).2.2 = (w.move t).1.nextExpiry (w.move t).2 := by
  rw [timingWheelAdvance]

theorem Wakes.advance (h : Wakes w ts) {t : Nat} (hpast : w.currentTimeIndex ≤ t >>> w.log2ClocksPerBin)
    (hturn : Moving.JumpOk w (t >>> w.log2ClocksPerBin)) (hmin : w.MinKept (.advance t true)) :
    Wakes (w.timingWheelAdvance t).1 (Timers.step w.log2ClocksPerBin ts (.advance t true)).1 ∧
      ∀ x ∈ (Timers.step w.log2ClocksPerBin ts (.advance t true)).1, (w.timingWheelAdvance t).2.2 ≤ x.1 := by
  have hmoved := h.move true hpast hturn
  have hnext := hmoved.nextExpiry_le (moved_ok h hpast hturn hmin)
  rw [timingWheelAdvance_wheel, timingWheelAdvance_next]
  exact ⟨⟨hmoved.refines.cached _, .inr hnext⟩, hnext⟩

def after (w : Wheel) (ops : List Op) : Wheel := ops.foldl (fun w op => (w.step op).1) w

theorem meets_append {cond : Wheel → Op → Prop} {w : Wheel} {ops : List Op} {op : Op}
    (h : w.Meets cond (ops ++ [op])) : w.Meets cond ops ∧ cond (w.after ops) op := by
  induction ops generalizing w with
  | nil => exact ⟨trivial, h.1⟩
  | cons first ops ih =>
    obtain ⟨hrest, hlast⟩ := ih h.2
    exact ⟨⟨h.1, hrest⟩, hlast⟩

theorem Wakes.step (h : Wakes w ts) {op : Op} (hpast : w.NotPast op) (hturn : w.NoTurn op)
    (hmin : w.MinKept op) : Wakes (w.step op).1 (Timers.step w.log2ClocksPerBin ts op).1 ∧
      (w.step op).1.log2ClocksPerBin = w.log2ClocksPerBin := by
  cases op with
  | insert t u => exact ⟨h.insert hpast hmin, (timingWheelInsert_config w t u).1⟩
  | delete u => exact ⟨h.delete u, rfl⟩
  | advance t wantsNext =>
    have hclocks := (h.refines.move t wantsNext hpast hturn).2.2
    cases wantsNext with
    | false => exact ⟨h.move false hpast hturn, hclocks⟩
    | true =>
      refine ⟨(h.advance hpast hturn hmin).1, ?_⟩
      rw [Wheel.step, timingWheelAdvance_wheel]
      exact hclocks

theorem Wakes.after (h : Wakes w ts) {ops : List Op} (hpast : w.Meets NotPast ops)
    (hturn : w.Meets NoTurn ops) (hmin : w.Meets MinKept ops) :
    Wakes (w.after ops) (Timers.after w.log2ClocksPerBin ts ops) ∧
      (w.after ops).log2ClocksPerBin = w.log2ClocksPerBin := by
  induction ops generalizing w ts with
  | nil => exact ⟨h, rfl⟩
  | cons op ops ih =>
    obtain ⟨hstep, hclocks⟩ := h.step hpast.1 hturn.1 hmin.1
    obtain ⟨hrest, hsame⟩ := ih hstep hpast.2 hturn.2 hmin.2
    rw [hclocks] at hrest hsame
    exact ⟨hrest, hsame⟩

/-- **Waking up in time**: where no advance goes a whole turn round a wheel in use, no timer in the overflow
pool is before the minimum that is known, and no scan leaves out the first timer, the time that an advance
returns is no later than any timer that is still set. -/
theorem timingWheel_wakes {N M B : Nat} (hM : 0 < M) (hN : N ≤ B) (hB : B ≤ 31) (now : Nat) (ops : List Op) (t : Nat)
    (hpast : (timingWheelInit N M B now).Meets NotPast (ops ++ [.advance t true]))
    (hturn : (timingWheelInit N M B now).Meets NoTurn (ops ++ [.advance t true]))
    (hmin : (timingWheelInit N M B now).Meets MinKept (ops ++ [.advance t true])) :
    ∀ x ∈ Timers.after N [] (ops ++ [.advance t true]),
      (((timingWheelInit N M B now).after ops).timingWheelAdvance t).2.2 ≤ x.1 := by
  obtain ⟨hpast, hpastLast⟩ := meets_append hpast
  obtain ⟨hturn, hturnLast⟩ := meets_append hturn
  obtain ⟨hmin, hminLast⟩ := meets_append hmin
  have hinit : Wakes (timingWheelInit N M B now) [] := ⟨⟨timingWheelInit_sound hM hN hB now, .refl _⟩, .inl rfl⟩
  obtain ⟨hwakes, hclocks⟩ := hinit.after hpast hturn hmin
  have hlast := (hwakes.advance hpastLast hturnLast hminLast).2
  rw [hclocks] at hlast
  rw [Timers.after, foldl_append]
  exact hlast

theorem timingWheel_wakes_one :
    (((timingWheelInit 0 2 31 0).after [.insert 5 7, .insert 9 8, .advance 3 true]).timingWheelAdvance 6).2.2 ≤ 9 :=
  timingWheel_wakes (by decide) (by decide) (by decide) 0 [.insert 5 7, .insert 9 8, .advance 3 true] 6
    (by decide) (by decide) (by decide) (9, 8) (by decide)

/-- An advance of an empty wheel remembers that nothing is due, a timer 2^33 clocks ahead goes to the overflow
pool without lowering that, and the next advance returns the end of time. -/
theorem timingWheel_oversleeps :
    (timingWheelInit 0 2 31 0).Meets NotPast [.advance 0 true, .insert (2 ^ 33) 7, .advance 1 true] ∧
      (2 ^ 33, 7) ∈ Timers.after 0 [] [.advance 0 true, .insert (2 ^ 33) 7, .advance 1 true] ∧
      (((timingWheelInit 0 2 31 0).after [.advance 0 true, .insert (2 ^ 33) 7]).timingWheelAdvance 1).2.2 =
          2 ^ 64 - 1 := by
  decide

end Vpp.TimingWheel.Wheel
