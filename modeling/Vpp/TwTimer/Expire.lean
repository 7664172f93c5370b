import Vpp.TwTimer.Layout

namespace Vpp.TwTimer
open Vpp.Lib Vpp.Lib.Links Function

section

variable {pool : Pool TwTimer} {w : TwRing → Nat → Nat} {A : Nat → Option Pending} {R : Nat}
  {slots : Slot → List Nat} {tw : Wheel}

theorem Layout.get (hl : Layout pool w A R slots []) (t : TwTimer) (p : Pending)
    (hu : t.userHandle = p.userHandle) :
    A pool.get.2 = none ∧ Layout (pool.get.1.set pool.get.2 t) w
      (update A pool.get.2 (some p)) R slots [pool.get.2] := by
  have hnew := pool.not_live_get
  have hlive : pool.get.1.Live pool.get.2 := Pool.live_get.mpr (.inr rfl)
  have hnone : A pool.get.2 = none := by
    cases hA : A pool.get.2 with
    | none => rfl
    | some q => exact absurd (hl.live _ q hA) hnew
  have helt (x : Nat) (hx : x ≠ pool.get.2) :
      (pool.get.1.set pool.get.2 t).eltAt x = pool.eltAt x := by
    rw [Pool.eltAt_set_ne hx, Pool.eltAt_get]
  have hkeep (x : Nat) (hx : pool.Live x) : (pool.get.1.set pool.get.2 t).Live x :=
    Pool.live_set.mpr (Pool.live_get.mpr (.inl hx))
  have hne (x : Nat) (hx : pool.Live x) : x ≠ pool.get.2 := fun he => hnew (he ▸ hx)
  refine ⟨hnone, ?_⟩
  constructor
  case rings =>
    apply hl.rings.congr
    intro i x hx
    simp only [links, helt x (hne x (hl.live_node hx)), and_self]
  case live_head => exact fun i => hkeep _ (hl.live_head i)
  case loose_nodup => simp
  case loose_out =>
    intro h hm i hx
    rw [List.mem_singleton.mp hm] at hx
    exact hnew (hl.live_node hx)
  case active =>
    intro x
    by_cases hx : x = pool.get.2
    · subst hx
      simp
    · simp [hx, hl.active]
  case live =>
    intro x q hA
    by_cases hx : x = pool.get.2
    · subst hx
      exact Pool.live_set.mpr hlive
    · rw [update_of_ne hx] at hA
      exact hkeep x (hl.live x q hA)
  case user =>
    intro x q hA
    by_cases hx : x = pool.get.2
    · subst hx
      rw [update_self] at hA
      obtain rfl := Option.some.inj hA
      rw [Pool.eltAt_set_self hlive, hu]
    · rw [update_of_ne hx] at hA
      rw [helt x hx]
      exact hl.user x q hA
  case placed =>
    intro i x q hm hA
    have hx := hne x (hl.live_node (.tail _ hm))
    rw [update_of_ne hx] at hA
    rw [helt x hx]
    exact hl.placed i x q hm hA

theorem start_placed {I f R fo carry so : Nat} (hI : I < 2 ^ 18) (hf : f ≤ 512)
    (hfo : fo = ((I &&& twRingMask) + f) % 2 ^ 16)
    (hcarry : carry = if twSlotsPerRing ≤ fo then 1 else 0)
    (hso : so = ((I >>> twRingShift) + carry) % 2 ^ 16) :
    twSlotsPerRing * R + f + I = twSlotsPerRing * (R + so) + fo % twSlotsPerRing ∧ so ≤ 512 := by
  have hmask : I &&& twRingMask = I % 512 := Nat.and_two_pow_sub_one_eq_mod I 9
  have hshift : I >>> twRingShift = I / 512 := Nat.shiftRight_eq_div_pow I 9
  rw [hmask] at hfo
  rw [hshift] at hso
  by_cases hc : twSlotsPerRing ≤ fo
  · rw [if_pos hc] at hcarry
    simp only [twSlotsPerRing] at hc ⊢
    omega
  · rw [if_neg hc] at hcarry
    simp only [twSlotsPerRing] at hc ⊢
    omega

/-- Only the pool of a wheel changes. -/
theorem twTimerStart_spec (hi : WheelInv tw lo A) (hlo : lo ≤ tw.ticks + 1)
    (h1 : 1 ≤ interval.toNat) (h2 : interval.toNat < 2 ^ 18) (poolIndex timerId : BitVec 32) :
    ∃ pool h, twTimerStart tw poolIndex timerId interval = ({ tw with timers := pool }, h) ∧
      A h = none ∧ WheelInv { tw with timers := pool } lo (update A h
        (some ⟨makeInternalTimerHandle poolIndex timerId, tw.ticks + interval.toNat⟩)) := by
  obtain ⟨⟨R, slots, hl, hslow, htick⟩, hfast, hdue⟩ := hi
  generalize hp : (⟨makeInternalTimerHandle poolIndex timerId, tw.ticks + interval.toNat⟩ : Pending)
    = p
  have hdue' (h : Nat) (x : Nat) (q : Pending) (hA : update A h (some p) x = some q) :
      lo ≤ q.due := by
    by_cases hx : x = h
    · subst hx
      rw [update_self] at hA
      obtain rfl := Option.some.inj hA
      rw [← hp]
      show lo ≤ tw.ticks + interval.toNat
      omega
    · rw [update_of_ne hx] at hA
      exact hdue x q hA
  simp only [twTimerStart]
  generalize hfo : ((interval.toNat &&& twRingMask) + tw.currentFast) % 2 ^ 16 = fo
  generalize hcarry : (if twSlotsPerRing ≤ fo then 1 else 0) = carry
  generalize hso : ((interval.toNat >>> twRingShift) + carry) % 2 ^ 16 = so
  obtain ⟨hsum, hle⟩ := start_placed (R := R) h2 hfast hfo.symm hcarry.symm hso.symm
  have huser : makeInternalTimerHandle poolIndex timerId = p.userHandle := by rw [← hp]
  have hpdue : p.due = twSlotsPerRing * (R + so) + fo % twSlotsPerRing := by
    rw [← hsum, ← hp]
    show tw.ticks + _ = _
    rw [htick]
  have hlt : fo % twSlotsPerRing < twSlotsPerRing := Nat.mod_lt _ (by decide)
  have hget : tw.timers.get.1.Live tw.timers.get.2 := Pool.live_get.mpr (.inr rfl)
  split
  · next hne =>
    rw [Pool.modify_set hget]
    obtain ⟨hnone, hloose⟩ := hl.get ⟨noIndex, noIndex, fo % twSlotsPerRing, _⟩ p huser
    have hj : (so + tw.currentSlow) % 2 ^ 16 % twSlotsPerRing < twSlotsPerRing :=
      Nat.mod_lt _ (by decide)
    obtain ⟨hput, _⟩ := hloose.addhead (.slow, ⟨_, hj⟩) (by
      intro q hq
      rw [update_self] at hq
      obtain rfl := Option.some.inj hq
      rw [Pool.eltAt_set_self hget, hpdue]
      simp only [Placed, hslow, twSlotsPerRing] at hlt ⊢
      omega)
    exact ⟨_, _, rfl, hnone, ⟨R, _, hput, hslow, htick⟩, hfast, hdue' _⟩
  · next heq =>
    rw [not_not] at heq
    obtain ⟨hnone, hloose⟩ := hl.get ⟨noIndex, noIndex, 2 ^ 16 - 1, _⟩ p huser
    obtain ⟨hput, _⟩ := hloose.addhead (.fast, ⟨_, hlt⟩) (by
      intro q hq
      rw [update_self] at hq
      obtain rfl := Option.some.inj hq
      rw [hpdue, heq]
      rfl)
    exact ⟨_, _, rfl, hnone, ⟨R, _, hput, hslow, htick⟩, hfast, hdue' _⟩

theorem Layout.remove (hl : Layout pool w A R slots []) (hA : A h ≠ none) :
    ∃ slots', Layout ((timerRemove pool h).put h) w (update A h none) R slots' [] := by
  have hlive := hl.live_of_active hA
  obtain ⟨i, hm⟩ := ((hl.active h).mp hA).resolve_right (by simp)
  obtain ⟨l₁, l₂, hsplit⟩ := List.append_of_mem hm
  have hring := hsplit ▸ hl.rings.ring i
  obtain ⟨hs₁, hs₂⟩ := hring.seg.split
  have hnode (x : Nat) (hx : x ∈ headOf w i :: (l₁ ++ h :: l₂)) : pool.Live x :=
    hl.live_node (i := i) (by rw [hsplit]; exact hx)
  have hnext : pool.Live (pool.eltAt h).next := by
    rcases List.mem_append.mp hs₂.next_mem with hx | hx
    · exact hnode _ (.tail _ (List.mem_append_right _ (.tail _ hx)))
    · exact hnode _ (List.mem_cons.mpr (.inl (List.mem_singleton.mp hx)))
  have hprev : pool.Live (pool.eltAt h).prev := by
    rcases List.mem_cons.mp hs₁.prev_mem with hx | hx
    · exact hnode _ (List.mem_cons.mpr (.inl hx))
    · exact hnode _ (.tail _ (List.mem_append_left _ hx))
  have hlinks := links_timerRemove hlive hnext hprev
  have hs := sameTimers_timerRemove hlive hnext hprev
  have hkeep (x : Nat) (hx : pool.Live x) (hne : x ≠ h) : ((timerRemove pool h).put h).Live x :=
    Pool.live_put.mpr ⟨(hs.live x).mpr hx, hne⟩
  have hnd : h ∉ headOf w i :: (l₁ ++ l₂) := by
    have := hring.nodup
    simp only [List.nodup_cons, List.mem_append, List.mem_cons, not_or, List.nodup_append] at this ⊢
    exact ⟨Ne.symm this.1.2.1, fun hm => this.2.2.2 h hm h (.inl rfl) rfl, this.2.2.1.1⟩
  have hmem (j : Slot) (x : Nat) : x ∈ update slots i (l₁ ++ l₂) j ↔ x ≠ h ∧ x ∈ slots j := by
    by_cases hj : j = i
    · subst hj
      rw [update_self, hsplit]
      constructor
      · intro hx
        refine ⟨fun he => hnd (.tail _ (he ▸ hx)), ?_⟩
        rcases List.mem_append.mp hx with hx | hx
        · exact List.mem_append_left _ hx
        · exact List.mem_append_right _ (.tail _ hx)
      · rintro ⟨hne, hx⟩
        simp only [List.mem_append, List.mem_cons, hne, false_or] at hx ⊢
        exact hx
    · rw [update_of_ne hj]
      constructor
      · intro hx
        refine ⟨?_, hx⟩
        rintro rfl
        exact hl.rings.disjoint i j (Ne.symm hj) x (.tail _ hm) (.tail _ hx)
      · exact fun hx => hx.2
  have hhead (j : Slot) : headOf w j ≠ h := by
    intro he
    by_cases hj : j = i
    · exact hnd (List.mem_cons.mpr (.inl (hj ▸ he.symm)))
    · exact hl.rings.disjoint i j (Ne.symm hj) h (.tail _ hm) (he ▸ .head _)
  refine ⟨update slots i (l₁ ++ l₂), ?_⟩
  constructor
  case rings =>
    rw [links_put, hlinks]
    apply (hl.rings.unlink hsplit).congr
    intro j x hx
    have hne : x ≠ h := by
      rcases List.mem_cons.mp hx with hx | hx
      · exact hx ▸ hhead j
      · exact ((hmem j x).mp hx).1
    simp only [setNext, setPrev, update_of_ne hne, and_self]
  case live_head => exact fun j => hkeep _ (hl.live_head j) (hhead j)
  case loose_nodup => exact .nil
  case loose_out => simp
  case active =>
    intro x
    by_cases hx : x = h
    · simp [hx, hmem]
    · simp [hx, hmem, hl.active]
  case live =>
    intro x p hx
    have hne : x ≠ h := by
      rintro rfl
      simp at hx
    rw [update_of_ne hne] at hx
    exact hkeep x (hl.live x p hx) hne
  case user =>
    intro x p hx
    have hne : x ≠ h := by
      rintro rfl
      simp at hx
    rw [update_of_ne hne] at hx
    rw [Pool.eltAt_put, hs.userHandle]
    exact hl.user x p hx
  case placed =>
    intro j x p hx hA'
    obtain ⟨hne, hx⟩ := (hmem j x).mp hx
    rw [update_of_ne hne] at hA'
    exact (hl.placed j x p hx hA').congr (by rw [Pool.eltAt_put, hs.fastRingOffset])

theorem twTimerStop_spec (hi : WheelInv tw lo A) (hA : A h ≠ none) :
    ∃ pool, twTimerStop tw h = { tw with timers := pool } ∧
      WheelInv { tw with timers := pool } lo (update A h none) := by
  obtain ⟨⟨R, slots, hl, hslow, htick⟩, hfast, hdue⟩ := hi
  obtain ⟨slots', hl'⟩ := hl.remove hA
  refine ⟨_, rfl, ⟨R, slots', hl', hslow, htick⟩, hfast, ?_⟩
  intro x p hx
  by_cases hne : x = h
  · subst hne
    simp at hx
  · rw [update_of_ne hne] at hx
    exact hdue x p hx

end

variable {pool : Pool TwTimer} {w : TwRing → Nat → Nat} {A : Nat → Option Pending} {R : Nat}
  {slots : Slot → List Nat} {loose : List Nat} {tw : Wheel}

theorem length_lt_walkFuel {l : List Nat} (hnd : l.Nodup) (hlive : ∀ x ∈ l, pool.Live x) :
    l.length < walkFuel pool := by
  have hsub : l ⊆ List.range pool.elts.length := fun x hx => List.mem_range.mpr (hlive x hx).1
  have hle := (List.subperm_of_subset hnd hsub).length_le
  rw [List.length_range] at hle
  exact Nat.lt_succ_of_le hle

/-- The walk deals every loose timer into its fast slot, and ends. -/
theorem dealTimers_spec (tw : Wheel) (hl : Layout pool tw.w A R slots loose)
    (ht : Trail (links pool) loose head) (hhead : head ∉ loose)
    (hdue : ∀ h ∈ loose, ∀ p, A h = some p →
      (pool.eltAt h).fastRingOffset = p.due % twSlotsPerRing ∧ p.due / twSlotsPerRing = R)
    (hfuel : loose.length < fuel) :
    ∃ pool' slots', dealTimers head fuel (loose.headD head) { tw with timers := pool } =
      some { tw with timers := pool' } ∧ Layout pool' tw.w A R slots' [] := by
  induction loose generalizing pool slots fuel with
  | nil =>
    obtain ⟨fuel, rfl⟩ : ∃ n, fuel = n + 1 := ⟨fuel - 1, by omega⟩
    refine ⟨pool, slots, ?_, hl⟩
    simp only [dealTimers, List.headD_nil, if_true]
  | cons h loose ih =>
    obtain ⟨fuel, rfl⟩ : ∃ n, fuel = n + 1 := ⟨fuel - 1, by omega⟩
    obtain ⟨hnext, ht'⟩ := ht
    obtain ⟨hnh, _⟩ := List.nodup_cons.mp hl.loose_nodup
    have hactive : A h ≠ none := (hl.active h).mpr (.inr (.head _))
    have hlive := hl.live_of_active hactive
    have hs := SameTimers.modify hlive fun _ => (noIndex, noIndex)
    have hloose (x : Nat) (hne : x ≠ h) :
        (pool.modify h fun t => { t with next := noIndex, prev := noIndex }).eltAt x = pool.eltAt x :=
      Pool.eltAt_modify_ne hne
    have hrel := hl.relink hs (by
      intro x hx
      have hne : x ≠ h := fun he => hx (he ▸ .head _)
      simp only [links, hloose x hne, and_self])
    obtain ⟨p, hA⟩ := Option.ne_none_iff_exists'.mp hactive
    obtain ⟨hoff, hrev⟩ := hdue h (.head _) p hA
    have hj : (pool.eltAt h).fastRingOffset < twSlotsPerRing := by
      rw [hoff]
      exact Nat.mod_lt _ (by decide)
    obtain ⟨hadd, hsame⟩ := hrel.addhead (.fast, ⟨_, hj⟩) (by
      intro q hq
      obtain rfl := Option.some.inj (hA.symm.trans hq)
      simp only [Placed, hoff, ← hrev]
      exact (Nat.div_add_mod _ _).symm)
    have hs' := hs.trans (sameTimers_timerAddhead (hrel.live_head (.fast, ⟨_, hj⟩))
      ((hs.live h).mpr hlive) (hrel.live_next _))
    have htrail := ht'.congr fun x hx => by
      have hne : x ≠ h := fun he => hnh (he ▸ hx)
      exact (hsame x hx).trans (congrArg TwTimer.next (hloose x hne))
    obtain ⟨pool', slots', he, hl'⟩ := ih hadd htrail (fun hm => hhead (.tail _ hm))
      (fun x hx q hq => by
        rw [hs'.fastRingOffset]
        exact hdue x (.tail _ hx) q hq)
      (Nat.lt_of_succ_lt_succ hfuel)
    refine ⟨pool', slots', ?_, hl'⟩
    have hne : h ≠ head := fun he => hhead (he ▸ .head _)
    rw [List.headD_cons, dealTimers, if_neg hne, ← he, ← hnext]
    rfl

/-- At the turn of a revolution the fast ring has run empty, and the slow slot that is dealt out
holds exactly what is due in the new one. -/
theorem turnSlowRing_spec (hi : WheelInv tw tw.ticks A) (hf : tw.currentFast = twSlotsPerRing) :
    ∃ tw', turnSlowRing tw = some tw' ∧ WheelInv tw' tw'.ticks A ∧
      tw'.currentFast < twSlotsPerRing ∧ tw'.ticks = tw.ticks ∧ tw'.currentTick = tw.currentTick := by
  obtain ⟨⟨R, slots, hl, hslow, htick⟩, _, hdue⟩ := hi
  have hcur : (tw.currentSlow + 1) % twSlotsPerRing = (R + 1) % twSlotsPerRing := by
    rw [hslow]
    exact Nat.mod_add_mod ..
  have hlt : (R + 1) % twSlotsPerRing < twSlotsPerRing := Nat.mod_lt _ (by decide)
  obtain ⟨hempty, htrail, hnext⟩ := hl.emptySlot (.slow, ⟨_, hlt⟩)
  have hlive (x : Nat) (hx : x ∈ slots (.slow, ⟨_, hlt⟩)) : tw.timers.Live x :=
    hl.live_node (.tail _ hx)
  have hhead := (List.nodup_cons.mp (hl.rings.ring (.slow, ⟨_, hlt⟩)).nodup).1
  have hs := sameTimers_emptySlot (hl.live_head (.slow, ⟨_, hlt⟩))
  have hrevolve : Layout (emptySlot tw.timers (headOf tw.w (.slow, ⟨_, hlt⟩))) tw.w A (R + 1)
      (update slots (.slow, ⟨_, hlt⟩) []) (slots (.slow, ⟨_, hlt⟩)) := by
    refine { hempty with placed := ?_ }
    intro i h p hm hA
    have hp := hempty.placed i h p hm hA
    have hge := hdue h p hA
    have hne : i ≠ (.slow, ⟨_, hlt⟩) := by
      rintro rfl
      simp at hm
    obtain ⟨r, j⟩ := i
    have hj := j.isLt
    cases r with
    | fast =>
      simp only [Placed, twSlotsPerRing] at *
      omega
    | slow =>
      have hval : j.val ≠ (R + 1) % twSlotsPerRing := by
        rintro he
        exact hne (Prod.ext rfl (Fin.ext he))
      simp only [Placed, twSlotsPerRing] at *
      omega
  obtain ⟨pool, slots', he, hl'⟩ := dealTimers_spec
    { tw with currentFast := 0, currentSlow := (R + 1) % twSlotsPerRing } hrevolve htrail hhead (by
      intro h hm p hA
      have hp := hl.placed _ h p hm hA
      rw [hs.fastRingOffset]
      simp only [Placed, twSlotsPerRing] at hp ⊢
      omega) (length_lt_walkFuel (hempty.loose_nodup) hlive)
  refine ⟨{ tw with currentFast := 0, currentSlow := (R + 1) % twSlotsPerRing, timers := pool }, ?_,
    ⟨⟨R + 1, slots', hl', rfl, ?_⟩, Nat.zero_le _, hdue⟩, show 0 < twSlotsPerRing by decide, rfl, rfl⟩
  · simp only [turnSlowRing, hcur]
    rw [← he]
    exact congrArg (fun x => dealTimers _ _ x _) hnext
  · rw [htick, hf]
    rfl

theorem expireSlot_spec {l : List Nat} (ht : Trail (links pool) l head) (hhead : head ∉ l)
    (hfuel : l.length < fuel) (expired : List (BitVec 32)) :
    expireSlot head fuel (l.headD head) pool expired =
      some (l.foldl Pool.put pool, expired ++ l.map fun h => (pool.eltAt h).userHandle) := by
  induction l generalizing pool fuel expired with
  | nil =>
    obtain ⟨fuel, rfl⟩ : ∃ n, fuel = n + 1 := ⟨fuel - 1, by omega⟩
    simp [expireSlot]
  | cons h l ih =>
    obtain ⟨fuel, rfl⟩ : ∃ n, fuel = n + 1 := ⟨fuel - 1, by omega⟩
    obtain ⟨hnext, ht'⟩ := ht
    have hne : h ≠ head := fun he => hhead (he ▸ .head _)
    have ht'' : Trail (links (pool.put h)) l head := by
      rw [links_put]
      exact ht'
    have hih := ih ht'' (fun hm => hhead (.tail _ hm)) (Nat.lt_of_succ_lt_succ hfuel)
      (expired ++ [(pool.eltAt h).userHandle])
    have hnext' : (pool.eltAt h).next = l.headD head := hnext
    simp only [List.headD_cons, expireSlot, if_neg hne, hnext', hih, Pool.eltAt_put, List.foldl_cons,
      List.map_cons, List.append_assoc, List.singleton_append]

theorem live_foldl_put (l : List Nat) (pool : Pool TwTimer) :
    (l.foldl Pool.put pool).Live x ↔ pool.Live x ∧ x ∉ l := by
  induction l generalizing pool with
  | nil => simp
  | cons h l ih =>
    rw [List.foldl_cons, ih, Pool.live_put]
    simp only [List.mem_cons, not_or, and_assoc]

theorem eltAt_foldl_put (l : List Nat) (pool : Pool TwTimer) (x : Nat) :
    (l.foldl Pool.put pool).eltAt x = pool.eltAt x := by
  induction l generalizing pool with
  | nil => rfl
  | cons h l ih => rw [List.foldl_cons, ih, Pool.eltAt_put]

/-- The loose timers are freed and pending no more. -/
theorem Layout.drop (hl : Layout pool w A R slots loose) :
    Layout (loose.foldl Pool.put pool) w (fun h => if h ∈ loose then none else A h) R slots [] := by
  have hkeep (x : Nat) (hx : x ∉ loose) (hp : pool.Live x) : (loose.foldl Pool.put pool).Live x :=
    (live_foldl_put loose pool).mpr ⟨hp, hx⟩
  have hlinks : links (loose.foldl Pool.put pool) = links pool := by
    simp only [links, eltAt_foldl_put]
  have hold (h : Nat) (p : Pending) (hA : (if h ∈ loose then none else A h) = some p) :
      h ∉ loose ∧ A h = some p := by
    by_cases hm : h ∈ loose
    · simp [hm] at hA
    · exact ⟨hm, by simpa [hm] using hA⟩
  constructor
  case rings =>
    rw [hlinks]
    exact hl.rings
  case live_head => exact fun i => hkeep _ (hl.not_loose (.head _)) (hl.live_head i)
  case loose_nodup => exact .nil
  case loose_out => simp
  case active =>
    intro x
    by_cases hx : x ∈ loose
    · simp only [hx, if_true, ne_eq, not_true, List.not_mem_nil, or_false, false_iff, not_exists]
      intro i hm
      exact hl.loose_out x hx i (.tail _ hm)
    · simp [hx, hl.active]
  case live =>
    intro h p hA
    obtain ⟨hx, hA⟩ := hold h p hA
    exact hkeep h hx (hl.live h p hA)
  case user =>
    intro h p hA
    rw [eltAt_foldl_put]
    exact hl.user h p (hold h p hA).2
  case placed =>
    intro i h p hm hA
    rw [eltAt_foldl_put]
    exact hl.placed i h p hm (hold h p hA).2

/-- The timers that stay pending when tick `k` is over. -/
def afterTick (A : Nat → Option Pending) (k : Nat) (h : Nat) : Option Pending :=
  (A h).filter fun p => p.due ≠ k

/-- The vector reports each pending timer that is due at tick `k`, once. -/
def Reports (A : Nat → Option Pending) (k : Nat) (expired : List (BitVec 32)) : Prop :=
  ∃ l : List Nat, l.Nodup ∧ (∀ h, h ∈ l ↔ ∃ p, A h = some p ∧ p.due = k) ∧
    expired = l.map fun h => ((A h).map Pending.userHandle).getD 0

theorem Layout.mem_current (hl : Layout pool w A R slots []) (hf : f < twSlotsPerRing) (h : Nat) :
    h ∈ slots (.fast, ⟨f, hf⟩) ↔ ∃ p, A h = some p ∧ p.due = twSlotsPerRing * R + f := by
  constructor
  · intro hm
    obtain ⟨p, hA⟩ := Option.ne_none_iff_exists'.mp ((hl.active h).mpr (.inl ⟨_, hm⟩))
    exact ⟨p, hA, hl.placed _ h p hm hA⟩
  · rintro ⟨p, hA, hdue⟩
    obtain ⟨⟨r, j⟩, hm⟩ := ((hl.active h).mp (by rw [hA]; simp)).resolve_right (by simp)
    have hp := hl.placed _ h p hm hA
    have hj := j.isLt
    cases r with
    | fast =>
      have hjf : j.val = f := by
        simp only [Placed, twSlotsPerRing] at hp hdue
        omega
      obtain rfl : j = ⟨f, hf⟩ := Fin.ext hjf
      exact hm
    | slow =>
      simp only [Placed, twSlotsPerRing] at hp hdue hf
      omega

theorem expireSlot_tick (hi : WheelInv tw tw.ticks A) (hf : tw.currentFast < twSlotsPerRing) :
    ∃ pool expired, expireSlot (tw.w .fast tw.currentFast) (walkFuel tw.timers)
        (tw.timers.eltAt (tw.w .fast tw.currentFast)).next
        (emptySlot tw.timers (tw.w .fast tw.currentFast)) [] = some (pool, expired) ∧
      Reports A tw.ticks expired ∧
      WheelInv { tw with timers := pool } (tw.ticks + 1) (afterTick A tw.ticks) ∧
      ∀ h, A h ≠ none → (pool.Live h ↔ afterTick A tw.ticks h ≠ none) := by
  obtain ⟨⟨R, slots, hl, hslow, htick⟩, hle, hdue⟩ := hi
  obtain ⟨hempty, htrail, hnext⟩ := hl.emptySlot (.fast, ⟨_, hf⟩)
  have hmem := hl.mem_current hf
  rw [← htick] at hmem
  have hs := sameTimers_emptySlot (hl.live_head (.fast, ⟨_, hf⟩))
  have hhead := (List.nodup_cons.mp (hl.rings.ring (.fast, ⟨_, hf⟩)).nodup).1
  have hlive (x : Nat) (hx : x ∈ slots (.fast, ⟨_, hf⟩)) : tw.timers.Live x :=
    hl.live_node (.tail _ hx)
  have hwalk := expireSlot_spec htrail hhead (length_lt_walkFuel hempty.loose_nodup hlive) []
  rw [← hnext] at hwalk
  have hafter : (fun h => if h ∈ slots (.fast, ⟨_, hf⟩) then none else A h) =
      afterTick A tw.ticks := by
    funext h
    cases hA : A h with
    | none => simp [afterTick, hA]
    | some p => simp [afterTick, hA, hmem, Option.filter]
  have hdrop := hempty.drop
  rw [hafter] at hdrop
  refine ⟨_, _, hwalk, ⟨_, hempty.loose_nodup, hmem, ?_⟩, ⟨⟨R, _, hdrop, hslow, htick⟩, hle, ?_⟩, ?_⟩
  · rw [List.nil_append]
    apply List.map_congr_left
    intro h hm
    obtain ⟨p, hA, _⟩ := (hmem h).mp hm
    rw [hempty.user h p hA, hA]
    rfl
  · intro h p hA
    obtain ⟨hA, hne⟩ := Option.filter_eq_some_iff.mp hA
    have := hdue h p hA
    simp only [ne_eq, decide_not, Bool.not_eq_eq_eq_not, Bool.not_true, decide_eq_false_iff_not] at hne
    omega
  · intro h hA
    rw [live_foldl_put, hs.live, ← hafter]
    have hl' := hl.live_of_active hA
    by_cases hm : h ∈ slots (.fast, ⟨_, hf⟩)
    · simp [hm]
    · simp [hm, hA, hl']

end Vpp.TwTimer
