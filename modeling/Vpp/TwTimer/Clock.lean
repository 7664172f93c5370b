import Vpp.TwTimer.DueCount
import Mathlib.Tactic.Ring

namespace Vpp.TwTimer
open Vpp.Lib

variable {tw tw' : Wheel} {c c' : Client} {s s' : Wheel × Client}

structure SameTimes (tw tw' : Wheel) : Prop where
  lastRunTime : tw'.lastRunTime = tw.lastRunTime
  timerInterval : tw'.timerInterval = tw.timerInterval
  maxExpirations : tw'.maxExpirations = tw.maxExpirations

theorem SameTimes.trans (h : SameTimes tw tw') (h' : SameTimes tw' tw'') : SameTimes tw tw'' :=
  ⟨h'.lastRunTime.trans h.lastRunTime, h'.timerInterval.trans h.timerInterval,
    h'.maxExpirations.trans h.maxExpirations⟩

theorem sameTimes_of_timers (tw : Wheel) (timers : Pool TwTimer) : SameTimes tw { tw with timers } := ⟨rfl, rfl, rfl⟩

theorem dealTimers_times (h : dealTimers head fuel next tw = some tw') : SameTimes tw tw' := by
  induction fuel generalizing next tw with
  | zero => cases h
  | succ fuel ih =>
    unfold dealTimers at h
    split at h
    · obtain rfl := Option.some.inj h
      exact ⟨rfl, rfl, rfl⟩
    · exact (sameTimes_of_timers tw _).trans (ih h)

theorem turnSlowRing_times (h : turnSlowRing tw = some tw') : SameTimes tw tw' := by
  have hdeal := dealTimers_times h
  exact ⟨hdeal.lastRunTime, hdeal.timerInterval, hdeal.maxExpirations⟩

theorem SameClock.times (h : SameClock tw tw') : SameTimes tw tw' := by
  obtain ⟨pool, rfl⟩ := h
  exact sameTimes_of_timers tw pool

theorem foldl_perform_timers (rs : List Request) (s : Wheel × Client) :
    SameClock s.1 (rs.foldl Request.perform s).1 := by
  induction rs generalizing s with
  | nil => exact ⟨s.1.timers, rfl⟩
  | cons r rs ih =>
    obtain ⟨pool, he⟩ := perform_clock r s
    obtain ⟨pool', he'⟩ := ih (r.perform s)
    exact ⟨pool', by rw [List.foldl_cons, he', he]⟩

theorem handleFastRing_times (h : handleFastRing Client.onExpired tw c = some (tw', c', k)) : SameTimes tw tw' := by
  unfold handleFastRing at h
  obtain ⟨⟨timers, expired⟩, _, h⟩ := Option.map_eq_some_iff.mp h
  dsimp only at h
  split at h
  · have hcall : SameClock { tw with timers } (Client.onExpired expired { tw with timers } c).1 :=
      foldl_perform_timers _ _
    have htimes := hcall.times
    obtain ⟨rfl, _⟩ := Prod.mk.inj h
    exact ⟨htimes.lastRunTime, htimes.timerInterval, htimes.maxExpirations⟩
  · obtain ⟨rfl, _⟩ := Prod.mk.inj h
    exact ⟨rfl, rfl, rfl⟩

theorem expireTick_times (h : expireTick Client.onExpired tw c = some (tw', c', k)) : SameTimes tw tw' := by
  unfold expireTick at h
  obtain ⟨tw₁, hturn, hfast⟩ := Option.bind_eq_some_iff.mp h
  have htimes := handleFastRing_times hfast
  split at hturn
  · exact (turnSlowRing_times hturn).trans htimes
  · obtain rfl := Option.some.inj hturn
    exact htimes

/-- The loop makes all its ticks, or it breaks in one that its counter leaves out. -/
theorem expireLoop_ticks (hs : SystemInv (tw, c) tw.ticks) (n i total : Nat)
    (hlow : total < tw.maxExpirations ∨ 0 < n) :
    ∃ tw' c' i' total', expireLoop Client.onExpired n i total tw c = some (tw', c', i', total') ∧ SameTimes tw tw' ∧
      if total + dueCount n tw.ticks c.dues c.script < tw.maxExpirations then
        tw'.ticks = tw.ticks + n ∧ i' = i + n
      else tw'.ticks + i = tw.ticks + i' + 1 := by
  induction n generalizing tw c i total with
  | zero =>
    refine ⟨tw, c, i, total, rfl, ⟨rfl, rfl, rfl⟩, ?_⟩
    rw [dueCount, Nat.add_zero, if_pos (hlow.resolve_right (Nat.lt_irrefl 0))]
    exact ⟨rfl, rfl⟩
  | succ n ih =>
    obtain ⟨tw₁, c₁, k, he, hs₁, htick⟩ := expireTick_spec hs
    have htimes := expireTick_times he
    rw [(expireTick_dues hs he).dueCount n, ← htick, ← htimes.maxExpirations, ← Nat.add_assoc, expireLoop, he,
      Option.bind_some]
    by_cases hmax : tw₁.maxExpirations ≤ total + k
    · refine ⟨tw₁, c₁, i, total + k, ?_, htimes, ?_⟩
      · simp only [hmax, if_true]
      · rw [if_neg (by omega)]
        omega
    · obtain ⟨tw', c', i', total', hloop, htimes', hcount⟩ := ih hs₁ (i + 1) (total + k) (.inl (by omega))
      refine ⟨tw', c', i', total', ?_, htimes.trans htimes', ?_⟩
      · simp only [hmax, if_false]
        exact hloop
      · split at hcount
        · next hlt =>
          rw [if_pos hlt]
          omega
        · next hge =>
          rw [if_neg hge]
          omega

def Wheel.lead (tw : Wheel) : ℚ := tw.lastRunTime - tw.ticks * tw.timerInterval

/-- The call returns at once, or its ticks are counted in 32 bits and fewer timers are due in them than the limit. -/
def Call.UnderLimit (s : Wheel × Client) : Call → Prop
  | .request _ => True
  | .expireTimers now => now < s.1.nextRunTime ∨ s.1.nticks now = 0 ∨
    s.1.currentTick.toNat + s.1.nticks now < 2 ^ 32 ∧
      dueCount (s.1.nticks now) s.1.ticks s.2.dues s.2.script < s.1.maxExpirations

def ClockExact (t0 timerInterval : ℚ) (s : Wheel × Client) : Prop :=
  s.1.lastRunTime = t0 + s.1.currentTick.toNat * timerInterval

/-- The clock has every tick, and the 32 bits have not come to their end. -/
structure Counted (t0 timerInterval : ℚ) (s : Wheel × Client) : Prop where
  interval : s.1.timerInterval = timerInterval
  lead : s.1.lead = t0
  ticks : s.1.ticks < 2 ^ 32

theorem Counted.currentTick (h : Counted t0 timerInterval s) (hs : SystemInv s s.1.ticks) :
    s.1.currentTick.toNat = s.1.ticks := by
  rw [hs.tick, BitVec.toNat_ofNat, Nat.mod_eq_of_lt h.ticks]

theorem Counted.exact (h : Counted t0 timerInterval s) (hs : SystemInv s s.1.ticks) :
    ClockExact t0 timerInterval s := by
  have hlead := h.lead
  rw [Wheel.lead, h.interval, sub_eq_iff_eq_add] at hlead
  rw [ClockExact, h.currentTick hs, hlead]

/-- From the time of a state the ticks that the clock has. -/
theorem charged_of_exact {n : Nat} (hne : timerInterval ≠ 0) (hs : SystemInv s s.1.ticks)
    (hlast : s.1.lastRunTime = t0 + n * timerInterval) (h : ClockExact t0 timerInterval s) :
    n = s.1.ticks % 2 ^ 32 := by
  rw [ClockExact, hlast, hs.tick, BitVec.toNat_ofNat] at h
  have hmul := mul_right_cancel₀ hne (add_left_cancel h)
  exact_mod_cast hmul

/-- A call keeps the clock exact just when its ticks stay under the limits. -/
theorem Call.perform_counted (hne : timerInterval ≠ 0) (hs : SystemInv s s.1.ticks) (hs' : SystemInv s' s'.1.ticks)
    (hc : Counted t0 timerInterval s) (call : Call) (h : call.perform s = some s') :
    (call.UnderLimit s → Counted t0 timerInterval s') ∧ (ClockExact t0 timerInterval s' → call.UnderLimit s) := by
  cases call with
  | request r =>
    obtain rfl := Option.some.inj h
    obtain ⟨pool, he⟩ := perform_clock r s
    refine ⟨fun _ => ⟨?_, ?_, ?_⟩, fun _ => trivial⟩ <;> rw [he]
    exacts [hc.interval, hc.lead, hc.ticks]
  | expireTimers now =>
    rw [Call.perform, twTimerExpireTimers] at h
    split at h
    · next hnow =>
      obtain rfl := Option.some.inj h
      exact ⟨fun _ => hc, fun _ => .inl hnow⟩
    · next hnow =>
      by_cases hz : s.1.nticks now = 0
      · simp only [hz, if_true] at h
        obtain rfl := Option.some.inj h
        exact ⟨fun _ => hc, fun _ => .inr (.inl hz)⟩
      · have hrun : SystemInv ({ s.1 with nextRunTime := now + s.1.timerInterval }, s.2) s.1.ticks :=
          SystemInv.congr_times hs (now + s.1.timerInterval) s.1.lastRunTime
        obtain ⟨tw', c', i, total, hloop, htimes, hcount⟩ :=
          expireLoop_ticks hrun (s.1.nticks now) 0 0 (.inr (Nat.pos_of_ne_zero hz))
        dsimp only at hcount
        simp only [hz, if_false] at h
        rw [hloop] at h
        obtain rfl := Option.some.inj h
        have hunder : (Call.expireTimers now).UnderLimit s ↔ s.1.ticks + s.1.nticks now < 2 ^ 32 ∧
            0 + dueCount (s.1.nticks now) s.1.ticks s.2.dues s.2.script < s.1.maxExpirations := by
          rw [Call.UnderLimit, or_iff_right hnow, or_iff_right hz, hc.currentTick hs, Nat.zero_add]
        have hcharged : tw'.lastRunTime + i * tw'.timerInterval = t0 + (s.1.ticks + i : Nat) * timerInterval := by
          have hlead := hc.lead
          rw [Wheel.lead, hc.interval, sub_eq_iff_eq_add] at hlead
          rw [htimes.lastRunTime, htimes.timerInterval, hc.interval, hlead]
          push_cast
          ring
        rw [hunder]
        constructor
        · rintro ⟨hbits, hlt⟩
          rw [if_pos hlt] at hcount
          obtain ⟨hticks, hi⟩ := hcount
          have hticks : tw'.ticks = s.1.ticks + i := by
            rw [hticks, hi, Nat.zero_add]
          refine ⟨htimes.timerInterval.trans hc.interval, ?_, ?_⟩
          · show tw'.lastRunTime + i * tw'.timerInterval - tw'.ticks * tw'.timerInterval = t0
            rw [hcharged, hticks, htimes.timerInterval, hc.interval]
            exact add_sub_cancel_right _ _
          · show tw'.ticks < 2 ^ 32
            rw [hticks, hi, Nat.zero_add]
            exact hbits
        · intro hexact
          have hmod : s.1.ticks + i = tw'.ticks % 2 ^ 32 := charged_of_exact hne hs' hcharged hexact
          split at hcount
          · next hlt =>
            refine ⟨?_, hlt⟩
            obtain ⟨hticks, hi⟩ := hcount
            have hbits : tw'.ticks % 2 ^ 32 < 2 ^ 32 := Nat.mod_lt _ (by decide)
            omega
          · have hbits := Nat.div_add_mod tw'.ticks (2 ^ 32)
            omega

theorem runCalls_concat (s : Wheel × Client) (calls : List Call) (call : Call) :
    runCalls s (calls ++ [call]) = (runCalls s calls).bind call.perform := by
  induction calls generalizing s with
  | nil =>
    rw [List.nil_append, runCalls, runCalls, Option.bind_some]
    exact Option.bind_fun_some _
  | cons first calls ih =>
    rw [List.cons_append, runCalls, runCalls, Option.bind_assoc]
    exact congrArg _ (funext ih)

theorem runCalls_counted (hne : timerInterval ≠ 0) (hs : SystemInv s s.1.ticks) (hc : Counted t0 timerInterval s)
    {calls : List Call} (hcalls : ∀ call ∈ calls, call.Ok) :
    (∀ p, p <+: calls → ∃ s', runCalls s p = some s' ∧ ClockExact t0 timerInterval s') ↔
      ∀ p call, p ++ [call] <+: calls → ∃ s', runCalls s p = some s' ∧ call.UnderLimit s' := by
  have hok {p : List Call} (hp : p <+: calls) : ∀ call ∈ p, call.Ok := fun call hm => hcalls call (hp.subset hm)
  -- one more call, from the state that the calls before it lead to
  have hstep (p : List Call) (call : Call) (hpc : p ++ [call] <+: calls) :
      ∃ s₁ s₂, runCalls s p = some s₁ ∧ runCalls s (p ++ [call]) = some s₂ ∧ (Counted t0 timerInterval s₁ →
        (call.UnderLimit s₁ → Counted t0 timerInterval s₂) ∧
            (ClockExact t0 timerInterval s₂ → call.UnderLimit s₁)) := by
    obtain ⟨s₁, hrun, hs₁⟩ := runCalls_spec hs (hok ((List.prefix_append p [call]).trans hpc))
    obtain ⟨s₂, hcall, hs₂⟩ := Call.perform_spec hs₁ (hok hpc call (by simp))
    exact ⟨s₁, s₂, hrun, by rw [runCalls_concat, hrun, Option.bind_some, hcall],
      fun hc₁ => Call.perform_counted hne hs₁ hs₂ hc₁ call hcall⟩
  constructor
  · intro hexact
    have hcounted (p : List Call) (hp : p <+: calls) : ∃ s', runCalls s p = some s' ∧ Counted t0 timerInterval s' := by
      induction p using List.reverseRecOn with
      | nil => exact ⟨s, rfl, hc⟩
      | append_singleton p call ih =>
        obtain ⟨s₁, s₂, hrun, hrun', hkeep⟩ := hstep p call hp
        obtain ⟨_, he, hc₁⟩ := ih ((List.prefix_append p [call]).trans hp)
        obtain ⟨_, he', hexact'⟩ := hexact _ hp
        obtain rfl := Option.some.inj (hrun.symm.trans he)
        obtain rfl := Option.some.inj (hrun'.symm.trans he')
        exact ⟨s₂, hrun', (hkeep hc₁).1 ((hkeep hc₁).2 hexact')⟩
    intro p call hpc
    obtain ⟨s₁, s₂, hrun, hrun', hkeep⟩ := hstep p call hpc
    obtain ⟨_, he, hc₁⟩ := hcounted p ((List.prefix_append p [call]).trans hpc)
    obtain ⟨_, he', hexact'⟩ := hexact _ hpc
    obtain rfl := Option.some.inj (hrun.symm.trans he)
    obtain rfl := Option.some.inj (hrun'.symm.trans he')
    exact ⟨s₁, hrun, (hkeep hc₁).2 hexact'⟩
  · intro hunder
    have hcounted (p : List Call) (hp : p <+: calls) : ∃ s', runCalls s p = some s' ∧ Counted t0 timerInterval s' := by
      induction p using List.reverseRecOn with
      | nil => exact ⟨s, rfl, hc⟩
      | append_singleton p call ih =>
        obtain ⟨s₁, s₂, hrun, hrun', hkeep⟩ := hstep p call hp
        obtain ⟨_, he, hc₁⟩ := ih ((List.prefix_append p [call]).trans hp)
        obtain ⟨_, he', hlimit⟩ := hunder p call hp
        obtain rfl := Option.some.inj (hrun.symm.trans he)
        obtain rfl := Option.some.inj (hrun.symm.trans he')
        exact ⟨s₂, hrun', (hkeep hc₁).1 hlimit⟩
    intro p hp
    obtain ⟨s', hrun, hc'⟩ := hcounted p hp
    obtain ⟨_, he, hs'⟩ := runCalls_spec hs (hok hp)
    obtain rfl := Option.some.inj (hrun.symm.trans he)
    exact ⟨s', hrun, hc'.exact hs'⟩

theorem twTimerWheelInit_eq (hne : timerInterval ≠ 0) (maxExpirations : Nat) :
    ∃ timers w, twTimerWheelInit timerInterval maxExpirations = some
      ⟨timers, 0, 0, 1 / timerInterval, timerInterval, 0, 0, 0, 0, w, maxExpirations⟩ := by
  have hfold (todo : List (TwRing × Nat)) (tw : Wheel) :
      ∃ timers w, todo.foldl initSlot tw = { tw with timers, w } := by
    induction todo generalizing tw with
    | nil => exact ⟨_, _, rfl⟩
    | cons i todo ih =>
      obtain ⟨timers, w, he⟩ := ih (initSlot tw i)
      exact ⟨timers, w, he⟩
  obtain ⟨timers, w, he⟩ := hfold (ringSlots .fast ++ ringSlots .slow)
    ⟨.empty, 0, 0, 1 / timerInterval, timerInterval, 0, 0, 0, 0, fun _ _ => 0, maxExpirations⟩
  exact ⟨timers, w, by rw [twTimerWheelInit, if_neg hne, he]⟩

/-- A wheel with the clock at `t0`, before the client has done anything. -/
structure Fresh (t0 timerInterval : ℚ) (maxExpirations : Nat) (script : List (List Request)) (s : Wheel × Client) :
    Prop where
  inv : SystemInv s s.1.ticks
  counted : Counted t0 timerInterval s
  limit : s.1.maxExpirations = maxExpirations
  client : s.2 = ⟨[], [], script⟩
  nticks : ∀ now, s.1.nticks now = (1 / timerInterval * (now - t0)).floor.toNat % 2 ^ 32
  next : s.1.nextRunTime = 0
  tick : s.1.ticks = 0

theorem fresh_init (hne : timerInterval ≠ 0) (maxExpirations : Nat) (t0 : ℚ) {script : List (List Request)}
    (hscript : ∀ rs ∈ script, ∀ r ∈ rs, r.Ok) :
    ∃ tw, twTimerWheelInit timerInterval maxExpirations = some tw ∧
      Fresh t0 timerInterval maxExpirations script ({ tw with lastRunTime := t0 }, ⟨[], [], script⟩) := by
  obtain ⟨timers, w, hinit⟩ := twTimerWheelInit_eq hne maxExpirations
  have hsys : SystemInv (_, ⟨[], [], script⟩) 0 := ⟨⟨_, (WheelInv.init hinit).1, .init script⟩, hscript, rfl⟩
  refine ⟨_, hinit, hsys.congr_times 0 t0, ⟨rfl, ?_, Nat.two_pow_pos 32⟩, rfl, rfl, fun _ => rfl, rfl, rfl⟩
  rw [Wheel.lead, Nat.cast_zero, zero_mul, sub_zero]

/-- In a run that starts with the clock at `t0` the clock counts every tick, after each of the calls, exactly when the
ticks of no call come to the end of the 32 bits or bring the expirations up to the limit. -/
theorem tw_timer_clock (timerInterval : ℚ) (maxExpirations : Nat) (hne : timerInterval ≠ 0) (t0 : ℚ)
    (script : List (List Request)) (hscript : ∀ rs ∈ script, ∀ r ∈ rs, r.Ok) (calls : List Call)
    (hcalls : ∀ call ∈ calls, call.Ok) :
    ∃ tw, twTimerWheelInit timerInterval maxExpirations = some tw ∧
      ((∀ p, p <+: calls → ∃ s, runCalls ({ tw with lastRunTime := t0 }, ⟨[], [], script⟩) p = some s ∧
          ClockExact t0 timerInterval s) ↔
        ∀ p call, p ++ [call] <+: calls →
          ∃ s, runCalls ({ tw with lastRunTime := t0 }, ⟨[], [], script⟩) p = some s ∧ call.UnderLimit s) := by
  obtain ⟨tw, hinit, hfresh⟩ := fresh_init hne maxExpirations t0 hscript
  exact ⟨tw, hinit, runCalls_counted hne hfresh.inv hfresh.counted hcalls⟩

/-- One timer due in the second of two ticks brings the expirations up to a limit of one. -/
theorem Fresh.limit_reached (hfresh : Fresh 0 1 1 [] s) :
    ¬ (Call.expireTimers 2).UnderLimit ((Request.start 5 1 1).perform s) := by
  obtain ⟨pool, he⟩ := perform_clock (.start 5 1 1) s
  have hnext : ((Request.start 5 1 1).perform s).1.nextRunTime = 0 := by rw [he]; exact hfresh.next
  have hticks : ((Request.start 5 1 1).perform s).1.nticks 2 = 2 := by
    rw [he]
    exact (hfresh.nticks 2).trans (by decide +kernel)
  have hlimit : ((Request.start 5 1 1).perform s).1.maxExpirations = 1 := by rw [he]; exact hfresh.limit
  have htick : ((Request.start 5 1 1).perform s).1.ticks = 0 := by rw [he]; exact hfresh.tick
  obtain ⟨hdues, hscript⟩ := perform_dues (.start 5 1 1) s
  rw [hfresh.tick, hfresh.client] at hdues
  rw [hfresh.client] at hscript
  rintro (hlt | hz | ⟨-, hlow⟩)
  · rw [hnext] at hlt
    exact absurd hlt (by norm_num)
  · exact absurd (hticks.symm.trans hz) (by decide)
  · rw [hticks, htick, hdues, hscript, hlimit] at hlow
    exact absurd hlow (by decide)

/-- A timer for the coming tick, and a call when two ticks have occurred. -/
def oneTimerCalls : List Call := [.request (.start 5 1 1), .expireTimers 2]

theorem oneTimerCalls_ok : ∀ call ∈ oneTimerCalls, call.Ok := by
  simp [oneTimerCalls, Call.Ok]
  decide

theorem tw_timer_clock_of_two : ∃ tw, twTimerWheelInit 1 2 = some tw ∧
    ((∀ p, p <+: oneTimerCalls → ∃ s, runCalls ({ tw with lastRunTime := 0 }, ⟨[], [], []⟩) p = some s ∧
        ClockExact 0 1 s) ↔
      ∀ p call, p ++ [call] <+: oneTimerCalls →
        ∃ s, runCalls ({ tw with lastRunTime := 0 }, ⟨[], [], []⟩) p = some s ∧ call.UnderLimit s) :=
  tw_timer_clock 1 2 (by decide) 0 [] (by simp) oneTimerCalls oneTimerCalls_ok

/-- With a limit of one expiration the second call makes the tick of the timer without charging it. -/
theorem tw_timer_clock_loses_tick : ¬ ∀ (timerInterval : ℚ) (maxExpirations : Nat), timerInterval ≠ 0 → ∀ (t0 : ℚ)
    (script : List (List Request)), (∀ rs ∈ script, ∀ r ∈ rs, r.Ok) → ∀ calls : List Call, (∀ call ∈ calls, call.Ok) →
      ∃ tw, twTimerWheelInit timerInterval maxExpirations = some tw ∧ ∀ p, p <+: calls →
        ∃ s, runCalls ({ tw with lastRunTime := t0 }, ⟨[], [], script⟩) p = some s ∧ ClockExact t0 timerInterval s := by
  intro hall
  obtain ⟨tw, hinit, hexact⟩ := hall 1 1 (by decide) 0 [] (by simp) oneTimerCalls oneTimerCalls_ok
  obtain ⟨tw', hinit', hfresh⟩ := fresh_init (by decide : (1 : ℚ) ≠ 0) 1 0
    (by simp : ∀ rs ∈ ([] : List (List Request)), ∀ r ∈ rs, r.Ok)
  obtain rfl := Option.some.inj (hinit.symm.trans hinit')
  obtain ⟨s, hrun, hlimit⟩ := (runCalls_counted (by decide) hfresh.inv hfresh.counted oneTimerCalls_ok).mp hexact
    [.request (.start 5 1 1)] (.expireTimers 2) (List.prefix_refl _)
  obtain rfl := Option.some.inj hrun
  exact hfresh.limit_reached hlimit

end Vpp.TwTimer
