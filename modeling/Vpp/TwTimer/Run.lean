import Vpp.TwTimer.Ticks

namespace Vpp.TwTimer
open Vpp.Lib

def Request.Ok : Request → Prop
  | .start _ _ interval => 1 ≤ interval.toNat ∧ interval.toNat < 2 ^ 18
  | .stop _ => True

instance (r : Request) : Decidable r.Ok := by
  cases r with
  | start p t i => exact inferInstanceAs (Decidable (1 ≤ i.toNat ∧ i.toNat < 2 ^ 18))
  | stop n => exact .isTrue trivial

/-- Wheel and client agree on the pending timers, none of them due before tick `lo`. -/
structure SystemInv (s : Wheel × Client) (lo : Nat) : Prop where
  agree : ∃ A, WheelInv s.1 lo A ∧ ClientInv s.2 lo A
  script : ∀ rs ∈ s.2.script, ∀ r ∈ rs, r.Ok
  tick : s.1.currentTick = BitVec.ofNat 32 s.1.ticks

/-- A request touches only the pool of the wheel. -/
def SameClock (tw tw' : Wheel) : Prop := ∃ pool, tw' = { tw with timers := pool }

variable {s : Wheel × Client} {tw : Wheel} {c : Client}

theorem Request.perform_spec (hs : SystemInv s lo) (hlo : lo ≤ s.1.ticks + 1) {r : Request}
    (hr : r.Ok) : SystemInv (r.perform s) lo ∧ SameClock s.1 (r.perform s).1 := by
  obtain ⟨⟨A, hw, hc⟩, hscript, htick⟩ := hs
  cases r with
  | start poolIndex timerId interval =>
    obtain ⟨pool, h, he, hnone, hw'⟩ := twTimerStart_spec hw hlo hr.1 hr.2 poolIndex timerId
    simp only [Request.perform, he]
    refine ⟨⟨⟨_, hw', hc.start hnone ?_⟩, hscript, htick⟩, pool, rfl⟩
    have := hr.1
    omega
  | stop n =>
    simp only [Request.perform]
    split
    · next t hn =>
      split
      · next hp =>
        have hA := hc.pending_of_mem (List.mem_of_getElem? hn) hp
        obtain ⟨pool, he, hw'⟩ := twTimerStop_spec hw (show A t.handle ≠ none by simp [hA])
        rw [he]
        exact ⟨⟨⟨_, hw', hc.stop hn hp⟩, hscript, htick⟩, pool, rfl⟩
      · exact ⟨⟨⟨A, hw, hc⟩, hscript, htick⟩, _, rfl⟩
    · exact ⟨⟨⟨A, hw, hc⟩, hscript, htick⟩, _, rfl⟩

theorem foldl_perform_spec (hs : SystemInv s lo) (hlo : lo ≤ s.1.ticks + 1) {rs : List Request}
    (hrs : ∀ r ∈ rs, r.Ok) :
    SystemInv (rs.foldl Request.perform s) lo ∧ SameClock s.1 (rs.foldl Request.perform s).1 := by
  induction rs generalizing s with
  | nil => exact ⟨hs, s.1.timers, rfl⟩
  | cons r rs ih =>
    obtain ⟨hs₁, pool, he⟩ := Request.perform_spec hs hlo (hrs r (.head _))
    obtain ⟨hs₂, pool', he'⟩ := ih hs₁ (by rw [he]; exact hlo) fun r' hm => hrs r' (.tail _ hm)
    refine ⟨hs₂, pool', ?_⟩
    rw [List.foldl_cons, he', he]

theorem WheelInv.advance (hi : WheelInv tw (tw.ticks + 1) A)
    (hf : tw.currentFast < twSlotsPerRing) :
    WheelInv { tw with
        currentFast := tw.currentFast + 1
        currentTick := tw.currentTick + 1
        ticks := tw.ticks + 1 } (tw.ticks + 1) A := by
  obtain ⟨⟨R, slots, hl, hslow, htick⟩, _, hdue⟩ := hi
  refine ⟨⟨R, slots, hl, hslow, ?_⟩, hf, hdue⟩
  rw [htick]
  rfl

theorem onExpired_spec (hs : SystemInv (tw, c) k) {pool : Pool TwTimer} (hk : k = tw.ticks)
    (hw : WheelInv { tw with timers := pool } (k + 1) A) (hc : ClientInv
      ⟨c.timers.map (Started.observe pool), c.reports ++ [(k, expired)], c.script.tail⟩ (k + 1) A) :
    SystemInv (Client.onExpired expired { tw with timers := pool } c) (k + 1) ∧
      SameClock tw (Client.onExpired expired { tw with timers := pool } c).1 := by
  subst hk
  have hsys : SystemInv ({ tw with timers := pool }, ⟨c.timers.map (Started.observe pool),
      c.reports ++ [(tw.ticks, expired)], c.script.tail⟩) (tw.ticks + 1) :=
    ⟨⟨A, hw, hc⟩, fun rs hm => hs.script rs (List.mem_of_mem_tail hm), hs.tick⟩
  have hrs : ∀ r ∈ c.script.headD [], r.Ok := by
    cases hscript : c.script with
    | nil => simp
    | cons rs rest => exact hs.script rs (by simp [hscript])
  obtain ⟨hs', pool', he⟩ := foldl_perform_spec hsys (Nat.le_refl _) hrs
  exact ⟨hs', pool', he⟩

theorem ofNat_succ_of_eq {t : BitVec 32} (h : t = BitVec.ofNat 32 n) : t + 1 = BitVec.ofNat 32 (n + 1) := by
  rw [h, BitVec.ofNat_add]
  rfl

theorem handleFastRing_spec (hs : SystemInv (tw, c) tw.ticks)
    (hf : tw.currentFast < twSlotsPerRing) :
    ∃ tw' c' n, handleFastRing Client.onExpired tw c = some (tw', c', n) ∧
      SystemInv (tw', c') tw'.ticks ∧ tw'.ticks = tw.ticks + 1 := by
  obtain ⟨A, hw, hc⟩ := hs.agree
  obtain ⟨pool, expired, hwalk, hreports, hw', hlive⟩ := expireSlot_tick hw hf
  simp only [handleFastRing, hwalk, Option.map_some]
  by_cases hnil : expired.length = 0
  · obtain rfl := List.length_eq_zero_iff.mp hnil
    exact ⟨_, _, _, rfl, ⟨⟨_, hw'.advance hf, hc.tick_nil hreports⟩, hs.script, ofNat_succ_of_eq hs.tick⟩, rfl⟩
  · obtain ⟨hs', pool', he⟩ := onExpired_spec hs rfl hw' (hc.tick hreports hlive _)
    rw [if_pos hnil]
    refine ⟨_, _, _, rfl, ?_, ?_⟩
    · obtain ⟨⟨A', hw₂, hc₂⟩, hscript, htick⟩ := hs'
      rw [he] at hw₂ htick ⊢
      exact ⟨⟨A', hw₂.advance hf, hc₂⟩, hscript, ofNat_succ_of_eq htick⟩
    · rw [he]

theorem expireTick_spec (hs : SystemInv (tw, c) tw.ticks) :
    ∃ tw' c' n, expireTick Client.onExpired tw c = some (tw', c', n) ∧
      SystemInv (tw', c') tw'.ticks ∧ tw'.ticks = tw.ticks + 1 := by
  obtain ⟨A, hw, hc⟩ := hs.agree
  unfold expireTick
  by_cases hf : tw.currentFast = twSlotsPerRing
  · obtain ⟨tw₁, he, hw₁, hf₁, htick, hcur⟩ := turnSlowRing_spec hw hf
    rw [if_pos hf, he]
    obtain ⟨tw', c', n, he', hs', htick'⟩ :=
      handleFastRing_spec (c := c) ⟨⟨A, hw₁, htick ▸ hc⟩, hs.script, hcur.trans (htick ▸ hs.tick)⟩ hf₁
    exact ⟨tw', c', n, he', hs', htick'.trans (htick ▸ rfl)⟩
  · rw [if_neg hf]
    exact handleFastRing_spec hs (Nat.lt_of_le_of_ne hw.fast_le hf)

theorem expireLoop_spec (hs : SystemInv (tw, c) tw.ticks) (n i total : Nat) :
    ∃ tw' c' i' total', expireLoop Client.onExpired (n + 1) i total tw c = some (tw', c', i', total') ∧
      SystemInv (tw', c') tw'.ticks ∧ tw.ticks < tw'.ticks ∧
      tw'.ticks ≤ tw.ticks + (n + 1) := by
  induction n generalizing tw c i total with
  | zero =>
    obtain ⟨tw₁, c₁, k, he, hs₁, htick⟩ := expireTick_spec hs
    simp only [expireLoop, he, Option.bind_some]
    split
    · exact ⟨_, _, _, _, rfl, hs₁, by omega, by omega⟩
    · exact ⟨_, _, _, _, rfl, hs₁, by omega, by omega⟩
  | succ n ih =>
    obtain ⟨tw₁, c₁, k, he, hs₁, htick⟩ := expireTick_spec hs
    rw [expireLoop, he, Option.bind_some]
    by_cases hmax : tw₁.maxExpirations ≤ total + k
    · simp only [hmax, if_true]
      exact ⟨_, _, _, _, rfl, hs₁, by omega, by omega⟩
    · obtain ⟨tw', c', i', total', he', hs', hlt, hle⟩ := ih hs₁ (i + 1) (total + k)
      simp only [hmax, if_false]
      exact ⟨tw', c', i', total', he', hs', by omega, by omega⟩

theorem SystemInv.congr_times (hs : SystemInv (tw, c) lo) (next last : ℚ) :
    SystemInv ({ tw with nextRunTime := next, lastRunTime := last }, c) lo := by
  obtain ⟨⟨A, ⟨hlayout, hfast, hdue⟩, hc⟩, hscript, htick⟩ := hs
  exact ⟨⟨A, ⟨hlayout, hfast, hdue⟩, hc⟩, hscript, htick⟩

theorem twTimerExpireTimers_spec (hs : SystemInv (tw, c) tw.ticks) (now : ℚ) :
    ∃ tw' c' n, twTimerExpireTimers Client.onExpired tw c now = some (tw', c', n) ∧
      SystemInv (tw', c') tw'.ticks ∧ tw'.ticks ≤ tw.ticks + tw.nticks now ∧
      (tw.nextRunTime ≤ now → 0 < tw.nticks now → tw.ticks < tw'.ticks) := by
  unfold twTimerExpireTimers
  split
  · next hnow =>
    exact ⟨tw, c, 0, rfl, hs, Nat.le_add_right _ _, fun h => absurd hnow (not_lt.mpr h)⟩
  · by_cases hz : tw.nticks now = 0
    · simp only [hz, if_true]
      exact ⟨tw, c, 0, rfl, hs, Nat.le_add_right _ _, fun _ h => absurd h (Nat.lt_irrefl _)⟩
    · obtain ⟨n, hn⟩ := Nat.exists_eq_succ_of_ne_zero hz
      obtain ⟨tw', c', i, total, he, hs', hlt, hle⟩ :=
        expireLoop_spec (hs.congr_times (now + tw.timerInterval) tw.lastRunTime) n 0 0
      simp only [hn, Nat.succ_ne_zero, if_false, Nat.succ_eq_add_one]
      rw [he]
      exact ⟨_, _, _, rfl, hs'.congr_times tw'.nextRunTime _, hle, fun _ _ => hlt⟩

/-- Every tick that is over has reported exactly the timers that were due at it and not stopped, in one
vector, and a call makes at least one tick when one has occurred. -/
structure OnTime (s : Wheel × Client) : Prop where
  tick : s.1.currentTick = BitVec.ofNat 32 s.1.ticks
  once : (s.2.reports.map Prod.fst).Nodup
  reported : ∀ k, (s.2.reportedAt k).Perm ((s.2.dueAt s.1.ticks k).map Started.userHandle)
  ticks : ∀ now, s.1.nextRunTime ≤ now → 0 < s.1.nticks now →
    ∃ s', Call.perform s (.expireTimers now) = some s' ∧ s.1.ticks < s'.1.ticks ∧
      s'.1.ticks ≤ s.1.ticks + s.1.nticks now

theorem SystemInv.onTime (hs : SystemInv s s.1.ticks) : OnTime s := by
  obtain ⟨A, hw, hc⟩ := hs.agree
  refine ⟨hs.tick, hc.once, hc.reported, ?_⟩
  intro now hnow hpos
  obtain ⟨tw', c', n, he, _, hle, hlt⟩ := twTimerExpireTimers_spec hs now
  refine ⟨(tw', c'), ?_, hlt hnow hpos, hle⟩
  rw [Call.perform, he]
  rfl

def Call.Ok : Call → Prop
  | .request r => r.Ok
  | .expireTimers _ => True

theorem Call.perform_spec (hs : SystemInv s s.1.ticks) {call : Call} (hcall : call.Ok) :
    ∃ s', call.perform s = some s' ∧ SystemInv s' s'.1.ticks := by
  cases call with
  | request r =>
    obtain ⟨hs', pool, he⟩ := Request.perform_spec hs (Nat.le_succ _) hcall
    refine ⟨_, rfl, ?_⟩
    rw [he]
    exact hs'
  | expireTimers now =>
    obtain ⟨tw', c', n, he, hs', _⟩ := twTimerExpireTimers_spec hs now
    refine ⟨(tw', c'), ?_, hs'⟩
    rw [Call.perform, he]
    rfl

theorem runCalls_spec (hs : SystemInv s s.1.ticks) {calls : List Call}
    (hcalls : ∀ call ∈ calls, call.Ok) :
    ∃ s', runCalls s calls = some s' ∧ SystemInv s' s'.1.ticks := by
  induction calls generalizing s with
  | nil => exact ⟨s, rfl, hs⟩
  | cons call calls ih =>
    obtain ⟨s₁, he, hs₁⟩ := Call.perform_spec hs (hcalls call (.head _))
    obtain ⟨s', hrun, hs'⟩ := ih hs₁ fun call' hm => hcalls call' (.tail _ hm)
    refine ⟨s', ?_, hs'⟩
    rw [runCalls, he]
    exact hrun

/-- Every run of starts, stops and expirations, with starts and stops from inside the callback too,
goes through, and each timer that is not stopped is reported with its handle at the tick of its start
plus its interval, and only then. -/
theorem tw_timer_on_time (timerInterval : ℚ) (maxExpirations : Nat) (hne : timerInterval ≠ 0)
    (script : List (List Request)) (hscript : ∀ rs ∈ script, ∀ r ∈ rs, r.Ok) (calls : List Call)
    (hcalls : ∀ call ∈ calls, call.Ok) :
    ∃ tw s, twTimerWheelInit timerInterval maxExpirations = some tw ∧
      runCalls (tw, ⟨[], [], script⟩) calls = some s ∧ OnTime s := by
  obtain ⟨tw, hinit⟩ : ∃ tw, twTimerWheelInit timerInterval maxExpirations = some tw := by
    rw [twTimerWheelInit, if_neg hne]
    exact ⟨_, rfl⟩
  obtain ⟨hw, htick, hcur⟩ := WheelInv.init hinit
  have hs : SystemInv (tw, ⟨[], [], script⟩) tw.ticks := by
    rw [htick]
    exact ⟨⟨_, hw, .init script⟩, hscript, by rw [hcur, htick]; rfl⟩
  obtain ⟨s, hrun, hs'⟩ := runCalls_spec hs hcalls
  exact ⟨tw, s, hinit, hrun, hs'.onTime⟩

/-- A timer near the limit, one that is stopped, and one that is started from the callback. -/
theorem tw_timer_on_time_restart :
    ∃ tw s, twTimerWheelInit 1 10 = some tw ∧
      runCalls (tw, ⟨[], [], [[.start 7 1 512]]⟩) [.request (.start 5 1 (2 ^ 18 - 1)),
        .request (.start 6 2 1), .request (.start 6 3 9), .request (.stop 2), .expireTimers 1,
        .expireTimers 2] = some s ∧ OnTime s :=
  tw_timer_on_time 1 10 (by decide) _ (by decide) _ (by simp [Call.Ok]; decide)

end Vpp.TwTimer
