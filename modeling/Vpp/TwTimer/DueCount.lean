import Vpp.TwTimer.Run

namespace Vpp.TwTimer
open Vpp.Lib List Option

/-- When each timer of a client is due, and what has become of it. -/
def Client.dues (c : Client) : List (Nat × Status) := c.timers.map fun t => (t.due, t.status)

def Request.onDues (tick : Nat) (dues : List (Nat × Status)) : Request → List (Nat × Status)
  | .start _ _ interval => dues ++ [(tick + interval.toNat, .pending)]
  | .stop n =>
    match dues[n]? with
    | some (due, .pending) => dues.set n (due, .stopped)
    | _ => dues

def pendingAt (tick : Nat) (d : Nat × Status) : Bool := d.1 = tick ∧ d.2 = .pending

def expireDue (tick : Nat) (d : Nat × Status) : Nat × Status := if pendingAt tick d then (d.1, .expired) else d

/-- The timers that are due in the coming ticks, with those that the callbacks start on the way and without those that
they stop. -/
def dueCount : Nat → Nat → List (Nat × Status) → List (List Request) → Nat
  | 0, _, _, _ => 0
  | n + 1, tick, dues, script =>
    match dues.countP (pendingAt tick) with
    | 0 => dueCount n (tick + 1) dues script
    | k + 1 =>
      k + 1 + dueCount n (tick + 1) ((script.headD []).foldl (Request.onDues tick) (dues.map (expireDue tick)))
        script.tail

variable {tw tw' : Wheel} {c c' : Client}

theorem perform_dues (r : Request) (s : Wheel × Client) :
    (r.perform s).2.dues = r.onDues s.1.ticks s.2.dues ∧ (r.perform s).2.script = s.2.script := by
  cases r with
  | start poolIndex timerId interval => exact ⟨map_append, rfl⟩
  | stop n =>
    have hget : s.2.dues[n]? = s.2.timers[n]?.map fun t => (t.due, t.status) := getElem?_map ..
    cases hn : s.2.timers[n]? with
    | none => simp only [Request.perform, Request.onDues, hget, hn, map_none, and_self]
    | some t =>
      simp only [Request.perform, Request.onDues, hget, hn, map_some]
      cases hs : t.status with
      | pending => exact ⟨map_set, rfl⟩
      | stopped => exact ⟨rfl, rfl⟩
      | expired => exact ⟨rfl, rfl⟩

theorem perform_clock (r : Request) (s : Wheel × Client) : SameClock s.1 (r.perform s).1 := by
  cases r with
  | start poolIndex timerId interval =>
    simp only [Request.perform, twTimerStart]
    generalize ((interval.toNat >>> twRingShift) + _) % 2 ^ 16 = slowRingOffset
    split <;> exact ⟨_, rfl⟩
  | stop n =>
    simp only [Request.perform]
    split
    · split
      · exact ⟨_, rfl⟩
      · exact ⟨_, rfl⟩
    · exact ⟨_, rfl⟩

theorem foldl_perform_dues (rs : List Request) (s : Wheel × Client) :
    (rs.foldl Request.perform s).2.dues = rs.foldl (Request.onDues s.1.ticks) s.2.dues ∧
      (rs.foldl Request.perform s).2.script = s.2.script := by
  induction rs generalizing s with
  | nil => exact ⟨rfl, rfl⟩
  | cons r rs ih =>
    obtain ⟨hdues, hscript⟩ := perform_dues r s
    obtain ⟨pool, hclock⟩ := perform_clock r s
    have hticks : (r.perform s).1.ticks = s.1.ticks := by rw [hclock]
    obtain ⟨ihd, ihs⟩ := ih (r.perform s)
    rw [foldl_cons, foldl_cons, ihd, ihs, hdues, hscript, hticks]
    exact ⟨rfl, rfl⟩

theorem ClientInv.length_dueAt (hc : ClientInv c k A) : (c.dueAt (k + 1) k).length = c.dues.countP (pendingAt k) := by
  rw [Client.dueAt, ← countP_eq_length_filter, Client.dues, countP_map]
  apply countP_congr
  intro t ht
  simp only [pendingAt, Function.comp_apply, decide_eq_true_eq]
  constructor
  · rintro ⟨hstopped, hdue, -⟩
    refine ⟨hdue, ?_⟩
    cases hs : t.status with
    | pending => rfl
    | stopped => exact absurd hs hstopped
    | expired => exact absurd (hc.expired_lt t ht hs) (by omega)
  · rintro ⟨hdue, hs⟩
    exact ⟨by simp [hs], hdue, Nat.lt_succ_self k⟩

theorem ClientInv.observe_dues (hc : ClientInv c k A)
    (hlive : ∀ h, A h ≠ none → (pool.Live h ↔ afterTick A k h ≠ none)) :
    (c.timers.map (Started.observe pool)).map (fun t => (t.due, t.status)) = c.dues.map (expireDue k) := by
  rw [Client.dues, List.map_map, List.map_map]
  apply map_congr_left
  intro t ht
  simp only [Function.comp_apply, Started.observe_due, expireDue, pendingAt]
  by_cases hp : t.status = .pending
  · have hiff := hc.live_iff hlive ht hp
    by_cases hdue : t.due = k
    · rw [Started.observe, if_pos ⟨hp, fun hl => hiff.mp hl hdue⟩]
      simp [hdue, hp]
    · rw [Started.observe, if_neg fun h => h.2 (hiff.mpr hdue)]
      simp [hdue]
  · rw [Started.observe, if_neg fun h => hp h.1]
    simp [hp]

structure TickDues (tw : Wheel) (c c' : Client) (n : Nat) : Prop where
  count : n = c.dues.countP (pendingAt tw.ticks)
  quiet : n = 0 → c' = c
  dues : n ≠ 0 → c'.dues = (c.script.headD []).foldl (Request.onDues tw.ticks) (c.dues.map (expireDue tw.ticks))
  script : n ≠ 0 → c'.script = c.script.tail

theorem handleFastRing_dues (hs : SystemInv (tw, c) tw.ticks) (hf : tw.currentFast < twSlotsPerRing)
    (h : handleFastRing Client.onExpired tw c = some (tw', c', n)) : TickDues tw c c' n := by
  obtain ⟨A, hw, hc⟩ := hs.agree
  obtain ⟨pool, expired, hwalk, hreports, -, hlive⟩ := expireSlot_tick hw hf
  have hlength : expired.length = c.dues.countP (pendingAt tw.ticks) := by
    rw [(hc.reports_perm hreports).length_eq, length_map]
    exact hc.length_dueAt
  simp only [handleFastRing, hwalk, map_some] at h
  obtain ⟨-, hrest⟩ := Prod.mk.inj (Option.some.inj h)
  obtain ⟨hclient, hn⟩ := Prod.mk.inj hrest
  subst hn
  have hcalled := foldl_perform_dues (c.script.headD []) ({ tw with timers := pool },
    ⟨c.timers.map (Started.observe pool), c.reports ++ [(tw.ticks, expired)], c.script.tail⟩)
  constructor
  case count => exact hlength
  case quiet =>
    intro hnil
    rw [← hclient, if_neg (not_not.mpr hnil)]
  case dues =>
    intro hne
    rw [← hclient, if_pos hne, Client.onExpired, hcalled.1, Client.dues, hc.observe_dues hlive]
  case script =>
    intro hne
    rw [← hclient, if_pos hne, Client.onExpired, hcalled.2]

theorem expireTick_dues (hs : SystemInv (tw, c) tw.ticks)
    (h : expireTick Client.onExpired tw c = some (tw', c', n)) : TickDues tw c c' n := by
  obtain ⟨A, hw, hc⟩ := hs.agree
  unfold expireTick at h
  by_cases hf : tw.currentFast = twSlotsPerRing
  · obtain ⟨tw₁, he, hw₁, hf₁, htick, hcur⟩ := turnSlowRing_spec hw hf
    rw [if_pos hf, he, bind_some] at h
    have hdues := handleFastRing_dues (c := c) ⟨⟨A, hw₁, htick ▸ hc⟩, hs.script, hcur.trans (htick ▸ hs.tick)⟩ hf₁ h
    exact ⟨htick ▸ hdues.count, hdues.quiet, htick ▸ hdues.dues, hdues.script⟩
  · rw [if_neg hf] at h
    exact handleFastRing_dues hs (Nat.lt_of_le_of_ne hw.fast_le hf) h

/-- A tick takes its own expirations from the count of the coming ones. -/
theorem TickDues.dueCount (h : TickDues tw c c' k) (n : Nat) :
    TwTimer.dueCount (n + 1) tw.ticks c.dues c.script = k + TwTimer.dueCount n (tw.ticks + 1) c'.dues c'.script := by
  have hcount := h.count
  rw [TwTimer.dueCount]
  cases k with
  | zero =>
    rw [← hcount, h.quiet rfl, Nat.zero_add]
  | succ k =>
    rw [← hcount, h.dues (Nat.succ_ne_zero k), h.script (Nat.succ_ne_zero k)]

end Vpp.TwTimer
