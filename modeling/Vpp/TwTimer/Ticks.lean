import Vpp.TwTimer.Expire

namespace Vpp.TwTimer
open Vpp.Lib Function List

section

/-- The client's books agree with the pending timers `A` of the wheel, and every tick before `lo` has
been reported. -/
structure ClientInv (c : Client) (lo : Nat) (A : Nat → Option Pending) : Prop where
  pending : ∀ h p, A h = some p ↔ ∃ (n : Nat) (t : Started), c.timers[n]? = some t ∧ t.status = .pending ∧
    t.handle = h ∧ t.userHandle = p.userHandle ∧ t.due = p.due
  unique : ∀ (n m : Nat) (t t' : Started), c.timers[n]? = some t → c.timers[m]? = some t' → t.status = .pending →
    t'.status = .pending → t.handle = t'.handle → n = m
  pending_ge : ∀ t ∈ c.timers, t.status = .pending → lo ≤ t.due
  expired_lt : ∀ t ∈ c.timers, t.status = .expired → t.due < lo
  reported : ∀ k, (c.reportedAt k).Perm ((c.dueAt lo k).map Started.userHandle)
  once : (c.reports.map Prod.fst).Nodup
  reports_lt : ∀ r ∈ c.reports, r.1 < lo

variable {c : Client} {tw : Wheel} {A : Nat → Option Pending} {pool : Pool TwTimer}

theorem ClientInv.init (script : List (List Request)) : ClientInv ⟨[], [], script⟩ 0 fun _ => none := by
  constructor <;> simp [Client.reportedAt, Client.dueAt]

theorem ClientInv.reported_of_timers (hc : ClientInv c lo A)
    (hsame : ∀ k, k < lo → Client.dueAt { c with timers := timers } lo k = c.dueAt lo k) (k : Nat) :
    (Client.reportedAt { c with timers := timers } k).Perm
      ((Client.dueAt { c with timers := timers } lo k).map Started.userHandle) := by
  by_cases hk : k < lo
  · rw [hsame k hk]
    exact hc.reported k
  · have hnil (c : Client) : c.dueAt lo k = [] := by simp [Client.dueAt, hk]
    have := hc.reported k
    rw [hnil] at this ⊢
    exact this

theorem ClientInv.start (hc : ClientInv c lo A) (hnone : A h = none) (hlo : lo ≤ tick + interval) :
    ClientInv { c with timers := c.timers ++ [⟨h, u, tick, interval, .pending⟩] } lo
      (update A h (some ⟨u, tick + interval⟩)) := by
  generalize ht : (⟨h, u, tick, interval, .pending⟩ : Started) = new
  have hget (n : Nat) (t : Started) : (c.timers ++ [new])[n]? = some t ↔
      c.timers[n]? = some t ∨ n = c.timers.length ∧ new = t := by
    rw [getElem?_append]
    split
    · next hn => simp [Nat.ne_of_lt hn]
    · next hn =>
      rw [List.getElem?_eq_none (Nat.le_of_not_lt hn), getElem?_singleton]
      by_cases he : n = c.timers.length
      · simp [he]
      · simp [he, Nat.sub_ne_zero_of_lt (by omega : c.timers.length < n)]
  have hfresh (n : Nat) (t : Started) (hn : c.timers[n]? = some t) (hp : t.status = .pending) :
      t.handle ≠ h := by
    intro he
    have hA := (hc.pending t.handle ⟨t.userHandle, t.due⟩).mpr ⟨n, t, hn, hp, rfl, rfl, rfl⟩
    rw [he, hnone] at hA
    exact absurd hA (by simp)
  have hmem (t : Started) (hm : t ∈ c.timers ++ [new]) : t ∈ c.timers ∨ t = new := by
    rcases mem_append.mp hm with hm | hm
    · exact .inl hm
    · exact .inr (mem_singleton.mp hm)
  constructor
  case pending =>
    intro x p
    by_cases hx : x = h
    · subst hx
      rw [update_self]
      constructor
      · intro hp
        obtain rfl := Option.some.inj hp
        exact ⟨_, new, (hget _ _).mpr (.inr ⟨rfl, rfl⟩), ht ▸ ⟨rfl, rfl, rfl, rfl⟩⟩
      · rintro ⟨n, t, hn, hp, hh, hu, hd⟩
        rcases (hget n t).mp hn with hn | ⟨_, rfl⟩
        · exact absurd hh (hfresh n t hn hp)
        · subst ht
          obtain ⟨u', d⟩ := p
          simp only at hu hd
          rw [← hu, ← hd]
          rfl
    · rw [update_of_ne hx, hc.pending]
      constructor
      · rintro ⟨n, t, hn, hrest⟩
        exact ⟨n, t, (hget n t).mpr (.inl hn), hrest⟩
      · rintro ⟨n, t, hn, hp, hh, hrest⟩
        rcases (hget n t).mp hn with hn | ⟨_, rfl⟩
        · exact ⟨n, t, hn, hp, hh, hrest⟩
        · subst ht
          exact absurd hh.symm hx
  case unique =>
    intro n m t t' hn hm hp hp' he
    rcases (hget n t).mp hn with hn₁ | ⟨hn₁, rfl⟩
    · rcases (hget m t').mp hm with hm₁ | ⟨_, rfl⟩
      · exact hc.unique n m t t' hn₁ hm₁ hp hp' he
      · subst ht
        exact absurd he (hfresh n t hn₁ hp)
    · rcases (hget m t').mp hm with hm₁ | ⟨hm₁, _⟩
      · subst ht
        exact absurd he.symm (hfresh m t' hm₁ hp')
      · rw [hn₁, hm₁]
  case pending_ge =>
    intro t hm hp
    rcases hmem t hm with hm | rfl
    · exact hc.pending_ge t hm hp
    · subst ht
      exact hlo
  case expired_lt =>
    intro t hm hp
    rcases hmem t hm with hm | rfl
    · exact hc.expired_lt t hm hp
    · subst ht
      exact absurd hp (by simp)
  case reported =>
    apply hc.reported_of_timers
    intro k hk
    have hne : tick + interval ≠ k := by omega
    subst ht
    simp [Client.dueAt, filter_append, Started.due, hne]
  case once => exact hc.once
  case reports_lt => exact hc.reports_lt

theorem filter_set_of_drop {p : α → Bool} {l : List α} (hn : l[n]? = some a) (hp : p a = false)
    (hp' : p b = false) : (l.set n b).filter p = l.filter p := by
  induction l generalizing n with
  | nil => rfl
  | cons x l ih =>
    cases n with
    | zero =>
      obtain rfl := Option.some.inj hn
      simp [hp, hp']
    | succ n =>
      rw [set_cons_succ, filter_cons, filter_cons, ih hn]

theorem ClientInv.stop (hc : ClientInv c lo A) (hn : c.timers[n]? = some t)
    (hp : t.status = .pending) :
    ClientInv { c with timers := c.timers.set n { t with status := .stopped } } lo
      (update A t.handle none) := by
  have hlt : n < c.timers.length := (List.getElem?_eq_some_iff.mp hn).1
  have hget (m : Nat) (t' : Started) :
      (c.timers.set n { t with status := .stopped })[m]? = some t' ↔
        m ≠ n ∧ c.timers[m]? = some t' ∨ m = n ∧ { t with status := .stopped } = t' := by
    by_cases hm : m = n
    · subst hm
      simp [hlt]
    · simp [hm, Ne.symm hm]
  have hmem (t' : Started) (hm : t' ∈ c.timers.set n { t with status := .stopped })
      (hs : t'.status ≠ .stopped) : t' ∈ c.timers := by
    obtain ⟨m, hm⟩ := mem_iff_getElem?.mp hm
    rcases (hget m t').mp hm with ⟨_, hm⟩ | ⟨_, rfl⟩
    · exact mem_of_getElem? hm
    · exact absurd rfl hs
  constructor
  case pending =>
    intro x p
    have hiff : update A t.handle none x = some p ↔ x ≠ t.handle ∧ A x = some p := by
      by_cases hx : x = t.handle
      · simp [hx]
      · simp [hx]
    rw [hiff, hc.pending]
    constructor
    · rintro ⟨hx, m, t', hm, hp', hh, hrest⟩
      refine ⟨m, t', (hget m t').mpr (.inl ⟨?_, hm⟩), hp', hh, hrest⟩
      rintro rfl
      obtain rfl := Option.some.inj (hn.symm.trans hm)
      exact hx hh.symm
    · rintro ⟨m, t', hm, hp', hh, hrest⟩
      rcases (hget m t').mp hm with ⟨hne, hm⟩ | ⟨_, rfl⟩
      · refine ⟨?_, m, t', hm, hp', hh, hrest⟩
        rintro rfl
        exact hne (hc.unique m n t' t hm hn hp' hp hh)
      · exact absurd hp' (by simp)
  case unique =>
    intro m m' t₁ t₂ h₁ h₂ hp₁ hp₂ he
    rcases (hget m t₁).mp h₁ with ⟨_, h₁⟩ | ⟨_, rfl⟩
    · rcases (hget m' t₂).mp h₂ with ⟨_, h₂⟩ | ⟨_, rfl⟩
      · exact hc.unique m m' t₁ t₂ h₁ h₂ hp₁ hp₂ he
      · exact absurd hp₂ (by simp)
    · exact absurd hp₁ (by simp)
  case pending_ge => exact fun t' hm hp' => hc.pending_ge t' (hmem t' hm (by simp [hp'])) hp'
  case expired_lt => exact fun t' hm hp' => hc.expired_lt t' (hmem t' hm (by simp [hp'])) hp'
  case reported =>
    apply hc.reported_of_timers
    intro k hk
    have hge := hc.pending_ge t (mem_of_getElem? hn) hp
    have hne : t.due ≠ k := by omega
    exact filter_set_of_drop hn (by simp [hne]) (by simp)
  case once => exact hc.once
  case reports_lt => exact hc.reports_lt

end

variable {c : Client} {A : Nat → Option Pending} {pool : Pool TwTimer}

theorem ClientInv.pending_of_mem (hc : ClientInv c lo A) (hm : t ∈ c.timers) (hp : t.status = .pending) :
    A t.handle = some ⟨t.userHandle, t.due⟩ := by
  obtain ⟨n, hn⟩ := mem_iff_getElem?.mp hm
  exact (hc.pending _ _).mpr ⟨n, t, hn, hp, rfl, rfl, rfl⟩

theorem ClientInv.mem_dueAt (hc : ClientInv c k A) :
    t ∈ c.dueAt (k + 1) k ↔ t ∈ c.timers ∧ t.status = .pending ∧ t.due = k := by
  simp only [Client.dueAt, mem_filter, decide_eq_true_eq, Nat.lt_succ_self, and_true]
  constructor
  · rintro ⟨hm, hs, hd⟩
    refine ⟨hm, ?_, hd⟩
    cases he : t.status with
    | pending => rfl
    | stopped => exact absurd he hs
    | expired => exact absurd (hc.expired_lt t hm he) (by omega)
  · rintro ⟨hm, hs, hd⟩
    exact ⟨hm, by simp [hs], hd⟩

theorem ClientInv.handles_nodup (hc : ClientInv c k A) :
    ((c.dueAt (k + 1) k).map Started.handle).Nodup := by
  rw [List.Nodup, pairwise_map]
  have hpair : c.timers.Pairwise fun t t' => t.status = .pending → t'.status = .pending →
      t.handle ≠ t'.handle := by
    rw [pairwise_iff_getElem]
    intro n m hn hm hnm hp hp' he
    exact Nat.ne_of_lt hnm (hc.unique n m _ _ (List.getElem?_eq_getElem hn)
      (List.getElem?_eq_getElem hm) hp hp' he)
  refine (hpair.filter _).imp_of_mem ?_
  intro t t' hm hm' hne
  exact hne (hc.mem_dueAt.mp hm).2.1 (hc.mem_dueAt.mp hm').2.1

theorem ClientInv.reports_perm (hc : ClientInv c k A) (hr : Reports A k expired) :
    expired.Perm ((c.dueAt (k + 1) k).map Started.userHandle) := by
  obtain ⟨l, hnd, hmem, rfl⟩ := hr
  have hperm : l.Perm ((c.dueAt (k + 1) k).map Started.handle) := by
    rw [perm_ext_iff_of_nodup hnd hc.handles_nodup]
    intro h
    rw [hmem, List.mem_map]
    constructor
    · rintro ⟨p, hA, hd⟩
      obtain ⟨n, t, hn, hp, hh, _, hdue⟩ := (hc.pending h p).mp hA
      exact ⟨t, hc.mem_dueAt.mpr ⟨mem_of_getElem? hn, hp, hdue.trans hd⟩, hh⟩
    · rintro ⟨t, hm, rfl⟩
      obtain ⟨hm, hp, hd⟩ := hc.mem_dueAt.mp hm
      exact ⟨_, hc.pending_of_mem hm hp, hd⟩
  refine (hperm.map _).trans (.of_eq ?_)
  rw [List.map_map]
  apply map_congr_left
  intro t hm
  obtain ⟨hm, hp, _⟩ := hc.mem_dueAt.mp hm
  simp [hc.pending_of_mem hm hp]

theorem dueAt_succ (c : Client) (hk : k' ≠ k) : c.dueAt (k + 1) k' = c.dueAt k k' := by
  apply filter_congr
  intro t _
  have : k' < k + 1 ↔ k' < k := by omega
  simp [this]

theorem ClientInv.reportedAt_eq_nil (hc : ClientInv c k A) : c.reportedAt k = [] := by
  have hnil : (c.reports.filter fun r => r.1 = k) = [] := by
    rw [filter_eq_nil_iff]
    intro r hm
    have := hc.reports_lt r hm
    simp only [decide_eq_true_eq]
    omega
  rw [Client.reportedAt, hnil]
  rfl

@[simp] theorem Started.observe_due (t : Started) : (t.observe pool).due = t.due := by
  unfold Started.observe
  split
  · rfl
  · rfl

@[simp] theorem Started.observe_userHandle (t : Started) : (t.observe pool).userHandle = t.userHandle := by
  unfold Started.observe
  split
  · rfl
  · rfl

@[simp] theorem Started.observe_handle (t : Started) : (t.observe pool).handle = t.handle := by
  unfold Started.observe
  split
  · rfl
  · rfl

@[simp] theorem Started.observe_stopped (t : Started) :
    (t.observe pool).status = .stopped ↔ t.status = .stopped := by
  unfold Started.observe
  split
  · next h => simp [h.1]
  · rfl

theorem Started.observe_pending (t : Started) :
    (t.observe pool).status = .pending ↔ t.status = .pending ∧ pool.Live t.handle := by
  unfold Started.observe
  split
  · next h => simp [h.2]
  · next h =>
    constructor
    · intro hp
      exact ⟨hp, by_contra fun hl => h ⟨hp, hl⟩⟩
    · exact fun hp => hp.1

theorem Started.observe_expired (t : Started) (he : (t.observe pool).status = .expired) :
    t.status = .expired ∨ t.status = .pending ∧ ¬ pool.Live t.handle := by
  unfold Started.observe at he
  split at he
  · next h => exact .inr h
  · exact .inl he

theorem afterTick_eq_some : afterTick A k h = some p ↔ A h = some p ∧ p.due ≠ k := by
  simp [afterTick, Option.filter_eq_some_iff]

theorem ClientInv.live_iff (hc : ClientInv c k A)
    (hlive : ∀ h, A h ≠ none → (pool.Live h ↔ afterTick A k h ≠ none)) (hm : t ∈ c.timers)
    (hp : t.status = .pending) : pool.Live t.handle ↔ t.due ≠ k := by
  have hA := hc.pending_of_mem hm hp
  rw [hlive _ (by simp [hA]), afterTick, hA]
  by_cases hk : t.due = k
  · simp [Option.filter, hk]
  · simp [Option.filter, hk]

theorem ClientInv.tick (hc : ClientInv c k A) (hr : Reports A k expired)
    (hlive : ∀ h, A h ≠ none → (pool.Live h ↔ afterTick A k h ≠ none)) (script : List (List Request)) :
    ClientInv ⟨c.timers.map (Started.observe pool), c.reports ++ [(k, expired)], script⟩ (k + 1)
      (afterTick A k) := by
  have hget (n : Nat) (t : Started) : (c.timers.map (Started.observe pool))[n]? = some t ↔
      ∃ t₀, c.timers[n]? = some t₀ ∧ t₀.observe pool = t := by
    rw [getElem?_map, Option.map_eq_some_iff]
  have hstill (t : Started) (hm : t ∈ c.timers) :
      (t.observe pool).status = .pending ↔ t.status = .pending ∧ t.due ≠ k := by
    rw [Started.observe_pending]
    constructor
    · exact fun h => ⟨h.1, (hc.live_iff hlive hm h.1).mp h.2⟩
    · exact fun h => ⟨h.1, (hc.live_iff hlive hm h.1).mpr h.2⟩
  constructor
  case pending =>
    intro h p
    rw [afterTick_eq_some, hc.pending]
    constructor
    · rintro ⟨⟨n, t, hn, hp, hh, hu, hd⟩, hne⟩
      refine ⟨n, t.observe pool, (hget n _).mpr ⟨t, hn, rfl⟩, ?_, by simpa using hh, by simpa using hu,
        by simpa using hd⟩
      exact (hstill t (mem_of_getElem? hn)).mpr ⟨hp, hd ▸ hne⟩
    · rintro ⟨n, t, hn, hp, hh, hu, hd⟩
      obtain ⟨t₀, hn₀, rfl⟩ := (hget n t).mp hn
      obtain ⟨hp₀, hne⟩ := (hstill t₀ (mem_of_getElem? hn₀)).mp hp
      simp only [Started.observe_handle, Started.observe_userHandle, Started.observe_due] at hh hu hd
      exact ⟨⟨n, t₀, hn₀, hp₀, hh, hu, hd⟩, hd ▸ hne⟩
  case unique =>
    intro n m t t' hn hm hp hp' he
    obtain ⟨t₀, hn₀, rfl⟩ := (hget n t).mp hn
    obtain ⟨t₁, hm₁, rfl⟩ := (hget m t').mp hm
    exact hc.unique n m t₀ t₁ hn₀ hm₁ (Started.observe_pending t₀ |>.mp hp).1
      (Started.observe_pending t₁ |>.mp hp').1 (by simpa using he)
  case pending_ge =>
    intro t hm hp
    obtain ⟨t₀, hm₀, rfl⟩ := List.mem_map.mp hm
    obtain ⟨hp₀, hne⟩ := (hstill t₀ hm₀).mp hp
    have := hc.pending_ge t₀ hm₀ hp₀
    rw [Started.observe_due]
    omega
  case expired_lt =>
    intro t hm he
    obtain ⟨t₀, hm₀, rfl⟩ := List.mem_map.mp hm
    rw [Started.observe_due]
    rcases t₀.observe_expired he with he | ⟨hp, hl⟩
    · have := hc.expired_lt t₀ hm₀ he
      omega
    · have : t₀.due = k := by
        by_contra hne
        exact hl ((hc.live_iff hlive hm₀ hp).mpr hne)
      omega
  case reported =>
    intro k'
    have hdue : (Client.dueAt ⟨c.timers.map (Started.observe pool), c.reports ++ [(k, expired)], script⟩
        (k + 1) k').map Started.userHandle = (c.dueAt (k + 1) k').map Started.userHandle := by
      simp only [Client.dueAt, List.filter_map, List.map_map]
      congr 1
      · funext t
        simp
      · apply filter_congr
        intro t _
        simp
    rw [hdue]
    by_cases hk : k' = k
    · subst hk
      have hnil := hc.reportedAt_eq_nil
      simp only [Client.reportedAt] at hnil
      simp only [Client.reportedAt, filter_append, flatMap_append, hnil, nil_append]
      simpa using hc.reports_perm hr
    · rw [dueAt_succ c hk]
      have := hc.reported k'
      simp only [Client.reportedAt] at this
      simpa [Client.reportedAt, filter_append, flatMap_append, Ne.symm hk] using this
  case once =>
    rw [map_append, nodup_append]
    refine ⟨hc.once, by simp, ?_⟩
    intro a ha b hb
    obtain ⟨r, hm, rfl⟩ := List.mem_map.mp ha
    have hbk : b = k := by simpa using hb
    exact hbk ▸ Nat.ne_of_lt (hc.reports_lt r hm)
  case reports_lt =>
    intro r hm
    rcases mem_append.mp hm with hm | hm
    · exact Nat.lt_succ_of_lt (hc.reports_lt r hm)
    · rw [mem_singleton.mp hm]
      exact Nat.lt_succ_self k

/-- A tick at which nothing is due leaves the client alone. -/
theorem ClientInv.tick_nil (hc : ClientInv c k A) (hr : Reports A k []) :
    ClientInv c (k + 1) (afterTick A k) := by
  have hnone : c.dueAt (k + 1) k = [] := map_eq_nil_iff.mp (hc.reports_perm hr).nil_eq.symm
  have hdue (t : Started) (hm : t ∈ c.timers) (hp : t.status = .pending) : t.due ≠ k := by
    intro hd
    have := hc.mem_dueAt.mpr ⟨hm, hp, hd⟩
    rw [hnone] at this
    exact absurd this (by simp)
  have hafter : afterTick A k = A := by
    funext h
    cases hA : A h with
    | none => simp [afterTick, hA]
    | some p =>
      obtain ⟨n, t, hn, hp, _, _, hd⟩ := (hc.pending h p).mp hA
      rw [afterTick_eq_some]
      exact ⟨hA, hd ▸ hdue t (mem_of_getElem? hn) hp⟩
  rw [hafter]
  refine { hc with
    pending_ge := ?_
    expired_lt := fun t hm he => Nat.lt_succ_of_lt (hc.expired_lt t hm he)
    reported := ?_
    reports_lt := fun r hm => Nat.lt_succ_of_lt (hc.reports_lt r hm) }
  · intro t hm hp
    have := hc.pending_ge t hm hp
    have := hdue t hm hp
    omega
  · intro k'
    by_cases hk : k' = k
    · subst hk
      rw [hnone, hc.reportedAt_eq_nil]
      exact .nil
    · rw [dueAt_succ c hk]
      exact hc.reported k'

end Vpp.TwTimer
