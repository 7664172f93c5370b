import Vpp.Lib.LinkedRing
import Vpp.TwTimer.Wheel

namespace Vpp.TwTimer
open Vpp.Lib Function List

section

def links (pool : Pool TwTimer) : Links :=
  ⟨fun i => (pool.eltAt i).next, fun i => (pool.eltAt i).prev⟩

structure SameTimers (pool pool' : Pool TwTimer) : Prop where
  live : ∀ i, pool'.Live i ↔ pool.Live i
  length : pool'.elts.length = pool.elts.length
  userHandle : ∀ i, (pool'.eltAt i).userHandle = (pool.eltAt i).userHandle
  fastRingOffset : ∀ i, (pool'.eltAt i).fastRingOffset = (pool.eltAt i).fastRingOffset

variable {pool pool' pool'' : Pool TwTimer}

theorem SameTimers.trans (h : SameTimers pool pool') (h' : SameTimers pool' pool'') :
    SameTimers pool pool'' :=
  ⟨fun i => (h'.live i).trans (h.live i), h'.length.trans h.length,
    fun i => (h'.userHandle i).trans (h.userHandle i),
    fun i => (h'.fastRingOffset i).trans (h.fastRingOffset i)⟩

theorem SameTimers.modify (hi : pool.Live i) (f : TwTimer → Nat × Nat) :
    SameTimers pool (pool.modify i fun t => { t with next := (f t).1, prev := (f t).2 }) := by
  refine ⟨fun j => Pool.live_modify, by simp [Pool.modify, Pool.set], ?_, ?_⟩
  · intro j
    rw [Pool.eltAt_modify hi]
    split
    · next he => rw [he]
    · rfl
  · intro j
    rw [Pool.eltAt_modify hi]
    split
    · next he => rw [he]
    · rfl

theorem links_modify (hi : pool.Live i) (f : TwTimer → TwTimer) :
    links (pool.modify i f) =
      ((links pool).setNext i (f (pool.eltAt i)).next).setPrev i (f (pool.eltAt i)).prev := by
  simp only [links, Links.setNext, Links.setPrev, Links.mk.injEq]
  constructor
  · funext j
    rw [Pool.eltAt_modify hi, update_apply]
    split
    · rfl
    · rfl
  · funext j
    rw [Pool.eltAt_modify hi, update_apply]
    split
    · rfl
    · rfl

@[simp] theorem links_put (pool : Pool TwTimer) (i : Nat) : links (pool.put i) = links pool := by
  simp only [links, Pool.eltAt_put]

theorem links_modify_next (hi : pool.Live i) (x : Nat) :
    links (pool.modify i fun t => { t with next := x }) = (links pool).setNext i x := by
  rw [links_modify hi]
  simp only [Links.setPrev, Links.setNext, links, update_eq_self]

theorem links_modify_prev (hi : pool.Live i) (x : Nat) :
    links (pool.modify i fun t => { t with prev := x }) = (links pool).setPrev i x := by
  rw [links_modify hi]
  simp only [Links.setPrev, Links.setNext, links, update_eq_self]

theorem links_emptySlot (hh : pool.Live h) : links (emptySlot pool h) = (links pool).clear h :=
  links_modify hh _

theorem sameTimers_emptySlot (hh : pool.Live h) : SameTimers pool (emptySlot pool h) :=
  SameTimers.modify hh fun _ => (h, h)

theorem links_timerAddhead (hh : pool.Live h) (hn : pool.Live n)
    (hf : pool.Live (pool.eltAt h).next) :
    links (timerAddhead pool h n) = (links pool).addHead h n := by
  simp only [timerAddhead, Links.addHead]
  by_cases he : (pool.eltAt h).next = h
  · rw [if_pos he, if_pos (show (links pool).next h = h from he),
      links_modify (Pool.live_modify.mpr hn), links_modify hh]
  · rw [if_neg he, if_neg (show ¬ (links pool).next h = h from he),
      links_modify_next (Pool.live_modify.mpr (Pool.live_modify.mpr hh)),
      links_modify_prev (Pool.live_modify.mpr hf), links_modify hn]
    rfl

theorem sameTimers_timerAddhead (hh : pool.Live h) (hn : pool.Live n)
    (hf : pool.Live (pool.eltAt h).next) : SameTimers pool (timerAddhead pool h n) := by
  simp only [timerAddhead]
  split
  · exact (SameTimers.modify hh fun _ => (n, n)).trans
      (SameTimers.modify (Pool.live_modify.mpr hn) fun _ => (h, h))
  · exact ((SameTimers.modify hn fun _ => (_, _)).trans
      (SameTimers.modify (Pool.live_modify.mpr hf) fun t => (t.next, n))).trans
      (SameTimers.modify (Pool.live_modify.mpr (Pool.live_modify.mpr hh)) fun t => (n, t.prev))

theorem links_timerRemove (hi : pool.Live i) (hn : pool.Live (pool.eltAt i).next)
    (hp : pool.Live (pool.eltAt i).prev) :
    links (timerRemove pool i) =
      (((links pool).unlink i).setNext i noIndex).setPrev i noIndex := by
  simp only [timerRemove]
  rw [links_modify (Pool.live_modify.mpr (Pool.live_modify.mpr hi)),
    links_modify_next (Pool.live_modify.mpr hp), links_modify_prev hn]
  rfl

theorem sameTimers_timerRemove (hi : pool.Live i) (hn : pool.Live (pool.eltAt i).next)
    (hp : pool.Live (pool.eltAt i).prev) : SameTimers pool (timerRemove pool i) := by
  simp only [timerRemove]
  exact ((SameTimers.modify hn fun t => (t.next, _)).trans
    (SameTimers.modify (Pool.live_modify.mpr hp) fun t => (_, t.prev))).trans
    (SameTimers.modify (Pool.live_modify.mpr (Pool.live_modify.mpr hi)) fun _ => (noIndex, noIndex))

end

section
open Vpp.Lib.Links

/-- A timer that has neither expired nor been stopped, with the tick at which it is due. -/
structure Pending where
  userHandle : BitVec 32
  due : Nat
  deriving DecidableEq, Repr

abbrev Slot := TwRing × Fin twSlotsPerRing

/-- In revolution `R`, timer `t` sits in the slot from which it expires at tick `due`: in the fast
ring during this revolution, in the slow ring up to the revolution in which it is due. -/
def Placed (R : Nat) (t : TwTimer) (due : Nat) : Slot → Prop
  | (.fast, j) => due = twSlotsPerRing * R + j
  | (.slow, j) => t.fastRingOffset = due % twSlotsPerRing ∧ R < due / twSlotsPerRing ∧
      due / twSlotsPerRing ≤ R + twSlotsPerRing ∧ due / twSlotsPerRing % twSlotsPerRing = j

def headOf (w : TwRing → Nat → Nat) (i : Slot) : Nat := w i.1 i.2

/-- The slots are disjoint circular lists in the pool. Together with the `loose` timers, which are in
no list, they are the pending timers, each in its place. -/
structure Layout (pool : Pool TwTimer) (w : TwRing → Nat → Nat) (A : Nat → Option Pending) (R : Nat)
    (slots : Slot → List Nat) (loose : List Nat) : Prop where
  rings : Rings (links pool) (headOf w) slots
  live_head : ∀ i, pool.Live (headOf w i)
  loose_nodup : loose.Nodup
  loose_out : ∀ h ∈ loose, ∀ i, h ∉ headOf w i :: slots i
  active : ∀ h, A h ≠ none ↔ (∃ i, h ∈ slots i) ∨ h ∈ loose
  live : ∀ h p, A h = some p → pool.Live h
  user : ∀ h p, A h = some p → (pool.eltAt h).userHandle = p.userHandle
  placed : ∀ i h p, h ∈ slots i → A h = some p → Placed R (pool.eltAt h) p.due i

variable {pool pool' : Pool TwTimer} {w : TwRing → Nat → Nat} {A : Nat → Option Pending} {R : Nat}
  {slots slots' : Slot → List Nat} {loose : List Nat}

theorem Layout.live_of_active (hl : Layout pool w A R slots loose) (hh : A h ≠ none) :
    pool.Live h := by
  cases hA : A h with
  | none => exact absurd hA hh
  | some p => exact hl.live h p hA

theorem Layout.live_node (hl : Layout pool w A R slots loose) (hx : x ∈ headOf w i :: slots i) :
    pool.Live x := by
  rcases mem_cons.mp hx with rfl | hm
  · exact hl.live_head i
  · exact hl.live_of_active ((hl.active x).mpr (.inl ⟨i, hm⟩))

theorem Layout.live_next (hl : Layout pool w A R slots loose) (i : Slot) :
    pool.Live (pool.eltAt (headOf w i)).next := by
  have hm := (hl.rings.ring i).seg.next_mem
  rcases mem_append.mp hm with hm | hm
  · exact hl.live_node (i := i) (.tail _ hm)
  · have he : (pool.eltAt (headOf w i)).next = headOf w i := mem_singleton.mp hm
    rw [he]
    exact hl.live_head i

theorem Layout.not_loose (hl : Layout pool w A R slots loose) (hx : x ∈ headOf w i :: slots i) :
    x ∉ loose := fun hm => hl.loose_out x hm i hx

theorem Placed.congr (hp : Placed R t due i) (hs : t'.fastRingOffset = t.fastRingOffset) :
    Placed R t' due i := by
  obtain ⟨r, j⟩ := i
  cases r with
  | fast => exact hp
  | slow => exact ⟨hs.trans hp.1, hp.2⟩

theorem Layout.relink (hl : Layout pool w A R slots loose) (hs : SameTimers pool pool')
    (hsame : ∀ x, x ∉ loose → (links pool').next x = (links pool).next x ∧
      (links pool').prev x = (links pool).prev x) : Layout pool' w A R slots loose := by
  exact { hl with
    rings := hl.rings.congr fun i x hx => hsame x (hl.not_loose hx)
    live_head := fun i => (hs.live _).mpr (hl.live_head i)
    live := fun h p hA => (hs.live h).mpr (hl.live h p hA)
    user := fun h p hA => (hs.userHandle h).trans (hl.user h p hA)
    placed := fun i h p hm hA => (hl.placed i h p hm hA).congr (hs.fastRingOffset h) }

/-- A loose timer is put at the head of the list of its slot. -/
theorem Layout.addhead (hl : Layout pool w A R slots (h :: loose)) (i : Slot)
    (hp : ∀ p, A h = some p → Placed R (pool.eltAt h) p.due i) :
    Layout (timerAddhead pool (headOf w i) h) w A R (update slots i (h :: slots i)) loose ∧
      ∀ x ∈ loose, (links (timerAddhead pool (headOf w i) h)).next x = (links pool).next x := by
  have hlive : pool.Live h := hl.live_of_active ((hl.active h).mpr (.inr (.head _)))
  have hlinks := links_timerAddhead (hl.live_head i) hlive (hl.live_next i)
  have hs := sameTimers_timerAddhead (hl.live_head i) hlive (hl.live_next i)
  have hmem (j : Slot) (x : Nat) : x ∈ update slots i (h :: slots i) j ↔
      x ∈ slots j ∨ j = i ∧ x = h := by
    by_cases hj : j = i
    · subst hj
      simp [or_comm]
    · simp [hj]
  obtain ⟨hnh, hnd⟩ := nodup_cons.mp hl.loose_nodup
  have hloose (x : Nat) (hx : x ∈ loose) : x ≠ h := fun he => hnh (he ▸ hx)
  constructor
  · constructor
    case rings =>
      rw [hlinks]
      exact hl.rings.addHead (hl.loose_out h (.head _)) i
    case live_head => exact fun j => (hs.live _).mpr (hl.live_head j)
    case loose_nodup => exact hnd
    case loose_out =>
      intro x hx j hm
      rcases mem_cons.mp hm with rfl | hm
      · exact hl.loose_out _ (.tail _ hx) j (.head _)
      · rcases (hmem j x).mp hm with hm | ⟨_, he⟩
        · exact hl.loose_out x (.tail _ hx) j (.tail _ hm)
        · exact hloose x hx he
    case active =>
      intro x
      rw [hl.active, mem_cons]
      constructor
      · rintro (⟨j, hm⟩ | rfl | hm)
        · exact .inl ⟨j, (hmem j x).mpr (.inl hm)⟩
        · exact .inl ⟨i, (hmem i x).mpr (.inr ⟨rfl, rfl⟩)⟩
        · exact .inr hm
      · rintro (⟨j, hm⟩ | hm)
        · rcases (hmem j x).mp hm with hm | ⟨_, rfl⟩
          · exact .inl ⟨j, hm⟩
          · exact .inr (.inl rfl)
        · exact .inr (.inr hm)
    case live => exact fun x p hA => (hs.live x).mpr (hl.live x p hA)
    case user => exact fun x p hA => (hs.userHandle x).trans (hl.user x p hA)
    case placed =>
      intro j x p hm hA
      refine Placed.congr ?_ (hs.fastRingOffset x)
      rcases (hmem j x).mp hm with hm | ⟨rfl, rfl⟩
      · exact hl.placed j x p hm hA
      · exact hp p hA
  · intro x hx
    rw [hlinks]
    exact (addHead_eq (hl.rings.ring i) (hl.loose_out x (.tail _ hx) i) (hloose x hx)).1

/-- A slot is emptied and its timers become loose, linked as they were. -/
theorem Layout.emptySlot (hl : Layout pool w A R slots []) (i : Slot) :
    Layout (emptySlot pool (headOf w i)) w A R (update slots i []) (slots i) ∧
      Trail (links (Vpp.TwTimer.emptySlot pool (headOf w i))) (slots i) (headOf w i) ∧
      (pool.eltAt (headOf w i)).next = (slots i).headD (headOf w i) := by
  have hlinks := links_emptySlot (hl.live_head i)
  have hs := sameTimers_emptySlot (hl.live_head i)
  have hring := hl.rings.ring i
  obtain ⟨hnh, hnd⟩ := nodup_cons.mp hring.nodup
  have hmem (j : Slot) (x : Nat) : x ∈ update slots i [] j ↔ j ≠ i ∧ x ∈ slots j := by
    by_cases hj : j = i
    · subst hj
      simp
    · simp [hj]
  refine ⟨?_, ?_, hring.seg.next_eq⟩
  · constructor
    case rings =>
      rw [hlinks]
      exact hl.rings.clear i
    case live_head => exact fun j => (hs.live _).mpr (hl.live_head j)
    case loose_nodup => exact hnd
    case loose_out =>
      intro x hx j hm
      rcases mem_cons.mp hm with rfl | hm
      · by_cases hj : j = i
        · subst hj
          exact hnh hx
        · exact hl.rings.disjoint i j (Ne.symm hj) _ (.tail _ hx) (.head _)
      · obtain ⟨hj, hm⟩ := (hmem j x).mp hm
        exact hl.rings.disjoint i j (Ne.symm hj) x (.tail _ hx) (.tail _ hm)
    case active =>
      intro x
      rw [hl.active]
      constructor
      · rintro (⟨j, hm⟩ | hm)
        · by_cases hj : j = i
          · subst hj
            exact .inr hm
          · exact .inl ⟨j, (hmem j x).mpr ⟨hj, hm⟩⟩
        · exact absurd hm (by simp)
      · rintro (⟨j, hm⟩ | hm)
        · exact .inl ⟨j, ((hmem j x).mp hm).2⟩
        · exact .inl ⟨i, hm⟩
    case live => exact fun x p hA => (hs.live x).mpr (hl.live x p hA)
    case user => exact fun x p hA => (hs.userHandle x).trans (hl.user x p hA)
    case placed =>
      intro j x p hm hA
      exact (hl.placed j x p ((hmem j x).mp hm).2 hA).congr (hs.fastRingOffset x)
  · rw [hlinks]
    apply hring.seg.trail.congr
    intro x hx
    have hne : x ≠ headOf w i := fun he => hnh (he ▸ hx)
    simp only [Links.clear, setNext, setPrev, update_of_ne hne]

end

open Vpp.Lib.Links

/-- The wheel holds the pending timers `A`, none of them due before tick `lo`. -/
structure WheelInv (tw : Wheel) (lo : Nat) (A : Nat → Option Pending) : Prop where
  layout : ∃ R slots, Layout tw.timers tw.w A R slots [] ∧ tw.currentSlow = R % twSlotsPerRing ∧
    tw.ticks = twSlotsPerRing * R + tw.currentFast
  fast_le : tw.currentFast ≤ twSlotsPerRing
  due : ∀ h p, A h = some p → lo ≤ p.due

variable {pool : Pool TwTimer} {w : TwRing → Nat → Nat} {A : Nat → Option Pending} {R : Nat}
  {slots : Slot → List Nat} {tw : Wheel}

/-- The slots of `done` have heads of their own, each its own neighbour. -/
structure HeadsOk (tw : Wheel) (done : Set (TwRing × Nat)) : Prop where
  live : ∀ s ∈ done, tw.timers.Live (tw.w s.1 s.2)
  self : ∀ s ∈ done, (links tw.timers).next (tw.w s.1 s.2) = tw.w s.1 s.2 ∧
    (links tw.timers).prev (tw.w s.1 s.2) = tw.w s.1 s.2
  inj : ∀ s ∈ done, ∀ s' ∈ done, tw.w s.1 s.2 = tw.w s'.1 s'.2 → s = s'

theorem HeadsOk.initSlot (hh : HeadsOk tw done) (s : TwRing × Nat) :
    HeadsOk (initSlot tw s) (insert s done) := by
  have hnew := tw.timers.not_live_get
  have hlive : tw.timers.get.1.Live tw.timers.get.2 := Pool.live_get.mpr (.inr rfl)
  have hw : (Vpp.TwTimer.initSlot tw s).w s.1 s.2 = tw.timers.get.2 := by
    simp [Vpp.TwTimer.initSlot]
  have hw' (s' : TwRing × Nat) (hne : s' ≠ s) : (Vpp.TwTimer.initSlot tw s).w s'.1 s'.2 = tw.w s'.1 s'.2 := by
    simp [Vpp.TwTimer.initSlot, hne]
  have hold (s' : TwRing × Nat) (hm : s' ∈ insert s done) (hne : s' ≠ s) : s' ∈ done :=
    hm.resolve_left hne
  constructor
  case live =>
    intro s' hm
    by_cases hs : s' = s
    · subst hs
      rw [hw]
      exact Pool.live_set.mpr hlive
    · rw [hw' s' hs]
      exact Pool.live_set.mpr (Pool.live_get.mpr (.inl (hh.live s' (hold s' hm hs))))
  case self =>
    intro s' hm
    by_cases hs : s' = s
    · subst hs
      rw [hw]
      simp [links, Vpp.TwTimer.initSlot, hlive]
    · rw [hw' s' hs]
      have hm' := hold s' hm hs
      have hne : tw.w s'.1 s'.2 ≠ tw.timers.get.2 := fun he => hnew (he ▸ hh.live s' hm')
      simp only [links, Vpp.TwTimer.initSlot, Pool.eltAt_set_ne hne, Pool.eltAt_get]
      exact hh.self s' hm'
  case inj =>
    intro s₁ h₁ s₂ h₂
    by_cases hs₁ : s₁ = s
    · by_cases hs₂ : s₂ = s
      · exact fun _ => hs₁.trans hs₂.symm
      · subst hs₁
        rw [hw, hw' s₂ hs₂]
        intro he
        exact absurd (he ▸ hh.live s₂ (hold s₂ h₂ hs₂)) hnew
    · rw [hw' s₁ hs₁]
      by_cases hs₂ : s₂ = s
      · subst hs₂
        rw [hw]
        intro he
        exact absurd (he ▸ hh.live s₁ (hold s₁ h₁ hs₁)) hnew
      · rw [hw' s₂ hs₂]
        exact hh.inj s₁ (hold s₁ h₁ hs₁) s₂ (hold s₂ h₂ hs₂)

theorem HeadsOk.foldl (hh : HeadsOk tw done) (todo : List (TwRing × Nat)) :
    ∃ pool w, todo.foldl Vpp.TwTimer.initSlot tw = { tw with timers := pool, w := w } ∧
      HeadsOk { tw with timers := pool, w := w } (fun s => s ∈ done ∨ s ∈ todo) := by
  induction todo generalizing tw done with
  | nil =>
    refine ⟨tw.timers, tw.w, rfl, ?_⟩
    have hset : (fun s => s ∈ done ∨ s ∈ ([] : List (TwRing × Nat))) = done := by
      funext s
      simp
      rfl
    rw [hset]
    exact hh
  | cons s todo ih =>
    obtain ⟨pool, w, he, hok⟩ := ih (hh.initSlot s)
    refine ⟨pool, w, he, ?_⟩
    have hset : (fun s' => s' ∈ done ∨ s' ∈ s :: todo) = fun s' => s' ∈ insert s done ∨ s' ∈ todo := by
      funext s'
      simp only [mem_cons, Set.mem_insert_iff, eq_iff_iff]
      tauto
    rw [hset]
    exact hok

theorem mem_ringSlots (i : Slot) : (i.1, i.2.val) ∈ ringSlots .fast ++ ringSlots .slow := by
  obtain ⟨r, j⟩ := i
  cases r with
  | fast =>
    refine mem_append_left _ (List.mem_map.mpr ⟨j, ?_, rfl⟩)
    exact mem_range.mpr j.isLt
  | slow =>
    refine mem_append_right _ (List.mem_map.mpr ⟨j, ?_, rfl⟩)
    exact mem_range.mpr j.isLt

theorem HeadsOk.layout (hh : HeadsOk tw done) (hdone : ∀ i : Slot, (i.1, i.2.val) ∈ done) (R : Nat) :
    Layout tw.timers tw.w (fun _ => none) R (fun _ => []) [] := by
  constructor
  case rings =>
    constructor
    · intro i
      exact ⟨hh.self _ (hdone i), by simp⟩
    · intro i j hij x hx hx'
      have he : headOf tw.w i = headOf tw.w j :=
        (mem_singleton.mp hx).symm.trans (mem_singleton.mp hx')
      have hs := hh.inj _ (hdone i) _ (hdone j) he
      exact hij (Prod.ext (Prod.ext_iff.mp hs).1 (Fin.ext (Prod.ext_iff.mp hs).2))
  case live_head => exact fun i => hh.live _ (hdone i)
  case loose_nodup => exact .nil
  case loose_out => simp
  case active => simp
  case live => simp
  case user => simp
  case placed => simp

theorem WheelInv.init (hi : twTimerWheelInit timerInterval maxExpirations = some tw) :
    WheelInv tw 0 (fun _ => none) ∧ tw.ticks = 0 ∧ tw.currentTick = 0 := by
  unfold twTimerWheelInit at hi
  split at hi
  · exact absurd hi (by simp)
  · generalize hslots : ringSlots .fast ++ ringSlots .slow = todo at hi
    obtain rfl := Option.some.inj hi
    have hnil (tw : Wheel) : HeadsOk tw ∅ := ⟨fun _ h => h.elim, fun _ h => h.elim, fun _ h => h.elim⟩
    obtain ⟨pool, w, he, hok⟩ := (hnil _).foldl todo
    rw [he]
    refine ⟨⟨⟨0, fun _ => [], hok.layout ?_ 0, rfl, rfl⟩, Nat.zero_le _, by simp⟩, rfl, rfl⟩
    intro i
    exact .inr (hslots ▸ mem_ringSlots i)

end Vpp.TwTimer
