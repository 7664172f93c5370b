import Mathlib.Data.Fintype.Card

namespace Vpp.Vlib.Barrier
open Function

/-- Where a worker is: it has read that it is to wait, has counted itself, or has read that it may go on. -/
inductive Worker
  | running
  | arriving
  | waiting
  | leaving
deriving DecidableEq

inductive MainThread
  | outside
  | syncing
  | holding
  | releasing
deriving DecidableEq

/-- The main thread with `n` workers. -/
structure Threads (n : Nat) where
  waitAtBarrier : Bool
  workersAtBarrier : Nat
  recursionLevel : Int
  main : MainThread
  worker : Fin n → Worker

variable {n : Nat}

def startWorkers : Threads n := ⟨true, 0, 0, .outside, fun _ => .arriving⟩

def vlibWorkerThreadBarrierSync (s : Threads n) : Threads n :=
  if n + 1 < 2 then s
  else
    let s := { s with recursionLevel := s.recursionLevel + 1 }
    if 1 < s.recursionLevel then s else { s with waitAtBarrier := true, main := .syncing }

def pollSync (s : Threads n) : Threads n := if s.workersAtBarrier ≠ n then s else { s with main := .holding }

def vlibWorkerThreadBarrierRelease (s : Threads n) : Threads n :=
  if n + 1 < 2 then s
  else
    let s := { s with recursionLevel := s.recursionLevel - 1 }
    if 0 < s.recursionLevel then s else { s with waitAtBarrier := false, main := .releasing }

def pollRelease (s : Threads n) : Threads n := if 0 < s.workersAtBarrier then s else { s with main := .outside }

/-- One access of a worker to the two words of `vlib_worker_thread_barrier_check`. -/
def Worker.turn (waitAtBarrier : Bool) : Worker → Worker
  | .running => if waitAtBarrier then .arriving else .running
  | .arriving => .waiting
  | .waiting => if waitAtBarrier then .waiting else .leaving
  | .leaving => .running

def vlibWorkerThreadBarrierCheck (s : Threads n) (i : Fin n) : Threads n :=
  { s with
    worker := update s.worker i ((s.worker i).turn s.waitAtBarrier)
    workersAtBarrier := match s.worker i with
      | .arriving => s.workersAtBarrier + 1
      | .leaving => s.workersAtBarrier - 1
      | _ => s.workersAtBarrier }

inductive Step : Threads n → Threads n → Prop
  | sync (h : s.main = .outside ∨ s.main = .holding) : Step s (vlibWorkerThreadBarrierSync s)
  | pollSync (h : s.main = .syncing) : Step s (pollSync s)
  | release (h : s.main = .holding) : Step s (vlibWorkerThreadBarrierRelease s)
  | pollRelease (h : s.main = .releasing) : Step s (pollRelease s)
  | check (i : Fin n) : Step s (vlibWorkerThreadBarrierCheck s i)

def Worker.Counted (pc : Worker) : Prop := pc = .waiting ∨ pc = .leaving

instance : DecidablePred Worker.Counted := fun _ => inferInstanceAs (Decidable (_ ∨ _))

def atBarrier (worker : Fin n → Worker) : Finset (Fin n) := Finset.univ.filter fun i => (worker i).Counted

/-- Where the workers can be; before the first barrier ends they are not running, though none is asked for. -/
def allowed : MainThread → Bool → Worker → Bool
  | .outside, false, pc => pc = .running
  | .outside, true, pc => pc = .arriving ∨ pc = .waiting
  | .syncing, wait, pc => wait ∧ pc ≠ .leaving
  | .holding, wait, pc => wait ∧ pc = .waiting
  | .releasing, wait, pc => ¬wait ∧ pc ≠ .arriving

def Level : MainThread → Int → Prop
  | .outside, level => level = 0
  | .syncing, level => level = 1
  | .holding, level => 1 ≤ level
  | .releasing, level => level = 0

structure Inv (s : Threads n) : Prop where
  count : s.workersAtBarrier = (atBarrier s.worker).card
  level : Level s.main s.recursionLevel
  allowed : ∀ i, allowed s.main s.waitAtBarrier (s.worker i)

theorem allowed_turn (main : MainThread) (h : allowed main wait pc) : allowed main wait (pc.turn wait) := by
  revert h
  cases main <;> cases wait <;> cases pc <;> decide

theorem allowed_sync (h : allowed .outside wait pc) : allowed .syncing true pc := by
  revert h
  cases wait <;> cases pc <;> decide

theorem allowed_pollSync (h : allowed .syncing wait pc) (hc : pc.Counted) : allowed .holding wait pc := by
  revert h hc
  cases wait <;> cases pc <;> decide

theorem allowed_release (h : allowed .holding wait pc) : allowed .releasing false pc := by
  revert h
  cases wait <;> cases pc <;> decide

theorem allowed_pollRelease (h : allowed .releasing wait pc) (hc : ¬pc.Counted) : allowed .outside wait pc := by
  revert h hc
  cases wait <;> cases pc <;> decide

theorem mem_atBarrier {worker : Fin n → Worker} {i : Fin n} : i ∈ atBarrier worker ↔ (worker i).Counted := by
  simp [atBarrier]

theorem atBarrier_enter (worker : Fin n → Worker) {i : Fin n} (hi : ¬(worker i).Counted) (hpc : Worker.Counted pc) :
    (atBarrier (update worker i pc)).card = (atBarrier worker).card + 1 := by
  have hset : atBarrier (update worker i pc) = insert i (atBarrier worker) := by
    ext j
    rw [mem_atBarrier, Finset.mem_insert, mem_atBarrier]
    by_cases hj : j = i
    · simp [hj, hpc]
    · simp [hj]
  rw [hset, Finset.card_insert_of_notMem (by rwa [mem_atBarrier])]

theorem atBarrier_exit (worker : Fin n → Worker) {i : Fin n} (hi : (worker i).Counted) (hpc : ¬Worker.Counted pc) :
    (atBarrier (update worker i pc)).card = (atBarrier worker).card - 1 := by
  have hset : atBarrier (update worker i pc) = (atBarrier worker).erase i := by
    ext j
    rw [mem_atBarrier, Finset.mem_erase, mem_atBarrier]
    by_cases hj : j = i
    · simp [hj, hpc]
    · simp [hj]
  rw [hset, Finset.card_erase_of_mem (by rwa [mem_atBarrier])]

theorem atBarrier_stay (worker : Fin n → Worker) {i : Fin n} (h : Worker.Counted pc ↔ (worker i).Counted) :
    atBarrier (update worker i pc) = atBarrier worker := by
  ext j
  rw [mem_atBarrier, mem_atBarrier]
  by_cases hj : j = i
  · rw [hj, update_self, h]
  · rw [update_of_ne hj]

theorem inv_start : Inv (startWorkers (n := n)) := by
  apply Inv.mk
  · have hnone : atBarrier (fun _ : Fin n => Worker.arriving) = ∅ := by
      simp [atBarrier, Worker.Counted]
    rw [startWorkers, hnone, Finset.card_empty]
  · rfl
  · exact fun _ => rfl

variable {s : Threads n}

theorem Inv.check (h : Inv s) (i : Fin n) : Inv (vlibWorkerThreadBarrierCheck s i) := by
  apply Inv.mk
  · simp only [vlibWorkerThreadBarrierCheck]
    cases hw : s.worker i with
    | running =>
      rw [atBarrier_stay _ (by rw [hw]; cases s.waitAtBarrier <;> decide)]
      exact h.count
    | arriving =>
      rw [Worker.turn, atBarrier_enter _ (by rw [hw]; decide) (by decide), h.count]
    | waiting =>
      rw [atBarrier_stay _ (by rw [hw]; cases s.waitAtBarrier <;> decide)]
      exact h.count
    | leaving =>
      rw [Worker.turn, atBarrier_exit _ (by rw [hw]; decide) (by decide), h.count]
  · exact h.level
  · intro j
    simp only [vlibWorkerThreadBarrierCheck]
    by_cases hj : j = i
    · rw [hj, update_self]
      exact allowed_turn _ (h.allowed i)
    · rw [update_of_ne hj]
      exact h.allowed j

theorem Inv.all_counted (h : Inv s) (hn : s.workersAtBarrier = n) (i : Fin n) :
    (s.worker i).Counted := by
  have hall : atBarrier s.worker = Finset.univ := by
    apply Finset.eq_univ_of_card
    rw [← h.count, hn, Fintype.card_fin]
  rw [← mem_atBarrier, hall]
  exact Finset.mem_univ i

theorem Inv.none_counted (h : Inv s) (hn : s.workersAtBarrier = 0) (i : Fin n) :
    ¬(s.worker i).Counted := by
  rw [h.count, Finset.card_eq_zero] at hn
  rw [← mem_atBarrier, hn]
  exact Finset.notMem_empty i

theorem Inv.step {s t : Threads n} (h : Inv s) (hstep : Step s t) : Inv t := by
  have hlevel := h.level
  have hall := h.allowed
  cases hstep with
  | check i => exact h.check i
  | sync hm =>
    simp only [vlibWorkerThreadBarrierSync]
    split
    · exact h
    · cases hm with
      | inl hm =>
        rw [hm] at hlevel hall
        rw [if_neg (by rw [show s.recursionLevel = 0 from hlevel]; decide)]
        exact ⟨h.count, by rw [show s.recursionLevel = 0 from hlevel]; rfl, fun i => allowed_sync (hall i)⟩
      | inr hm =>
        rw [hm] at hlevel
        have hnest : 1 < s.recursionLevel + 1 := Int.lt_add_one_of_le hlevel
        rw [if_pos hnest]
        exact ⟨h.count, by rw [hm]; exact Int.le_of_lt hnest, h.allowed⟩
  | pollSync hm =>
    rw [hm] at hlevel hall
    simp only [pollSync]
    split
    · exact h
    · rename_i hn
      have hc := h.all_counted (Decidable.not_not.1 hn)
      exact ⟨h.count, Int.le_of_eq (Eq.symm hlevel), fun i => allowed_pollSync (hall i) (hc i)⟩
  | release hm =>
    simp only [vlibWorkerThreadBarrierRelease]
    split
    · exact h
    · split
      case isTrue hnest => exact ⟨h.count, by rw [hm]; exact hnest, h.allowed⟩
      case isFalse hnest =>
        rw [hm] at hlevel hall
        have hone : 1 ≤ s.recursionLevel := hlevel
        exact ⟨h.count, by simp only [Level]; omega, fun i => allowed_release (hall i)⟩
  | pollRelease hm =>
    rw [hm] at hlevel hall
    simp only [pollRelease]
    split
    · exact h
    · rename_i hn
      have hc := h.none_counted (Nat.eq_zero_of_not_pos hn)
      exact ⟨h.count, hlevel, fun i => allowed_pollRelease (hall i) (hc i)⟩

theorem Inv.run {s t : Threads n} (h : Inv s) (hrun : Relation.ReflTransGen Step s t) : Inv t := by
  induction hrun with
  | refl => exact h
  | tail _ hstep ih => exact ih.step hstep

/-- Where the workers end up while the main thread waits for them. -/
def goal (wait : Bool) : Worker := if wait then .waiting else .running

theorem turn_turn (hm : main = .syncing ∨ main = .releasing) (h : allowed main wait pc) :
    (pc.turn wait).turn wait = goal wait := by
  revert h
  cases hm with
  | inl hm => subst hm; cases wait <;> cases pc <;> decide
  | inr hm => subst hm; cases wait <;> cases pc <;> decide

def WorkerStep (s t : Threads n) : Prop := ∃ i, t = vlibWorkerThreadBarrierCheck s i

theorem Inv.settle (h : Inv s) (hm : s.main = .syncing ∨ s.main = .releasing) (is : List (Fin n)) :
    ∃ t, Relation.ReflTransGen WorkerStep s t ∧ Inv t ∧ t.main = s.main ∧ t.waitAtBarrier = s.waitAtBarrier ∧
      ∀ i ∈ is, t.worker i = goal s.waitAtBarrier := by
  induction is with
  | nil => exact ⟨s, .refl, h, rfl, rfl, fun i hi => absurd hi List.not_mem_nil⟩
  | cons i is ih =>
    obtain ⟨t, hrun, ht, hmain, hwait, hall⟩ := ih
    refine ⟨vlibWorkerThreadBarrierCheck (vlibWorkerThreadBarrierCheck t i) i, (hrun.tail ⟨i, rfl⟩).tail ⟨i, rfl⟩,
      (ht.check i).check i, hmain, hwait, fun j hj => ?_⟩
    by_cases hji : j = i
    · have hi := ht.allowed i
      rw [hmain] at hi
      simp only [vlibWorkerThreadBarrierCheck, hji, update_self]
      rw [turn_turn hm hi, hwait]
    · simp only [vlibWorkerThreadBarrierCheck, update_of_ne hji]
      exact hall j (List.mem_of_ne_of_mem hji hj)

theorem goal_counted (h : allowed .syncing wait pc) : (goal wait).Counted := by
  revert h
  cases wait <;> cases pc <;> decide

theorem goal_notCounted (h : allowed .releasing wait pc) : ¬(goal wait).Counted := by
  revert h
  cases wait <;> cases pc <;> decide

/-- **The barrier**: while the main thread holds it every worker waits, behind it every worker has gone on, and the main
thread never waits for something that the workers alone cannot bring about. -/
theorem barrier_holds {s : Threads n} (hrun : Relation.ReflTransGen Step startWorkers s) :
    (s.main = .holding → ∀ i, s.worker i = .waiting) ∧
    (s.main = .outside → s.waitAtBarrier = false → s.workersAtBarrier = 0 ∧ ∀ i, s.worker i = .running) ∧
    s.workersAtBarrier ≤ n ∧
    (s.main = .syncing → ∃ t, Relation.ReflTransGen WorkerStep s t ∧ (pollSync t).main = .holding) ∧
    (s.main = .releasing → ∃ t, Relation.ReflTransGen WorkerStep s t ∧ (pollRelease t).main = .outside) := by
  have h := inv_start.run hrun
  have hall := h.allowed
  have hnone : (∀ i, ¬(s.worker i).Counted) → s.workersAtBarrier = 0 := fun hno => by
    rw [h.count, Finset.card_eq_zero]
    exact Finset.eq_empty_of_forall_notMem fun i hi => hno i (mem_atBarrier.1 hi)
  refine ⟨fun hm i => ?_, fun hm hb => ?_, ?_, fun hm => ?_, fun hm => ?_⟩
  · rw [hm] at hall
    have hi := hall i
    simp only [allowed, Bool.decide_and, Bool.and_eq_true, decide_eq_true_eq] at hi
    exact hi.2
  · rw [hm, hb] at hall
    have hw : ∀ i, s.worker i = .running := fun i => of_decide_eq_true (hall i)
    refine ⟨hnone fun i hi => ?_, hw⟩
    rw [hw i] at hi
    revert hi
    decide
  · rw [h.count]
    exact (Finset.card_le_univ _).trans_eq (Fintype.card_fin n)
  · obtain ⟨t, hturns, ht, -, -, hgoal⟩ := h.settle (.inl hm) (List.finRange n)
    rw [hm] at hall
    have hset : atBarrier t.worker = Finset.univ := Finset.eq_univ_of_forall fun i => by
      rw [mem_atBarrier, hgoal i (List.mem_finRange i)]
      exact goal_counted (hall i)
    have hn : t.workersAtBarrier = n := by rw [ht.count, hset, Finset.card_univ, Fintype.card_fin]
    exact ⟨t, hturns, by rw [pollSync, if_neg (not_not.2 hn)]⟩
  · obtain ⟨t, hturns, ht, -, -, hgoal⟩ := h.settle (.inr hm) (List.finRange n)
    rw [hm] at hall
    have hset : atBarrier t.worker = ∅ := Finset.eq_empty_of_forall_notMem fun i hi => by
      rw [mem_atBarrier, hgoal i (List.mem_finRange i)] at hi
      exact goal_notCounted (hall i) hi
    have hn : ¬0 < t.workersAtBarrier := by
      rw [ht.count, hset, Finset.card_empty]
      decide
    exact ⟨t, hturns, by rw [pollRelease, if_neg hn]⟩

/-- One worker, at the first barrier. -/
theorem barrier_holds_first :
    (pollSync (vlibWorkerThreadBarrierSync (vlibWorkerThreadBarrierCheck (startWorkers (n := 1)) 0))).worker 0 =
        .waiting :=
  (barrier_holds (.tail (.tail (.tail .refl (.check 0)) (.sync (.inl rfl))) (.pollSync rfl))).1 rfl 0

end Vpp.Vlib.Barrier
