import Vpp.Map.Reass

namespace Vpp.Map
open Vpp.Lib Function Option

variable {c : ReassConf} {m m' : MapMain} {now : ℚ} {fifo : List Nat} {chain : Nat → List Nat} {r : Nat}

theorem Inv.setFragments (h : Inv c m now fifo chain) (f : (Fin 5 → BitVec 32) → Fin 5 → BitVec 32) (r n : Nat)
    (hn : n = (cachedAll (m.pool.modify r fun r => { r with fragments := f r.fragments }) fifo).card) :
    Inv c { m with pool := m.pool.modify r fun r => { r with fragments := f r.fragments }, bufferedCounter := n } now
      fifo chain := by
  have hts := Pool.proj_modify (f := MapIp4Reass.ts) (g := fun r => { r with fragments := f r.fragments })
    (fun _ => rfl) m.pool r
  have hbucket := Pool.proj_modify (f := MapIp4Reass.bucket) (g := fun r => { r with fragments := f r.fragments })
    (fun _ => rfl) m.pool r
  have hlinks := links_modify (g := fun r => { r with fragments := f r.fragments }) (fun _ => rfl) (fun _ => rfl)
    m.pool r
  have hnexts := bucketNexts_modify (g := fun r => { r with fragments := f r.fragments }) (fun _ => rfl) m.pool r
  refine ⟨?_, ?_, ?_, ?_, h.chains.congr hnexts rfl hbucket, h.allocated, hn, ?_⟩
  · intro i
    rw [h.live, Pool.live_modify]
  · show (links (m.pool.modify r _)).Queue _ _ _
    rw [hlinks]
    exact h.queue
  · simp only [hts]
    exact h.sorted
  · simp only [hts]
    exact h.past
  · simp only [Pool.length_modify]
    exact h.size

theorem cachedAll_modify (hnd : fifo.Nodup) (hr : r ∈ fifo) (hlive : m.pool.Live r)
    (f : (Fin 5 → BitVec 32) → Fin 5 → BitVec 32) :
    cachedAll (m.pool.modify r fun r => { r with fragments := f r.fragments }) fifo +
        occupied isFragment (m.pool.eltAt r).fragments =
      cachedAll m.pool fifo + occupied isFragment (f (m.pool.eltAt r).fragments) := by
  obtain ⟨xs, ys, rfl⟩ := List.append_of_mem hr
  have hnot : r ∉ xs ++ ys := (List.nodup_middle.mp hnd |> List.nodup_cons.mp).1
  have hrest : cachedAll (m.pool.modify r fun r => { r with fragments := f r.fragments }) (xs ++ ys) =
      cachedAll m.pool (xs ++ ys) := by
    apply cachedAll_congr
    intro i hi
    rw [Pool.eltAt_modify_ne (ne_of_mem_of_not_mem hi hnot)]
  rw [cachedAll_split, cachedAll_split, hrest, Pool.eltAt_modify_self hlive]
  rw [add_comm, add_comm (occupied isFragment _) (cachedAll _ _), ← add_assoc]

theorem Inv.getFragments (h : Inv c m now fifo chain) (hr : m.pool.Live r)
    (hres : mapIp4ReassGetFragments m r = (m', pi)) :
    Inv c m' now fifo chain ∧ cachedAll m.pool fifo = pi + cachedAll m'.pool fifo ∧
      occupied isFragment (m'.pool.eltAt r).fragments = 0 := by
  obtain ⟨rfl, rfl⟩ := Prod.mk.inj hres
  have hsum := cachedAll_modify h.queue.nodup ((h.live r).mpr hr) hr fun _ _ => none32
  rw [occupied_none, add_zero, ← coe_cached] at hsum
  refine ⟨h.setFragments (fun _ _ => none32) r _ ?_, ?_, ?_⟩
  · rw [h.counter, ← hsum, Multiset.card_add, Multiset.coe_card, Nat.add_sub_cancel]
  · rw [← hsum, add_comm]
  · rw [Pool.eltAt_modify_self hr]
    exact occupied_none

theorem Inv.addFragment (h : Inv c m now fifo chain) (hr : m.pool.Live r) (hpi : isFragment pi)
    (hres : mapIp4ReassAddFragment c m r pi = (m', v)) :
    Inv c m' now fifo chain ∧
      cachedAll m'.pool fifo = (if v = 0 then {pi} else 0) + cachedAll m.pool fifo := by
  rw [mapIp4ReassAddFragment] at hres
  split at hres
  · obtain ⟨rfl, rfl⟩ := Prod.mk.inj hres
    exact ⟨h, by simp⟩
  · cases hfind : (List.finRange 5).find? fun i => decide ((m.pool.eltAt r).fragments i = none32) with
    | none =>
      rw [hfind] at hres
      obtain ⟨rfl, rfl⟩ := Prod.mk.inj hres
      exact ⟨h, by simp⟩
    | some i =>
      rw [hfind] at hres
      obtain ⟨rfl, rfl⟩ := Prod.mk.inj hres
      have hfree : ¬ isFragment ((m.pool.eltAt r).fragments i) := by
        simpa using List.find?_some hfind
      have hsum := cachedAll_modify h.queue.nodup ((h.live r).mpr hr) hr fun g => update g i pi
      rw [occupied_fill hfree hpi, ← Multiset.singleton_add, ← add_assoc, add_left_inj, add_comm] at hsum
      refine ⟨h.setFragments (fun g => update g i pi) r _ ?_, ?_⟩
      · rw [hsum, Multiset.card_add, Multiset.card_singleton, h.counter, add_comm]
      · rw [if_pos rfl]
        exact hsum

theorem Chains.erase (h : Chains c m live chain) (hr : r ∈ live)
    (hnexts : Linked (bucketNexts m'.pool) mapReassIndexNone
      (m'.hashTable (m.pool.eltAt r).bucket) (xs ++ ys))
    (hchain : chain (m.pool.eltAt r).bucket = xs ++ r :: ys)
    (hother : ∀ i, i ∉ chain (m.pool.eltAt r).bucket → bucketNexts m'.pool i = bucketNexts m.pool i)
    (htable : ∀ b ≠ (m.pool.eltAt r).bucket, m'.hashTable b = m.hashTable b) (hdata : SameData m.pool m'.pool)
    (hlive : ∀ i, i ∈ live' ↔ i ∈ live ∧ i ≠ r) :
    Chains c m' live' (update chain (m.pool.eltAt r).bucket (xs ++ ys)) := by
  have hb := h.bucket_lt r hr
  have hnd := h.nodup _ hb
  rw [hchain] at hnd
  have hnot : r ∉ xs ++ ys := (List.nodup_cons.mp (List.nodup_middle.mp hnd)).1
  refine ⟨?_, ?_, ?_, ?_⟩
  · intro b hlt
    by_cases he : b = (m.pool.eltAt r).bucket
    · rw [he, update_self]
      exact hnexts
    · rw [update_of_ne he, htable b he]
      apply (h.linked b hlt).congr
      intro i hi
      apply hother
      intro hi'
      exact he (((h.mem b hlt i).mp hi).2.symm.trans ((h.mem _ hb i).mp hi').2)
  · intro b hlt i
    rw [hlive, hdata.bucket]
    by_cases he : b = (m.pool.eltAt r).bucket
    · have hmem := h.mem _ hb i
      rw [hchain, List.mem_append, List.mem_cons, or_left_comm, ← List.mem_append] at hmem
      rw [he, update_self]
      constructor
      · intro hi
        obtain ⟨hl, hbi⟩ := hmem.mp (.inr hi)
        exact ⟨⟨hl, ne_of_mem_of_not_mem hi hnot⟩, hbi⟩
      · intro ⟨⟨hl, hne⟩, hbi⟩
        exact (hmem.mpr ⟨hl, hbi⟩).resolve_left hne
    · rw [update_of_ne he, h.mem b hlt i]
      constructor
      · intro ⟨hl, hbi⟩
        exact ⟨⟨hl, fun hir => he (hir ▸ hbi.symm)⟩, hbi⟩
      · intro ⟨⟨hl, _⟩, hbi⟩
        exact ⟨hl, hbi⟩
  · intro b hlt
    by_cases he : b = (m.pool.eltAt r).bucket
    · rw [he, update_self]
      exact (List.nodup_cons.mp (List.nodup_middle.mp hnd)).2
    · rw [update_of_ne he]
      exact h.nodup b hlt
  · intro i hi
    rw [hdata.bucket]
    exact h.bucket_lt i ((hlive i).mp hi).1

/-- Out of the chain of its bucket, and nothing else. -/
theorem Chains.unlinkBucket (h : Chains c m live chain) (hr : r ∈ live) (hpool : ∀ i ∈ live, m.pool.Live i)
    (hlive : ∀ i, i ∈ live' ↔ i ∈ live ∧ i ≠ r) :
    ∃ p table chain', Map.unlinkBucket m r = some { m with pool := p, hashTable := table } ∧
      Chains c { m with pool := p, hashTable := table } live' chain' ∧ SameData m.pool p ∧ links p = links m.pool := by
  have hb := h.bucket_lt r hr
  obtain ⟨xs, ys, hchain⟩ := List.append_of_mem ((h.mem _ hb r).mpr ⟨hr, rfl⟩)
  have hlinked := h.linked _ hb
  have hnd := h.nodup _ hb
  have hlen := h.length_le hpool hb
  rw [hchain] at hlinked hnd hlen
  have hnot : r ∉ xs ++ ys := (List.nodup_cons.mp (List.nodup_middle.mp hnd)).1
  have hwalk := findPred_eq hlinked (fun hm => hnot (List.mem_append_left ys hm))
    (Nat.le_trans (by simp) hlen) none
  rw [or_none] at hwalk
  cases hlast : xs.getLast? with
  | none =>
    obtain rfl := List.getLast?_eq_none_iff.mp hlast
    rw [hlast] at hwalk
    refine ⟨m.pool, update m.hashTable (m.pool.eltAt r).bucket (bucketNexts m.pool r),
      update chain (m.pool.eltAt r).bucket ([] ++ ys), ?_, ?_, sameData_refl _, rfl⟩
    · rw [Map.unlinkBucket, hwalk]
      rfl
    · refine h.erase hr ?_ hchain (fun _ _ => rfl) ?_ (sameData_refl _) hlive
      · have htable : update m.hashTable (m.pool.eltAt r).bucket (bucketNexts m.pool r)
            (m.pool.eltAt r).bucket = bucketNexts m.pool r := update_self _ _ _
        simp only [htable]
        exact hlinked.2.2
      · intro b hne
        exact update_of_ne hne _ _
  | some p =>
    obtain ⟨xs, rfl⟩ := List.getLast?_eq_some_iff.mp hlast
    rw [hlast] at hwalk
    rw [List.append_assoc] at hlinked hnd
    have hp : p ∈ chain (m.pool.eltAt r).bucket := by
      rw [hchain]
      simp
    have hlive' : m.pool.Live p := hpool p ((h.mem _ hb p).mp hp).1
    refine ⟨setBucketNext m.pool p (bucketNexts m.pool r), m.hashTable,
      update chain (m.pool.eltAt r).bucket (xs ++ [p] ++ ys), ?_, ?_, sameData_setBucketNext _ _,
      links_setBucketNext _ _⟩
    · rw [Map.unlinkBucket, hwalk]
      rfl
    · refine h.erase hr ?_ hchain ?_ (fun _ _ => rfl) (sameData_setBucketNext _ _) hlive
      · rw [bucketNexts_setBucketNext p _ hlive', List.append_assoc]
        exact hlinked.unlink hnd
      · intro i hi
        rw [bucketNexts_setBucketNext p _ hlive']
        exact update_of_ne (ne_of_mem_of_not_mem hp hi).symm _ _

theorem links_unlinkFifo (h : (links m.pool).Queue mapReassIndexNone m.fifoLast (xs ++ r :: ys))
    (hpool : ∀ i ∈ xs ++ r :: ys, m.pool.Live i) :
    links (setFifoPrev (setFifoNext m.pool (m.pool.eltAt r).fifoPrev (m.pool.eltAt r).fifoNext)
      (m.pool.eltAt r).fifoNext (m.pool.eltAt r).fifoPrev) = (links m.pool).unlink r := by
  have hring := h.ring
  have hmem : ∀ i, i ∈ r :: (xs.reverse ++ ys.reverse) → m.pool.Live i := by
    intro i hi
    apply hpool
    simpa [or_left_comm] using hi
  have hprev : m.pool.Live (m.pool.eltAt r).fifoPrev := hmem _ hring.seg.prev_mem
  have hnext : m.pool.Live (m.pool.eltAt r).fifoNext := by
    have hn := hring.seg.next_mem
    rw [List.mem_append, List.mem_singleton, or_comm, ← List.mem_cons] at hn
    exact hmem _ hn
  rw [links_setFifoPrev _ _ ((sameData_setFifoNext _ _).live _ |>.mpr hnext), links_setFifoNext _ _ hprev]
  rfl

theorem unlinkFifo_spec (h : (links m.pool).Queue mapReassIndexNone m.fifoLast (xs ++ r :: ys))
    (hpool : ∀ i ∈ xs ++ r :: ys, m.pool.Live i) (hend : mapReassIndexNone ∉ xs ++ ys) :
    ∃ p last, unlinkFifo m r = { m with pool := p, fifoLast := last } ∧
      (links p).Queue mapReassIndexNone last (xs ++ ys) ∧ SameData m.pool p ∧ bucketNexts p = bucketNexts m.pool := by
  have hself := h.next_eq_self_iff
  by_cases hnext : (m.pool.eltAt r).fifoNext = r
  · obtain ⟨rfl, rfl⟩ := hself.mp hnext
    refine ⟨m.pool, mapReassIndexNone, ?_, rfl, sameData_refl _, rfl⟩
    rw [unlinkFifo, if_pos hnext]
  · have hne : xs ++ ys ≠ [] := fun he => hnext (hself.mpr (List.append_eq_nil_iff.mp he))
    refine ⟨_, _, if_neg hnext, ?_, ?_, ?_⟩
    · rw [links_unlinkFifo h hpool]
      exact h.remove hne hend
    · exact (sameData_setFifoNext _ _).trans (sameData_setFifoPrev _ _)
    · rw [bucketNexts_setFifoPrev, bucketNexts_setFifoNext]

theorem bucketNexts_put (p : Pool MapIp4Reass) (r : Nat) : bucketNexts (p.put r) = bucketNexts p := by
  funext i
  rw [bucketNexts, Pool.eltAt_put]
  rfl

theorem links_put (p : Pool MapIp4Reass) (r : Nat) : links (p.put r) = links p := by
  simp only [links, Pool.eltAt_put]

/-- An entry that is freed leaves the pool, its chain and the list, and hands out what it had. -/
theorem Inv.free (h : Inv c m now (xs ++ r :: ys) chain) :
    ∃ m' pi chain', mapIp4ReassFree m r = some (m', pi) ∧ Inv c m' now (xs ++ ys) chain' ∧
      cachedAll m.pool (xs ++ r :: ys) = pi + cachedAll m'.pool (xs ++ ys) := by
  have hmem : r ∈ xs ++ r :: ys := List.mem_append_right xs List.mem_cons_self
  have hr : m.pool.Live r := (h.live r).mp hmem
  obtain ⟨m₁, pi, hget⟩ : ∃ m₁ pi, mapIp4ReassGetFragments m r = (m₁, pi) := ⟨_, _, rfl⟩
  obtain ⟨h₁, hsum, hzero⟩ := h.getFragments hr hget
  have hnd := List.nodup_cons.mp (List.nodup_middle.mp h₁.queue.nodup)
  have herase : ∀ i, i ∈ xs ++ ys ↔ i ∈ xs ++ r :: ys ∧ i ≠ r := by
    intro i
    constructor
    · intro hi
      exact ⟨by simpa [or_left_comm] using .inr (List.mem_append.mp hi), ne_of_mem_of_not_mem hi hnd.1⟩
    · intro ⟨hi, hne⟩
      simpa [hne] using hi
  obtain ⟨p₂, table, chain', hbucket, hchains, hdata₂, hlinks⟩ :=
    h₁.chains.unlinkBucket hmem (fun i hi => (h₁.live i).mp hi) herase
  have hqueue₂ : (links p₂).Queue mapReassIndexNone m₁.fifoLast (xs ++ r :: ys) := by
    rw [hlinks]
    exact h₁.queue
  obtain ⟨p₃, last, hfifo, hqueue, hdata₃, hnexts⟩ :=
    unlinkFifo_spec (m := { m₁ with pool := p₂, hashTable := table }) hqueue₂
        (fun i hi => (hdata₂.live i).mpr ((h₁.live i).mp hi))
      (fun hi => absurd (h₁.lt_none ((herase _).mp hi).1) (Nat.lt_irrefl _))
  have hdata := hdata₂.trans hdata₃
  have hrest : cachedAll m₁.pool (xs ++ r :: ys) = cachedAll (p₃.put r) (xs ++ ys) := by
    rw [cachedAll_split, hzero, zero_add]
    symm
    apply cachedAll_congr
    intro i _
    rw [Pool.eltAt_put, hdata.fragments]
  refine ⟨{ m₁ with pool := p₃.put r, hashTable := table, fifoLast := last, allocated := m₁.allocated - 1 }, pi, chain',
    ?_, ⟨?_, ?_, ?_, ?_, ?_, ?_, ?_, ?_⟩, ?_⟩
  · rw [mapIp4ReassFree, hget]
    simp only [hbucket, hfifo, map_some]
  · intro i
    rw [herase, h₁.live, Pool.live_put, hdata.live]
  · rw [links_put]
    exact hqueue
  · simp only [Pool.eltAt_put, hdata.ts]
    exact h₁.sorted.sublist ((List.sublist_cons_self r ys).append_left xs)
  · intro i hi
    rw [Pool.eltAt_put, hdata.ts]
    exact h₁.past i ((herase i).mp hi).1
  · refine hchains.congr ?_ rfl ?_
    · rw [bucketNexts_put, hnexts]
    · intro i
      rw [Pool.eltAt_put, hdata₃.bucket]
  · show m₁.allocated - 1 = _
    rw [h₁.allocated, List.length_append, List.length_append, List.length_cons]
    omega
  · rw [h₁.counter, hrest]
  · rw [Pool.length_put, hdata.length]
    exact h₁.size
  · rw [hsum, hrest]

theorem Inv.collectGarbage (h : Inv c m now fifo chain) (hn : fifo.length ≤ n) :
    ∃ m' pi fifo' chain', Map.collectGarbage c t n m = some (m', pi) ∧ Inv c m' now fifo' chain' ∧
      cachedAll m.pool fifo = pi + cachedAll m'.pool fifo' := by
  induction n generalizing m fifo chain with
  | zero =>
    obtain rfl := List.length_eq_zero_iff.mp (Nat.le_zero.mp hn)
    have hnone : m.fifoLast = mapReassIndexNone := h.queue
    refine ⟨m, [], [], chain, ?_, h, (zero_add _).symm⟩
    rw [Map.collectGarbage, if_pos hnone]
  | succ n ih =>
    rw [Map.collectGarbage]
    by_cases hlast : m.fifoLast = mapReassIndexNone
    · exact ⟨m, [], fifo, chain, if_pos hlast, h, (zero_add _).symm⟩
    · rw [if_neg hlast]
      by_cases hold : (m.pool.eltAt m.fifoLast).ts + c.lifetime < t
      · rw [if_pos hold]
        obtain ⟨ys, hys⟩ := h.queue.last_mem hlast
        rw [hys] at h hn ⊢
        have hfirst : Inv c m now ([] ++ m.fifoLast :: ys) chain := h
        obtain ⟨m₁, pi₁, chain₁, hfree, h₁, hsum₁⟩ := hfirst.free
        obtain ⟨m₂, pi₂, fifo₂, chain₂, hrest, h₂, hsum₂⟩ := ih h₁ (Nat.le_of_succ_le_succ hn)
        refine ⟨m₂, pi₁ ++ pi₂, fifo₂, chain₂, ?_, h₂, ?_⟩
        · simp only [hfree, bind_some, hrest, map_some]
        · rw [← Multiset.coe_add, add_assoc, ← hsum₂]
          exact hsum₁
      · exact ⟨m, [], fifo, chain, if_neg hold, h, (zero_add _).symm⟩

end Vpp.Map
