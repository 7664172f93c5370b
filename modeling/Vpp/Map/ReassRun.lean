import Vpp.Map.ReassFree

namespace Vpp.Map
open Vpp.Lib Function List Option

section

variable {c : ReassConf} {m m' : MapMain} {now : ℚ} {fifo : List Nat} {chain : Nat → List Nat}

theorem u16_of_lt (h : v < 2 ^ 16) : u16 v = v := Nat.mod_eq_of_lt h

theorem bucketOf_lt (c : ReassConf) (k : MapIp4ReassKey) : c.bucketOf k < buckets c := by
  have hlt := (c.hash k).isLt
  have hlt31 := c.log2len_lt
  have hsplit : 2 ^ 32 = 2 ^ c.log2len * 2 ^ (32 - c.log2len) := by
    rw [← pow_add]
    congr 1
    omega
  rw [ReassConf.bucketOf, buckets, BitVec.toNat_ushiftRight, Nat.shiftRight_eq_div_pow]
  rw [hsplit] at hlt
  exact Nat.div_lt_of_lt_mul (Nat.mul_comm _ _ ▸ hlt)

/-- The field of an entry has 16 bits for the number of its chain. -/
def ReassConf.Fits (c : ReassConf) (k : MapIp4ReassKey) : Prop := c.bucketOf k < 2 ^ 16

instance (c : ReassConf) (k : MapIp4ReassKey) : Decidable (c.Fits k) := Nat.decLt _ _

theorem ReassConf.fits_of_le (h : c.log2len ≤ 16) (k : MapIp4ReassKey) : c.Fits k := by
  exact Nat.lt_of_lt_of_le (bucketOf_lt c k) (Nat.pow_le_pow_right (by decide) h)

theorem Inv.length_get_le (h : Inv c m now fifo chain) (hroom : m.allocated < c.poolSize) :
    m.pool.get.1.elts.length ≤ c.poolSize := by
  rw [Pool.length_get]
  split
  · rename_i hfree
    have hsub : List.range m.pool.elts.length ⊆ fifo := by
      intro i hi
      refine (h.live i).mpr ⟨mem_range.mp hi, ?_⟩
      rw [hfree]
      exact not_mem_nil
    have hle := (subperm_of_subset nodup_range hsub).length_le
    rw [length_range, ← h.allocated] at hle
    omega
  · exact h.size

theorem Chains.push (h : Chains c m live chain) (hr : r ∉ live) (hb : b < buckets c) (hne : r ≠ mapReassIndexNone)
    (hnexts : bucketNexts m'.pool = update (bucketNexts m.pool) r (m.hashTable b))
    (htable : m'.hashTable = update m.hashTable b r)
    (hbucket : ∀ i, (m'.pool.eltAt i).bucket = if i = r then b else (m.pool.eltAt i).bucket)
    (hlive : ∀ i, i ∈ live' ↔ i ∈ live ∨ i = r) :
    Chains c m' live' (update chain b (r :: chain b)) := by
  have hnot : ∀ b' < buckets c, r ∉ chain b' := fun b' hb' hm => hr ((h.mem b' hb' r).mp hm).1
  have hother : ∀ i ∈ live, (m'.pool.eltAt i).bucket = (m.pool.eltAt i).bucket := by
    intro i hi
    rw [hbucket, if_neg (ne_of_mem_of_not_mem hi hr)]
  have hself : (m'.pool.eltAt r).bucket = b := by rw [hbucket, if_pos rfl]
  have hmem : ∀ b', (∀ i, i ∈ chain b' ↔ i ∈ live ∧ (m.pool.eltAt i).bucket = b') →
      ∀ i, i ∈ live ∧ (m'.pool.eltAt i).bucket = b' ↔ i ∈ chain b' := by
    intro b' hm i
    rw [hm]
    constructor
    · intro ⟨hi, he⟩
      exact ⟨hi, (hother i hi).symm.trans he⟩
    · intro ⟨hi, he⟩
      exact ⟨hi, (hother i hi).trans he⟩
  refine ⟨?_, ?_, ?_, ?_⟩
  · intro b' hlt
    rw [hnexts, htable]
    by_cases he : b' = b
    · rw [he, update_self, update_self]
      exact (h.linked b hb).push (hnot b hb) hne
    · rw [update_of_ne he, update_of_ne he]
      apply (h.linked b' hlt).congr
      intro i hi
      exact update_of_ne (ne_of_mem_of_not_mem hi (hnot b' hlt)) _ _
  · intro b' hlt i
    rw [hlive, or_and_right, hmem b' (h.mem b' hlt)]
    by_cases he : b' = b
    · rw [he, update_self, mem_cons, or_comm]
      apply or_congr_right
      constructor
      · intro hi
        exact ⟨hi, hi ▸ hself⟩
      · exact fun hi => hi.1
    · rw [update_of_ne he]
      constructor
      · exact .inl
      · intro hi
        refine hi.resolve_right fun ⟨hir, hbi⟩ => he ?_
        rw [← hbi, hir, hself]
  · intro b' hlt
    by_cases he : b' = b
    · rw [he, update_self]
      exact nodup_cons.mpr ⟨hnot b hb, h.nodup b hb⟩
    · rw [update_of_ne he]
      exact h.nodup b' hlt
  · intro i hi
    obtain hi | rfl := (hlive i).mp hi
    · rw [hother i hi]
      exact h.bucket_lt i hi
    · rw [hself]
      exact hb

/-- Entry `r` is new, in bucket `b` before `n` and without fragments; the others are as before. -/
structure Added (p p' : Pool MapIp4Reass) (r b n : Nat) (now : ℚ) : Prop where
  live : ∀ i, p'.Live i ↔ p.Live i
  length : p'.elts.length = p.elts.length
  ts : ∀ i, (p'.eltAt i).ts = if i = r then now else (p.eltAt i).ts
  bucket : ∀ i, (p'.eltAt i).bucket = if i = r then b else (p.eltAt i).bucket
  fragments : ∀ i, (p'.eltAt i).fragments = if i = r then fun _ => none32 else (p.eltAt i).fragments
  nexts : bucketNexts p' = update (bucketNexts p) r n

theorem added_set {p : Pool MapIp4Reass} {e : MapIp4Reass} (hr : p.Live r) (hf : e.fragments = fun _ => none32) :
    Added p (p.set r e) r e.bucket e.bucketNext e.ts := by
  refine ⟨fun _ => Pool.live_set, length_set, ?_, ?_, ?_, ?_⟩
  · intro i
    rw [Pool.eltAt_set hr, apply_ite MapIp4Reass.ts]
  · intro i
    rw [Pool.eltAt_set hr, apply_ite MapIp4Reass.bucket]
  · intro i
    rw [Pool.eltAt_set hr, apply_ite MapIp4Reass.fragments, hf]
  · funext i
    rw [bucketNexts, Pool.eltAt_set hr, apply_ite MapIp4Reass.bucketNext, update_apply]
    rfl

theorem Added.relink (h : Added p p' r b n now) (i j : Nat) (ni nj : Nat) :
    Added p (setFifoPrev (setFifoNext p' i ni) j nj) r b n now := by
  have hdata := (sameData_setFifoNext (p := p') i ni).trans (sameData_setFifoPrev j nj)
  refine ⟨?_, hdata.length.trans h.length, ?_, ?_, ?_, ?_⟩
  · intro i
    rw [hdata.live, h.live]
  · intro i
    rw [hdata.ts, h.ts]
  · intro i
    rw [hdata.bucket, h.bucket]
  · intro i
    rw [hdata.fragments, h.fragments]
  · rw [bucketNexts_setFifoPrev, bucketNexts_setFifoNext, h.nexts]

theorem links_set {p : Pool MapIp4Reass} (hr : p.Live r) (e : MapIp4Reass) :
    links (p.set r e) = ((links p).setNext r e.fifoNext).setPrev r e.fifoPrev := by
  simp only [links, Links.setNext, Links.setPrev, Pool.eltAt_set hr, apply_ite MapIp4Reass.fifoNext,
    apply_ite MapIp4Reass.fifoPrev]
  congr 1
  · funext i
    rw [update_apply]
  · funext i
    rw [update_apply]

/-- The new entry is in its bucket, and the newest of the list. -/
theorem linkEntry_spec (hq : (links m.pool).Queue mapReassIndexNone m.fifoLast fifo)
    (hpool : ∀ i ∈ fifo, m.pool.Live i) (hr : m.pool.Live r) (hnew : r ∉ fifo) (hlt : r < mapReassIndexNone)
    (hk : c.Fits k) (now : ℚ) :
    ∃ p last, linkEntry c m r k now = { m with pool := p, fifoLast := last
                                               hashTable := update m.hashTable (c.bucketOf k) r } ∧
      (links p).Queue mapReassIndexNone last (fifo ++ [r]) ∧
      Added m.pool p r (c.bucketOf k) (m.hashTable (c.bucketOf k)) now := by
  have hb : u16 (c.bucketOf k) = c.bucketOf k := u16_of_lt hk
  have hu : u16 r = r := u16_of_lt (Nat.lt_trans hlt (by decide))
  cases fifo with
  | nil =>
    have hlast : m.fifoLast = mapReassIndexNone := hq
    refine ⟨(linkEntry c m r k now).pool, r, ?_, ?_, ?_⟩
    all_goals simp only [linkEntry, if_neg (not_not_intro hlast), hb, hu]
    · rw [links_set hr]
      apply Links.Queue.single _ (Nat.ne_of_lt hlt)
      · exact update_self _ _ _
      · exact update_self _ _ _
    · exact added_set hr rfl
  | cons x xs =>
    have hlast : m.fifoLast ≠ mapReassIndexNone := by
      rw [hq.1]
      exact hq.2.1
    have hl : m.pool.Live m.fifoLast := hpool _ (hq.1 ▸ mem_cons_self)
    have hn : m.pool.Live (m.pool.eltAt m.fifoLast).fifoNext := by
      have hmem := hq.2.2.seg.next_mem
      rw [← hq.1, mem_append, mem_reverse, mem_singleton, or_comm, ← mem_cons] at hmem
      apply hpool
      rw [← hq.1]
      exact hmem
    refine ⟨(linkEntry c m r k now).pool, m.fifoLast, ?_, ?_, ?_⟩
    all_goals simp only [linkEntry, if_pos hlast, hb, hu]
    · rw [links_setFifoPrev _ _ ((sameData_setFifoNext _ _).live _ |>.mpr (Pool.live_set.mpr hn)),
        links_setFifoNext _ _ (Pool.live_set.mpr hl), links_set hr]
      exact hq.push hnew
    · exact Added.relink (added_set hr rfl) _ _ _ _

theorem Inv.added (h : Inv c m now fifo chain) (m' : MapMain) (hlive : ∀ i, m'.pool.Live i ↔ m.pool.Live i ∨ i = r)
    (hr : ¬ m.pool.Live r) (hlt : r < mapReassIndexNone)
    (hq : (links m'.pool).Queue mapReassIndexNone m'.fifoLast (fifo ++ [r]))
    (hadd : Added p m'.pool r b (m.hashTable b) now) (hsame : ∀ i, p.eltAt i = m.pool.eltAt i) (hb : b < buckets c)
    (htable : m'.hashTable = update m.hashTable b r) (halloc : m'.allocated = m.allocated + 1)
    (hcounter : m'.bufferedCounter = m.bufferedCounter) (hsize : m'.pool.elts.length ≤ c.poolSize) :
    Inv c m' now (fifo ++ [r]) (update chain b (r :: chain b)) ∧
      cachedAll m'.pool (fifo ++ [r]) = cachedAll m.pool fifo := by
  have hnew : r ∉ fifo := fun hm => hr ((h.live r).mp hm)
  have hmem : ∀ i, i ∈ fifo ++ [r] ↔ i ∈ fifo ∨ i = r := by simp
  have hts : ∀ i ∈ fifo, (m'.pool.eltAt i).ts = (m.pool.eltAt i).ts := by
    intro i hi
    rw [hadd.ts, if_neg (ne_of_mem_of_not_mem hi hnew), hsame]
  have hself : (m'.pool.eltAt r).ts = now := by rw [hadd.ts, if_pos rfl]
  have hcached : cachedAll m'.pool (fifo ++ [r]) = cachedAll m.pool fifo := by
    rw [cachedAll_split, append_nil, hadd.fragments, if_pos rfl]
    rw [occupied_none, zero_add]
    apply cachedAll_congr
    intro i hi
    rw [hadd.fragments, if_neg (ne_of_mem_of_not_mem hi hnew), hsame]
  refine ⟨⟨?_, hq, ?_, ?_, ?_, ?_, ?_, hsize⟩, hcached⟩
  · intro i
    rw [hmem, hlive, h.live]
  · rw [pairwise_append]
    refine ⟨?_, pairwise_singleton _ _, ?_⟩
    · apply h.sorted.imp_of_mem
      intro i j hi hj hle
      rw [hts i hi, hts j hj]
      exact hle
    · intro i hi j hj
      rw [hts i hi, mem_singleton.mp hj, hself]
      exact h.past i hi
  · intro i hi
    obtain hi | rfl := (hmem i).mp hi
    · rw [hts i hi]
      exact h.past i hi
    · exact hself.le
  · refine h.chains.push hnew hb (Nat.ne_of_lt hlt) ?_ htable ?_ hmem
    · rw [hadd.nexts]
      congr 1
      funext i
      rw [bucketNexts, hsame]
      rfl
    · intro i
      rw [hadd.bucket, hsame]
  · rw [halloc, h.allocated, length_append]
    rfl
  · rw [hcounter, h.counter, hcached]

/-- The entry of a key: one that was there, or a new one. -/
theorem Inv.get (h : Inv c m now fifo chain) (hle : now ≤ t) (hk : c.Fits k) :
    ∃ m' r pi fifo' chain', mapIp4ReassGet c m k t = some (m', r, pi) ∧ Inv c m' t fifo' chain' ∧
      (∀ i ∈ r, m'.pool.Live i) ∧ cachedAll m.pool fifo = pi + cachedAll m'.pool fifo' := by
  obtain ⟨m₁, pi, fifo₁, chain₁, hgc, h₁, hsum⟩ := (h.later hle).collectGarbage (t := t) h.length_le
  have hb := bucketOf_lt c k
  have hlookup : mapIp4ReassLookup c m₁ k (c.bucketOf k) t = some ((chain₁ (c.bucketOf k)).find? fun i =>
      (m₁.pool.eltAt i).key = k && t < (m₁.pool.eltAt i).ts + c.lifetime) :=
    findNode_eq (h₁.chains.linked _ hb) (h₁.chains.length_le (fun i hi => (h₁.live i).mp hi) hb) _
  simp only [mapIp4ReassGet, hgc, bind_some, hlookup, map_some]
  cases hres : (chain₁ (c.bucketOf k)).find? fun i =>
      (m₁.pool.eltAt i).key = k && t < (m₁.pool.eltAt i).ts + c.lifetime with
  | some r =>
    refine ⟨m₁, some r, pi, fifo₁, chain₁, rfl, h₁, ?_, hsum⟩
    intro i hi
    obtain rfl := mem_some.mp hi
    exact (h₁.live _).mp ((h₁.chains.mem _ hb _).mp (mem_of_find?_eq_some hres)).1
  | none =>
    by_cases hroom : c.poolSize ≤ m₁.allocated
    · exact ⟨m₁, none, pi, fifo₁, chain₁, by simp only [if_pos hroom], h₁, fun i hi => absurd hi (by simp), hsum⟩
    · have hsize := h₁.length_get_le (Nat.lt_of_not_le hroom)
      have hlive : m₁.pool.get.1.Live m₁.pool.get.2 := Pool.live_get.mpr (.inr rfl)
      have hnew := Pool.not_live_get m₁.pool
      have hlt : m₁.pool.get.2 < mapReassIndexNone := by
        have hmax := c.poolSize_le
        have hi := hlive.1
        rw [mapReassIndexNone]
        omega
      have hq₁ : (links m₁.pool.get.1).Queue mapReassIndexNone m₁.fifoLast fifo₁ := by
        simp only [links, Pool.eltAt_get]
        exact h₁.queue
      obtain ⟨p, last, heq, hq, hadd⟩ := linkEntry_spec (c := c) (r := m₁.pool.get.2)
        (m := { m₁ with pool := m₁.pool.get.1, allocated := m₁.allocated + 1 }) hq₁
        (fun i hi => Pool.live_get.mpr (.inl ((h₁.live i).mp hi))) hlive (fun hm => hnew ((h₁.live _).mp hm)) hlt hk t
      obtain ⟨hinv, hcached⟩ := h₁.added
        { m₁ with pool := p, fifoLast := last, hashTable := update m₁.hashTable (c.bucketOf k) m₁.pool.get.2
                  allocated := m₁.allocated + 1 }
        (fun i => (hadd.live i).trans Pool.live_get) hnew hlt hq hadd (Pool.eltAt_get m₁.pool) hb rfl rfl rfl
        (hadd.length.trans_le hsize)
      refine ⟨_, some m₁.pool.get.2, pi, _, _, ?_, hinv, ?_, ?_⟩
      · simp only [if_neg hroom, heq]
      · intro i hi
        obtain rfl := mem_some.mp hi
        exact (hadd.live _).mpr hlive
      · rw [hsum, hcached]

end

variable {c : ReassConf} {m m' : MapMain} {now : ℚ} {fifo : List Nat} {chain : Nat → List Nat}

/-- The walk along `fifo_next` drops what every entry of the ring has. -/
theorem dropAll_spec {p : Pool MapIp4Reass} (hseg : (links p).Seg x l last) (hl : last ∉ l) (hn : l.length ≤ n) :
    ∃ pi, dropAll p last n x = some pi ∧ (pi : Multiset (BitVec 32)) = cachedAll p (x :: l) := by
  have hcons : ∀ x l, cachedAll p (x :: l) = cached (p.eltAt x) + cachedAll p l := by
    intro x l
    rw [coe_cached]
    exact cachedAll_split p [] l x
  induction l generalizing x n with
  | nil =>
    have hnext : (p.eltAt x).fifoNext = last := hseg.1
    refine ⟨cached (p.eltAt x), ?_, ?_⟩
    · cases n with
      | zero => rw [dropAll, if_pos hnext]
      | succ n => rw [dropAll, if_pos hnext]
    · rw [hcons]
      exact (add_zero _).symm
  | cons y l ih =>
    obtain ⟨hnext, _, hrest⟩ := hseg
    have hnext' : (p.eltAt x).fifoNext = y := hnext
    have hy : y ≠ last := fun he => hl (he ▸ mem_cons_self)
    cases n with
    | zero => exact absurd hn (Nat.not_succ_le_zero _)
    | succ n =>
      obtain ⟨pi, hpi, hsum⟩ := ih hrest (fun hm => hl (mem_cons_of_mem y hm)) (Nat.le_of_succ_le_succ hn)
      refine ⟨cached (p.eltAt x) ++ pi, ?_, ?_⟩
      · simp only [dropAll, hnext', if_neg hy, hpi, map_some]
      · rw [← Multiset.coe_add, hsum, hcons x]

theorem inv_fresh (c : ReassConf) (now : ℚ) : Inv c freshMain now [] fun _ => [] := by
  refine ⟨?_, rfl, List.Pairwise.nil, ?_, ⟨?_, ?_, ?_, ?_⟩, rfl, rfl, Nat.zero_le _⟩
  · intro i
    exact iff_of_false not_mem_nil (Pool.not_live_empty i)
  · intro i hi
    exact absurd hi not_mem_nil
  · intro b _
    rfl
  · intro b _ i
    exact iff_of_false not_mem_nil fun h => absurd h.1 not_mem_nil
  · intro b _
    exact nodup_nil
  · intro i hi
    exact absurd hi not_mem_nil

theorem Inv.reinit (h : Inv c m now fifo chain) :
    ∃ pi, mapIp4ReassReinit m = some (freshMain, pi) ∧ cachedAll m.pool fifo = pi := by
  cases fifo with
  | nil =>
    have hlast : m.fifoLast = mapReassIndexNone := h.queue
    exact ⟨[], if_pos hlast, rfl⟩
  | cons x xs =>
    obtain ⟨hlast, hne, hring⟩ := h.queue
    have hlen := h.length_le
    have hnot := (nodup_cons.mp hring.nodup).1
    have hle : xs.reverse.length ≤ m.pool.elts.length := by
      rw [length_reverse]
      exact Nat.le_of_succ_le hlen
    obtain ⟨pi, hpi, hsum⟩ := dropAll_spec hring.seg hnot hle
    refine ⟨pi, ?_, ?_⟩
    · rw [mapIp4ReassReinit, hlast, if_neg hne, hpi]
      rfl
    · rw [hsum, cachedAll, cachedAll]
      exact (((reverse_perm xs).symm.cons x).map _).sum_eq

inductive Op where
  | get (k : MapIp4ReassKey) (now : ℚ)
  | addFragment (r : Nat) (pi : BitVec 32)
  | getFragments (r : Nat)
  | free (r : Nat)
  | reinit

/-- The table, the time of the last lookup, the fragments that were accepted and those that were handed out. -/
structure Reass where
  main : MapMain
  now : ℚ
  accepted : Multiset (BitVec 32)
  handed : Multiset (BitVec 32)

/-- Time does not go back, an entry is one that is in use and a fragment is a buffer. -/
def Op.Ok (s : Reass) : Op → Prop
  | .get _ now => s.now ≤ now
  | .addFragment r pi => s.main.pool.Live r ∧ pi ≠ none32
  | .getFragments r => s.main.pool.Live r
  | .free r => s.main.pool.Live r
  | .reinit => True

instance (s : Reass) (op : Op) : Decidable (op.Ok s) :=
  match op with
  | .get _ now => inferInstanceAs (Decidable (s.now ≤ now))
  | .addFragment r pi => inferInstanceAs (Decidable (s.main.pool.Live r ∧ pi ≠ none32))
  | .getFragments r => inferInstanceAs (Decidable (s.main.pool.Live r))
  | .free r => inferInstanceAs (Decidable (s.main.pool.Live r))
  | .reinit => inferInstanceAs (Decidable True)

/-- Nothing when an operation does not end. -/
def Reass.step (c : ReassConf) (s : Reass) : Op → Option Reass
  | .get k now =>
    (mapIp4ReassGet c s.main k now).map fun (m, _, pi) => { s with main := m, now := now, handed := s.handed + pi }
  | .addFragment r pi =>
    let (m, v) := mapIp4ReassAddFragment c s.main r pi
    some { s with main := m, accepted := s.accepted + if v = 0 then {pi} else 0 }
  | .getFragments r =>
    let (m, pi) := mapIp4ReassGetFragments s.main r
    some { s with main := m, handed := s.handed + pi }
  | .free r => (mapIp4ReassFree s.main r).map fun (m, pi) => { s with main := m, handed := s.handed + pi }
  | .reinit => (mapIp4ReassReinit s.main).map fun (m, pi) => { s with main := m, handed := s.handed + pi }

def Reass.run (c : ReassConf) : Reass → List Op → Option Reass
  | s, [] => some s
  | s, op :: ops => (s.step c op).bind fun s => s.run c ops

/-- Every operation is allowed where it is called. -/
def Reass.AllOk (c : ReassConf) : Reass → List Op → Prop
  | _, [] => True
  | s, op :: ops => op.Ok s ∧ ∀ s' ∈ s.step c op, s'.AllOk c ops

instance Reass.decAllOk (c : ReassConf) : (s : Reass) → (ops : List Op) → Decidable (s.AllOk c ops)
  | _, [] => inferInstanceAs (Decidable True)
  | s, op :: ops =>
    have : ∀ s', Decidable (Reass.AllOk c s' ops) := fun s' => Reass.decAllOk c s' ops
    inferInstanceAs (Decidable (op.Ok s ∧ ∀ s' ∈ s.step c op, s'.AllOk c ops))

def Reass.init (now : ℚ) : Reass := ⟨freshMain, now, 0, 0⟩

/-- The invariant, and each fragment that was accepted is cached or was handed out. -/
def Reass.Consistent (c : ReassConf) (s : Reass) : Prop :=
  ∃ fifo chain, Inv c s.main s.now fifo chain ∧ s.accepted = s.handed + cachedAll s.main.pool fifo

theorem Reass.Consistent.reinit {s : Reass} (h : s.Consistent c) (c' : ReassConf) :
    ∃ s', s.step c .reinit = some s' ∧ s'.Consistent c' := by
  obtain ⟨fifo, chain, hinv, hsum⟩ := h
  obtain ⟨pi, hre, hcached⟩ := hinv.reinit
  refine ⟨_, by rw [Reass.step, hre]; rfl, [], fun _ => [], inv_fresh c' s.now, ?_⟩
  rw [hsum, hcached]
  exact (add_zero _).symm

/-- The numbers of the chains that an operation uses fit in an entry. -/
def Op.Fits (c : ReassConf) : Op → Prop
  | .get k _ => c.Fits k
  | _ => True

theorem Reass.Consistent.step {s : Reass} {op : Op} (h : s.Consistent c) (hok : op.Ok s) (hfits : op.Fits c) :
    ∃ s', s.step c op = some s' ∧ s'.Consistent c := by
  have hre := h.reinit c
  obtain ⟨fifo, chain, hinv, hsum⟩ := h
  cases op with
  | get k now =>
    obtain ⟨m', r, pi, fifo', chain', hget, hinv', -, hcached⟩ := hinv.get hok hfits
    refine ⟨_, by rw [Reass.step, hget]; rfl, fifo', chain', hinv', ?_⟩
    rw [hsum, hcached, add_assoc]
  | addFragment r pi =>
    obtain ⟨m', v, hadd⟩ : ∃ m' v, mapIp4ReassAddFragment c s.main r pi = (m', v) := ⟨_, _, rfl⟩
    obtain ⟨hinv', hcached⟩ := hinv.addFragment hok.1 hok.2 hadd
    refine ⟨_, by rw [Reass.step, hadd], fifo, chain, hinv', ?_⟩
    rw [hsum, hcached, add_assoc, add_comm (cachedAll _ _)]
  | getFragments r =>
    obtain ⟨m', pi, hget⟩ : ∃ m' pi, mapIp4ReassGetFragments s.main r = (m', pi) := ⟨_, _, rfl⟩
    obtain ⟨hinv', hcached, -⟩ := hinv.getFragments hok hget
    refine ⟨_, by rw [Reass.step, hget], fifo, chain, hinv', ?_⟩
    rw [hsum, hcached, add_assoc]
  | free r =>
    obtain ⟨xs, ys, rfl⟩ := append_of_mem ((hinv.live r).mpr hok)
    obtain ⟨m', pi, chain', hfree, hinv', hcached⟩ := hinv.free
    refine ⟨_, by rw [Reass.step, hfree]; rfl, xs ++ ys, chain', hinv', ?_⟩
    rw [hsum, hcached, add_assoc]
  | reinit => exact hre

theorem Reass.Consistent.run {s : Reass} (h : s.Consistent c) (hok : s.AllOk c ops) (hfits : ∀ op ∈ ops, op.Fits c) :
    ∃ s', s.run c ops = some s' ∧ s'.Consistent c := by
  induction ops generalizing s with
  | nil => exact ⟨s, rfl, h⟩
  | cons op ops ih =>
    obtain ⟨s', hstep, h'⟩ := h.step hok.1 (hfits op mem_cons_self)
    obtain ⟨s'', hrun, h''⟩ := ih h' (hok.2 s' hstep) fun op hop => hfits op (mem_cons_of_mem _ hop)
    exact ⟨s'', by rw [Reass.run, hstep]; exact hrun, h''⟩

theorem Op.fits (c : MapConf) (op : Op) : op.Fits c := by
  cases op with
  | get k _ => exact ReassConf.fits_of_le c.log2len_le k
  | addFragment _ _ => trivial
  | getFragments _ => trivial
  | free _ => trivial
  | reinit => trivial

/-- Every run ends with the table, the list, the pool and the counters in agreement, and no fragment that was
accepted is handed out twice. -/
theorem reass_run_consistent (c : MapConf) (now : ℚ) (ops : List Op) (hok : (Reass.init now).AllOk c ops) :
    ∃ s, (Reass.init now).run c ops = some s ∧
      (∃ fifo chain, Inv c s.main s.now fifo chain ∧ s.accepted = s.handed + cachedAll s.main.pool fifo) ∧
      ∀ pi, s.handed.count pi ≤ s.accepted.count pi := by
  have hinit : (Reass.init now).Consistent c := ⟨[], fun _ => [], inv_fresh c now, rfl⟩
  obtain ⟨s, hrun, hs⟩ := hinit.run hok fun op _ => op.fits c
  refine ⟨s, hrun, hs, fun pi => ?_⟩
  obtain ⟨fifo, chain, -, hsum⟩ := hs
  rw [hsum]
  exact Multiset.count_le_of_le pi (Multiset.le_add_right _ _)

def smallConf : MapConf where
  poolSize := 2
  poolSize_le := by decide
  lifetimeMs := 100
  buffers := 4
  log2len := 1
  log2len_pos := by decide
  log2len_lt := by decide
  log2len_le := by decide
  hash := fun k => k.src

/-- Two entries of one bucket, of which the older is collected. -/
theorem reass_run_consistent_small :
    let ops := [.get ⟨1, 2, 3, 17⟩ 0, .addFragment 0 7, .get ⟨2, 2, 3, 17⟩ (1 / 20), .addFragment 1 8, .addFragment 0 9,
      .get ⟨2, 2, 3, 17⟩ (11 / 100), .getFragments 1, .free 1, .reinit]
    ∃ s, (Reass.init 0).run smallConf ops = some s ∧
      (∃ fifo chain, Inv smallConf s.main s.now fifo chain ∧ s.accepted = s.handed + cachedAll s.main.pool fifo) ∧
      ∀ pi, s.handed.count pi ≤ s.accepted.count pi :=
  reass_run_consistent smallConf 0 _ (by decide +kernel)

end Vpp.Map
