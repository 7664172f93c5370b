import Vpp.Map.ReassRun

namespace Vpp.Map
open Vpp.Lib List

/-- A conversion to 32 bits drops the fraction. -/
def toU32 (q : ℚ) : Nat := ((q.num.tdiv q.den) % 2 ^ 32).toNat

def desiredSize (htRatio : ℚ) (poolSize : Nat) : Nat := toU32 (poolSize * htRatio)

def mapGetHtLog2len (htRatio : ℚ) (poolSize : Nat) : Nat :=
  ((List.range' 1 30).find? fun i => decide (desiredSize htRatio poolSize ≤ 2 ^ i)).getD 4

theorem mapGetHtLog2len_eq (htRatio : ℚ) (poolSize : Nat) :
    (1 ≤ mapGetHtLog2len htRatio poolSize ∧ mapGetHtLog2len htRatio poolSize < 31 ∧
        desiredSize htRatio poolSize ≤ 2 ^ mapGetHtLog2len htRatio poolSize ∧
        ∀ j, 1 ≤ j → j < mapGetHtLog2len htRatio poolSize → 2 ^ j < desiredSize htRatio poolSize) ∨
      (mapGetHtLog2len htRatio poolSize = 4 ∧ 2 ^ 30 < desiredSize htRatio poolSize) := by
  rw [mapGetHtLog2len]
  cases hfind : (List.range' 1 30).find? fun i => decide (desiredSize htRatio poolSize ≤ 2 ^ i) with
  | none =>
    have hall := find?_eq_none.mp hfind 30 (by decide)
    apply Or.inr
    exact ⟨rfl, by simpa using hall⟩
  | some i =>
    obtain ⟨hp, hmem, hbefore⟩ := find?_range'_eq_some.mp hfind
    obtain ⟨hlow, hhigh⟩ := mem_range'_1.mp hmem
    apply Or.inl
    refine ⟨hlow, hhigh, of_decide_eq_true hp, ?_⟩
    intro j hj hlt
    simpa using hbefore j hj hlt

theorem mapGetHtLog2len_pos (htRatio : ℚ) (poolSize : Nat) : 1 ≤ mapGetHtLog2len htRatio poolSize := by
  obtain ⟨hpos, _⟩ | ⟨hfour, _⟩ := mapGetHtLog2len_eq htRatio poolSize
  · exact hpos
  · rw [hfour]
    decide

theorem mapGetHtLog2len_lt (htRatio : ℚ) (poolSize : Nat) : mapGetHtLog2len htRatio poolSize < 31 := by
  obtain ⟨_, hlt, _⟩ | ⟨hfour, _⟩ := mapGetHtLog2len_eq htRatio poolSize
  · exact hlt
  · rw [hfour]
    decide

def mapIp4ReassConfHtRatioMax : ℚ := 100

def mapIp4ReassConfPoolSizeMax : Nat := 0xfeff

def ReassConf.setHtRatio (c : ReassConf) (htRatio : ℚ) : ReassConf :=
  { c with
    log2len := mapGetHtLog2len htRatio c.poolSize
    log2len_pos := mapGetHtLog2len_pos htRatio c.poolSize
    log2len_lt := mapGetHtLog2len_lt htRatio c.poolSize }

def ReassConf.setPoolSize (c : ReassConf) (poolSize : Nat) (h : poolSize ≤ mapIp4ReassConfPoolSizeMax) : ReassConf :=
  { c with poolSize := poolSize, poolSize_le := h }

/-- The configuration of `map_init`. -/
def defaultConf (hash : MapIp4ReassKey → BitVec 32) : ReassConf where
  poolSize := 1024
  poolSize_le := by decide
  lifetimeMs := 100
  buffers := 2048
  log2len := mapGetHtLog2len 1 1024
  log2len_pos := mapGetHtLog2len_pos 1 1024
  log2len_lt := mapGetHtLog2len_lt 1 1024
  hash := hash

structure Configured where
  conf : ReassConf
  reass : Reass

inductive ConfOp where
  | confHtRatio (htRatio : ℚ)
  | confPoolSize (poolSize : BitVec 16)
  | confLifetime (lifetimeMs : BitVec 16)
  | confBuffers (buffers : BitVec 32)
  | table (op : Op)

/-- A value that is not accepted changes nothing. Nothing when an operation does not end. -/
def Configured.step (s : Configured) : ConfOp → Option Configured
  | .confHtRatio htRatio =>
    if mapIp4ReassConfHtRatioMax < htRatio then some s
    else (s.reass.step s.conf .reinit).map fun reass => ⟨s.conf.setHtRatio htRatio, reass⟩
  | .confPoolSize poolSize =>
    if h : poolSize.toNat ≤ mapIp4ReassConfPoolSizeMax then
      (s.reass.step s.conf .reinit).map fun reass => ⟨s.conf.setPoolSize poolSize.toNat h, reass⟩
    else some s
  | .confLifetime lifetimeMs => some { s with conf := { s.conf with lifetimeMs := lifetimeMs.toNat } }
  | .confBuffers buffers => some { s with conf := { s.conf with buffers := buffers.toNat } }
  | .table op => (s.reass.step s.conf op).map fun reass => { s with reass := reass }

def Configured.run : Configured → List ConfOp → Option Configured
  | s, [] => some s
  | s, op :: ops => (s.step op).bind fun s => s.run ops

def Configured.init (hash : MapIp4ReassKey → BitVec 32) (now : ℚ) : Configured := ⟨defaultConf hash, Reass.init now⟩

def ConfOp.Ok (s : Configured) : ConfOp → Prop
  | .table op => op.Ok s.reass
  | _ => True

/-- The chain of a key that is looked up has a number of 16 bits. -/
def ConfOp.Fits (s : Configured) : ConfOp → Prop
  | .table op => op.Fits s.conf
  | _ => True

/-- Every operation has the property where it is called. -/
def Configured.All (P : Configured → ConfOp → Prop) : Configured → List ConfOp → Prop
  | _, [] => True
  | s, op :: ops => P s op ∧ ∀ s' ∈ s.step op, s'.All P ops

def Configured.Consistent (s : Configured) : Prop := s.reass.Consistent s.conf

theorem Inv.sameTable (h : Inv c m now fifo chain) (hlen : c'.log2len = c.log2len) (hsize : c'.poolSize = c.poolSize) :
    Inv c' m now fifo chain := by
  have hbuckets : buckets c' = buckets c := congrArg (2 ^ ·) hlen
  obtain ⟨hlinked, hmem, hnodup, hlt⟩ := h.chains
  refine ⟨h.live, h.queue, h.sorted, h.past, ⟨?_, ?_, ?_, ?_⟩, h.allocated, h.counter, ?_⟩
  · rw [hbuckets]
    exact hlinked
  · rw [hbuckets]
    exact hmem
  · rw [hbuckets]
    exact hnodup
  · rw [hbuckets]
    exact hlt
  · rw [hsize]
    exact h.size

theorem Configured.Consistent.step {s : Configured} (h : s.Consistent) (hok : op.Ok s) (hfits : ConfOp.Fits s op) :
    ∃ s', s.step op = some s' ∧ s'.Consistent := by
  cases op with
  | confHtRatio htRatio =>
    rw [Configured.step]
    split
    · exact ⟨s, rfl, h⟩
    · obtain ⟨reass, hre, hnew⟩ := Reass.Consistent.reinit h (s.conf.setHtRatio htRatio)
      rw [hre]
      exact ⟨_, rfl, hnew⟩
  | confPoolSize poolSize =>
    rw [Configured.step]
    split
    · rename_i hle
      obtain ⟨reass, hre, hnew⟩ := Reass.Consistent.reinit h (s.conf.setPoolSize poolSize.toNat hle)
      rw [hre]
      exact ⟨_, rfl, hnew⟩
    · exact ⟨s, rfl, h⟩
  | confLifetime lifetimeMs =>
    obtain ⟨fifo, chain, hinv, hsum⟩ := h
    exact ⟨_, rfl, fifo, chain, hinv.sameTable rfl rfl, hsum⟩
  | confBuffers buffers =>
    obtain ⟨fifo, chain, hinv, hsum⟩ := h
    exact ⟨_, rfl, fifo, chain, hinv.sameTable rfl rfl, hsum⟩
  | table op =>
    obtain ⟨reass, hstep, hnew⟩ := Reass.Consistent.step h hok hfits
    rw [Configured.step, hstep]
    exact ⟨_, rfl, hnew⟩

theorem Configured.Consistent.run {s : Configured} (h : s.Consistent) (hok : s.All (fun s op => op.Ok s) ops)
    (hfits : s.All ConfOp.Fits ops) : ∃ s', s.run ops = some s' ∧ s'.Consistent := by
  induction ops generalizing s with
  | nil => exact ⟨s, rfl, h⟩
  | cons op ops ih =>
    obtain ⟨s', hstep, h'⟩ := h.step hok.1 hfits.1
    obtain ⟨s'', hrun, h''⟩ := ih h' (hok.2 s' hstep) (hfits.2 s' hstep)
    apply Exists.intro s''
    apply And.intro
    · rw [Configured.run, hstep]
      exact hrun
    · exact h''

/-- An entry in use is in the chain that its bucket names, and to free it ends. -/
structure Reaches (m : MapMain) (r : Nat) : Prop where
  linked : ∃ chain, Linked (bucketNexts m.pool) mapReassIndexNone (m.hashTable (m.pool.eltAt r).bucket) chain ∧
      r ∈ chain
  freed : ∃ m' pi, mapIp4ReassFree m r = some (m', pi)

theorem Configured.Consistent.reaches {s : Configured} (h : s.Consistent) (hr : s.reass.main.pool.Live r) :
    Reaches s.reass.main r := by
  obtain ⟨fifo, chain, hinv, _⟩ := h
  have hmem := (hinv.live r).mpr hr
  have hlt := hinv.chains.bucket_lt r hmem
  apply Reaches.mk
  · exact ⟨_, hinv.chains.linked _ hlt, (hinv.chains.mem _ hlt r).mpr ⟨hmem, rfl⟩⟩
  · obtain ⟨xs, ys, rfl⟩ := append_of_mem hmem
    obtain ⟨m', pi, _, hfree, _⟩ := hinv.free
    exact ⟨m', pi, hfree⟩

theorem linkEntry_bucket (c : ReassConf) (hr : m.pool.Live r) (k : MapIp4ReassKey) (now : ℚ) :
    ((linkEntry c m r k now).pool.eltAt r).bucket = c.bucketOf k ↔ c.Fits k := by
  have hstored : ((linkEntry c m r k now).pool.eltAt r).bucket = u16 (c.bucketOf k) := by
    rw [linkEntry]
    dsimp only
    split
    · rw [(sameData_setFifoPrev _ _).bucket, (sameData_setFifoNext _ _).bucket, Pool.eltAt_set hr, if_pos rfl]
    · rw [Pool.eltAt_set hr, if_pos rfl]
  rw [hstored, ReassConf.Fits]
  constructor
  · intro heq
    rw [← heq]
    exact Nat.mod_lt _ (by decide)
  · exact u16_of_lt

/-- In every run, over any configurations, whose keys have chains with numbers of 16 bits, each entry in use is in the
chain of its bucket, so that it can be freed. -/
theorem map_ip4_reass_bucket (hash : MapIp4ReassKey → BitVec 32) (now : ℚ) (ops : List ConfOp)
    (hok : (Configured.init hash now).All (fun s op => op.Ok s) ops)
    (hfits : (Configured.init hash now).All ConfOp.Fits ops) :
    (∃ s, (Configured.init hash now).run ops = some s ∧
        ∀ r, s.reass.main.pool.Live r → Reaches s.reass.main r) ∧
      ∀ (c : ReassConf) (m : MapMain) (r : Nat) (k : MapIp4ReassKey) (t : ℚ), m.pool.Live r →
        (((linkEntry c m r k t).pool.eltAt r).bucket = c.bucketOf k ↔ c.Fits k) := by
  apply And.intro
  · have hinit : (Configured.init hash now).Consistent := ⟨[], fun _ => [], inv_fresh _ now, rfl⟩
    obtain ⟨s, hrun, hs⟩ := hinit.run hok hfits
    exact ⟨s, hrun, fun r hr => hs.reaches hr⟩
  · intro c m r k t hr
    exact linkEntry_bucket c hr k t

def crcStep (v : BitVec 32) : BitVec 32 := (v >>> 1) ^^^ (if v.getLsbD 0 then 0x82f63b78 else 0)

/-- The instruction `crc32l`. -/
def crcU32 (data value : BitVec 32) : BitVec 32 := Nat.iterate crcStep 32 (value ^^^ data)

def crcKey (k : MapIp4ReassKey) : BitVec 32 :=
  crcU32 0 (crcU32 ((0 : BitVec 8) ++ k.protocol ++ k.fragmentId) (crcU32 k.dst (crcU32 k.src 0)))

instance (s : Configured) (op : ConfOp) : Decidable (op.Ok s) :=
  match op with
  | .table op => inferInstanceAs (Decidable (op.Ok s.reass))
  | .confHtRatio _ => inferInstanceAs (Decidable True)
  | .confPoolSize _ => inferInstanceAs (Decidable True)
  | .confLifetime _ => inferInstanceAs (Decidable True)
  | .confBuffers _ => inferInstanceAs (Decidable True)

instance (c : ReassConf) (op : Op) : Decidable (op.Fits c) :=
  match op with
  | .get k _ => inferInstanceAs (Decidable (c.Fits k))
  | .addFragment _ _ => inferInstanceAs (Decidable True)
  | .getFragments _ => inferInstanceAs (Decidable True)
  | .free _ => inferInstanceAs (Decidable True)
  | .reinit => inferInstanceAs (Decidable True)

instance (s : Configured) (op : ConfOp) : Decidable (op.Fits s) :=
  match op with
  | .table op => inferInstanceAs (Decidable (op.Fits s.conf))
  | .confHtRatio _ => inferInstanceAs (Decidable True)
  | .confPoolSize _ => inferInstanceAs (Decidable True)
  | .confLifetime _ => inferInstanceAs (Decidable True)
  | .confBuffers _ => inferInstanceAs (Decidable True)

instance Configured.decAll (P : Configured → ConfOp → Prop) [∀ s op, Decidable (P s op)] :
    (s : Configured) → (ops : List ConfOp) → Decidable (s.All P ops)
  | _, [] => inferInstanceAs (Decidable True)
  | s, op :: ops =>
    have : ∀ s', Decidable (Configured.All P s' ops) := fun s' => Configured.decAll P s' ops
    inferInstanceAs (Decidable (P s op ∧ ∀ s' ∈ s.step op, s'.All P ops))

/-- The table has `2 ^ 17` chains. -/
def wideOps (src : BitVec 32) : List ConfOp := [.confHtRatio 100, .table (.get ⟨src, 2, 3, 17⟩ 0)]

theorem map_ip4_reass_bucket_wide :
    (∃ s, (Configured.init crcKey 0).run (wideOps 1) = some s ∧
        ∀ r, s.reass.main.pool.Live r → Reaches s.reass.main r) ∧
      ∀ (c : ReassConf) (m : MapMain) (r : Nat) (k : MapIp4ReassKey) (t : ℚ), m.pool.Live r →
        (((linkEntry c m r k t).pool.eltAt r).bucket = c.bucketOf k ↔ c.Fits k) :=
  map_ip4_reass_bucket crcKey 0 (wideOps 1) (by decide) (by decide +kernel)

theorem not_reaches (hnone : m.hashTable (m.pool.eltAt r).bucket = mapReassIndexNone) : ¬ Reaches m r := by
  intro h
  obtain ⟨chain, hlinked, hmem⟩ := h.linked
  cases chain with
  | nil => exact absurd hmem not_mem_nil
  | cons x xs => exact hlinked.2.1 (hlinked.1.symm.trans hnone)

/-- The chain 68294 has the entry, whose bucket is 2758. -/
theorem map_ip4_reass_bucket_fails :
    (Configured.init crcKey 0).All (fun s op => op.Ok s) (wideOps 3) ∧
      ∃ s, (Configured.init crcKey 0).run (wideOps 3) = some s ∧ s.reass.main.pool.Live 0 ∧
        s.reass.main.hashTable 68294 = 0 ∧ (s.reass.main.pool.eltAt 0).bucket = 2758 ∧ ¬ Reaches s.reass.main 0 := by
  apply And.intro
  · decide
  · have hrun : ∃ s ∈ (Configured.init crcKey 0).run (wideOps 3), s.reass.main.pool.Live 0 ∧
        s.reass.main.hashTable 68294 = 0 ∧ (s.reass.main.pool.eltAt 0).bucket = 2758 ∧
        s.reass.main.hashTable (s.reass.main.pool.eltAt 0).bucket = mapReassIndexNone := by
      decide +kernel
    obtain ⟨s, hs, hlive, htable, hbucket, hnone⟩ := hrun
    exact ⟨s, hs, hlive, htable, hbucket, not_reaches hnone⟩

end Vpp.Map
