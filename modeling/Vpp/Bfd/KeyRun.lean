import Vpp.Bfd.AuthKeys

namespace Vpp.Bfd
open Vpp.Lib

theorem KeyInv.activate (h : KeyInv db) (hi : db.sessions.Live i)
    (hs : isDelayed = true → ∀ k ∈ db.authKeyByConfKeyId confKeyId, (db.sessions.eltAt i).auth.nextKey = none ∨
      (db.sessions.eltAt i).auth.nextKey = some (db.authKeys.addr k)) :
    KeyInv (bfdAuthActivate db i confKeyId bfdKeyId isDelayed).1 := by
  simp only [bfdAuthActivate]
  split
  · exact h
  · next k hk =>
    have hl := (h.conf _ _ hk).1
    split_ifs with hd hn hc
    · exact h
    · -- the overwritten pointer is null, so no reference is lost
      have hnone := (hs hd k hk).resolve_right hn
      apply h.update hi
      · exact base_incUseCount
      · intro j
        rw [useCount_incUseCount hl]
        simp only [BfdAuth.refs, hnone, pointsTo_none]
        omega
      · exact fun j => live_incUseCount
      · exact fun j => confKeyId_incUseCount hl j
      · rintro p (he | he)
        · exact h.points i hi p (.inl he)
        · exact ⟨k, (Option.some.inj he).symm, hl⟩
    · exact h
    · have hinc : (decUseCount db.authKeys (db.sessions.eltAt i).auth.currKey).pool.Live k := live_decUseCount.mpr hl
      apply h.update hi
      · exact base_incUseCount.trans base_decUseCount
      · intro j
        rw [useCount_incUseCount hinc, ← useCount_decUseCount (h.curr hi) j, addr_decUseCount, addr_decUseCount]
        simp only [BfdAuth.refs]
        omega
      · exact fun j => live_incUseCount.trans live_decUseCount
      · intro j
        rw [confKeyId_incUseCount hinc, confKeyId_decUseCount (h.curr hi)]
      · rintro p (he | he)
        · exact ⟨k, (Option.some.inj he).symm, hl⟩
        · exact h.points i hi p (.inr he)

theorem KeyInv.deactivate (h : KeyInv db) (hi : db.sessions.Live i) (isDelayed : Bool) :
    KeyInv (bfdAuthDeactivate db i isDelayed).1 := by
  cases isDelayed with
  | false =>
    simp only [bfdAuthDeactivate, ↓reduceIte]
    apply h.update hi
    · exact base_decUseCount.trans base_decUseCount
    · intro j
      have hboth := h.dec_both hi j
      simp only [BfdAuth.refs, pointsTo_none] at hboth ⊢
      omega
    · exact fun j => live_decUseCount.trans live_decUseCount
    · intro j
      rw [confKeyId_decUseCount (h.next_of_dec hi), confKeyId_decUseCount (h.curr hi)]
    · rintro p (he | he) <;> cases he
  | true =>
    simp only [bfdAuthDeactivate, Bool.true_eq_false, ↓reduceIte]
    apply h.update hi
    · exact base_decUseCount
    · intro j
      rw [← useCount_decUseCount (h.next hi) j]
      simp only [BfdAuth.refs, pointsTo_none]
      omega
    · exact fun j => live_decUseCount
    · exact fun j => confKeyId_decUseCount (h.next hi) j
    · rintro p (he | he)
      · exact h.points i hi p (.inl he)
      · cases he

def BfdSession.SameKeys (bs bs' : BfdSession) : Prop :=
  bs'.auth.currKey = bs.auth.currKey ∧ bs'.auth.nextKey = bs.auth.nextKey

theorem verifySeqNum_sameKeys (bs : BfdSession) (seq : BitVec 32) (meticulous : Bool)
    (now : BitVec 64) : bs.SameKeys (bfdVerifyPktAuthSeqNum bs seq meticulous now).1 := by
  simp only [bfdVerifyPktAuthSeqNum]
  split_ifs <;> exact ⟨rfl, rfl⟩

theorem verifyKey_sameKeys (bm : BfdMain) (pkt : BfdPkt) (size : Nat) (bs : BfdSession)
    (keyId : BitVec 8) (key : BfdAuthKey) (now : BitVec 64) :
    bs.SameKeys (bfdVerifyPktAuthKey bm pkt size bs keyId key now).1 := by
  simp only [bfdVerifyPktAuthKey]
  split
  · exact verifySeqNum_sameKeys ..
  · exact ⟨rfl, rfl⟩

/-- A verification leaves keys and pointers alone or moves the next key into the current one. -/
def Switched (keys : PoolAt BfdAuthKey) (bs : BfdSession) (keys' : PoolAt BfdAuthKey) (bs' : BfdSession) :
    Prop :=
  keys' = keys ∧ bs.SameKeys bs' ∨
    keys' = decUseCount keys bs.auth.currKey ∧ bs'.auth.currKey = bs.auth.nextKey ∧
      bs'.auth.nextKey = none

theorem Switched.of_sameKeys (hs : bs.SameKeys bs') (h : Switched keys bs' keys' bs'') :
    Switched keys bs keys' bs'' := by
  obtain ⟨hc, hn⟩ := hs
  rcases h with ⟨hk, hc', hn'⟩ | ⟨hk, hc', hn'⟩
  · exact .inl ⟨hk, hc'.trans hc, hn'.trans hn⟩
  · exact .inr ⟨hc ▸ hk, hc'.trans hn, hn'⟩

theorem switchToNext_switched (keys : PoolAt BfdAuthKey) (bs : BfdSession) :
    Switched keys bs (bfdSessionSwitchAuthToNext keys bs).1
      (bfdSessionSwitchAuthToNext keys bs).2 := .inr ⟨rfl, rfl, rfl⟩

theorem tryNextKey_switched (bm : BfdMain) (keys : PoolAt BfdAuthKey) (pkt : BfdPkt) (size : Nat)
    (bs : BfdSession) (now : BitVec 64) :
    Switched keys bs (bfdTryNextKey bm keys pkt size bs now).1.1
      (bfdTryNextKey bm keys pkt size bs now).1.2 := by
  simp only [bfdTryNextKey]
  split
  · next p _ hp =>
    have hs := verifyKey_sameKeys bm pkt size bs bs.auth.nextBfdKeyId (keys.read p) now
    split
    · exact .of_sameKeys hs (switchToNext_switched ..)
    · exact .inl ⟨rfl, hs⟩
  · exact .inl ⟨rfl, rfl, rfl⟩

theorem verifyPktAuth_switched (bm : BfdMain) (keys : PoolAt BfdAuthKey) (pkt : BfdPkt) (size : Nat)
    (bs : BfdSession) (now now' : BitVec 64) :
    Switched keys bs (bfdVerifyPktAuth bm keys pkt size bs now now').1.1
      (bfdVerifyPktAuth bm keys pkt size bs now now').1.2 := by
  have hsame : Switched keys bs keys bs := .inl ⟨rfl, rfl, rfl⟩
  simp only [bfdVerifyPktAuth]
  split
  · split
    · exact tryNextKey_switched ..
    · next p _ =>
      have hs := verifyKey_sameKeys bm pkt size bs bs.auth.currBfdKeyId (keys.read p) now
      split
      · exact .inl ⟨rfl, hs⟩
      · exact .of_sameKeys hs (tryNextKey_switched ..)
  · split
    · exact hsame
    · split
      · split
        · exact switchToNext_switched ..
        · exact hsame
      · exact hsame

theorem KeyInv.switched (h : KeyInv db) (hi : db.sessions.Live i)
    (hs : Switched db.authKeys (db.sessions.eltAt i) keys bs) :
    KeyInv { db with sessions := db.sessions.set i bs, authKeys := keys } := by
  rcases hs with ⟨rfl, hc, hn⟩ | ⟨rfl, hc, hn⟩
  · apply h.update hi
    · rfl
    · intro j
      simp only [BfdAuth.refs, hc, hn]
    · exact fun _ => Iff.rfl
    · exact fun _ => rfl
    · intro p hp
      refine h.points i hi p ?_
      rwa [BfdAuth.PointsAt, hc, hn] at hp
  · apply h.update hi
    · exact base_decUseCount
    · intro j
      rw [← useCount_decUseCount (h.curr hi) j]
      simp only [BfdAuth.refs, hc, hn, pointsTo_none]
      omega
    · exact fun j => live_decUseCount
    · exact fun j => confKeyId_decUseCount (h.curr hi) j
    · rintro p (he | he)
      · exact h.points i hi p (.inr (hc.symm.trans he))
      · exact absurd (hn.symm.trans he) (by simp)

theorem KeyInv.putSession (h : KeyInv db) (hi : db.sessions.Live i) : KeyInv (bfdPutSession db i) := by
  constructor
  case counts =>
    intro k
    have hboth := h.dec_both hi k
    have htot := Pool.total_put hi fun bs => bs.auth.refs (db.authKeys.addr k)
    have hk := h.counts k
    simp only [bfdPutSession, BfdDb.refs, addr_decUseCount] at hk ⊢
    omega
  case points =>
    intro j hj p hp
    simp only [bfdPutSession, Pool.eltAt_put] at hp
    obtain ⟨k, he, hl⟩ := h.points j (Pool.live_put.mp hj).1 p hp
    exact ⟨k, by simp only [bfdPutSession, addr_decUseCount, he], (live_decUseCount.trans live_decUseCount).mpr hl⟩
  case conf =>
    intro id k hk
    obtain ⟨hl, hc⟩ := h.conf id k hk
    refine ⟨(live_decUseCount.trans live_decUseCount).mpr hl, ?_⟩
    simp only [bfdPutSession]
    rw [confKeyId_decUseCount (h.next_of_dec hi), confKeyId_decUseCount (h.curr hi)]
    exact hc

theorem KeyInv.of_sessions (h : KeyInv db) {sessions : Pool BfdSession} (sessionByDisc : BitVec 32 → Option Nat)
    (hr : ∀ p, sessions.total (fun bs => bs.auth.refs p) = db.sessions.total fun bs => bs.auth.refs p)
    (hp : ∀ i, sessions.Live i → ∀ p, (sessions.eltAt i).auth.PointsAt p →
      db.sessions.Live i ∧ (db.sessions.eltAt i).auth.PointsAt p) :
    KeyInv { db with sessions, sessionByDisc } := by
  refine ⟨fun k => (h.counts k).trans (hr _).symm, ?_, h.conf⟩
  intro i hi p hpt
  obtain ⟨hi', hpt'⟩ := hp i hi p hpt
  exact h.points i hi' p hpt'

theorem not_pointsAt_of_refs {auth : BfdAuth} (h : auth.refs p = 0) : ¬ auth.PointsAt p :=
  fun hp => Nat.ne_of_gt (BfdAuth.refs_pos.mpr hp) h

theorem KeyInv.getSession (h : KeyInv db) (bm : BfdMain) (t : BfdTransport)
    (draws : Nat → BitVec 32) (localSeq secret : BitVec 32) :
    KeyInv (bfdGetSession bm db t draws localSeq secret) := by
  have hl : db.sessions.get.1.Live db.sessions.get.2 := Pool.live_get.mpr (.inr rfl)
  -- a session that points to no key, in the place that the pool gives
  have hset (bs : BfdSession) (hbs : ∀ p, bs.auth.refs p = 0) (p : Nat) :
      (db.sessions.get.1.set db.sessions.get.2 bs).total (fun bs => bs.auth.refs p) =
        db.sessions.total fun bs => bs.auth.refs p := by
    have h1 := Pool.total_set hl bs fun bs => bs.auth.refs p
    have h2 := Pool.total_get db.sessions fun bs => bs.auth.refs p
    rw [hbs p, Pool.eltAt_get] at h1
    omega
  have hpoints (bs : BfdSession) (hbs : ∀ p, bs.auth.refs p = 0) (i : Nat) (hi : db.sessions.get.1.Live i) (p : Nat)
      (hp : ((db.sessions.get.1.set db.sessions.get.2 bs).eltAt i).auth.PointsAt p) :
      db.sessions.Live i ∧ (db.sessions.eltAt i).auth.PointsAt p := by
    rw [Pool.eltAt_set hl, Pool.eltAt_get] at hp
    split at hp
    · exact absurd hp (not_pointsAt_of_refs (hbs p))
    · next hne => exact ⟨(Pool.live_get.mp hi).resolve_right hne, hp⟩
  simp only [bfdGetSession]
  split
  · refine h.of_sessions db.sessionByDisc (fun p => ?_) (fun i hi p hp => ?_)
    · have hput : (db.sessions.get.1.set db.sessions.get.2 default).Live db.sessions.get.2 :=
        Pool.live_set.mpr hl
      have htot := Pool.total_put hput fun bs : BfdSession => bs.auth.refs p
      rw [hset default (fun _ => rfl) p, Pool.eltAt_set_self hl] at htot
      exact htot
    · rw [Pool.eltAt_put] at hp
      exact hpoints default (fun _ => rfl) i (Pool.live_set.mp (Pool.live_put.mp hi).1) p hp
  · refine h.of_sessions _ (fun p => hset _ (fun _ => rfl) p) (fun i hi p hp => ?_)
    exact hpoints _ (fun _ => rfl) i (Pool.live_set.mp hi) p hp

def BfdDb.NoPointers (db : BfdDb) : Prop :=
  ∀ i < db.sessions.elts.length, db.sessions.Live i →
    (db.sessions.eltAt i).auth.currKey = none ∧ (db.sessions.eltAt i).auth.nextKey = none

/-- The request is for a key that is not there yet. -/
def BfdDb.AddsKey (db : BfdDb) (confKeyId : BitVec 32) (authType : BfdAuthType) (keyData : List (BitVec 8)) : Prop :=
  0 < keyData.length ∧ keyData.length ≤ bfdMaxKeyLenForAuthType authType ∧ bfdAuthTypeSupported authType = true ∧
    db.authKeyByConfKeyId confKeyId = none

theorem BfdDb.NoPointers.not_pointsAt {db : BfdDb} (h : db.NoPointers) (hi : db.sessions.Live i) (p : Nat) :
    ¬ (db.sessions.eltAt i).auth.PointsAt p := by
  obtain ⟨hc, hn⟩ := h i hi.1 hi
  simp [BfdAuth.PointsAt, hc, hn]

theorem BfdDb.NoPointers.total {db : BfdDb} (h : db.NoPointers) (p : Nat) :
    db.sessions.total (fun bs => bs.auth.refs p) = 0 := by
  by_contra hne
  obtain ⟨i, hi, hp⟩ := Pool.exists_of_total_pos (Nat.pos_of_ne_zero hne)
  exact h.not_pointsAt hi p (BfdAuth.refs_pos.mp hp)

/-- A new key leaves the references to the keys there, if the pool stays where it is or none of them exists. -/
theorem KeyInv.newKey (h : KeyInv db) (hm : db.authKeys.Moves place → db.NoPointers) (confKeyId : BitVec 32)
    (authType : BfdAuthType) (key : List (BitVec 8)) :
    let (keys, k) := db.authKeys.get place
    KeyInv { db with
      authKeys := { keys with pool := keys.pool.set k { keys.pool.eltAt k with confKeyId, authType, key } }
      authKeyByConfKeyId := Function.update db.authKeyByConfKeyId confKeyId (some k) } := by
  have hl : db.authKeys.pool.get.1.Live db.authKeys.pool.get.2 := Pool.live_get.mpr (.inr rfl)
  have hnew := Pool.not_live_get db.authKeys.pool
  constructor
  case counts =>
    intro j
    have hrefs : db.sessions.total (fun bs => bs.auth.refs ((db.authKeys.get place).1.addr j)) = db.refs j := by
      by_cases hmv : db.authKeys.Moves place
      · rw [BfdDb.refs, (hm hmv).total, (hm hmv).total]
      · rw [PoolAt.addr, PoolAt.base_get hmv]
        rfl
    refine Eq.trans ?_ ((h.counts j).trans hrefs.symm)
    simp only [useCount, Pool.eltAt_set hl, Pool.eltAt_get]
    split
    · next he => rw [he]
    · rfl
  case points =>
    intro i hi p hp
    have hmv : ¬ db.authKeys.Moves place := fun hmv => (hm hmv).not_pointsAt hi p hp
    obtain ⟨k, rfl, hk⟩ := h.points i hi p hp
    refine ⟨k, ?_, Pool.live_set.mpr (Pool.live_get.mpr (.inl hk))⟩
    show db.authKeys.base + k = (db.authKeys.get place).1.base + k
    rw [PoolAt.base_get hmv]
  case conf =>
    intro id j hj
    simp only [Function.update_apply] at hj
    simp only [Pool.live_set, Pool.live_get, Pool.eltAt_set hl, Pool.eltAt_get]
    split at hj
    · next he =>
      obtain rfl := Option.some.inj hj
      exact ⟨.inr rfl, by simp [he]⟩
    · obtain ⟨hlj, hcj⟩ := h.conf id j hj
      have hne : j ≠ db.authKeys.pool.get.2 := fun he => hnew (he ▸ hlj)
      exact ⟨.inl hlj, by simp [hne, hcj]⟩

theorem KeyInv.setKey (h : KeyInv db) (confKeyId : BitVec 32) (authType : BfdAuthType) (keyData : List (BitVec 8))
    (hm : db.AddsKey confKeyId authType keyData → db.authKeys.Moves place → db.NoPointers) :
    KeyInv (bfdAuthSetKey db confKeyId authType keyData place).1 := by
  simp only [bfdAuthSetKey]
  split
  · exact h
  · next hlen =>
    split
    · exact h
    · next hsup =>
      split
      · next k hk =>
        obtain ⟨hl, hc⟩ := h.conf _ _ hk
        split
        · exact h
        · constructor
          case counts =>
            intro j
            refine Eq.trans ?_ (h.counts j)
            simp only [useCount, Pool.eltAt_set hl]
            split
            · next he => rw [he]
            · rfl
          case points =>
            intro i hi p hp
            obtain ⟨j, he, hj⟩ := h.points i hi p hp
            exact ⟨j, he, Pool.live_set.mpr hj⟩
          case conf =>
            intro id j hj
            obtain ⟨hlj, hcj⟩ := h.conf id j hj
            refine ⟨Pool.live_set.mpr hlj, ?_⟩
            simp only [Pool.eltAt_set hl]
            split
            · next he => exact he ▸ hcj
            · exact hcj
      · next hnone =>
        have hadds : db.AddsKey confKeyId authType keyData :=
          ⟨by omega, by omega, by simpa using hsup, hnone⟩
        exact h.newKey (hm hadds) confKeyId authType (padKey keyData)

theorem KeyInv.delKey (h : KeyInv db) (confKeyId : BitVec 32) :
    KeyInv (bfdAuthDelKey db confKeyId).1 := by
  simp only [bfdAuthDelKey]
  split
  · next k hk =>
    obtain ⟨hl, hc⟩ := h.conf _ _ hk
    split
    · exact h
    · next hz =>
      have hz : useCount db.authKeys k = 0 := Nat.eq_zero_of_not_pos hz
      constructor
      case counts =>
        intro j
        refine Eq.trans ?_ (h.counts j)
        simp only [useCount, Pool.eltAt_put, Pool.eltAt_set hl]
        split
        · next he =>
          subst he
          exact hz.symm
        · rfl
      case points =>
        intro i hi p hp
        obtain ⟨j, rfl, hpos⟩ := h.referenced hi hp
        have hjk : j ≠ k := by
          rintro rfl
          omega
        exact ⟨j, rfl, Pool.live_put.mpr ⟨Pool.live_set.mpr hpos.1, hjk⟩⟩
      case conf =>
        intro id j hj
        simp only [Function.update_apply] at hj
        split at hj
        · exact absurd hj (by simp)
        · next hne =>
          obtain ⟨hlj, hcj⟩ := h.conf id j hj
          have hjk : j ≠ k := by
            intro he
            subst he
            exact hne (hcj.symm.trans hc)
          refine ⟨Pool.live_put.mpr ⟨Pool.live_set.mpr hlj, hjk⟩, ?_⟩
          simp only [Pool.eltAt_put, Pool.eltAt_set_ne hjk]
          exact hcj
  · exact h

/-- An operation on keys and sessions. Those on a session name its position in the pool. -/
inductive KeyOp where
  | setKey (confKeyId : BitVec 32) (authType : BfdAuthType) (keyData : List (BitVec 8)) (place : Nat)
  | delKey (confKeyId : BitVec 32)
  | activate (i : Nat) (confKeyId : BitVec 32) (bfdKeyId : BitVec 8) (isDelayed : Bool)
  | deactivate (i : Nat) (isDelayed : Bool)
  | getSession (t : BfdTransport) (draws : Nat → BitVec 32) (localSeq secret : BitVec 32)
  | putSession (i : Nat)
  | verifyPkt (i : Nat) (pkt : BfdPkt) (pktSize : Nat) (now now' : BitVec 64)

/-- A session that does not exist is reported by the caller and nothing happens. -/
def BfdDb.step (bm : BfdMain) (db : BfdDb) : KeyOp → BfdDb
  | .setKey confKeyId authType keyData place => (bfdAuthSetKey db confKeyId authType keyData place).1
  | .delKey confKeyId => (bfdAuthDelKey db confKeyId).1
  | .activate i confKeyId bfdKeyId isDelayed =>
    if db.sessions.Live i then (bfdAuthActivate db i confKeyId bfdKeyId isDelayed).1 else db
  | .deactivate i isDelayed =>
    if db.sessions.Live i then (bfdAuthDeactivate db i isDelayed).1 else db
  | .getSession t draws localSeq secret => bfdGetSession bm db t draws localSeq secret
  | .putSession i => if db.sessions.Live i then bfdPutSession db i else db
  | .verifyPkt i pkt pktSize now now' =>
    if db.sessions.Live i then
      let r := bfdVerifyPktAuth bm db.authKeys pkt pktSize (db.sessions.eltAt i) now now'
      { db with sessions := db.sessions.set i r.1.2, authKeys := r.1.1 }
    else db

/-- A delayed activation does not replace another key that waits to be switched to, and the key pool does not move for
a new key while a session points to a key. -/
def KeyOp.Clean (db : BfdDb) : KeyOp → Prop
  | .activate i confKeyId _ true => db.sessions.Live i → ∀ k ∈ db.authKeyByConfKeyId confKeyId,
    (db.sessions.eltAt i).auth.nextKey = none ∨ (db.sessions.eltAt i).auth.nextKey = some (db.authKeys.addr k)
  | .setKey confKeyId authType keyData place =>
    db.AddsKey confKeyId authType keyData → db.authKeys.Moves place → db.NoPointers
  | _ => True

instance (db : BfdDb) : Decidable db.NoPointers := by
  unfold BfdDb.NoPointers
  infer_instance

instance (db : BfdDb) (confKeyId : BitVec 32) (authType : BfdAuthType) (keyData : List (BitVec 8)) :
    Decidable (db.AddsKey confKeyId authType keyData) := inferInstanceAs (Decidable (_ ∧ _ ∧ _ ∧ _))

instance (db : BfdDb) : (op : KeyOp) → Decidable (op.Clean db)
  | .setKey .. => inferInstanceAs (Decidable (_ → _ → _))
  | .delKey .. => isTrue trivial
  | .activate _ _ _ true => inferInstanceAs (Decidable (_ → ∀ _ ∈ _, _))
  | .activate _ _ _ false => isTrue trivial
  | .deactivate .. => isTrue trivial
  | .getSession .. => isTrue trivial
  | .putSession .. => isTrue trivial
  | .verifyPkt .. => isTrue trivial

def CleanRun (bm : BfdMain) (db : BfdDb) : List KeyOp → Prop
  | [] => True
  | op :: ops => op.Clean db ∧ CleanRun bm (db.step bm op) ops

instance (bm : BfdMain) : (db : BfdDb) → (ops : List KeyOp) → Decidable (CleanRun bm db ops)
  | _, [] => isTrue trivial
  | db, op :: ops =>
    have := instDecidableCleanRun bm (db.step bm op) ops
    inferInstanceAs (Decidable (_ ∧ _))

theorem KeyInv.step (h : KeyInv db) (hc : op.Clean db) : KeyInv (db.step bm op) := by
  cases op with
  | setKey confKeyId authType keyData place => exact h.setKey confKeyId authType keyData hc
  | delKey confKeyId => exact h.delKey confKeyId
  | activate i confKeyId bfdKeyId isDelayed =>
    simp only [BfdDb.step]
    split
    · next hi =>
      apply h.activate hi
      rintro rfl
      exact hc hi
    · exact h
  | deactivate i isDelayed =>
    simp only [BfdDb.step]
    split
    · next hi => exact h.deactivate hi isDelayed
    · exact h
  | getSession t draws localSeq secret => exact h.getSession bm t draws localSeq secret
  | putSession i =>
    simp only [BfdDb.step]
    split
    · next hi => exact h.putSession hi
    · exact h
  | verifyPkt i pkt pktSize now now' =>
    simp only [BfdDb.step]
    split
    · next hi => exact h.switched hi (verifyPktAuth_switched ..)
    · exact h

theorem KeyInv.run (h : KeyInv db) (hc : CleanRun bm db ops) : KeyInv (ops.foldl (BfdDb.step bm) db) := by
  induction ops generalizing db with
  | nil => exact h
  | cons op ops ih => exact ih (h.step hc.1) hc.2

/-- In such a run every key counts the session fields that point to it, no field points to anything else, and a key can
be changed or deleted exactly when no field points to it. -/
theorem bfd_key_counts (bm : BfdMain) (ops : List KeyOp) (hc : CleanRun bm .empty ops) :
    let db := ops.foldl (BfdDb.step bm) .empty
    (∀ k, db.authKeys.pool.Live k → (db.authKeys.pool.eltAt k).useCount = db.refs k) ∧
      (∀ i, db.sessions.Live i → ∀ p, (db.sessions.eltAt i).auth.PointsAt p →
        ∃ k, p = db.authKeys.addr k ∧ db.authKeys.pool.Live k) ∧
      ∀ confKeyId k, db.authKeyByConfKeyId confKeyId = some k →
        ((bfdAuthDelKey db confKeyId).2 = .ok ↔ db.refs k = 0) ∧
        ∀ authType keyData place, 0 < keyData.length →
          keyData.length ≤ bfdMaxKeyLenForAuthType authType → bfdAuthTypeSupported authType = true →
            ((bfdAuthSetKey db confKeyId authType keyData place).2 = .ok ↔ db.refs k = 0) := by
  have h := KeyInv.empty.run hc
  refine ⟨fun k _ => h.counts k, h.points, ?_⟩
  intro confKeyId k hk
  have hcount := h.counts k
  rw [useCount] at hcount
  constructor
  · simp only [bfdAuthDelKey, hk, hcount]
    split
    · next hpos => simp [Nat.ne_of_gt hpos]
    · next hz => simp [Nat.eq_zero_of_not_pos hz]
  · intro authType keyData place hpos hle hsup
    have hlen : ¬ (keyData.length = 0 ∨ bfdMaxKeyLenForAuthType authType < keyData.length) := by omega
    simp only [bfdAuthSetKey, hlen, hsup, hk, hcount, ↓reduceIte, Bool.true_eq_false]
    split
    · next hpos => simp [Nat.ne_of_gt hpos]
    · next hz => simp [Nat.eq_zero_of_not_pos hz]

/-- Two keys, the second of which moves the pool, and one session, to which the first key is then scheduled. -/
def scheduleFirst : List KeyOp :=
  [.setKey 1 .keyedSha1 [7] 0, .setKey 2 .keyedSha1 [9] 100, .getSession .udp4 (fun _ => 5) 0 0,
    .activate 0 1 0 true]

def plainMain : BfdMain := ⟨0, 1, 1, fun us => us, fun _ => 1, fun _ => false, fun _ _ => []⟩

theorem bfd_key_counts_scheduled :
    CleanRun plainMain .empty scheduleFirst ∧
      (bfdAuthDelKey (scheduleFirst.foldl (BfdDb.step plainMain) .empty) 1).2 ≠ .ok ∧
      (bfdAuthDelKey (scheduleFirst.foldl (BfdDb.step plainMain) .empty) 2).2 = .ok := by
  have hc : CleanRun plainMain .empty scheduleFirst := by decide
  obtain ⟨_, _, h⟩ := bfd_key_counts plainMain scheduleFirst hc
  refine ⟨hc, ?_, ?_⟩
  · rw [Ne, (h 1 0 (by decide)).1]
    decide
  · rw [(h 2 1 (by decide)).1]
    decide

/-- The pool moves while the session uses the first key, and then the session is given back. -/
def moveUnderSession : List KeyOp :=
  [.setKey 1 .keyedSha1 [7] 0, .getSession .udp4 (fun _ => 5) 0 0, .activate 0 1 0 false,
    .setKey 2 .keyedSha1 [9] 100, .putSession 0]

/-- Scheduling the second key in place of the first leaves the count of the first at one, and so does a session that
takes its reference back through an address the pool has left. The key can no longer be deleted although no session
refers to it. -/
theorem bfd_key_count_leaked :
    (let db := (scheduleFirst ++ [KeyOp.activate 0 2 0 true]).foldl (BfdDb.step plainMain) .empty
     db.authKeys.pool.Live 0 ∧ (db.authKeys.pool.eltAt 0).useCount = 1 ∧ db.refs 0 = 0 ∧
       (bfdAuthDelKey db 1).2 = .bfdEinuse) ∧
    let db := moveUnderSession.foldl (BfdDb.step plainMain) .empty
    db.authKeys.pool.Live 0 ∧ (db.authKeys.pool.eltAt 0).useCount = 1 ∧ db.refs 0 = 0 ∧
      (bfdAuthDelKey db 1).2 = .bfdEinuse := by
  decide

end Vpp.Bfd
