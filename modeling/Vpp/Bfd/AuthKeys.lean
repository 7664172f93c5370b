import Vpp.Bfd.Session

namespace Vpp.Bfd
open Vpp.Lib Function

inductive VnetApiError where
  | ok
  | invalidValue
  | bfdEinuse
  | bfdEnoent
  | bfdNotsupp
  deriving DecidableEq, Repr

structure BfdDb where
  sessions : Pool BfdSession
  sessionByDisc : BitVec 32 → Option Nat
  authKeys : PoolAt BfdAuthKey
  authKeyByConfKeyId : BitVec 32 → Option Nat

def BfdDb.empty : BfdDb := ⟨.empty, fun _ => none, .empty, fun _ => none⟩

def decUseCount (keys : PoolAt BfdAuthKey) : Option Nat → PoolAt BfdAuthKey
  | some p => keys.modify p fun key => { key with useCount := key.useCount - 1 }
  | none => keys

def incUseCount (keys : PoolAt BfdAuthKey) (k : Nat) : PoolAt BfdAuthKey :=
  keys.modify (keys.addr k) fun key => { key with useCount := key.useCount + 1 }

/-- The search for an unused discriminator; `draws` are the random numbers. -/
def bfdDrawDiscr (used : BitVec 32 → Option Nat) (draws : Nat → BitVec 32) :
    Nat → Nat → Option (BitVec 32)
  | 0, _ => none
  | n + 1, counter =>
    if used (draws counter) = none then some (draws counter) else bfdDrawDiscr used draws n (counter + 1)

/-- How many discriminators are tried before the session is given back. -/
def bfdDiscrTries : Nat := 1001

def bfdGetSession (bm : BfdMain) (db : BfdDb) (t : BfdTransport) (draws : Nat → BitVec 32)
    (localSeq secret : BitVec 32) : BfdDb :=
  let (sessions, i) := db.sessions.get
  match bfdDrawDiscr db.sessionByDisc draws bfdDiscrTries 0 with
  | none => { db with sessions := (sessions.set i default).put i }
  | some discr =>
    let bs : BfdSession := { (default : BfdSession) with bsIdx := i, transport := t, localDiscr := discr }
    { db with
      sessions := sessions.set i (bfdSetDefaults bm localSeq secret bs)
      sessionByDisc := update db.sessionByDisc discr (some i) }

def bfdPutSession (db : BfdDb) (i : Nat) : BfdDb :=
  let bs := db.sessions.eltAt i
  { db with
    authKeys := decUseCount (decUseCount db.authKeys bs.auth.currKey) bs.auth.nextKey
    sessionByDisc := update db.sessionByDisc bs.localDiscr none
    sessions := db.sessions.put i }

def bfdSessionSwitchAuthToNext (keys : PoolAt BfdAuthKey) (bs : BfdSession) :
    PoolAt BfdAuthKey × BfdSession :=
  (decUseCount keys bs.auth.currKey,
    { bs with auth := { bs.auth with
      isDelayed := false
      currKey := bs.auth.nextKey
      nextKey := none
      currBfdKeyId := bs.auth.nextBfdKeyId } })

def bfdVerifyPktAuthSeqNum (bs : BfdSession) (receivedSeqNum : BitVec 32) (isMeticulous : Bool)
    (now : BitVec 64) : BfdSession × Bool :=
  let bs := if bs.detectionTimeClocks * 2 < now - bs.lastRxClocks then
      { bs with auth := { bs.auth with remoteSeqNumberKnown := false } }
    else bs
  let window : BitVec 32 := 3 * bs.localDetectMult.setWidth 32
  let first : BitVec 32 := bs.auth.remoteSeqNumber + if isMeticulous then 1 else 0
  if bs.auth.remoteSeqNumberKnown then
    if 0xffffffff - window < bs.auth.remoteSeqNumber then
      let z := 0xffffffff - bs.auth.remoteSeqNumber
      let x := window - z
      (bs, decide (¬ (x < receivedSeqNum ∧ receivedSeqNum < first)))
    else (bs, decide (¬ (receivedSeqNum < first ∨
      bs.auth.remoteSeqNumber + window < receivedSeqNum)))
  else (bs, true)

def bfdVerifyPktAuthKeySha1 (bm : BfdMain) (pkt : BfdPkt) (pktSize : Nat) (bfdKeyId : BitVec 8)
    (key : BfdAuthKey) : Bool :=
  if pktSize < bfdPktSize + 2 then false
  else if pkt.auth.type ≠ key.authType.toBits then false
  else if pktSize < bfdPktSize + bfdAuthSha1Size ∨ pkt.auth.len.toNat < bfdAuthSha1Size then false
  else if pkt.auth.keyId ≠ bfdKeyId then false
  else decide (bfdDigest bm pkt key.key = pkt.auth.hash)

def bfdVerifyPktAuthKey (bm : BfdMain) (pkt : BfdPkt) (pktSize : Nat) (bs : BfdSession)
    (bfdKeyId : BitVec 8) (key : BfdAuthKey) (now : BitVec 64) : BfdSession × Bool :=
  if bfdAuthTypeSupported key.authType then
    let (bs, ok) := bfdVerifyPktAuthSeqNum bs pkt.auth.seqNum (bfdAuthTypeIsMeticulous key.authType) now
    (bs, ok && bfdVerifyPktAuthKeySha1 bm pkt pktSize bfdKeyId key)
  else (bs, false)

def bfdTryNextKey (bm : BfdMain) (keys : PoolAt BfdAuthKey) (pkt : BfdPkt) (pktSize : Nat)
    (bs : BfdSession) (now : BitVec 64) : (PoolAt BfdAuthKey × BfdSession) × Bool :=
  match bs.auth.isDelayed, bs.auth.nextKey with
  | true, some p =>
    let (bs, ok) := bfdVerifyPktAuthKey bm pkt pktSize bs bs.auth.nextBfdKeyId (keys.read p) now
    if ok then (bfdSessionSwitchAuthToNext keys bs, true) else ((keys, bs), false)
  | _, _ => ((keys, bs), false)

/-- `now` and `now'` are the clock readings of the two possible verifications. -/
def bfdVerifyPktAuth (bm : BfdMain) (keys : PoolAt BfdAuthKey) (pkt : BfdPkt) (pktSize : Nat)
    (bs : BfdSession) (now now' : BitVec 64) : (PoolAt BfdAuthKey × BfdSession) × Bool :=
  if bfdPktGetAuthPresent pkt then
    match bs.auth.currKey with
    | none => bfdTryNextKey bm keys pkt pktSize bs now
    | some p =>
      let (bs, ok) := bfdVerifyPktAuthKey bm pkt pktSize bs bs.auth.currBfdKeyId (keys.read p) now
      if ok then ((keys, bs), true) else bfdTryNextKey bm keys pkt pktSize bs now'
  else if bfdPktSize < pktSize then ((keys, bs), false)
  else match bs.auth.currKey with
    | some _ =>
      if bs.auth.isDelayed = true ∧ bs.auth.nextKey = none then
        (bfdSessionSwitchAuthToNext keys bs, true)
      else ((keys, bs), false)
    | none => ((keys, bs), true)

def bfdAuthActivate (db : BfdDb) (i : Nat) (confKeyId : BitVec 32) (bfdKeyId : BitVec 8)
    (isDelayed : Bool) : BfdDb × VnetApiError :=
  match db.authKeyByConfKeyId confKeyId with
  | none => (db, .bfdEnoent)
  | some k =>
    let bs := db.sessions.eltAt i
    let key := db.authKeys.addr k
    if isDelayed then
      if bs.auth.nextKey = some key then (db, .ok)
      else
        let auth := { bs.auth with nextKey := some key, nextBfdKeyId := bfdKeyId, isDelayed := true }
        ({ db with
          sessions := db.sessions.set i { bs with auth }
          authKeys := incUseCount db.authKeys k }, .ok)
    else if bs.auth.currKey = some key then (db, .ok)
    else
      let auth := { bs.auth with currKey := some key, currBfdKeyId := bfdKeyId, isDelayed := false }
      ({ db with
        sessions := db.sessions.set i { bs with auth }
        authKeys := incUseCount (decUseCount db.authKeys bs.auth.currKey) k }, .ok)

def bfdAuthDeactivate (db : BfdDb) (i : Nat) (isDelayed : Bool) : BfdDb × VnetApiError :=
  let bs := db.sessions.eltAt i
  let (keys, auth) := if isDelayed = false then
      (decUseCount db.authKeys bs.auth.currKey,
        { bs.auth with currKey := none, isDelayed := false })
    else (db.authKeys, { bs.auth with isDelayed := true })
  ({ db with
    sessions := db.sessions.set i { bs with auth := { auth with nextKey := none } }
    authKeys := decUseCount keys auth.nextKey }, .ok)

def padKey (keyData : List (BitVec 8)) : List (BitVec 8) :=
  keyData ++ List.replicate (20 - keyData.length) 0

/-- `place` is where the key pool lies if `pool_get` moves it. -/
def bfdAuthSetKey (db : BfdDb) (confKeyId : BitVec 32) (authType : BfdAuthType)
    (keyData : List (BitVec 8)) (place : Nat) : BfdDb × VnetApiError :=
  if keyData.length = 0 ∨ bfdMaxKeyLenForAuthType authType < keyData.length then (db, .invalidValue)
  else if bfdAuthTypeSupported authType = false then (db, .bfdNotsupp)
  else match db.authKeyByConfKeyId confKeyId with
    | some k =>
      let key := db.authKeys.pool.eltAt k
      if 0 < key.useCount then (db, .bfdEinuse)
      else
        let pool := db.authKeys.pool.set k { key with authType, key := padKey keyData }
        ({ db with authKeys := { db.authKeys with pool } }, .ok)
    | none =>
      let (keys, k) := db.authKeys.get place
      let key := { keys.pool.eltAt k with confKeyId, authType, key := padKey keyData }
      ({ db with
        authKeys := { keys with pool := keys.pool.set k key }
        authKeyByConfKeyId := update db.authKeyByConfKeyId confKeyId (some k) }, .ok)

def bfdAuthDelKey (db : BfdDb) (confKeyId : BitVec 32) : BfdDb × VnetApiError :=
  match db.authKeyByConfKeyId confKeyId with
  | some k =>
    if 0 < (db.authKeys.pool.eltAt k).useCount then (db, .bfdEinuse)
    else
      let pool := (db.authKeys.pool.set k default).put k
      ({ db with
        authKeyByConfKeyId := update db.authKeyByConfKeyId confKeyId none
        authKeys := { db.authKeys with pool } }, .ok)
  | none => (db, .bfdEnoent)

/-- One if the field points to the key at address `p`. -/
def pointsTo (field : Option Nat) (p : Nat) : Nat := if field = some p then 1 else 0

@[simp] theorem pointsTo_none (p : Nat) : pointsTo none p = 0 := rfl

@[simp] theorem pointsTo_self (p : Nat) : pointsTo (some p) p = 1 := by simp [pointsTo]

/-- How many of a session's two key fields point to the key at address `p`. -/
def BfdAuth.refs (auth : BfdAuth) (p : Nat) : Nat := pointsTo auth.currKey p + pointsTo auth.nextKey p

/-- How many key fields of all sessions point to key `k`. -/
def BfdDb.refs (db : BfdDb) (k : Nat) : Nat := db.sessions.total fun bs => bs.auth.refs (db.authKeys.addr k)

def useCount (keys : PoolAt BfdAuthKey) (k : Nat) : Nat := (keys.pool.eltAt k).useCount

def BfdAuth.PointsAt (auth : BfdAuth) (p : Nat) : Prop := auth.currKey = some p ∨ auth.nextKey = some p

theorem BfdAuth.refs_pos {auth : BfdAuth} : 0 < auth.refs p ↔ auth.PointsAt p := by
  unfold refs PointsAt pointsTo
  split_ifs with hc hn hn <;> simp [hc, hn]

@[simp] theorem base_decUseCount : (decUseCount keys field).base = keys.base := by
  cases field with
  | none => rfl
  | some p => exact PoolAt.base_modify ..

@[simp] theorem addr_decUseCount : (decUseCount keys field).addr j = keys.addr j := by
  rw [PoolAt.addr, base_decUseCount, PoolAt.addr]

@[simp] theorem base_incUseCount : (incUseCount keys k).base = keys.base := PoolAt.base_modify ..

@[simp] theorem live_decUseCount : (decUseCount keys field).pool.Live j ↔ keys.pool.Live j := by
  cases field with
  | none => exact Iff.rfl
  | some p => exact PoolAt.live_modify

@[simp] theorem live_incUseCount : (incUseCount keys k).pool.Live j ↔ keys.pool.Live j := PoolAt.live_modify

def Held (keys : PoolAt BfdAuthKey) (field : Option Nat) : Prop :=
  ∀ p, field = some p → ∃ k, p = keys.addr k ∧ keys.pool.Live k ∧ 1 ≤ useCount keys k

theorem useCount_decUseCount (h : Held keys field) (j : Nat) :
    useCount (decUseCount keys field) j + pointsTo field (keys.addr j) = useCount keys j := by
  cases field with
  | none => rfl
  | some p =>
    obtain ⟨k, rfl, hl, hc⟩ := h p rfl
    simp only [useCount, decUseCount, PoolAt.pool_modify_addr hl, Pool.eltAt_modify hl, pointsTo,
      Option.some.injEq, PoolAt.addr_inj] at hc ⊢
    split
    · next he =>
      subst he
      simp only [↓reduceIte]
      omega
    · next hne => simp [Ne.symm hne]

theorem useCount_incUseCount (hl : keys.pool.Live k) (j : Nat) :
    useCount (incUseCount keys k) j = useCount keys j + pointsTo (some (keys.addr k)) (keys.addr j) := by
  simp only [useCount, incUseCount, PoolAt.pool_modify_addr hl, Pool.eltAt_modify hl, pointsTo, Option.some.injEq,
    PoolAt.addr_inj]
  split
  · next he =>
    subst he
    simp
  · next hne => simp [Ne.symm hne]

theorem confKeyId_decUseCount (h : Held keys field) (j : Nat) :
    ((decUseCount keys field).pool.eltAt j).confKeyId = (keys.pool.eltAt j).confKeyId := by
  cases field with
  | none => rfl
  | some p =>
    obtain ⟨k, rfl, hl, _⟩ := h p rfl
    simp only [decUseCount, PoolAt.pool_modify_addr hl, Pool.eltAt_modify hl]
    split
    · next he => rw [he]
    · rfl

theorem confKeyId_incUseCount (hl : keys.pool.Live k) (j : Nat) :
    ((incUseCount keys k).pool.eltAt j).confKeyId = (keys.pool.eltAt j).confKeyId := by
  simp only [incUseCount, PoolAt.pool_modify_addr hl, Pool.eltAt_modify hl]
  split
  · next he => rw [he]
  · rfl

/-- Every count is the number of references, a session's key fields are null or addresses of keys in use, and the hash
map names keys in use by their configured identifier. -/
structure KeyInv (db : BfdDb) : Prop where
  counts : ∀ k, useCount db.authKeys k = db.refs k
  points : ∀ i, db.sessions.Live i → ∀ p, (db.sessions.eltAt i).auth.PointsAt p →
    ∃ k, p = db.authKeys.addr k ∧ db.authKeys.pool.Live k
  conf : ∀ id k, db.authKeyByConfKeyId id = some k →
    db.authKeys.pool.Live k ∧ (db.authKeys.pool.eltAt k).confKeyId = id

theorem KeyInv.empty : KeyInv .empty := by
  refine ⟨fun k => rfl, ?_, ?_⟩
  · intro i hi
    exact absurd hi (Pool.not_live_empty i)
  · intro id k h
    exact absurd h (by simp [BfdDb.empty])

theorem BfdDb.refs_le {db : BfdDb} (hi : db.sessions.Live i) (k : Nat) :
    (db.sessions.eltAt i).auth.refs (db.authKeys.addr k) ≤ db.refs k :=
  Pool.le_total hi fun bs => bs.auth.refs (db.authKeys.addr k)

theorem KeyInv.referenced (h : KeyInv db) (hi : db.sessions.Live i) (hp : (db.sessions.eltAt i).auth.PointsAt p) :
    ∃ k, p = db.authKeys.addr k ∧ db.authKeys.pool.Live k ∧ 1 ≤ useCount db.authKeys k := by
  obtain ⟨k, rfl, hl⟩ := h.points i hi p hp
  have hle := BfdDb.refs_le hi k
  have hpos := BfdAuth.refs_pos.mpr hp
  rw [← h.counts k] at hle
  exact ⟨k, rfl, hl, by omega⟩

theorem KeyInv.curr (h : KeyInv db) (hi : db.sessions.Live i) :
    Held db.authKeys (db.sessions.eltAt i).auth.currKey := fun _ hp => h.referenced hi (.inl hp)

theorem KeyInv.next (h : KeyInv db) (hi : db.sessions.Live i) :
    Held db.authKeys (db.sessions.eltAt i).auth.nextKey := fun _ hp => h.referenced hi (.inr hp)

/-- Without the reference of the current key there is still that of the next one. -/
theorem KeyInv.next_of_dec (h : KeyInv db) (hi : db.sessions.Live i) :
    Held (decUseCount db.authKeys (db.sessions.eltAt i).auth.currKey) (db.sessions.eltAt i).auth.nextKey := by
  intro p hp
  obtain ⟨k, rfl, hl, _⟩ := h.next hi p hp
  refine ⟨k, addr_decUseCount.symm, live_decUseCount.mpr hl, ?_⟩
  have hle := BfdDb.refs_le hi k
  rw [← h.counts, ← useCount_decUseCount (h.curr hi) k] at hle
  simp only [BfdAuth.refs, hp, pointsTo_self] at hle
  omega

theorem KeyInv.dec_both (h : KeyInv db) (hi : db.sessions.Live i) (j : Nat) :
    useCount (decUseCount (decUseCount db.authKeys (db.sessions.eltAt i).auth.currKey)
      (db.sessions.eltAt i).auth.nextKey) j + (db.sessions.eltAt i).auth.refs (db.authKeys.addr j) =
        useCount db.authKeys j := by
  have hnext := useCount_decUseCount (h.next_of_dec hi) j
  rw [addr_decUseCount] at hnext
  rw [BfdAuth.refs, ← useCount_decUseCount (h.curr hi) j, ← hnext]
  omega

/-- A step on one session and the keys keeps the invariant when the counts move with the session's
references. -/
theorem KeyInv.update (h : KeyInv db) (hi : db.sessions.Live i) {bs : BfdSession} (hbase : keys.base = db.authKeys.base)
    (hcount : ∀ k, useCount keys k + (db.sessions.eltAt i).auth.refs (db.authKeys.addr k) =
      useCount db.authKeys k + bs.auth.refs (db.authKeys.addr k))
    (hlive : ∀ k, keys.pool.Live k ↔ db.authKeys.pool.Live k)
    (hconf : ∀ k, (keys.pool.eltAt k).confKeyId = (db.authKeys.pool.eltAt k).confKeyId)
    (hnew : ∀ p, bs.auth.PointsAt p → ∃ k, p = db.authKeys.addr k ∧ db.authKeys.pool.Live k) :
    KeyInv { db with sessions := db.sessions.set i bs, authKeys := keys } := by
  have haddr (k : Nat) : keys.addr k = db.authKeys.addr k := by
    rw [PoolAt.addr, hbase, PoolAt.addr]
  constructor
  case counts =>
    intro k
    have htot := Pool.total_set hi bs fun bs => bs.auth.refs (db.authKeys.addr k)
    have hc := hcount k
    have hk := h.counts k
    simp only [BfdDb.refs, haddr] at hk ⊢
    omega
  case points =>
    intro j hj p hp
    have hto : ∃ k, p = db.authKeys.addr k ∧ db.authKeys.pool.Live k := by
      rw [Pool.eltAt_set hi] at hp
      split at hp
      · exact hnew p hp
      · exact h.points j (Pool.live_set.mp hj) p hp
    obtain ⟨k, he, hl⟩ := hto
    exact ⟨k, he.trans (haddr k).symm, (hlive k).mpr hl⟩
  case conf =>
    intro id k hk
    obtain ⟨hl, hc⟩ := h.conf id k hk
    exact ⟨(hlive k).mpr hl, (hconf k).trans hc⟩

end Vpp.Bfd
