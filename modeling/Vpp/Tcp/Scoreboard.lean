import Mathlib.Order.Interval.Finset.Nat
import Vpp.Lib.Pool
import Vpp.Tcp.Options
import Vpp.Tcp.Seq

namespace Vpp.Tcp
open Vpp.Lib Option

/-- A hole of the scoreboard. The invalid index is `none`. -/
structure Hole where
  next : Option Nat
  prev : Option Nat
  start : Seq
  stop : Seq
  deriving DecidableEq, Inhabited

/-- With the lengths of the pool at which the allocator has no room behind it, so that it moves when it grows. -/
structure Scoreboard where
  holes : Pool Hole
  head : Option Nat
  sackedBytes : BitVec 32
  movesAt : List Nat
  deriving DecidableEq

structure TcpConnection where
  flags : BitVec 16
  sndUna : Seq
  sndUnaMax : Seq
  sndWnd : BitVec 32
  sndWl1 : Seq
  sndWl2 : Seq
  sndNxt : Seq
  rcvWnd : BitVec 32
  opt : TcpOptions
  rcvWscale : Nat
  sndWscale : Nat
  sackSb : Scoreboard
  rcvDupacks : BitVec 8
  cwnd : BitVec 32
  ssthresh : BitVec 32
  prevSsthresh : BitVec 32
  bytesAcked : BitVec 32
  rtxBytes : BitVec 32
  tsecrLastAck : BitVec 32
  rto : BitVec 32
  rtoBoff : BitVec 32
  srtt : BitVec 32
  rttvar : BitVec 32
  rttTs : BitVec 32
  rttSeq : Seq
  sndMss : BitVec 16
  deriving DecidableEq

/-- The hole at an index. An index outside the pool is not to be read. -/
def Scoreboard.holeAt (sb : Scoreboard) (i : Nat) : Option Hole := sb.holes.elts[i]?

def Scoreboard.setHole (sb : Scoreboard) (i : Nat) (hole : Hole) : Scoreboard :=
  { sb with holes := sb.holes.set i hole }

def scoreboardHoleBytes (hole : Hole) : BitVec 32 := hole.stop - hole.start

/-- Set the field `prev` of the hole at an index, if the index is valid. -/
def Scoreboard.setPrev (sb : Scoreboard) (i prev : Option Nat) : Option Scoreboard :=
  match i with
  | none => some sb
  | some i => do
    let hole ← sb.holeAt i
    some (sb.setHole i { hole with prev })

/-- Set the field `next` of the hole at an index, or the head if there is no such hole. -/
def Scoreboard.setNext (sb : Scoreboard) (i next : Option Nat) : Option Scoreboard :=
  match i with
  | none => some { sb with head := next }
  | some i => do
    let hole ← sb.holeAt i
    some (sb.setHole i { hole with next })

def scoreboardRemoveHole (sb : Scoreboard) (i : Nat) : Option Scoreboard := do
  let hole ← sb.holeAt i
  let sb ← sb.setPrev hole.next hole.prev
  let sb ← sb.setNext hole.prev hole.next
  some { sb with holes := sb.holes.put i }

def Scoreboard.getMoves (sb : Scoreboard) : Bool :=
  sb.holes.freeIndices.isEmpty && sb.movesAt.contains sb.holes.elts.length

/-- The new hole goes after `prev`, which the source and its caller go on to use by its address: nothing where
`pool_get` has moved the pool away from it. -/
def scoreboardInsertHole (sb : Scoreboard) (prev : Option Nat) (start stop : Seq) : Option Scoreboard :=
  let (holes, i) := sb.holes.get
  match prev with
  | some p =>
    if sb.getMoves then none
    else do
      let prevHole ← sb.holeAt p
      let sb := { sb with holes := holes.set i ⟨prevHole.next, some p, start, stop⟩ }
      let sb ← sb.setPrev prevHole.next (some i)
      let prevHole ← sb.holeAt p
      some (sb.setHole p { prevHole with next := some i })
  | none => some { sb with
      holes := holes.set i ⟨none, none, start, stop⟩
      head := some i }

def tcpConnSentRcvWnd0 : BitVec 16 := 16

/-- The flag of the options that is tested on the flags of the connection. -/
def tcpOptsSack (flags : BitVec 16) : Bool := flags &&& (tcpOptsFlagSack.setWidth 16) != 0

/-- The pass that removes blocks: the last block takes the place of one that is removed, and the pass goes
on after it. -/
def removeInvalid (keep : SackBlock → Bool) : (fuel : Nat) → List SackBlock → List SackBlock
  | 0, sacks => sacks
  | _, [] => []
  | fuel + 1, blk :: rest =>
    if keep blk then blk :: removeInvalid keep fuel rest
    else
      match rest.getLast? with
      | none => []
      | some last => last :: removeInvalid keep fuel rest.dropLast

def swapSacks (sacks : List SackBlock) (i j : Nat) : List SackBlock :=
  match sacks[i]?, sacks[j]? with
  | some a, some b => if seqLt b.start a.start then (sacks.set i b).set j a else sacks
  | _, _ => sacks

def orderSacks (sacks : List SackBlock) : List SackBlock :=
  (List.range sacks.length).foldl (fun sacks i =>
    (List.range' i (sacks.length - i)).foldl (fun sacks j => swapSacks sacks i j) sacks) sacks

/-- The byte accounting for a hole that is removed. The source reads the next hole without a test for it. -/
def Scoreboard.removedBytes (sb : Scoreboard) (ack : Seq) (hole : Hole) : Option (BitVec 32) :=
  if seqLt hole.stop ack then do
    let nextHole ← hole.next.bind sb.holeAt
    if seqLt nextHole.start ack then some (sb.sackedBytes - (nextHole.start - hole.stop))
    else some (sb.sackedBytes - (ack - hole.stop))
  else some (sb.sackedBytes + scoreboardHoleBytes hole)

/-- The walk over the holes with the blocks. Each pass uses up a hole or a block. -/
def walkHoles (ack : Seq) : (fuel : Nat) → Scoreboard → (hole : Option Nat) → List SackBlock → Option Scoreboard
  | 0, _, _, _ => none
  | _, sb, none, _ => some sb
  | _, sb, some _, [] => some sb
  | fuel + 1, sb, some h, blk :: sacks => do
    let hole ← sb.holeAt h
    if seqLeq blk.start hole.start then
      if seqGeq blk.stop hole.stop then
        let sackedBytes ← sb.removedBytes ack hole
        let sb ← scoreboardRemoveHole { sb with sackedBytes } h
        walkHoles ack fuel sb hole.next (blk :: sacks)
      else
        let sb := { sb with sackedBytes := sb.sackedBytes + (blk.stop - hole.start) }
        walkHoles ack fuel (sb.setHole h { hole with start := blk.stop }) (some h) sacks
    else if seqLeq blk.stop hole.stop then
      let sb := { sb with sackedBytes := sb.sackedBytes + (blk.stop - blk.start) }
      let sb ← scoreboardInsertHole sb (some h) blk.stop hole.stop
      let hole ← sb.holeAt h
      walkHoles ack fuel (sb.setHole h { hole with stop := blk.start - 1 }) (some h) sacks
    else
      let sb := { sb with sackedBytes := sb.sackedBytes + (hole.stop - blk.start + 1) }
      walkHoles ack fuel (sb.setHole h { hole with stop := blk.start - 1 }) hole.next (blk :: sacks)

def sackIsValid (tc : TcpConnection) (ack : Seq) (blk : SackBlock) : Bool :=
  seqLt blk.start blk.stop && seqGt blk.start tc.sndUna && seqGt blk.start ack && seqLt blk.stop tc.sndNxt

/-- The blocks of a segment, without those that the pass removes and with that of the cumulative ack. -/
def ackedBlocks (tc : TcpConnection) (ack : Seq) : List SackBlock :=
  let sacks := removeInvalid (sackIsValid tc ack) tc.opt.sacks.length tc.opt.sacks
  if seqGt ack tc.sndUna then sacks ++ [⟨tc.sndUna, ack⟩] else sacks

/-- The connection with its new scoreboard, or nothing where the source reads through a null pointer. The
blocks of the options are rewritten in place. -/
def tcpRcvSacks (tc : TcpConnection) (ack : Seq) : Option TcpConnection := do
  let sb := tc.sackSb
  if !tcpOptsSack tc.flags && sb.head.isNone then some tc
  else
    let sacks := ackedBlocks tc ack
    if sacks.length = 0 then some { tc with opt := { tc.opt with sacks } }
    else
      let sacks := orderSacks sacks
      let sb ← if sb.head.isNone then scoreboardInsertHole sb none tc.sndUna tc.sndUnaMax else some sb
      let sackSb ← walkHoles ack (3 * sacks.length + 2 * sb.holes.elts.length + 1) sb sb.head sacks
      some { tc with sackSb, opt := { tc.opt with sacks } }

/-- A connection that has sent the bytes from `sndUna` to `sndNxt`. -/
def TcpConnection.sending (sndUna sndNxt : Seq) (sackSb : Scoreboard) : TcpConnection where
  flags := 0
  sndUna := sndUna
  sndUnaMax := sndNxt
  sndWnd := 65535
  sndWl1 := 0
  sndWl2 := sndUna
  sndNxt := sndNxt
  rcvWnd := 65535
  opt := ⟨tcpOptsFlagSackPermitted, 1460, 0, 0, 0, [], 0⟩
  rcvWscale := 0
  sndWscale := 0
  sackSb := sackSb
  rcvDupacks := 0
  cwnd := 4380
  ssthresh := 65535
  prevSsthresh := 0
  bytesAcked := 0
  rtxBytes := 0
  tsecrLastAck := 0
  rto := 1000
  rtoBoff := 0
  srtt := 0
  rttvar := 0
  rttTs := 0
  rttSeq := 0
  sndMss := 1460

/-- The holes from an index on: where each of them is in the pool, where it starts and where it stops. The
field `prev` of each is the index of the one before it. -/
def Linked (holes : Pool Hole) : (hole prev : Option Nat) → List (Nat × Seq × Seq) → Prop
  | hole, _, [] => hole = none
  | hole, prev, (i, start, stop) :: rest =>
    hole = some i ∧ holes.Live i ∧
      ∃ next, holes.elts[i]? = some ⟨next, prev, start, stop⟩ ∧ Linked holes next (some i) rest

theorem Linked.unique (h : Linked holes hole prev l) (h' : Linked holes hole prev' l') : l = l' := by
  induction l generalizing hole prev prev' l' with
  | nil =>
    cases l' with
    | nil => rfl
    | cons x l' =>
      obtain ⟨i, start, stop⟩ := x
      exact absurd (h.symm.trans h'.1) (by simp)
  | cons x l ih =>
    obtain ⟨i, start, stop⟩ := x
    cases l' with
    | nil => exact absurd (h'.symm.trans h.1) (by simp)
    | cons y l' =>
      obtain ⟨j, start', stop'⟩ := y
      obtain ⟨hi, -, next, hnext, hrest⟩ := h
      obtain ⟨hj, -, next', hnext', hrest'⟩ := h'
      obtain rfl : i = j := Option.some.inj (hi.symm.trans hj)
      have he := Option.some.inj (hnext.symm.trans hnext')
      injection he with hn hp hs he
      subst hn hs he
      rw [ih hrest hrest']

theorem Linked.suffix (h : Linked holes hole prev l) (hm : (i, start, stop) ∈ l) :
    ∃ pre rest prev' , l = pre ++ (i, start, stop) :: rest ∧
        Linked holes (some i) prev' ((i, start, stop) :: rest) := by
  induction l generalizing hole prev with
  | nil => cases hm
  | cons x l ih =>
    obtain ⟨j, s, e⟩ := x
    obtain ⟨rfl, hlive, next, hnext, hrest⟩ := h
    cases hm with
    | head => exact ⟨[], l, prev, rfl, rfl, hlive, next, hnext, hrest⟩
    | tail _ hm =>
      obtain ⟨pre, rest, prev', rfl, hsuf⟩ := ih hrest hm
      exact ⟨(j, s, e) :: pre, rest, prev', rfl, hsuf⟩

theorem Linked.not_mem (h : Linked holes hole prev ((i, start, stop) :: l)) : i ∉ l.map Prod.fst := by
  intro hm
  obtain ⟨⟨j, s, e⟩, hmem, rfl⟩ := List.mem_map.mp hm
  have hsome := h
  obtain ⟨rfl, -, next, -, hrest⟩ := h
  obtain ⟨pre, rest, prev', rfl, hsuf⟩ := hrest.suffix hmem
  have hlen := congrArg List.length (hsome.unique hsuf)
  simp only [List.length_cons, List.length_append] at hlen
  omega

theorem Linked.live (h : Linked holes hole prev l) (hm : x ∈ l) : holes.Live x.1 := by
  obtain ⟨i, start, stop⟩ := x
  obtain ⟨pre, rest, prev', rfl, hsuf⟩ := h.suffix hm
  exact hsuf.2.1

theorem Linked.nodup (h : Linked holes hole prev l) : (l.map Prod.fst).Nodup := by
  induction l generalizing hole prev with
  | nil => exact .nil
  | cons x l ih =>
    obtain ⟨i, start, stop⟩ := x
    have hni := h.not_mem
    obtain ⟨-, -, next, -, hrest⟩ := h
    exact List.nodup_cons.mpr ⟨hni, ih hrest⟩

theorem Linked.length_le (h : Linked holes hole prev l) : l.length ≤ holes.elts.length := by
  have hsub : l.map Prod.fst ⊆ List.range holes.elts.length := by
    intro i hi
    obtain ⟨x, hx, rfl⟩ := List.mem_map.mp hi
    exact List.mem_range.mpr (h.live hx).1
  have hle := (List.subperm_of_subset h.nodup hsub).length_le
  rwa [List.length_map, List.length_range] at hle

theorem Linked.frame (h : Linked holes hole prev l)
    (hframe : ∀ i ∈ l.map Prod.fst, holes.Live i → holes'.Live i ∧ holes'.elts[i]? = holes.elts[i]?) :
    Linked holes' hole prev l := by
  induction l generalizing hole prev with
  | nil => exact h
  | cons x l ih =>
    obtain ⟨i, start, stop⟩ := x
    obtain ⟨rfl, hlive, next, hnext, hrest⟩ := h
    obtain ⟨hlive', he⟩ := hframe i (by simp) hlive
    refine ⟨rfl, hlive', next, he.trans hnext, ih hrest fun j hj => hframe j ?_⟩
    exact List.mem_cons_of_mem _ hj

theorem Linked.frame_set (h : Linked holes hole prev l) (hi : i ∉ l.map Prod.fst) :
    Linked (holes.set i x) hole prev l := by
  apply h.frame
  intro j hj hlive
  have hne : i ≠ j := fun he => hi (he ▸ hj)
  exact ⟨Pool.live_set.mpr hlive, by simp [Pool.set, List.getElem?_set_ne hne]⟩

theorem Linked.frame_put (h : Linked holes hole prev l) (hi : i ∉ l.map Prod.fst) :
    Linked (holes.put i) hole prev l := by
  apply h.frame
  intro j hj hlive
  have hne : j ≠ i := fun he => hi (he ▸ hj)
  refine ⟨Pool.live_put.mpr ⟨hlive, hne⟩, ?_⟩
  unfold Pool.put
  split
  · rfl
  · rfl

variable {sb sb' : Scoreboard}

/-- The positions of the pool that are in use, and the room there is for more, are the same. -/
structure SamePool (sb sb' : Scoreboard) : Prop where
  free : sb'.holes.freeIndices = sb.holes.freeIndices
  length : sb'.holes.elts.length = sb.holes.elts.length
  movesAt : sb'.movesAt = sb.movesAt
  sackedBytes : sb'.sackedBytes = sb.sackedBytes

theorem SamePool.live (h : SamePool sb sb') : sb'.holes.Live i ↔ sb.holes.Live i := by
  rw [Pool.Live, Pool.Live, h.free, h.length]

theorem SamePool.setHole (sb : Scoreboard) (i : Nat) (hole : Hole) : SamePool sb (sb.setHole i hole) :=
  ⟨rfl, List.length_set, rfl, rfl⟩

theorem Scoreboard.elts_setHole_ne (hne : j ≠ i) : (sb.setHole i hole).holes.elts[j]? = sb.holes.elts[j]? :=
  List.getElem?_set_ne (Ne.symm hne)

theorem Scoreboard.elts_setHole_self (hlive : sb.holes.Live i) : (sb.setHole i hole).holes.elts[i]? = some hole :=
  List.getElem?_set_self hlive.1

theorem Linked.set_prev (h : Linked sb.holes hole prev l) (prev' : Option Nat) :
    ∃ sb', sb.setPrev hole prev' = some sb' ∧ Linked sb'.holes hole prev' l ∧ SamePool sb sb' ∧ sb'.head = sb.head ∧
      ∀ j ∉ l.map Prod.fst, sb'.holes.elts[j]? = sb.holes.elts[j]? := by
  cases l with
  | nil =>
    obtain rfl : hole = none := h
    exact ⟨sb, rfl, rfl, ⟨rfl, rfl, rfl, rfl⟩, rfl, fun _ _ => rfl⟩
  | cons x l =>
    obtain ⟨i, start, stop⟩ := x
    have hni := h.not_mem
    obtain ⟨rfl, hlive, next, hnext, hrest⟩ := h
    refine ⟨sb.setHole i ⟨next, prev', start, stop⟩, ?_, ⟨rfl, ?_, next, ?_, hrest.frame_set hni⟩, .setHole .., rfl, ?_⟩
    · simp [Scoreboard.setPrev, Scoreboard.holeAt, hnext]
    · exact Pool.live_set.mpr hlive
    · exact Scoreboard.elts_setHole_self hlive
    · exact fun j hj => Scoreboard.elts_setHole_ne fun he => hj (he ▸ List.mem_cons_self)

/-- The holes before an index, the nearest first: each is the one before the last by its field `prev`, up to the
head. -/
def Before (sb : Scoreboard) : (prev hole : Option Nat) → List (Nat × Seq × Seq) → Prop
  | prev, hole, [] => prev = none ∧ sb.head = hole
  | prev, hole, (p, start, stop) :: pre =>
    prev = some p ∧ sb.holes.Live p ∧
      ∃ prev', sb.holes.elts[p]? = some ⟨hole, prev', start, stop⟩ ∧ Before sb prev' (some p) pre

/-- Where the walk is: the holes it has passed, and those from the current one on. -/
structure At (sb : Scoreboard) (prev hole : Option Nat) (pre l : List (Nat × Seq × Seq)) : Prop where
  before : Before sb prev hole pre
  after : Linked sb.holes hole prev l

theorem At.of_linked (h : Linked sb.holes sb.head none l) : At sb none sb.head [] l := ⟨⟨rfl, rfl⟩, h⟩

theorem At.linked (h : At sb prev hole pre l) : Linked sb.holes sb.head none (pre.reverse ++ l) := by
  induction pre generalizing prev hole l with
  | nil =>
    obtain ⟨⟨rfl, rfl⟩, hafter⟩ := h
    exact hafter
  | cons x pre ih =>
    obtain ⟨p, start, stop⟩ := x
    obtain ⟨⟨rfl, hlive, prev', hp, hbefore⟩, hafter⟩ := h
    rw [List.reverse_cons, List.append_assoc]
    exact ih ⟨hbefore, rfl, hlive, hole, hp, hafter⟩

theorem At.apart (h : At sb prev hole pre l) (hx : i ∈ pre.map Prod.fst) : i ∉ l.map Prod.fst := by
  have hnodup := h.linked.nodup
  rw [List.map_append, List.map_reverse] at hnodup
  exact fun hl => (List.nodup_append.mp hnodup).2.2 i (List.mem_reverse.mpr hx) i hl rfl

theorem Before.frame (h : Before sb prev hole pre) (hhead : sb'.head = sb.head)
    (hframe : ∀ i ∈ pre.map Prod.fst, sb.holes.Live i → sb'.holes.Live i ∧ sb'.holes.elts[i]? = sb.holes.elts[i]?) :
    Before sb' prev hole pre := by
  induction pre generalizing prev hole with
  | nil => exact ⟨h.1, hhead.trans h.2⟩
  | cons x pre ih =>
    obtain ⟨p, start, stop⟩ := x
    obtain ⟨rfl, hlive, prev', hp, hbefore⟩ := h
    obtain ⟨hlive', he⟩ := hframe p List.mem_cons_self hlive
    exact ⟨rfl, hlive', prev', he.trans hp, ih hbefore fun i hi => hframe i (List.mem_cons_of_mem _ hi)⟩

theorem At.here (h : At sb prev hole pre ((i, start, stop) :: l)) :
    hole = some i ∧ ∃ next, sb.holeAt i = some ⟨next, prev, start, stop⟩ ∧ Linked sb.holes next (some i) l :=
  ⟨h.after.1, h.after.2.2⟩

theorem At.pass (h : At sb prev hole pre ((i, start, stop) :: l))
    (hhole : sb.holeAt i = some ⟨next, p, start', stop'⟩) :
    At sb (some i) next ((i, start, stop) :: pre) l := by
  obtain ⟨hbefore, rfl, hlive, next', hnext, hrest⟩ := h
  obtain rfl : next' = next := congrArg Hole.next (Option.some.inj (hnext.symm.trans hhole))
  exact ⟨⟨rfl, hlive, prev, hnext, hbefore⟩, hrest⟩

theorem At.setHole (h : At sb prev hole pre ((i, start, stop) :: l)) (start' stop' : Seq)
    (hhole : sb.holeAt i = some ⟨next, p, start, stop⟩) :
    At (sb.setHole i ⟨next, p, start', stop'⟩) prev hole pre ((i, start', stop') :: l) := by
  have hni := h.after.not_mem
  have hapart : i ∉ pre.map Prod.fst := fun hi => h.apart hi List.mem_cons_self
  obtain ⟨hbefore, rfl, hlive, next', hnext, hrest⟩ := h
  have he := Option.some.inj (hnext.symm.trans hhole)
  obtain rfl : next' = next := congrArg Hole.next he
  obtain rfl : prev = p := congrArg Hole.prev he
  refine ⟨hbefore.frame rfl fun j hj hlivej => ?_, rfl, Pool.live_set.mpr hlive, next', ?_, hrest.frame_set hni⟩
  · exact ⟨Pool.live_set.mpr hlivej, Scoreboard.elts_setHole_ne fun he => hapart (he ▸ hj)⟩
  · exact Scoreboard.elts_setHole_self hlive

theorem Before.set_next (h : Before sb prev hole pre) (hnodup : (pre.map Prod.fst).Nodup) (hole' : Option Nat) :
    ∃ sb', sb.setNext prev hole' = some sb' ∧ Before sb' prev hole' pre ∧ SamePool sb sb' ∧ ∀ j ∉ pre.map Prod.fst,
        sb'.holes.elts[j]? = sb.holes.elts[j]? := by
  cases pre with
  | nil =>
    obtain ⟨rfl, rfl⟩ := h
    exact ⟨_, rfl, ⟨rfl, rfl⟩, ⟨rfl, rfl, rfl, rfl⟩, fun _ _ => rfl⟩
  | cons x pre =>
    obtain ⟨p, start, stop⟩ := x
    obtain ⟨rfl, hlive, prev', hp, hbefore⟩ := h
    have hni := (List.nodup_cons.mp hnodup).1
    refine ⟨sb.setHole p ⟨hole', prev', start, stop⟩, ?_, ⟨rfl, Pool.live_set.mpr hlive, prev', ?_, ?_⟩,
        .setHole .., ?_⟩
    · simp [Scoreboard.setNext, Scoreboard.holeAt, hp]
    · exact Scoreboard.elts_setHole_self hlive
    · exact hbefore.frame rfl fun j hj hlivej =>
        ⟨Pool.live_set.mpr hlivej, Scoreboard.elts_setHole_ne fun he => hni (he ▸ hj)⟩
    · exact fun j hj => Scoreboard.elts_setHole_ne fun he => hj (he ▸ List.mem_cons_self)

/-- The pool does not move while it takes so many holes. -/
def Scoreboard.Room (sb : Scoreboard) (n : Nat) : Prop :=
  ∀ m ∈ sb.movesAt, sb.holes.elts.length ≤ m → sb.holes.elts.length + n ≤ m + sb.holes.freeIndices.length

instance (sb : Scoreboard) (n : Nat) : Decidable (sb.Room n) :=
  inferInstanceAs (Decidable (∀ m ∈ sb.movesAt, _ → _))

theorem SamePool.room (h : SamePool sb sb') (hroom : sb.Room n) : sb'.Room n := by
  rw [Scoreboard.Room, h.movesAt, h.length, h.free]
  exact hroom

/-- A hole that is removed leaves the others where they are. -/
theorem At.remove (h : At sb prev hole pre ((i, start, stop) :: l)) :
    ∃ sb' next, sb.holeAt i = some ⟨next, prev, start, stop⟩ ∧ scoreboardRemoveHole sb i = some sb' ∧
      At sb' prev next pre l ∧ sb'.sackedBytes = sb.sackedBytes ∧ ∀ n, sb.Room n → sb'.Room n := by
  have hni := h.after.not_mem
  have hpre : i ∉ pre.map Prod.fst := fun hi => h.apart hi List.mem_cons_self
  have hnodup : (pre.map Prod.fst).Nodup := by
    have hall := h.linked.nodup
    rw [List.map_append, List.map_reverse] at hall
    exact List.nodup_reverse.mp (List.nodup_append.mp hall).1
  have hapart : ∀ j ∈ pre.map Prod.fst, j ∉ l.map Prod.fst := fun j hj hl => h.apart hj (List.mem_cons_of_mem _ hl)
  obtain ⟨hbefore, rfl, hlive, next, hnext, hrest⟩ := h
  obtain ⟨sb₁, hset, hlinked, hpool, hhead, helts⟩ := hrest.set_prev prev
  have hbefore₁ : Before sb₁ prev (some i) pre := hbefore.frame hhead fun j hj hlivej =>
    ⟨hpool.live.mpr hlivej, helts j (hapart j hj)⟩
  obtain ⟨sb₂, hset₂, hbefore₂, hpool₂, helts₂⟩ := hbefore₁.set_next hnodup next
  have hlinked₂ : Linked sb₂.holes next prev l := hlinked.frame fun j hj hlivej =>
    ⟨hpool₂.live.mpr hlivej, helts₂ j fun hp => hapart j hp hj⟩
  have hlive₂ : sb₂.holes.Live i := hpool₂.live.mpr (hpool.live.mpr hlive)
  refine ⟨{ sb₂ with holes := sb₂.holes.put i }, next, hnext, ?_, ⟨?_, hlinked₂.frame_put hni⟩, ?_, ?_⟩
  · simp [scoreboardRemoveHole, Scoreboard.holeAt, hnext, hset, hset₂]
  · refine hbefore₂.frame rfl fun j hj hlivej => ⟨Pool.live_put.mpr ⟨hlivej, ?_⟩, Pool.getElem?_put ..⟩
    exact fun he => hpre (he ▸ hj)
  · exact hpool₂.sackedBytes.trans hpool.sackedBytes
  · intro n hroom m hm hlen
    rw [Pool.length_put] at hlen ⊢
    have hle := hpool₂.room (hpool.room hroom) m hm hlen
    rw [Pool.freeIndices_put hlive₂, List.length_cons]
    omega

theorem Scoreboard.Room.not_moves (h : sb.Room (n + 1)) : sb.getMoves = false := by
  rw [Scoreboard.getMoves, Bool.and_eq_false_iff, Bool.eq_false_iff, Bool.eq_false_iff]
  by_contra hnot
  simp only [not_or, ne_eq, not_not, List.isEmpty_iff, List.contains_iff_mem] at hnot
  have hle := h _ hnot.2 (Nat.le_refl _)
  rw [hnot.1, List.length_nil] at hle
  omega

/-- A hole that is inserted after the current one, where the pool stays. -/
theorem At.insert (h : At sb prev hole pre ((i, start, stop) :: l)) (hroom : sb.Room (n + 1)) (s e : Seq) :
    ∃ sb' j, scoreboardInsertHole sb (some i) s e = some sb' ∧
      At sb' prev hole pre ((i, start, stop) :: (j, s, e) :: l) ∧ sb'.sackedBytes = sb.sackedBytes ∧ sb'.Room n := by
  have hni := h.after.not_mem
  have hpre : i ∉ pre.map Prod.fst := fun hi => h.apart hi List.mem_cons_self
  have hlives : ∀ j ∈ l.map Prod.fst, sb.holes.Live j := by
    intro j hj
    obtain ⟨x, hx, rfl⟩ := List.mem_map.mp hj
    exact h.after.live (List.mem_cons_of_mem _ hx)
  have hapart : ∀ j ∈ pre.map Prod.fst, j ∉ l.map Prod.fst := fun j hj hl => h.apart hj (List.mem_cons_of_mem _ hl)
  have hmoves := hroom.not_moves
  obtain ⟨hbefore, rfl, hlive, next, hnext, hrest⟩ := h
  have hj : ¬ sb.holes.Live sb.holes.get.2 := Pool.not_live_get _
  have hij : i ≠ sb.holes.get.2 := fun he => hj (he ▸ hlive)
  let sb₁ : Scoreboard := { sb with holes := sb.holes.get.1.set sb.holes.get.2 ⟨next, some i, s, e⟩ }
  have hlive₁ (k : Nat) : sb₁.holes.Live k ↔ sb.holes.Live k ∨ k = sb.holes.get.2 := Pool.live_set.trans Pool.live_get
  have helts₁ (k : Nat) (hk : sb.holes.Live k) : sb₁.holes.elts[k]? = sb.holes.elts[k]? := by
    have hne : sb.holes.get.2 ≠ k := fun he => hj (he ▸ hk)
    exact (List.getElem?_set_ne hne).trans (Pool.getElem?_get hk.1)
  have hlinked₁ : Linked sb₁.holes next (some i) l := hrest.frame fun k _ hk => ⟨(hlive₁ k).mpr (.inl hk), helts₁ k hk⟩
  obtain ⟨sb₂, hset, hlinked₂, hpool, hhead, helts₂⟩ := hlinked₁.set_prev (some sb.holes.get.2)
  have hjl : sb.holes.get.2 ∉ l.map Prod.fst := fun hl => hj (hlives _ hl)
  have hi₂ : sb₂.holes.elts[i]? = some ⟨next, prev, start, stop⟩ := (helts₂ i hni).trans ((helts₁ i hlive).trans hnext)
  have hlive₂ : sb₂.holes.Live i := hpool.live.mpr ((hlive₁ i).mpr (.inl hlive))
  refine ⟨sb₂.setHole i ⟨some sb.holes.get.2, prev, start, stop⟩, sb.holes.get.2, ?_, ⟨?_, ?_⟩, hpool.sackedBytes, ?_⟩
  · have hset' : sb₁.setPrev next (some sb.holes.get.2) = some sb₂ := hset
    simp only [scoreboardInsertHole, hmoves, Scoreboard.holeAt, hnext, bind_eq_bind, bind_some,
      Bool.false_eq_true, if_false]
    simp only [sb₁] at hset'
    rw [hset', bind_some, hi₂, bind_some]
  · refine hbefore.frame hhead fun k hk hlivek => ⟨?_, ?_⟩
    · exact Pool.live_set.mpr (hpool.live.mpr ((hlive₁ k).mpr (.inl hlivek)))
    · have hne : k ≠ i := fun he => hpre (he ▸ hk)
      rw [Scoreboard.elts_setHole_ne hne, helts₂ k (hapart k hk), helts₁ k hlivek]
  · refine ⟨rfl, Pool.live_set.mpr hlive₂, _, Scoreboard.elts_setHole_self hlive₂, rfl, ?_, next, ?_, ?_⟩
    · exact Pool.live_set.mpr (hpool.live.mpr ((hlive₁ _).mpr (.inr rfl)))
    · rw [Scoreboard.elts_setHole_ne hij.symm, helts₂ _ hjl]
      exact List.getElem?_set_self (Pool.live_get.mpr (.inr rfl)).1
    · exact hlinked₂.frame_set hni
  · apply (SamePool.setHole ..).room
    apply hpool.room
    intro m hm hlen
    have hle := hroom m hm
    simp only [sb₁, Pool.set, List.length_set, Pool.length_get, Pool.freeIndices_get_length] at hlen ⊢
    cases hfree : sb.holes.freeIndices with
    | nil =>
      simp only [hfree, if_true, List.length_nil] at hlen hle ⊢
      omega
    | cons k rest =>
      simp only [hfree, List.length_cons, reduceCtorEq, if_false] at hlen hle ⊢
      omega

end Vpp.Tcp
