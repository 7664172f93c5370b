import Vpp.Tcp.RcvAck

namespace Vpp.Tcp
open Vpp.Lib List Option

def Hole.translate (c : Seq) (hole : Hole) : Hole := { hole with start := hole.start + c, stop := hole.stop + c }

def SackBlock.translate (c : Seq) (blk : SackBlock) : SackBlock := ⟨blk.start + c, blk.stop + c⟩

def Scoreboard.translate (c : Seq) (sb : Scoreboard) : Scoreboard :=
  { sb with holes := sb.holes.map (Hole.translate c) }

variable (c d : Seq)

@[simp] theorem Hole.start_translate (hole : Hole) : (hole.translate c).start = hole.start + c := rfl
@[simp] theorem Hole.stop_translate (hole : Hole) : (hole.translate c).stop = hole.stop + c := rfl
@[simp] theorem Hole.next_translate (hole : Hole) : (hole.translate c).next = hole.next := rfl
@[simp] theorem SackBlock.start_translate (blk : SackBlock) : (blk.translate c).start = blk.start + c := rfl
@[simp] theorem SackBlock.stop_translate (blk : SackBlock) : (blk.translate c).stop = blk.stop + c := rfl

theorem sub_one_add (a : Seq) : a + c - 1 = a - 1 + c := by rw [add_sub_right_comm]

namespace Scoreboard
variable (sb : Scoreboard)

@[simp] theorem head_translate : (sb.translate c).head = sb.head := rfl
@[simp] theorem sackedBytes_translate : (sb.translate c).sackedBytes = sb.sackedBytes := rfl

@[simp] theorem holeAt_translate (i : Nat) : (sb.translate c).holeAt i = (sb.holeAt i).map (Hole.translate c) := by
  simp [holeAt, translate, Pool.map]

theorem setHole_translate (i : Nat) (hole : Hole) :
    (sb.translate c).setHole i (hole.translate c) = (sb.setHole i hole).translate c := by
  simp [setHole, translate, Pool.set_map]

theorem setPrev_translate (i prev : Option Nat) :
    (sb.translate c).setPrev i prev = (sb.setPrev i prev).map (translate c) := by
  cases i with
  | none => rfl
  | some i =>
    simp only [setPrev, holeAt_translate, bind_eq_bind]
    cases sb.holeAt i with
    | none => rfl
    | some hole => exact congrArg some (sb.setHole_translate c i { hole with prev })

@[simp] theorem getMoves_translate : (sb.translate c).getMoves = sb.getMoves := by
  simp [getMoves, translate, Pool.map]

theorem setNext_translate (i next : Option Nat) :
    (sb.translate c).setNext i next = (sb.setNext i next).map (translate c) := by
  cases i with
  | none => rfl
  | some i =>
    simp only [setNext, holeAt_translate, bind_eq_bind]
    cases sb.holeAt i with
    | none => rfl
    | some hole => exact congrArg some (sb.setHole_translate c i { hole with next })

theorem removedBytes_translate (ack : Seq) (hole : Hole) :
    (sb.translate c).removedBytes (ack + c) (hole.translate c) = sb.removedBytes ack hole := by
  have hnext : hole.next.bind (sb.translate c).holeAt = (hole.next.bind sb.holeAt).map (Hole.translate c) := by
    cases hole.next with
    | none => rfl
    | some i => exact sb.holeAt_translate c i
  simp only [removedBytes, Hole.translate, seqLt_add_right, hnext, sackedBytes_translate, scoreboardHoleBytes,
    add_sub_add_right_eq_sub]
  cases hole.next.bind sb.holeAt with
  | none => simp only [map_none, bind_eq_bind, bind_none]
  | some next =>
    simp only [map_some, bind_eq_bind, bind_some, Hole.translate, seqLt_add_right,
      add_sub_add_right_eq_sub]

end Scoreboard

theorem scoreboardRemoveHole_translate (sb : Scoreboard) (i : Nat) :
    scoreboardRemoveHole (sb.translate c) i = (scoreboardRemoveHole sb i).map (Scoreboard.translate c) := by
  simp only [scoreboardRemoveHole, Scoreboard.holeAt_translate, bind_eq_bind]
  cases sb.holeAt i with
  | none => rfl
  | some hole =>
    simp only [map_some, bind_some, Hole.translate, sb.setPrev_translate]
    cases sb.setPrev hole.next hole.prev with
    | none => rfl
    | some sb' =>
      simp only [map_some, bind_some, sb'.setNext_translate]
      cases sb'.setNext hole.prev hole.next with
      | none => rfl
      | some sb'' => simp [Scoreboard.translate, Pool.put_map]

theorem scoreboardInsertHole_translate_none (sb : Scoreboard) (start stop : Seq) :
    scoreboardInsertHole (sb.translate c) none (start + c) (stop + c) =
      (scoreboardInsertHole sb none start stop).map (Scoreboard.translate c) := by
  have hset := Pool.get_map_set (Hole.translate c) sb.holes ⟨none, none, start, stop⟩
  simp only [Hole.translate] at hset
  simp only [scoreboardInsertHole, Scoreboard.translate, Pool.get_map_index, map_some]
  simp only [hset]

theorem scoreboardInsertHole_translate_some (sb : Scoreboard) (p : Nat) (start stop : Seq) :
    scoreboardInsertHole (sb.translate c) (some p) (start + c) (stop + c) =
      (scoreboardInsertHole sb (some p) start stop).map (Scoreboard.translate c) := by
  simp only [scoreboardInsertHole, Scoreboard.holeAt_translate, bind_eq_bind, Scoreboard.getMoves_translate]
  cases sb.getMoves with
  | true => rfl
  | false =>
    cases sb.holeAt p with
    | none => rfl
    | some prev =>
      let sb₁ : Scoreboard := { sb with holes := sb.holes.get.1.set sb.holes.get.2 ⟨prev.next, some p, start, stop⟩ }
      have hset : (sb.translate c).holes.get.1.set sb.holes.get.2 ⟨prev.next, some p, start + c, stop + c⟩ =
          (sb₁.translate c).holes := Pool.get_map_set (Hole.translate c) sb.holes ⟨prev.next, some p, start, stop⟩
      have hindex : (sb.translate c).holes.get.2 = sb.holes.get.2 := Pool.get_map_index _ _
      simp only [map_some, bind_some, Hole.translate, hindex, hset]
      change ((sb₁.translate c).setPrev prev.next (some sb.holes.get.2)).bind _ =
        Option.map _ ((sb₁.setPrev prev.next (some sb.holes.get.2)).bind _)
      rw [Scoreboard.setPrev_translate]
      cases sb₁.setPrev prev.next (some sb.holes.get.2) with
      | none => rfl
      | some sb₂ =>
        simp only [map_some, bind_some, Scoreboard.holeAt_translate]
        cases sb₂.holeAt p with
        | none => rfl
        | some hole =>
          exact congrArg some (sb₂.setHole_translate c p { hole with next := some sb.holes.get.2 })

theorem walkHoles_translate (ack : Seq) (fuel : Nat) (sb : Scoreboard) (hole : Option Nat) (sacks : List SackBlock) :
    walkHoles (ack + c) fuel (sb.translate c) hole (sacks.map (SackBlock.translate c)) =
      (walkHoles ack fuel sb hole sacks).map (Scoreboard.translate c) := by
  induction fuel generalizing sb hole sacks with
  | zero => simp [walkHoles]
  | succ fuel ih =>
    cases hole with
    | none => simp [walkHoles]
    | some h =>
      cases sacks with
      | nil => simp [walkHoles]
      | cons blk sacks =>
        rw [map_cons, walkHoles, walkHoles, Scoreboard.holeAt_translate]
        cases sb.holeAt h with
        | none => rfl
        | some hole =>
          simp only [map_some, bind_eq_bind, bind_some, SackBlock.start_translate,
            SackBlock.stop_translate, Hole.start_translate, Hole.stop_translate, Hole.next_translate, seqLeq_add_right,
            seqGeq_add_right, add_sub_add_right_eq_sub, Scoreboard.removedBytes_translate,
            Scoreboard.sackedBytes_translate, sub_one_add]
          split
          · split
            · cases sb.removedBytes ack hole with
              | none => rfl
              | some sackedBytes =>
                have hremove := scoreboardRemoveHole_translate c { sb with sackedBytes } h
                simp only [Scoreboard.translate] at hremove
                simp only [bind_some, Scoreboard.translate, hremove]
                cases scoreboardRemoveHole { sb with sackedBytes } h with
                | none => rfl
                | some sb' => exact ih sb' hole.next (blk :: sacks)
            · let sb' : Scoreboard := { sb with sackedBytes := sb.sackedBytes + (blk.stop - hole.start) }
              have hset := sb'.setHole_translate c h { hole with start := blk.stop }
              exact (congrArg (walkHoles _ fuel · (some h) _) hset).trans (ih _ (some h) sacks)
          · split
            · let sb' : Scoreboard := { sb with sackedBytes := sb.sackedBytes + (blk.stop - blk.start) }
              have hinsert := scoreboardInsertHole_translate_some c sb' h blk.stop hole.stop
              change (scoreboardInsertHole (sb'.translate c) (some h) (blk.stop + c) (hole.stop + c)).bind _ = _
              rw [hinsert]
              change _ = Option.map _ ((scoreboardInsertHole sb' (some h) blk.stop hole.stop).bind _)
              cases scoreboardInsertHole sb' (some h) blk.stop hole.stop with
              | none => rfl
              | some sb₁ =>
                simp only [map_some, bind_some, Scoreboard.holeAt_translate]
                cases sb₁.holeAt h with
                | none => rfl
                | some hole' =>
                  have hset := sb₁.setHole_translate c h { hole' with stop := blk.start - 1 }
                  exact (congrArg (walkHoles _ fuel · (some h) _) hset).trans (ih _ (some h) sacks)
            · let sb' : Scoreboard := { sb with sackedBytes := sb.sackedBytes + (hole.stop - blk.start + 1) }
              have hset := sb'.setHole_translate c h { hole with stop := blk.start - 1 }
              exact (congrArg (walkHoles _ fuel · hole.next _) hset).trans (ih _ hole.next (blk :: sacks))

theorem removeInvalid_translate (hk : ∀ blk, keep' (SackBlock.translate c blk) = keep blk) (fuel : Nat)
    (sacks : List SackBlock) :
    removeInvalid keep' fuel (sacks.map (SackBlock.translate c)) =
      (removeInvalid keep fuel sacks).map (SackBlock.translate c) := by
  fun_induction removeInvalid keep fuel sacks with
  | case1 sacks => simp [removeInvalid]
  | case2 => simp [removeInvalid]
  | case3 fuel blk rest hb ih => simp [removeInvalid, hk, hb, ih]
  | case4 fuel blk rest hb hnone => simp [removeInvalid, hk, hb, hnone]
  | case5 fuel blk rest hb last hlast ih => simp [removeInvalid, hk, hb, hlast, ← ih]

theorem swapSacks_translate (sacks : List SackBlock) (i j : Nat) :
    swapSacks (sacks.map (SackBlock.translate c)) i j = (swapSacks sacks i j).map (SackBlock.translate c) := by
  simp only [swapSacks, getElem?_map]
  cases sacks[i]? with
  | none => simp
  | some a =>
    cases sacks[j]? with
    | none => simp
    | some b =>
      simp only [map_some, SackBlock.start_translate, seqLt_add_right]
      split
      · simp [map_set]
      · rfl

theorem orderSacks_translate (sacks : List SackBlock) :
    orderSacks (sacks.map (SackBlock.translate c)) = (orderSacks sacks).map (SackBlock.translate c) := by
  have hinner : ∀ (i : Nat) (js : List Nat) (sacks : List SackBlock),
      js.foldl (fun sacks j => swapSacks sacks i j) (sacks.map (SackBlock.translate c)) =
        (js.foldl (fun sacks j => swapSacks sacks i j) sacks).map (SackBlock.translate c) := by
    intro i js
    induction js with
    | nil => exact fun _ => rfl
    | cons j js ih =>
      intro sacks
      rw [foldl_cons, foldl_cons, swapSacks_translate, ih]
  unfold orderSacks
  rw [length_map]
  generalize List.range sacks.length = is
  induction is generalizing sacks with
  | nil => rfl
  | cons i is ih => rw [foldl_cons, foldl_cons, length_map, hinner, ih]

/-- Add `c` to the numbers of the bytes that are sent and `d` to those of the bytes that are received. -/
def TcpConnection.translate (c d : Seq) (tc : TcpConnection) : TcpConnection :=
  { tc with
    sndUna := tc.sndUna + c
    sndUnaMax := tc.sndUnaMax + c
    sndNxt := tc.sndNxt + c
    sndWl1 := tc.sndWl1 + d
    sndWl2 := tc.sndWl2 + c
    sackSb := tc.sackSb.translate c
    opt := { tc.opt with sacks := tc.opt.sacks.map (SackBlock.translate c) } }

def Segment.translate (c d : Seq) (seg : Segment) : Segment :=
  { seg with seqNumber := seg.seqNumber + d, seqEnd := seg.seqEnd + d, ackNumber := seg.ackNumber + c }

variable (tc : TcpConnection)

theorem ackedBlocks_translate (ack : Seq) :
    ackedBlocks (tc.translate c d) (ack + c) = (ackedBlocks tc ack).map (SackBlock.translate c) := by
  have hk : ∀ blk, sackIsValid (tc.translate c d) (ack + c) (SackBlock.translate c blk) = sackIsValid tc ack blk := by
    intro blk
    simp [sackIsValid, TcpConnection.translate]
  have hremove := removeInvalid_translate c hk tc.opt.sacks.length tc.opt.sacks
  have hlen : (tc.translate c d).opt.sacks.length = tc.opt.sacks.length := length_map _
  have hgt : seqGt (ack + c) (tc.translate c d).sndUna = seqGt ack tc.sndUna := seqGt_add_right ack tc.sndUna c
  simp only [ackedBlocks, hgt, hlen]
  change (if _ then removeInvalid _ _ (tc.opt.sacks.map _) ++ _ else removeInvalid _ _ (tc.opt.sacks.map _)) = _
  rw [hremove]
  split
  · rw [map_append]
    rfl
  · rfl

theorem tcpRcvSacks_translate (ack : Seq) :
    tcpRcvSacks (tc.translate c d) (ack + c) = (tcpRcvSacks tc ack).map (TcpConnection.translate c d) := by
  have hflags : (tc.translate c d).flags = tc.flags := rfl
  have hsb : (tc.translate c d).sackSb = tc.sackSb.translate c := rfl
  have htail : ∀ (sb : Scoreboard) (sacks : List SackBlock),
      (do
        let sackSb ← walkHoles (ack + c) (3 * sacks.length + 2 * (sb.translate c).holes.elts.length + 1)
          (sb.translate c) sb.head (sacks.map (SackBlock.translate c))
        some { tc.translate c d with
          sackSb, opt := { (tc.translate c d).opt with sacks := sacks.map (SackBlock.translate c) } }) =
      Option.map (TcpConnection.translate c d) (do
        let sackSb ← walkHoles ack (3 * sacks.length + 2 * sb.holes.elts.length + 1) sb sb.head sacks
        some { tc with sackSb, opt := { tc.opt with sacks } }) := by
    intro sb sacks
    have hlen : (sb.translate c).holes.elts.length = sb.holes.elts.length := length_map _
    rw [hlen, walkHoles_translate]
    cases walkHoles ack _ sb sb.head sacks with
    | none => rfl
    | some sackSb => rfl
  simp only [tcpRcvSacks, hflags, hsb, ackedBlocks_translate, Scoreboard.head_translate, length_map,
    orderSacks_translate]
  split
  · rfl
  · split
    · rfl
    · split
      · have hinsert := scoreboardInsertHole_translate_none c tc.sackSb tc.sndUna tc.sndUnaMax
        change (scoreboardInsertHole (tc.sackSb.translate c) none (tc.sndUna + c) (tc.sndUnaMax + c)).bind _ = _
        rw [hinsert]
        cases scoreboardInsertHole tc.sackSb none tc.sndUna tc.sndUnaMax with
        | none => rfl
        | some sb => exact htail sb _
      · exact htail tc.sackSb _

end Vpp.Tcp
