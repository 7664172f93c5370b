import Vpp.Tcp.Walk

namespace Vpp.Tcp
open Vpp.Lib Spans List

variable {ack : Seq}

/-- The stream of a sender by the positions of its bytes, which do not wrap around: what has been acked, the
highest end of the bytes sent when the holes were created, and what valid blocks have covered. -/
structure Stream where
  iss : Seq
  una : Nat
  top : Nat
  sacked : Finset Nat

/-- The position of a sequence number that is not below the lowest one that is not acked. -/
def Stream.pos (st : Stream) (b : Seq) : Nat := st.una + (b - Seq.at st.iss st.una).toNat

def Stream.posBlock (st : Stream) (blk : SackBlock) : Nat × Nat := (st.pos blk.start, st.pos blk.stop)

structure Sender where
  tc : TcpConnection
  stream : Stream

inductive Event where
  | advance (nxt unaMax : Seq)
  | segment (flags : BitVec 16) (ack : Seq) (sacks : List SackBlock)

/-- The connection when the options of a segment have been parsed. -/
def TcpConnection.parsed (tc : TcpConnection) (flags : BitVec 16) (sacks : List SackBlock) : TcpConnection :=
  { tc with flags, opt := { tc.opt with sacks } }

def ackIsAcceptable (tc : TcpConnection) (ack : Seq) : Bool := !seqGt ack tc.sndNxt && !seqLt ack tc.sndUna

def Stream.receive (st : Stream) (tc : TcpConnection) (ack : Seq) : Stream where
  iss := st.iss
  una := st.pos ack
  top :=
    if tcpOptsSack tc.flags ∧ tc.sackSb.head = none ∧ ackedBlocks tc ack ≠ [] then max st.top (st.pos tc.sndUnaMax)
    else st.top
  sacked := st.sacked ∪ blockBytes ((tc.opt.sacks.filter (sackIsValid tc ack)).map st.posBlock)

/-- What is sent stays within half of the sequence numbers. A segment that is not acceptable is dropped. -/
def Sender.step (s : Sender) : Event → Option Sender
  | .advance nxt unaMax =>
    if s.stream.pos nxt ≤ s.stream.pos unaMax ∧ s.stream.pos s.tc.sndUnaMax ≤ s.stream.pos unaMax ∧
        s.stream.pos unaMax < s.stream.una + 2 ^ 31 then
      some { s with tc := { s.tc with sndNxt := nxt, sndUnaMax := unaMax } }
    else some s
  | .segment flags ack sacks =>
    let tc := s.tc.parsed flags sacks
    if ackIsAcceptable tc ack then do
      let tc' ← tcpRcvSacks tc ack
      some { tc := { tc' with sndUna := ack }, stream := s.stream.receive tc ack }
    else some s

def Sender.run (s : Sender) (events : List Event) : Option Sender := events.foldlM Sender.step s

/-- The holes are linked both ways, in order and apart, and the bytes outside of them are those that valid
blocks have covered. Those above the ack are counted. -/
structure Scored (s : Sender) : Prop where
  holes : s.tc.sackSb.head ≠ none → ∃ l, Linked s.tc.sackSb.holes s.tc.sackSb.head none l ∧
    (∀ h ∈ l, s.stream.pos h.2.1 < s.stream.pos h.2.2) ∧
    (l.Pairwise fun h h' => s.stream.pos h.2.2 ≤ s.stream.pos h'.2.1) ∧
    ∀ n, s.stream.una ≤ n → n < s.stream.top →
      ((∀ h ∈ l, ¬ (s.stream.pos h.2.1 ≤ n ∧ n < s.stream.pos h.2.2)) ↔ n ∈ s.stream.sacked)
  bytes : s.tc.sackSb.sackedBytes.toNat = (s.stream.sacked.filter fun n => s.stream.una ≤ n ∧ n < s.stream.top).card

/-- The bytes that no valid block has covered. -/
def Stream.missing (st : Stream) : Finset Nat := Finset.Ico st.una st.top \ st.sacked

def leftBlocks (tc : TcpConnection) (ack : Seq) : List SackBlock :=
  removeInvalid (sackIsValid tc ack) tc.opt.sacks.length tc.opt.sacks

/-- The walk over holes, given by their positions, with the blocks of a segment does no harm: all blocks that are left
are valid and of bytes that have been sent, that of the cumulative ack comes first, each pass does as it should, and the
pool has room for the holes that are split. -/
def Stream.Fair (st : Stream) (tc : TcpConnection) (ack : Seq) (sb : Scoreboard) (holes : List (Nat × Nat)) : Prop :=
  (∀ blk ∈ leftBlocks tc ack, sackIsValid tc ack blk = true ∧ st.pos blk.stop ≤ st.pos tc.sndNxt) ∧
  ∃ blocks n, (orderSacks (ackedBlocks tc ack)).map st.posBlock = ackBlock st.una (st.pos ack) ++ blocks ∧
    Walks st.una (st.pos ack) holes blocks n ∧ sb.Room n

/-- A segment that does no harm: the first test returns, and it acks nothing or finds nothing counted; or no block is
left; or the first hole is created, over bytes of which none has been covered, or there are holes, and the walk over
them is fair. -/
def Sender.Unharmed (s : Sender) : Event → Prop
  | .advance _ _ => True
  | .segment flags ack sacks =>
    let tc := s.tc.parsed flags sacks
    ackIsAcceptable tc ack →
      (tcpOptsSack flags = false ∧ tc.sackSb.head = none ∧ (ack = tc.sndUna ∨ tc.sackSb.sackedBytes = 0)) ∨
      ackedBlocks tc ack = [] ∨
      (tcpOptsSack flags = true ∧ tc.sackSb.head = none ∧ (∀ n ∈ s.stream.sacked, n < s.stream.una) ∧
        ∃ sb, scoreboardInsertHole tc.sackSb none tc.sndUna tc.sndUnaMax = some sb ∧
          s.stream.Fair tc ack sb [(s.stream.una, s.stream.pos tc.sndUnaMax)]) ∨
      (tc.sackSb.head ≠ none ∧ ∃ l, Linked tc.sackSb.holes tc.sackSb.head none l ∧
        s.stream.Fair tc ack tc.sackSb (l.map fun h => (s.stream.pos h.2.1, s.stream.pos h.2.2)))

def Sender.AllUnharmed : Sender → List Event → Prop
  | _, [] => True
  | s, e :: events => s.Unharmed e ∧ ∀ s', s.step e = some s' → s'.AllUnharmed events

variable (st : Stream)

theorem Stream.at_pos (b : Seq) : Seq.at st.iss (st.pos b) = b := by
  rw [Stream.pos, Seq.at_add, BitVec.ofNat_toNat, BitVec.setWidth_eq, add_sub_cancel]

theorem Stream.pos_at (hle : st.una ≤ n) (hlt : n < st.una + 2 ^ 32) :
    st.pos (Seq.at st.iss n) = n := by
  rw [Stream.pos, Seq.at_sub _ hle, BitVec.toNat_ofNat, Nat.mod_eq_of_lt (by omega)]
  omega

theorem Stream.una_le_pos (b : Seq) : st.una ≤ st.pos b := Nat.le_add_right _ _

theorem Stream.pos_lt (b : Seq) : st.pos b < st.una + 2 ^ 32 :=
  Nat.add_lt_add_left (BitVec.isLt _) _

theorem mem_of_mem_removeInvalid (h : blk ∈ removeInvalid keep fuel sacks) : blk ∈ sacks := by
  fun_induction removeInvalid keep fuel sacks with
  | case1 sacks => exact h
  | case2 => exact h
  | case3 fuel b rest hk ih =>
    cases h with
    | head => exact mem_cons_self
    | tail _ h => exact mem_cons_of_mem _ (ih h)
  | case4 => cases h
  | case5 fuel b rest hk last hlast ih =>
    have hm := mem_of_getLast? hlast
    cases h with
    | head => exact mem_cons_of_mem _ hm
    | tail _ h => exact mem_cons_of_mem _ (mem_of_mem_dropLast (ih h))

theorem mem_removeInvalid (fuel : Nat) (hk : keep blk = true) (h : blk ∈ sacks) :
    blk ∈ removeInvalid keep fuel sacks := by
  fun_induction removeInvalid keep fuel sacks with
  | case1 sacks => exact h
  | case2 => exact h
  | case3 fuel b rest hb ih =>
    cases h with
    | head => exact mem_cons_self
    | tail _ h => exact mem_cons_of_mem _ (ih h)
  | case4 fuel b rest hb hnone =>
    rw [getLast?_eq_none_iff.mp hnone, mem_singleton] at h
    exact absurd (h ▸ hk) hb
  | case5 fuel b rest hb last hlast ih =>
    cases h with
    | head => exact absurd hk hb
    | tail _ h =>
      have hm : blk ∈ rest.dropLast ++ [last] := (dropLast_append_getLast? last hlast).symm ▸ h
      rw [mem_append, mem_singleton] at hm
      cases hm with
      | inl h => exact mem_cons_of_mem _ (ih h)
      | inr h => exact h ▸ mem_cons_self

theorem swapSacks_perm (sacks : List SackBlock) (i j : Nat) : (swapSacks sacks i j).Perm sacks := by
  unfold swapSacks
  split
  · next a b ha hb =>
    split
    · obtain ⟨hi, rfl⟩ := List.getElem?_eq_some_iff.mp ha
      obtain ⟨hj, rfl⟩ := List.getElem?_eq_some_iff.mp hb
      exact set_set_perm hi hj
    · exact .refl _
  · exact .refl _

theorem foldl_swapSacks_perm (sacks : List SackBlock) (i : Nat) (js : List Nat) :
    (js.foldl (fun sacks j => swapSacks sacks i j) sacks).Perm sacks := by
  induction js generalizing sacks with
  | nil => exact .refl _
  | cons j js ih => exact (ih _).trans (swapSacks_perm sacks i j)

theorem orderSacks_perm (sacks : List SackBlock) : (orderSacks sacks).Perm sacks := by
  unfold orderSacks
  generalize List.range sacks.length = is
  induction is generalizing sacks with
  | nil => exact .refl _
  | cons i is ih => exact (ih _).trans (foldl_swapSacks_perm sacks i _)

theorem Stream.pos_of_valid (hu : tc.sndUna = Seq.at st.iss st.una) (hv : sackIsValid tc ack blk = true) :
    st.una < st.pos blk.start ∧ st.pos blk.start < st.pos blk.stop := by
  rw [sackIsValid, Bool.and_eq_true, Bool.and_eq_true, Bool.and_eq_true] at hv
  obtain ⟨⟨⟨hlt, hgt⟩, -⟩, -⟩ := hv
  rw [hu] at hgt
  have hstart := toNat_of_seqGt hgt
  have hlen := toNat_of_seqLt hlt
  have hstop : (blk.stop - Seq.at st.iss st.una).toNat =
      (blk.start - Seq.at st.iss st.una).toNat + (blk.stop - blk.start).toNat := by
    rw [← sub_add_sub_cancel blk.stop blk.start, add_comm, BitVec.toNat_add, Nat.mod_eq_of_lt (by omega)]
  simp only [Stream.pos]
  omega

theorem pos_ack_le (hu : tc.sndUna = Seq.at st.iss st.una) (hn : st.pos tc.sndNxt < st.una + 2 ^ 31)
    (hack : ackIsAcceptable tc ack = true) : st.pos ack ≤ st.pos tc.sndNxt := by
  rw [ackIsAcceptable, Bool.and_eq_true, Bool.not_eq_true', Bool.not_eq_true'] at hack
  obtain ⟨hgt, hlt⟩ := hack
  rw [hu] at hlt
  have hnear := toNat_lt_of_not_seqLt hlt
  have hle := st.una_le_pos ack
  have hle' := st.una_le_pos tc.sndNxt
  rw [← st.at_pos ack, ← st.at_pos tc.sndNxt, seqGt_at _ (by unfold Stream.pos at *; omega) (by omega),
    decide_eq_false_iff_not] at hgt
  omega

/-- The scoreboard is what the stream says, and everything is within half of the sequence numbers. -/
structure Sender.Inv (s : Sender) : Prop where
  una : s.tc.sndUna = Seq.at s.stream.iss s.stream.una
  nxt : s.stream.pos s.tc.sndNxt ≤ s.stream.pos s.tc.sndUnaMax
  unaMax : s.stream.pos s.tc.sndUnaMax < s.stream.una + 2 ^ 31
  top : s.stream.top ≤ s.stream.pos s.tc.sndUnaMax
  spans : ∃ l, Linked s.tc.sackSb.holes s.tc.sackSb.head none (placed s.stream.iss l) ∧
    Ordered s.stream.una s.stream.top l ∧ missing l = s.stream.missing
  bytes : s.tc.sackSb.sackedBytes =
    BitVec.ofNat 32 (s.stream.sacked.filter fun n => s.stream.una ≤ n ∧ n < s.stream.top).card

theorem Stream.card_missing :
    (st.sacked.filter fun n => st.una ≤ n ∧ n < st.top).card + st.missing.card = st.top - st.una := by
  have hinter : (st.sacked.filter fun n => st.una ≤ n ∧ n < st.top) = Finset.Ico st.una st.top ∩ st.sacked := by
    ext n
    simp [and_comm]
  rw [hinter, Stream.missing, Finset.card_inter_add_card_sdiff, Nat.card_Ico]

theorem Sender.Inv.scored (h : s.Inv) : Scored s := by
  obtain ⟨l, hl, ho, hm⟩ := h.spans
  have hun := h.unaMax
  have htop := h.top
  have hpos : ∀ x ∈ l, s.stream.pos (Seq.at s.stream.iss x.2.1) = x.2.1 ∧
      s.stream.pos (Seq.at s.stream.iss x.2.2) = x.2.2 := by
    intro x hx
    have hlo := ho.lower x hx
    have hhi := ho.upper x hx
    have hne := ho.nonempty x hx
    exact ⟨s.stream.pos_at hlo (by omega), s.stream.pos_at (by omega) (by omega)⟩
  constructor
  · intro _
    refine ⟨placed s.stream.iss l, hl, ?_, ?_, ?_⟩
    · intro x hx
      obtain ⟨y, hy, rfl⟩ := List.mem_map.mp hx
      simp only [hpos y hy]
      exact ho.nonempty y hy
    · rw [placed, pairwise_map]
      refine ho.pairwise.imp_of_mem fun {a b} ha hb hle => ?_
      simpa only [hpos a ha, hpos b hb] using hle
    · intro n hlo hhi
      have hiff : n ∉ s.stream.missing ↔ n ∈ s.stream.sacked := by
        simp [Stream.missing, hlo, hhi]
      rw [← hiff, ← hm, mem_missing, placed, List.forall_mem_map]
      constructor
      · rintro hout ⟨x, hx, hin⟩
        have hnot := hout x hx
        simp only [hpos x hx] at hnot
        exact hnot hin
      · intro hout x hx hin
        simp only [hpos x hx] at hin
        exact hout ⟨x, hx, hin⟩
  · rw [h.bytes, BitVec.toNat_ofNat, Nat.mod_eq_of_lt]
    have hc := s.stream.card_missing
    omega

theorem Stream.pos_receive (hle : st.pos ack ≤ st.pos b) : (st.receive tc ack).pos b = st.pos b := by
  have hlow := st.una_le_pos ack
  have hlt := st.pos_lt b
  have hat := (st.receive tc ack).pos_at (n := st.pos b) hle (Nat.lt_of_lt_of_le hlt (Nat.add_le_add_right hlow _))
  have hb : Seq.at (st.receive tc ack).iss (st.pos b) = b := st.at_pos b
  rwa [hb] at hat

variable {s : Sender}

/-- The part of the invariant that the walk has to establish. -/
theorem Sender.Inv.received {tc tc' : TcpConnection} (h : s.Inv) (hack : ackIsAcceptable s.tc ack = true)
    (hnxt : tc'.sndNxt = s.tc.sndNxt) (hmax : tc'.sndUnaMax = s.tc.sndUnaMax)
    (htop : (s.stream.receive tc ack).top = high) (hle : high ≤ s.stream.pos s.tc.sndUnaMax)
    (hspans : ∃ l, Linked tc'.sackSb.holes tc'.sackSb.head none (placed s.stream.iss l) ∧
      Ordered (s.stream.pos ack) high l ∧ missing l = (s.stream.receive tc ack).missing)
    (hbytes : tc'.sackSb.sackedBytes = BitVec.ofNat 32 ((s.stream.receive tc ack).sacked.filter fun n =>
      s.stream.pos ack ≤ n ∧ n < high).card) :
    Sender.Inv ⟨{ tc' with sndUna := ack }, s.stream.receive tc ack⟩ := by
  have hacked := pos_ack_le s.stream h.una (Nat.lt_of_le_of_lt h.nxt h.unaMax) hack
  have hlow := s.stream.una_le_pos ack
  have hn : (s.stream.receive tc ack).pos tc'.sndNxt = s.stream.pos s.tc.sndNxt := by
    rw [hnxt, s.stream.pos_receive hacked]
  have hm : (s.stream.receive tc ack).pos tc'.sndUnaMax = s.stream.pos s.tc.sndUnaMax := by
    rw [hmax, s.stream.pos_receive (Nat.le_trans hacked h.nxt)]
  constructor
  · exact (s.stream.at_pos ack).symm
  · simp only [hn, hm]
    exact h.nxt
  · simp only [hm]
    exact Nat.lt_of_lt_of_le h.unaMax (Nat.add_le_add_right hlow _)
  · simp only [hm, htop]
    exact hle
  · simp only [htop]
    exact hspans
  · simp only [htop]
    exact hbytes

theorem Sender.Inv.pos_una (h : s.Inv) : s.stream.pos s.tc.sndUna = s.stream.una := by
  rw [Stream.pos, h.una, sub_self]
  rfl

theorem mem_ackedBlocks (hv : sackIsValid tc ack blk = true) (hm : blk ∈ tc.opt.sacks) : blk ∈ ackedBlocks tc ack := by
  have hr := mem_removeInvalid tc.opt.sacks.length hv hm
  unfold ackedBlocks
  split
  · exact mem_append_left _ hr
  · exact hr

theorem receive_sacked_of_invalid (tc : TcpConnection) (h : ∀ blk ∈ tc.opt.sacks, sackIsValid tc ack blk = false) :
    (st.receive tc ack).sacked = st.sacked := by
  have hnil : tc.opt.sacks.filter (sackIsValid tc ack) = [] :=
    filter_eq_nil_iff.mpr fun blk hm => by simp [h blk hm]
  simp [Stream.receive, hnil, blockBytes]

/-- The bytes that a segment covers are those of the blocks of the walk. -/
theorem receive_sacked_of_valid (tc : TcpConnection)
    (hvalid : ∀ blk ∈ leftBlocks tc ack, sackIsValid tc ack blk = true)
    (hblocks : blocks.Perm ((leftBlocks tc ack).map st.posBlock)) :
    (st.receive tc ack).sacked = st.sacked ∪ blockBytes blocks := by
  apply congrArg (st.sacked ∪ ·)
  have hmem : ∀ blk, blk ∈ tc.opt.sacks.filter (sackIsValid tc ack) ↔ blk ∈ leftBlocks tc ack := by
    intro blk
    rw [mem_filter]
    exact ⟨fun ⟨hm, hv⟩ => mem_removeInvalid _ hv hm, fun hm => ⟨mem_of_mem_removeInvalid hm, hvalid blk hm⟩⟩
  ext n
  simp only [mem_blockBytes, hblocks.mem_iff, List.mem_map, hmem]

theorem Stream.missing_receive (htop : (st.receive tc ack).top = high) :
    (st.receive tc ack).missing = Finset.Ico (st.pos ack) high \ (st.receive tc ack).sacked := by
  rw [Stream.missing, htop]
  rfl

theorem Stream.card_missing_receive (htop : (st.receive tc ack).top = high) :
    ((st.receive tc ack).sacked.filter fun n => st.pos ack ≤ n ∧ n < high).card +
      (st.receive tc ack).missing.card = high - st.pos ack := by
  have hcard := (st.receive tc ack).card_missing
  rw [htop] at hcard
  exact hcard

theorem seqGt_una_of_acceptable (hack : ackIsAcceptable tc ack = true) (hne : ack ≠ tc.sndUna) :
    seqGt ack tc.sndUna = true := by
  rw [ackIsAcceptable, Bool.and_eq_true, Bool.not_eq_true', Bool.not_eq_true', seqLt, decide_eq_false_iff_not] at hack
  rw [seqGt, decide_eq_true_iff]
  have hz : (ack - tc.sndUna).toInt ≠ 0 := by
    intro h0
    apply hne
    apply sub_eq_zero.mp
    exact BitVec.toInt_inj.mp h0
  omega

theorem ackedBlocks_ne_nil (hgt : seqGt ack tc.sndUna = true) : ackedBlocks tc ack ≠ [] := by
  simp [ackedBlocks, hgt]

theorem Sender.step_segment (hack : ackIsAcceptable s.tc ack = true)
    (hrcv : tcpRcvSacks (s.tc.parsed flags sacks) ack = some tc') :
    s.step (.segment flags ack sacks) =
      some ⟨{ tc' with sndUna := ack }, s.stream.receive (s.tc.parsed flags sacks) ack⟩ := by
  have hack' : ackIsAcceptable (s.tc.parsed flags sacks) ack = true := hack
  simp [Sender.step, hack', hrcv]

theorem Stream.placedBlocks_posBlock (sacks : List SackBlock) :
    placedBlocks st.iss (sacks.map st.posBlock) = sacks := by
  rw [placedBlocks, List.map_map]
  have hid : (fun b : Nat × Nat => SackBlock.mk (Seq.at st.iss b.1) (Seq.at st.iss b.2)) ∘ st.posBlock = id := by
    funext blk
    simp [Stream.posBlock, st.at_pos]
  exact (congrArg (sacks.map ·) hid).trans (List.map_id _)

theorem tcpRcvSacks_walk {tc : TcpConnection} {sb : Scoreboard} (hhead : sb.head ≠ none)
    (hstart : tc.sackSb.head = none ∧ tcpOptsSack tc.flags = true ∧
        scoreboardInsertHole tc.sackSb none tc.sndUna tc.sndUnaMax = some sb ∨
      tc.sackSb.head ≠ none ∧ tc.sackSb = sb)
    (hne : ackedBlocks tc ack ≠ [])
    (hwalk : walkHoles ack (3 * (orderSacks (ackedBlocks tc ack)).length + 2 * sb.holes.elts.length + 1) sb sb.head
      (orderSacks (ackedBlocks tc ack)) = some sackSb) :
    ∃ opt, tcpRcvSacks tc ack = some { tc with sackSb, opt } := by
  have hlen : (ackedBlocks tc ack).length ≠ 0 := by simpa using hne
  refine ⟨{ tc.opt with sacks := orderSacks (ackedBlocks tc ack) }, ?_⟩
  rcases hstart with ⟨hnone, hflag, hinsert⟩ | ⟨hsome, rfl⟩
  · simp [tcpRcvSacks, hnone, hflag, hlen, hinsert, hwalk]
  · have hfalse : tc.sackSb.head.isNone = false := by
      rw [Option.isNone_eq_false_iff, Option.isSome_iff_ne_none]
      exact hsome
    simp [tcpRcvSacks, hfalse, hlen, hwalk]

section
variable {s : Sender} (h : s.Inv) (hack : ackIsAcceptable s.tc ack = true)
include h hack

/-- The first test returns. -/
theorem Sender.Inv.segment_ignored (hsack : tcpOptsSack flags = false) (hhead : s.tc.sackSb.head = none)
    (hacked : ack = s.tc.sndUna ∨ s.tc.sackSb.sackedBytes = 0) :
    ∃ s', s.step (.segment flags ack sacks) = some s' ∧ s'.Inv := by
  have hrcv : tcpRcvSacks (s.tc.parsed flags sacks) ack = some (s.tc.parsed flags sacks) := by
    simp [tcpRcvSacks, TcpConnection.parsed, hsack, hhead]
  have htop : (s.stream.receive (s.tc.parsed flags sacks) ack).top = s.stream.top := by
    simp [Stream.receive, TcpConnection.parsed, hsack]
  have hlow := s.stream.una_le_pos ack
  have hcard := s.stream.card_missing
  have hcard' := s.stream.card_missing_receive htop
  obtain ⟨l, hl, ho, hm⟩ := h.spans
  have hnil : l = [] := by
    rw [hhead] at hl
    cases l with
    | nil => rfl
    | cons x l => exact absurd hl.1 (by simp)
  have hmiss : s.stream.missing = ∅ := by
    rw [← hm, hnil]
    rfl
  have hmiss' : (s.stream.receive (s.tc.parsed flags sacks) ack).missing = ∅ := by
    apply Finset.subset_empty.mp
    rw [s.stream.missing_receive htop, ← hmiss]
    exact Finset.sdiff_subset_sdiff (Finset.Ico_subset_Ico hlow le_rfl) Finset.subset_union_left
  rw [hmiss, Finset.card_empty, Nat.add_zero] at hcard
  rw [hmiss', Finset.card_empty, Nat.add_zero] at hcard'
  refine ⟨_, Sender.step_segment hack hrcv, h.received hack rfl rfl htop h.top ?_ ?_⟩
  · exact ⟨[], hhead, ⟨.nil, by simp, by simp, by simp⟩, hmiss'.symm⟩
  · have hbytes := h.bytes
    rw [hcard] at hbytes
    rw [hcard']
    cases hacked with
    | inl he =>
      rw [he, h.pos_una]
      exact hbytes
    | inr hz =>
      have hmax := h.unaMax
      have htop' := h.top
      have hzero := congrArg BitVec.toNat (hbytes.symm.trans hz)
      rw [BitVec.toNat_ofNat, Nat.mod_eq_of_lt (by omega)] at hzero
      have hsub : s.stream.top - s.stream.pos ack = 0 := by
        have h0 : s.stream.top - s.stream.una = 0 := hzero
        omega
      rw [hsub]
      exact hz

/-- No block is left and nothing is acked. -/
theorem Sender.Inv.segment_empty (hnil : ackedBlocks (s.tc.parsed flags sacks) ack = []) :
    ∃ s', s.step (.segment flags ack sacks) = some s' ∧ s'.Inv := by
  obtain rfl : ack = s.tc.sndUna := by
    by_contra hne
    have hack' : ackIsAcceptable (s.tc.parsed flags sacks) ack = true := hack
    exact ackedBlocks_ne_nil (seqGt_una_of_acceptable hack' hne) hnil
  have hinv : ∀ blk ∈ (s.tc.parsed flags sacks).opt.sacks,
      sackIsValid (s.tc.parsed flags sacks) s.tc.sndUna blk = false := by
    intro blk hm
    by_contra hv
    have hmem := mem_ackedBlocks (Bool.not_eq_false _ ▸ hv) hm
    rw [hnil] at hmem
    cases hmem
  have htop : (s.stream.receive (s.tc.parsed flags sacks) s.tc.sndUna).top = s.stream.top := by
    simp [Stream.receive, hnil]
  have hsacked := receive_sacked_of_invalid s.stream (s.tc.parsed flags sacks) hinv
  have hrcv : ∃ opt, tcpRcvSacks (s.tc.parsed flags sacks) s.tc.sndUna = some { s.tc.parsed flags sacks with opt } := by
    rw [tcpRcvSacks, hnil]
    split
    · exact ⟨_, rfl⟩
    · exact ⟨_, rfl⟩
  obtain ⟨opt, hrcv⟩ := hrcv
  refine ⟨_, Sender.step_segment hack hrcv, h.received hack rfl rfl htop h.top ?_ ?_⟩
  · rw [s.stream.missing_receive htop, hsacked, h.pos_una]
    exact h.spans
  · rw [hsacked, h.pos_una]
    exact h.bytes

theorem Sender.Inv.ackBlock_eq : ackBlock s.stream.una (s.stream.pos ack) =
    if seqGt ack s.tc.sndUna then [s.stream.posBlock ⟨s.tc.sndUna, ack⟩] else [] := by
  have hpos := h.pos_una
  by_cases he : ack = s.tc.sndUna
  · have hgt : seqGt s.tc.sndUna s.tc.sndUna = false := by simp [seqGt]
    rw [he, hpos, ackBlock, if_neg (Nat.lt_irrefl _), hgt]
    rfl
  · have hne : s.stream.una ≠ s.stream.pos ack := by
      intro heq
      apply he
      rw [h.una, heq, s.stream.at_pos]
    rw [ackBlock, if_pos (Nat.lt_of_le_of_ne (s.stream.una_le_pos ack) hne), if_pos (seqGt_una_of_acceptable hack he),
      Stream.posBlock, hpos]

/-- Besides the ack, the blocks of the walk are those that the removal leaves. -/
theorem Sender.Inv.walk_blocks
    (hblocks : (orderSacks (ackedBlocks (s.tc.parsed flags sacks) ack)).map s.stream.posBlock =
      ackBlock s.stream.una (s.stream.pos ack) ++ blocks) :
    blocks.Perm ((leftBlocks (s.tc.parsed flags sacks) ack).map s.stream.posBlock) := by
  have hperm := (orderSacks_perm (ackedBlocks (s.tc.parsed flags sacks) ack)).map s.stream.posBlock
  have hall : (ackedBlocks (s.tc.parsed flags sacks) ack).map s.stream.posBlock =
      (leftBlocks (s.tc.parsed flags sacks) ack).map s.stream.posBlock ++ ackBlock s.stream.una (s.stream.pos ack) := by
    rw [h.ackBlock_eq hack]
    by_cases hgt : seqGt ack s.tc.sndUna = true
    · have hacked : ackedBlocks (s.tc.parsed flags sacks) ack =
          leftBlocks (s.tc.parsed flags sacks) ack ++ [⟨s.tc.sndUna, ack⟩] := if_pos hgt
      rw [hacked, if_pos hgt, map_append]
      rfl
    · have hacked : ackedBlocks (s.tc.parsed flags sacks) ack = leftBlocks (s.tc.parsed flags sacks) ack := if_neg hgt
      rw [hacked, if_neg hgt, append_nil]
  rw [hblocks, hall] at hperm
  exact (perm_append_left_iff _).mp (hperm.trans perm_append_comm)

theorem Sender.Inv.valid_in (hv : sackIsValid (s.tc.parsed flags sacks) ack blk = true)
    (hstop : s.stream.pos blk.stop ≤ s.stream.pos s.tc.sndNxt) :
    BlockIn (s.stream.pos ack) (s.stream.posBlock blk) := by
  obtain ⟨hlow, hlt⟩ := s.stream.pos_of_valid (show (s.tc.parsed flags sacks).sndUna = _ from h.una) hv
  have hacked := pos_ack_le s.stream h.una (Nat.lt_of_le_of_lt h.nxt h.unaMax) hack
  have hhalf := Nat.lt_of_le_of_lt h.nxt h.unaMax
  have hbase := s.stream.una_le_pos ack
  rw [sackIsValid, Bool.and_eq_true, Bool.and_eq_true, Bool.and_eq_true] at hv
  have hgt := hv.1.2
  rw [← s.stream.at_pos blk.start, ← s.stream.at_pos ack, seqGt_at _ (by omega) (by omega)] at hgt
  have hafter := of_decide_eq_true hgt
  exact ⟨Nat.le_of_lt hafter, hlt, show s.stream.pos blk.stop < _ by omega⟩

/-- The walk over holes that are missing what the stream says, from a scoreboard that counts the rest. -/
theorem Sender.Inv.segment_walk {sb : Scoreboard} {l : Spans}
    (hne : ackedBlocks (s.tc.parsed flags sacks) ack ≠ [])
    (hrcv : ∀ sackSb, walkHoles ack (3 * (orderSacks (ackedBlocks (s.tc.parsed flags sacks) ack)).length +
        2 * sb.holes.elts.length + 1) sb sb.head (orderSacks (ackedBlocks (s.tc.parsed flags sacks) ack)) =
            some sackSb →
      ∃ opt, tcpRcvSacks (s.tc.parsed flags sacks) ack = some { s.tc.parsed flags sacks with sackSb, opt })
    (htop : (s.stream.receive (s.tc.parsed flags sacks) ack).top = high) (hle : high ≤ s.stream.pos s.tc.sndUnaMax)
    (hl : Linked sb.holes sb.head none (placed s.stream.iss l)) (ho : Ordered s.stream.una high l)
    (hm : missing l = Finset.Ico s.stream.una high \ s.stream.sacked)
    (hbytes : sb.sackedBytes = BitVec.ofNat 32 (s.stream.sacked.filter fun n => s.stream.una ≤ n ∧ n < high).card)
    (hfair : s.stream.Fair (s.tc.parsed flags sacks) ack sb (l.map Prod.snd)) :
    ∃ s', s.step (.segment flags ack sacks) = some s' ∧ s'.Inv := by
  obtain ⟨hvalid, blocks, n, hblocks, hwalks, hroom⟩ := hfair
  have hperm := h.walk_blocks hack hblocks
  have hin : ∀ b ∈ blocks, BlockIn (s.stream.pos ack) b := by
    intro b hb
    obtain ⟨blk, hblk, rfl⟩ := List.mem_map.mp (hperm.mem_iff.mp hb)
    exact h.valid_in hack (hvalid blk hblk).1 (hvalid blk hblk).2
  have hlen := hl.length_le
  have hnum := congrArg List.length hblocks
  rw [placed, length_map] at hlen
  rw [length_map, length_append] at hnum
  have hmax := h.unaMax
  have hpos : 0 < (orderSacks (ackedBlocks (s.tc.parsed flags sacks) ack)).length := by
    rw [(orderSacks_perm _).length_eq]
    exact length_pos_iff.mpr hne
  obtain ⟨sb', l', hrun, hl', ho', hm', hsplit, hc'⟩ := hwalks.run hl ho (by omega) hin hroom
    (show _ < 3 * (orderSacks (ackedBlocks (s.tc.parsed flags sacks) ack)).length + 2 * sb.holes.elts.length +
        1 by omega)
  rw [← hblocks, s.stream.placedBlocks_posBlock, s.stream.at_pos] at hrun
  obtain ⟨opt, hrcv⟩ := hrcv sb' hrun
  have hsacked := receive_sacked_of_valid s.stream _ (fun blk hblk => (hvalid blk hblk).1) hperm
  have hmiss : missing l' = (s.stream.receive (s.tc.parsed flags sacks) ack).missing := by
    rw [s.stream.missing_receive htop, hsacked, hm', hm]
    ext n
    have hlow := s.stream.una_le_pos ack
    simp only [Finset.mem_sdiff, Finset.mem_union, Finset.mem_Ico]
    grind
  refine ⟨_, Sender.step_segment hack hrcv, h.received hack rfl rfl htop hle ⟨l', hl', ho', hmiss⟩ ?_⟩
  have hcard := ({ s.stream with top := high } : Stream).card_missing
  have hcard' := s.stream.card_missing_receive htop
  have hmissing : ({ s.stream with top := high } : Stream).missing = missing l := hm.symm
  rw [hmissing] at hcard
  rw [hmiss, hbytes, ← BitVec.ofNat_add, hcard, hsplit, ← hcard'] at hc'
  simp only [BitVec.ofNat_add] at hc'
  linear_combination hc'

/-- The walk over holes that are there. -/
theorem Sender.Inv.segment_holes (hne : ackedBlocks (s.tc.parsed flags sacks) ack ≠ [])
    (hhead : s.tc.sackSb.head ≠ none)
    {placed' : List (Nat × Seq × Seq)} (hlinked : Linked s.tc.sackSb.holes s.tc.sackSb.head none placed')
    (hfair : s.stream.Fair (s.tc.parsed flags sacks) ack s.tc.sackSb
      (placed'.map fun h => (s.stream.pos h.2.1, s.stream.pos h.2.2))) :
    ∃ s', s.step (.segment flags ack sacks) = some s' ∧ s'.Inv := by
  obtain ⟨l, hl, ho, hm⟩ := h.spans
  have hmax := h.unaMax
  have htop := h.top
  obtain rfl := hlinked.unique hl
  have hpos : (placed s.stream.iss l).map (fun h => (s.stream.pos h.2.1, s.stream.pos h.2.2)) = l.map Prod.snd := by
    rw [placed, List.map_map]
    apply map_congr_left
    rintro ⟨i, a, b⟩ hx
    have hlow := ho.lower _ hx
    have hhigh := ho.upper _ hx
    have hlt := ho.nonempty _ hx
    simp only [Function.comp_apply] at hlow hhigh hlt ⊢
    rw [s.stream.pos_at hlow (by omega), s.stream.pos_at (by omega) (by omega)]
  have hsame : (s.stream.receive (s.tc.parsed flags sacks) ack).top = s.stream.top := by
    simp [Stream.receive, TcpConnection.parsed, hhead]
  exact h.segment_walk hack hne (fun _ hwalk => tcpRcvSacks_walk hhead (.inr ⟨hhead, rfl⟩) hne hwalk) hsame htop
      hl ho hm
    h.bytes (hpos ▸ hfair)

/-- The walk over the first hole. -/
theorem Sender.Inv.segment_created (hne : ackedBlocks (s.tc.parsed flags sacks) ack ≠ [])
    (hflag : tcpOptsSack flags = true) (hhead : s.tc.sackSb.head = none)
    (hnone : ∀ n ∈ s.stream.sacked, n < s.stream.una)
    (hinsert : scoreboardInsertHole s.tc.sackSb none s.tc.sndUna s.tc.sndUnaMax = some sb)
    (hfair : s.stream.Fair (s.tc.parsed flags sacks) ack sb [(s.stream.una, s.stream.pos s.tc.sndUnaMax)]) :
    ∃ s', s.step (.segment flags ack sacks) = some s' ∧ s'.Inv := by
  cases hinsert
  have hlive : s.tc.sackSb.holes.get.1.Live s.tc.sackSb.holes.get.2 := Pool.live_get.mpr (.inr rfl)
  have hnxt := h.nxt
  have hacked := pos_ack_le s.stream h.una (Nat.lt_of_le_of_lt h.nxt h.unaMax) hack
  have hsent : s.stream.una < s.stream.pos s.tc.sndUnaMax := by
    rcases Nat.eq_or_lt_of_le (s.stream.una_le_pos ack) with heq | hlt
    · obtain ⟨blk, hblk⟩ := exists_mem_of_ne_nil _ hne
      have he : ack = s.tc.sndUna := by rw [h.una, heq, s.stream.at_pos]
      obtain ⟨hv, hstop⟩ := hfair.1 blk (by
        have hgt : seqGt s.tc.sndUna s.tc.sndUna = false := by simp [seqGt]
        have hleft : ackedBlocks (s.tc.parsed flags sacks) ack = leftBlocks (s.tc.parsed flags sacks) ack :=
          if_neg (by simp [he, TcpConnection.parsed, hgt])
        exact hleft ▸ hblk)
      have hpos := s.stream.pos_of_valid (show (s.tc.parsed flags sacks).sndUna = _ from h.una) hv
      have hstop' : s.stream.pos blk.stop ≤ s.stream.pos s.tc.sndNxt := hstop
      omega
    · omega
  have htop : (s.stream.receive (s.tc.parsed flags sacks) ack).top = s.stream.pos s.tc.sndUnaMax := by
    have hcreated : tcpOptsSack (s.tc.parsed flags sacks).flags = true ∧ (s.tc.parsed flags sacks).sackSb.head = none ∧
        ackedBlocks (s.tc.parsed flags sacks) ack ≠ [] := ⟨hflag, hhead, hne⟩
    exact (if_pos hcreated).trans (Nat.max_eq_right h.top)
  have huna : Seq.at s.stream.iss s.stream.una = s.tc.sndUna := h.una.symm
  have hdisjoint : Disjoint (Finset.Ico s.stream.una (s.stream.pos s.tc.sndUnaMax)) s.stream.sacked := by
    apply Finset.disjoint_left.mpr
    intro n hn hin
    have hlt := hnone n hin
    have hle := (Finset.mem_Ico.mp hn).1
    omega
  have hempty (high : Nat) : s.stream.sacked.filter (fun n => s.stream.una ≤ n ∧ n < high) = ∅ :=
    Finset.filter_eq_empty_iff.mpr fun n hn hin => Nat.not_le.2 (hnone n hn) hin.1
  refine h.segment_walk hack (l := [(s.tc.sackSb.holes.get.2, s.stream.una, s.stream.pos s.tc.sndUnaMax)]) hne
    (fun _ hwalk => tcpRcvSacks_walk (by simp) (.inl ⟨hhead, hflag, rfl⟩) hne hwalk) htop (Nat.le_refl _) ?_ ?_ ?_
        ?_ hfair
  · refine ⟨rfl, Pool.live_set.mpr hlive, none, ?_, rfl⟩
    rw [huna, s.stream.at_pos]
    exact getElem?_set_self hlive.1
  · exact .cons (Nat.le_refl _) hsent (Nat.le_refl _) ⟨.nil, by simp, by simp, by simp⟩
  · rw [Finset.sdiff_eq_self_of_disjoint hdisjoint]
    exact Finset.union_empty _
  · rw [hempty]
    have hbytes := h.bytes
    rw [hempty] at hbytes
    exact hbytes

end

theorem Sender.Inv.step (h : s.Inv) (hu : s.Unharmed e) : ∃ s', s.step e = some s' ∧ s'.Inv := by
  cases e with
  | advance nxt unaMax =>
    rw [Sender.step]
    split
    · next hg =>
      exact ⟨_, rfl, h.una, hg.1, hg.2.2, Nat.le_trans h.top hg.2.1, h.spans, h.bytes⟩
    · exact ⟨s, rfl, h⟩
  | segment flags ack sacks =>
    by_cases hack : ackIsAcceptable s.tc ack = true
    · by_cases hne : ackedBlocks (s.tc.parsed flags sacks) ack = []
      · exact h.segment_empty hack hne
      · obtain ⟨hsack, hhead, hacked⟩ | hnil | ⟨hflag, hhead, hnone, sb, hinsert, hfair⟩ | ⟨hhead, l, hl, hfair⟩ :=
          hu hack
        · exact h.segment_ignored hack hsack hhead hacked
        · exact absurd hnil hne
        · exact h.segment_created hack hne hflag hhead hnone hinsert hfair
        · exact h.segment_holes hack hne hhead hl hfair
    · have hack' : ¬ ackIsAcceptable (s.tc.parsed flags sacks) ack = true := hack
      exact ⟨s, by simp [Sender.step, hack'], h⟩

theorem Sender.Inv.run (h : s.Inv) (hu : s.AllUnharmed events) : ∃ s', s.run events = some s' ∧ s'.Inv := by
  induction events generalizing s with
  | nil => exact ⟨s, rfl, h⟩
  | cons e events ih =>
    obtain ⟨hue, hrest⟩ := hu
    obtain ⟨s₁, hstep, h₁⟩ := h.step hue
    obtain ⟨s', hrun, h'⟩ := ih h₁ (hrest s₁ hstep)
    refine ⟨s', ?_, h'⟩
    rw [Sender.run, foldlM_cons, hstep]
    exact hrun

theorem Sender.Inv.of_empty (hu : s.tc.sndUna = Seq.at s.stream.iss s.stream.una)
    (hn : s.stream.pos s.tc.sndNxt ≤ s.stream.pos s.tc.sndUnaMax)
    (hm : s.stream.pos s.tc.sndUnaMax < s.stream.una + 2 ^ 31) (ht : s.stream.top ≤ s.stream.una)
    (hhead : s.tc.sackSb.head = none) (hb : s.tc.sackSb.sackedBytes = 0) : s.Inv := by
  have hcard := s.stream.card_missing
  have hico : Finset.Ico s.stream.una s.stream.top = ∅ := Finset.Ico_eq_empty_of_le ht
  have hmiss : s.stream.missing = ∅ := by rw [Stream.missing, hico, Finset.empty_sdiff]
  refine ⟨hu, hn, hm, Nat.le_trans ht (s.stream.una_le_pos _), ?_, ?_⟩
  · exact ⟨[], hhead, ⟨.nil, by simp, by simp, by simp⟩, hmiss.symm⟩
  · rw [hmiss, Finset.card_empty, Nat.add_zero, Nat.sub_eq_zero_of_le ht] at hcard
    rw [hcard]
    exact hb

/-- A connection that has sent the bytes from 0 to 1000, with an empty scoreboard. The pool of the holes has to move
when it grows from no hole and from two. -/
def sentThousandBytes : Sender where
  tc := .sending 0 1000 ⟨.empty, none, 0, [0, 2]⟩
  stream := ⟨0, 0, 0, ∅⟩

theorem sentThousandBytes_inv : sentThousandBytes.Inv :=
  .of_empty rfl (by decide) (by decide) (by decide) rfl rfl

/-- What the blocks [200, 201) and [201, 300) make of it with an ack of the first byte. -/
def twoHoles : Scoreboard where
  holes := ⟨[⟨some 1, none, 1, 200⟩, ⟨none, some 0, 300, 1000⟩], [], by decide, by decide⟩
  head := some 0
  sackedBytes := 100
  movesAt := [0, 2]

theorem sentThousandBytes_step : sentThousandBytes.step (.segment tcpConnSentRcvWnd0 1 [⟨200, 201⟩, ⟨201, 300⟩]) =
    some ⟨{ TcpConnection.parsed (.sending 1 1000 twoHoles) tcpConnSentRcvWnd0 [⟨0, 1⟩, ⟨200, 201⟩, ⟨201, 300⟩] with
      sndWl2 := 0 }, ⟨0, 1, 1000, ∅ ∪ blockBytes [(200, 201), (201, 300)]⟩⟩ := by
  have hrcv : tcpRcvSacks (sentThousandBytes.tc.parsed tcpConnSentRcvWnd0 [⟨200, 201⟩, ⟨201, 300⟩]) 1 =
      some (TcpConnection.parsed (.sending 0 1000 twoHoles) tcpConnSentRcvWnd0 [⟨0, 1⟩, ⟨200, 201⟩, ⟨201, 300⟩]) := by
    decide
  exact Sender.step_segment (by decide) hrcv

end Vpp.Tcp
