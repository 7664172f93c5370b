import Mathlib.Data.List.TakeWhile
import Vpp.Tcp.Options
import Vpp.Tcp.Seq

namespace Vpp.Tcp
open List

def tcpMaxSackBlocks : Nat := 5

structure TcpReceiver where
  rcvNxt : Seq
  sndSacks : List SackBlock
  opt : TcpOptions
  rcvWscale : BitVec 8
  tsvalRecent : BitVec 32
  deriving DecidableEq

/-- The loop over the old blocks. From the first one worth keeping on, as many as there is room for are copied. -/
def keptBlocks (rcvNxt stop : Seq) (room : Nat) : List SackBlock → List SackBlock
  | [] => []
  | blk :: blks =>
    if seqLeq blk.start rcvNxt || seqLeq blk.start stop then keptBlocks rcvNxt stop room blks
    else (blk :: blks).take room

def tcpUpdateSackList (tc : TcpReceiver) (start stop : Seq) : TcpReceiver :=
  let newList : List SackBlock := if seqLt tc.rcvNxt start then [⟨start, stop⟩] else []
  { tc with
    sndSacks := newList ++ keptBlocks tc.rcvNxt stop (tcpMaxSackBlocks - newList.length) tc.sndSacks }

def seqOff (rcvNxt x : Seq) : Nat := (x - rcvNxt).toNat

theorem seqAt_seqOff (rcvNxt x : Seq) : Seq.at rcvNxt (seqOff rcvNxt x) = x := by
  rw [Seq.at, seqOff, BitVec.ofNat_toNat, BitVec.setWidth_eq, add_sub_cancel]

theorem seqLeq_iff_off (hx : seqOff rcvNxt x < 2 ^ 31) (hy : seqOff rcvNxt y < 2 ^ 31) :
    seqLeq x y = true ↔ seqOff rcvNxt x ≤ seqOff rcvNxt y := by
  have h := seqLeq_at rcvNxt (m := seqOff rcvNxt x) (n := seqOff rcvNxt y) (by omega) (by omega)
  rw [seqAt_seqOff, seqAt_seqOff] at h
  rw [h, decide_eq_true_iff]

theorem seqLt_iff_off (hx : seqOff rcvNxt x < 2 ^ 31) (hy : seqOff rcvNxt y < 2 ^ 31) :
    seqLt x y = true ↔ seqOff rcvNxt x < seqOff rcvNxt y := by
  have h := seqLt_at rcvNxt (m := seqOff rcvNxt x) (n := seqOff rcvNxt y) (by omega) (by omega)
  rw [seqAt_seqOff, seqAt_seqOff] at h
  rw [h, decide_eq_true_iff]

theorem seqOff_self (rcvNxt : Seq) : seqOff rcvNxt rcvNxt = 0 := by
  rw [seqOff, sub_self]
  rfl

/-- A block that is not empty and lies above the next expected byte. -/
structure SackBlock.Above (rcvNxt : Seq) (blk : SackBlock) : Prop where
  start_pos : 0 < seqOff rcvNxt blk.start
  start_lt : seqOff rcvNxt blk.start < seqOff rcvNxt blk.stop
  stop_lt : seqOff rcvNxt blk.stop < 2 ^ 31

def Overlap (rcvNxt : Seq) (b c : SackBlock) : Prop :=
  seqOff rcvNxt b.start < seqOff rcvNxt c.stop ∧ seqOff rcvNxt c.start < seqOff rcvNxt b.stop

def Meet (rcvNxt : Seq) (b c : SackBlock) : Prop :=
  seqOff rcvNxt b.start ≤ seqOff rcvNxt c.stop ∧ seqOff rcvNxt c.start ≤ seqOff rcvNxt b.stop

theorem SackBlock.Above.overlap_self {b : SackBlock} (h : b.Above rcvNxt) :
    Overlap rcvNxt b b := ⟨h.start_lt, h.start_lt⟩

theorem SackBlock.Above.seqLt {b : SackBlock} (h : b.Above rcvNxt) : seqLt rcvNxt b.start = true := by
  have hlt := h.start_lt
  have hstop := h.stop_lt
  rw [seqLt_iff_off (by rw [seqOff_self]; omega) (by omega), seqOff_self]
  exact h.start_pos

theorem SackBlock.Above.not_seqLeq {b : SackBlock} (h : b.Above rcvNxt) : seqLeq b.start rcvNxt = false := by
  have hlt := h.start_lt
  have hstop := h.stop_lt
  have hself := seqOff_self rcvNxt
  rw [← Bool.not_eq_true, @seqLeq_iff_off rcvNxt _ _ (by omega) (by omega), seqOff_self]
  exact Nat.not_le.mpr h.start_pos

theorem keptBlocks_eq (room : Nat) (h : ∀ b ∈ l, SackBlock.Above rcvNxt b) :
    keptBlocks rcvNxt stop room l = (l.dropWhile fun b => seqLeq b.start stop).take room := by
  induction l with
  | nil => simp [keptBlocks]
  | cons b l ih =>
    obtain ⟨hb, hl⟩ := forall_mem_cons.mp h
    rw [keptBlocks, hb.not_seqLeq, Bool.false_or]
    cases hle : seqLeq b.start stop with
    | true => rw [if_pos rfl, ih hl, dropWhile_cons, if_pos hle]
    | false => rw [if_neg Bool.false_ne_true, dropWhile_cons, if_neg (by simp [hle])]

/-- A list of disjoint blocks with room for one more, and a block that was just received. -/
structure SackRequest (tc : TcpReceiver) (start stop : Seq) : Prop where
  above : ∀ b ∈ tc.sndSacks, b.Above tc.rcvNxt
  disjoint : tc.sndSacks.Pairwise fun b c => ¬ Overlap tc.rcvNxt b c
  room : tc.sndSacks.length < tcpMaxSackBlocks
  received : SackBlock.Above tc.rcvNxt ⟨start, stop⟩

theorem SackRequest.sndSacks (h : SackRequest tc start stop) :
    (tcpUpdateSackList tc start stop).sndSacks = ⟨start, stop⟩ :: tc.sndSacks.dropWhile fun b =>
      seqLeq b.start stop := by
  have hroom : tc.sndSacks.length < 5 := h.room
  have hle := (dropWhile_suffix (l := tc.sndSacks) fun b => seqLeq b.start stop).length_le
  rw [tcpUpdateSackList]
  dsimp only
  rw [if_pos h.received.seqLt, keptBlocks_eq _ h.above, take_of_length_le ?_]
  · rfl
  · exact hle.trans (Nat.le_of_lt_succ hroom)

/-- The new block is first, the blocks away from it stay, and the list is one of disjoint blocks above the next
expected byte. -/
def SacksUpdated (tc : TcpReceiver) (start stop : Seq) : Prop :=
  let sacks := (tcpUpdateSackList tc start stop).sndSacks
  sacks.head? = some ⟨start, stop⟩ ∧ (∀ b ∈ tc.sndSacks, ¬ Meet tc.rcvNxt b ⟨start, stop⟩ → b ∈ sacks) ∧
    (sacks.Pairwise fun b c => ¬ Overlap tc.rcvNxt b c) ∧ ∀ b ∈ sacks, seqLeq b.start tc.rcvNxt = false

/-- In the order of the list: the blocks before the first one that starts above the new block all meet it, and from
there on none overlaps it. -/
def SacksInOrder (tc : TcpReceiver) (start stop : Seq) : Prop :=
  (∀ b ∈ tc.sndSacks.takeWhile fun b => seqLeq b.start stop, seqOff tc.rcvNxt start ≤ seqOff tc.rcvNxt b.stop) ∧
    ∀ b ∈ tc.sndSacks.dropWhile fun b => seqLeq b.start stop, ¬ Overlap tc.rcvNxt ⟨start, stop⟩ b

theorem tcp_update_sack_list (tc : TcpReceiver) (start stop : Seq) (h : SackRequest tc start stop) :
    SacksUpdated tc start stop ↔ SacksInOrder tc start stop := by
  have hsplit : tc.sndSacks.takeWhile (fun b => seqLeq b.start stop) ++
      tc.sndSacks.dropWhile (fun b => seqLeq b.start stop) = tc.sndSacks := takeWhile_append_dropWhile
  have habove := h.above
  have hdisjoint := h.disjoint
  rw [← hsplit, pairwise_append] at hdisjoint
  obtain ⟨_, hlater, hcross⟩ := hdisjoint
  have hnew := h.received
  have hmem (b : SackBlock) : b ∈ tc.sndSacks ↔ b ∈ tc.sndSacks.takeWhile (fun b => seqLeq b.start stop) ∨
      b ∈ tc.sndSacks.dropWhile (fun b => seqLeq b.start stop) := by
    rw [← mem_append, hsplit]
  have hfront (b : SackBlock) (hb : b ∈ tc.sndSacks.takeWhile fun b => seqLeq b.start stop) :
      b.Above tc.rcvNxt ∧ seqOff tc.rcvNxt b.start ≤ seqOff tc.rcvNxt stop := by
    have ha := habove b ((hmem b).mpr (.inl hb))
    have hlt := ha.start_lt
    have hstop := ha.stop_lt
    have hle := mem_takeWhile_imp (p := fun b : SackBlock => seqLeq b.start stop) hb
    exact ⟨ha, (seqLeq_iff_off (by omega) hnew.stop_lt).mp hle⟩
  unfold SacksUpdated SacksInOrder
  dsimp only
  rw [h.sndSacks, pairwise_cons]
  constructor
  · rintro ⟨_, hstay, ⟨hapart, _⟩, _⟩
    refine ⟨?_, hapart⟩
    intro b hb
    obtain ⟨ha, hle⟩ := hfront b hb
    by_contra hshort
    rcases mem_cons.mp (hstay b ((hmem b).mpr (.inl hb)) fun hmeet => hshort hmeet.2) with rfl | hb'
    · exact hshort (Nat.le_of_lt hnew.start_lt)
    · exact hcross b hb b hb' ha.overlap_self
  · rintro ⟨hreach, hapart⟩
    refine ⟨rfl, ?_, ⟨hapart, hlater⟩, ?_⟩
    · intro b hb hfar
      rcases (hmem b).mp hb with hb' | hb'
      · exact absurd ⟨(hfront b hb').2, hreach b hb'⟩ hfar
      · exact mem_cons_of_mem _ hb'
    · intro b hb
      rcases mem_cons.mp hb with rfl | hb'
      · exact hnew.not_seqLeq
      · exact (habove b ((hmem b).mpr (.inr hb'))).not_seqLeq

def receiverWith (sndSacks : List SackBlock) : TcpReceiver := ⟨0, sndSacks, ⟨0, 0, 0, 0, 0, [], 0⟩, 0, 0⟩

theorem sackRequest_single (a b start stop : Seq) (hab : SackBlock.Above 0 ⟨a, b⟩)
    (hnew : SackBlock.Above 0 ⟨start, stop⟩) : SackRequest (receiverWith [⟨a, b⟩]) start stop where
  above := forall_mem_singleton.mpr hab
  disjoint := pairwise_singleton _ _
  room := (by decide : 1 < 5)
  received := hnew

theorem tcp_update_sack_list_below : SacksUpdated (receiverWith [⟨50, 60⟩]) 10 20 := by
  apply (tcp_update_sack_list _ _ _ (sackRequest_single 50 60 10 20 ⟨by decide, by decide, by decide⟩
    ⟨by decide, by decide, by decide⟩)).mpr
  constructor
  · have hnone : (receiverWith [⟨50, 60⟩]).sndSacks.takeWhile (fun b => seqLeq b.start 20) = [] := by decide
    rw [hnone]
    exact fun b hb => absurd hb not_mem_nil
  · intro b hb
    obtain rfl : b = ⟨50, 60⟩ := by simpa [receiverWith] using (dropWhile_suffix _).mem hb
    exact fun ho => absurd ho.2 (by decide)

/-- A block above the only old one makes it go. -/
theorem tcp_update_sack_list_drops : ¬ ∀ (tc : TcpReceiver) (start stop : Seq), SackRequest tc start stop →
    SacksUpdated tc start stop := by
  intro hall
  have hstay := (hall (receiverWith [⟨10, 20⟩]) 30 40 (sackRequest_single 10 20 30 40
    ⟨by decide, by decide, by decide⟩ ⟨by decide, by decide, by decide⟩)).2.1 ⟨10, 20⟩ (by decide)
    fun hmeet => absurd hmeet.2 (by decide)
  exact absurd hstay (by decide)

def tcpOptsAlign : BitVec 8 := 4
def dummyMtu : BitVec 16 := 400

abbrev MadeOptions := TcpOptions × BitVec 8

def MadeOptions.addLen (made : MadeOptions) (opts : TcpOptions) (len : Nat) : MadeOptions :=
  (opts, made.2 + BitVec.ofNat 8 len)

def makeMss (made : MadeOptions) : MadeOptions :=
  made.addLen { made.1.set tcpOptsFlagMss with mss := dummyMtu } tcpOptionLenMss

def makeWscale (made : MadeOptions) (wscale : BitVec 8) : MadeOptions :=
  made.addLen { made.1.set tcpOptsFlagWscale with wscale } tcpOptionLenWindowScale

def makeTstamp (made : MadeOptions) (tsval tsecr : BitVec 32) : MadeOptions :=
  made.addLen { made.1.set tcpOptsFlagTstamp with tsval, tsecr } tcpOptionLenTimestamp

def makeSackPermitted (made : MadeOptions) : MadeOptions :=
  made.addLen (made.1.set tcpOptsFlagSackPermitted) tcpOptionLenSackPermitted

def makeSack (made : MadeOptions) (sacks : List SackBlock) : MadeOptions :=
  let nSackBlocks := BitVec.ofNat 8 sacks.length
  made.addLen { made.1.set tcpOptsFlagSack with sacks, nSackBlocks } (2 + tcpOptionLenSackBlock * nSackBlocks.toNat)

def alignLen (len : BitVec 8) : BitVec 8 := len + (tcpOptsAlign - len % tcpOptsAlign) % tcpOptsAlign

def MadeOptions.align (made : MadeOptions) : MadeOptions := (made.1, alignLen made.2)

def tcpMakeSynOptions (timeNow : BitVec 32) (opts : TcpOptions) (wndScale : BitVec 8) : MadeOptions :=
  (makeSackPermitted (makeTstamp (makeWscale (makeMss (opts, 0)) wndScale) timeNow 0)).align

def tcpMakeSynackOptions (timeNow : BitVec 32) (tc : TcpReceiver) (opts : TcpOptions) : MadeOptions :=
  let made := makeMss (opts, 0)
  let made := if tc.opt.has tcpOptsFlagWscale then makeWscale made tc.rcvWscale else made
  let made := if tc.opt.has tcpOptsFlagTstamp then makeTstamp made timeNow tc.tsvalRecent else made
  let made := if tc.opt.has tcpOptsFlagSackPermitted then makeSackPermitted made else made
  made.align

def tcpMakeEstablishedOptions (timeNow : BitVec 32) (tc : TcpReceiver) (opts : TcpOptions) : MadeOptions :=
  let made : MadeOptions := ({ opts with flags := 0 }, 0)
  let made := if tc.opt.has tcpOptsFlagTstamp then makeTstamp made timeNow tc.tsvalRecent else made
  let made := if tc.opt.has tcpOptsFlagSackPermitted ∧ tc.sndSacks.length ≠ 0 then makeSack made tc.sndSacks else made
  made.align

def alignNat (len : Nat) : Nat := len + (4 - len % 4) % 4

def plainLen (flags : BitVec 8) : Nat :=
  (if flags &&& tcpOptsFlagMss ≠ 0 then 4 else 0) + (if flags &&& tcpOptsFlagWscale ≠ 0 then 3 else 0) +
    (if flags &&& tcpOptsFlagSackPermitted ≠ 0 then 2 else 0) + if flags &&& tcpOptsFlagTstamp ≠ 0 then 10 else 0

def sackLen (flags : BitVec 8) (nBlocks : Nat) : Nat :=
  if flags &&& tcpOptsFlagSack ≠ 0 ∧ nBlocks ≠ 0 then 2 + 8 * min nBlocks 3 else 0

theorem plainLen_le (flags : BitVec 8) : plainLen flags ≤ 19 := by
  unfold plainLen
  split <;> split <;> split <;> split <;> omega

theorem has_iff (opts : TcpOptions) (flag : BitVec 8) : opts.has flag = true ↔ opts.flags &&& flag ≠ 0 :=
  decide_eq_true_iff

theorem writeNoops_len (n : Nat) (area : OptionArea) (h : (4 - area.2 % 4) % 4 ≤ n) :
    (writeNoops n area).2 = alignNat area.2 := by
  induction n generalizing area with
  | zero =>
    rw [writeNoops, alignNat]
    omega
  | succ n ih =>
    rw [writeNoops]
    split
    · have hlen : (area.add [tcpOptionNoop] tcpOptionLenNoop).2 = area.2 + 1 := rfl
      rw [ih _ (by omega), alignNat, alignNat, hlen]
      omega
    · rw [alignNat]
      omega

theorem writePadding_len (area : OptionArea) : (writePadding area).2 = alignNat area.2 := by
  rw [writePadding]
  split
  · have hlen : (area.add [tcpOptionEol] tcpOptionLenEol).2 = area.2 + 1 := rfl
    rw [writeNoops_len _ _ (by omega), alignNat, alignNat, hlen]
    omega
  · exact writeNoops_len 3 area (by omega)

theorem tcpOptionsWrite_len (opts : TcpOptions) :
    (tcpOptionsWrite opts).2 = alignNat (plainLen opts.flags + sackLen opts.flags opts.sacks.length) := by
  have hmss (area : OptionArea) :
      (writeMss opts area).2 = area.2 + if opts.flags &&& tcpOptsFlagMss ≠ 0 then 4 else 0 := by
    rw [writeMss, ← if_congr (has_iff opts tcpOptsFlagMss) rfl rfl]
    split <;> rfl
  have hwscale (area : OptionArea) :
      (writeWscale opts area).2 = area.2 + if opts.flags &&& tcpOptsFlagWscale ≠ 0 then 3 else 0 := by
    rw [writeWscale, ← if_congr (has_iff opts tcpOptsFlagWscale) rfl rfl]
    split <;> rfl
  have hperm (area : OptionArea) :
      (writeSackPermitted opts area).2 = area.2 + if opts.flags &&& tcpOptsFlagSackPermitted ≠ 0 then 2 else 0 := by
    rw [writeSackPermitted, ← if_congr (has_iff opts tcpOptsFlagSackPermitted) rfl rfl]
    split <;> rfl
  have htstamp (area : OptionArea) :
      (writeTstamp opts area).2 = area.2 + if opts.flags &&& tcpOptsFlagTstamp ≠ 0 then 10 else 0 := by
    rw [writeTstamp, ← if_congr (has_iff opts tcpOptsFlagTstamp) rfl rfl]
    split <;> rfl
  have hsack (area : OptionArea) :
      (writeSack opts area).2 = area.2 + sackLen opts.flags opts.sacks.length := by
    unfold writeSack sackLen
    split
    · next hf =>
      by_cases hz : opts.sacks.length = 0
      · simp [hz]
      · have hmin : min opts.sacks.length tcpOptsMaxSackBlocks ≠ 0 := by
          rw [tcpOptsMaxSackBlocks]
          omega
        dsimp only
        rw [if_pos hmin, if_pos ⟨(has_iff _ _).mp hf, hz⟩, OptionArea.add, tcpOptionLenSackBlock,
          tcpOptsMaxSackBlocks, Nat.mul_comm]
    · next hf => rw [if_neg fun hc : _ ∧ _ => hf ((has_iff _ _).mpr hc.1), Nat.add_zero]
  rw [tcpOptionsWrite, writePadding_len, hsack, htstamp, hperm, hwscale, hmss, plainLen, Nat.zero_add]

inductive OptionsMaker where
  | syn
  | synack
  | established
  deriving DecidableEq

/-- The options of a SYN and of a SYN-ACK start from a zeroed record. -/
def OptionsMaker.make (timeNow : BitVec 32) (tc : TcpReceiver) (opts : TcpOptions) : OptionsMaker → MadeOptions
  | .syn => tcpMakeSynOptions timeNow { opts with flags := 0 } tc.rcvWscale
  | .synack => tcpMakeSynackOptions timeNow tc { opts with flags := 0 }
  | .established => tcpMakeEstablishedOptions timeNow tc opts

def LengthsAgree (made : MadeOptions) : Prop := made.2.toNat = (tcpOptionsWrite made.1).2 ∧ made.2.toNat ≤ 40

inductive SackLists : List SackBlock → Prop
  | empty : SackLists []
  | update (tc : TcpReceiver) (start stop : Seq) (h : SackLists tc.sndSacks) :
    SackLists (tcpUpdateSackList tc start stop).sndSacks

theorem length_keptBlocks_le (rcvNxt stop : Seq) (room : Nat) (l : List SackBlock) :
    (keptBlocks rcvNxt stop room l).length ≤ room := by
  induction l with
  | nil => exact Nat.zero_le _
  | cons b l ih =>
    rw [keptBlocks]
    split
    · exact ih
    · exact length_take_le _ _

theorem SackLists.length_le (h : SackLists l) : l.length ≤ tcpMaxSackBlocks := by
  cases h with
  | empty => exact Nat.zero_le _
  | update tc start stop h =>
    have hkept := length_keptBlocks_le tc.rcvNxt stop (tcpMaxSackBlocks -
      (if seqLt tc.rcvNxt start then [(⟨start, stop⟩ : SackBlock)] else []).length) tc.sndSacks
    have hnew : (if seqLt tc.rcvNxt start then [(⟨start, stop⟩ : SackBlock)] else []).length ≤ 1 := by
      split
      · exact Nat.le_refl _
      · exact Nat.zero_le _
    have hmax : tcpMaxSackBlocks = 5 := rfl
    rw [tcpUpdateSackList, length_append]
    omega

theorem alignLen_toNat (len : BitVec 8) (h : len.toNat ≤ 200) : (alignLen len).toNat = alignNat len.toNat := by
  have h4 : tcpOptsAlign.toNat = 4 := rfl
  have hmod : (len % tcpOptsAlign).toNat = len.toNat % 4 := by rw [BitVec.toNat_umod, h4]
  have hsub : (tcpOptsAlign - len % tcpOptsAlign).toNat = 4 - len.toNat % 4 := by
    rw [BitVec.toNat_sub_of_le (BitVec.le_def.mpr (by omega)), h4, hmod]
  rw [alignLen, BitVec.toNat_add, BitVec.toNat_umod, hsub, h4, alignNat]
  exact Nat.mod_eq_of_lt (by omega)

theorem lengthsAgree_align (made : MadeOptions) (h : made.2.toNat ≤ 200) :
    LengthsAgree made.align ↔
      alignNat made.2.toNat = alignNat (plainLen made.1.flags + sackLen made.1.flags made.1.sacks.length) ∧
        alignNat made.2.toNat ≤ 40 := by
  rw [LengthsAgree, MadeOptions.align]
  dsimp only
  rw [alignLen_toNat _ h, tcpOptionsWrite_len]

structure MadeOptions.Is (made : MadeOptions) (flags len : BitVec 8) : Prop where
  flags_eq : made.1.flags = flags
  len_eq : made.2 = len

theorem MadeOptions.Is.add {made : MadeOptions} (h : made.Is flags len) (hopts : opts.flags = made.1.flags ||| flag) :
    (made.addLen opts n).Is (flags ||| flag) (len + BitVec.ofNat 8 n) :=
  ⟨hopts.trans (congrArg (· ||| flag) h.flags_eq), congrArg (· + BitVec.ofNat 8 n) h.len_eq⟩

theorem MadeOptions.Is.cond {made made' : MadeOptions} (h : made.Is flags len) (h' : made'.Is flags' len') (c : Bool) :
    MadeOptions.Is (if c then made' else made) (if c then flags' else flags) (if c then len' else len) := by
  cases c with
  | false => exact h
  | true => exact h'

theorem lengthsAgree_of {made : MadeOptions} (hmade : made.Is flags len)
    (h : len.toNat = plainLen flags ∧ flags &&& tcpOptsFlagSack = 0) : LengthsAgree made.align := by
  have hle := plainLen_le flags
  have hz : sackLen flags made.1.sacks.length = 0 := if_neg fun hc => hc.1 h.2
  rw [lengthsAgree_align _ (by rw [hmade.len_eq]; omega), hmade.flags_eq, hmade.len_eq, hz, h.1, Nat.add_zero, alignNat]
  omega

theorem is_zeroed (opts : TcpOptions) : MadeOptions.Is ({ opts with flags := 0 }, 0) 0 0 := ⟨rfl, rfl⟩

theorem lengthsAgree_syn (timeNow : BitVec 32) (tc : TcpReceiver) (opts : TcpOptions) :
    LengthsAgree (OptionsMaker.make timeNow tc opts .syn) := by
  have hmss : (makeMss ({ opts with flags := 0 }, 0)).Is _ _ := (is_zeroed opts).add rfl
  have hwscale : (makeWscale _ tc.rcvWscale).Is _ _ := hmss.add rfl
  have htstamp : (makeTstamp _ timeNow 0).Is _ _ := hwscale.add rfl
  have hperm : (makeSackPermitted _).Is _ _ := htstamp.add rfl
  exact lengthsAgree_of hperm (by decide)

theorem lengthsAgree_synack (timeNow : BitVec 32) (tc : TcpReceiver) (opts : TcpOptions) :
    LengthsAgree (OptionsMaker.make timeNow tc opts .synack) := by
  rw [OptionsMaker.make, tcpMakeSynackOptions]
  have hmss : (makeMss ({ opts with flags := 0 }, 0)).Is _ _ := (is_zeroed opts).add rfl
  have hwscale := hmss.cond (hmss.add rfl : (makeWscale _ tc.rcvWscale).Is _ _) (tc.opt.has tcpOptsFlagWscale)
  have htstamp := hwscale.cond (hwscale.add rfl : (makeTstamp _ timeNow tc.tsvalRecent).Is _ _)
    (tc.opt.has tcpOptsFlagTstamp)
  have hperm := htstamp.cond (htstamp.add rfl : (makeSackPermitted _).Is _ _) (tc.opt.has tcpOptsFlagSackPermitted)
  apply lengthsAgree_of hperm
  cases tc.opt.has tcpOptsFlagWscale <;> cases tc.opt.has tcpOptsFlagTstamp <;>
    cases tc.opt.has tcpOptsFlagSackPermitted <;> decide

theorem lengthsAgree_sack {made : MadeOptions} (hmade : made.Is flags len)
    (h : len.toNat = plainLen flags ∧ plainLen flags ≤ 10 ∧ plainLen (flags ||| tcpOptsFlagSack) = plainLen flags ∧
        (flags ||| tcpOptsFlagSack) &&& tcpOptsFlagSack ≠ 0)
    (hpos : sacks.length ≠ 0) (hmax : sacks.length ≤ 5) :
    LengthsAgree (makeSack made sacks).align ↔ sacks.length ≤ 3 := by
  obtain ⟨hplain, hle, hsame, hset⟩ := h
  have hn : (BitVec.ofNat 8 sacks.length).toNat = sacks.length := by
    rw [BitVec.toNat_ofNat]
    exact Nat.mod_eq_of_lt (by omega)
  have hlen : (makeSack made sacks).2.toNat = plainLen flags + (2 + 8 * sacks.length) := by
    rw [makeSack, MadeOptions.addLen, hn, hmade.len_eq, tcpOptionLenSackBlock, BitVec.toNat_add, BitVec.toNat_ofNat,
      Nat.add_mod_mod, hplain]
    exact Nat.mod_eq_of_lt (by omega)
  have hflags' : (makeSack made sacks).1.flags = flags ||| tcpOptsFlagSack :=
    congrArg (· ||| tcpOptsFlagSack) hmade.flags_eq
  have hwritten : sackLen (flags ||| tcpOptsFlagSack) sacks.length = 2 + 8 * min sacks.length 3 := if_pos ⟨hset, hpos⟩
  have hsacks : (makeSack made sacks).1.sacks = sacks := rfl
  rw [lengthsAgree_align _ (by omega), hflags', hsacks, hsame, hwritten, hlen, alignNat, alignNat]
  omega

theorem lengthsAgree_established (timeNow : BitVec 32) (tc : TcpReceiver) (opts : TcpOptions)
    (hmax : tc.sndSacks.length ≤ 5) :
    LengthsAgree (OptionsMaker.make timeNow tc opts .established) ↔
      (tc.opt.has tcpOptsFlagSackPermitted → tc.sndSacks.length ≤ 3) := by
  have htstamp : (makeTstamp ({ opts with flags := 0 }, 0) timeNow tc.tsvalRecent).Is _ _ := (is_zeroed opts).add rfl
  rw [OptionsMaker.make, tcpMakeEstablishedOptions]
  by_cases hsack : tc.opt.has tcpOptsFlagSackPermitted ∧ tc.sndSacks.length ≠ 0
  · obtain ⟨hp, hpos⟩ := hsack
    rw [if_pos ⟨hp, hpos⟩, forall_prop_of_true hp]
    cases tc.opt.has tcpOptsFlagTstamp with
    | false => exact lengthsAgree_sack (is_zeroed opts) (by decide) hpos hmax
    | true => exact lengthsAgree_sack htstamp (by decide) hpos hmax
  · rw [if_neg hsack]
    refine iff_of_true ?_ ?_
    · cases tc.opt.has tcpOptsFlagTstamp with
      | false => exact lengthsAgree_of (is_zeroed opts) (by decide)
      | true => exact lengthsAgree_of htstamp (by decide)
    · intro hp
      have hz : tc.sndSacks.length = 0 := not_not.mp fun hne => hsack ⟨hp, hne⟩
      omega

/-- The reserved length is the written one but where an established connection has more than three blocks to send. -/
theorem tcp_option_lengths (timeNow : BitVec 32) (tc : TcpReceiver) (opts : TcpOptions) (hs : SackLists tc.sndSacks)
    (maker : OptionsMaker) :
    LengthsAgree (maker.make timeNow tc opts) ↔
      ¬ (maker = .established ∧ tc.opt.has tcpOptsFlagSackPermitted ∧ 3 < tc.sndSacks.length) := by
  cases maker with
  | syn => exact iff_of_true (lengthsAgree_syn timeNow tc opts) (by simp)
  | synack => exact iff_of_true (lengthsAgree_synack timeNow tc opts) (by simp)
  | established =>
    rw [lengthsAgree_established timeNow tc opts hs.length_le, not_and, forall_prop_of_true rfl, not_and]
    exact imp_congr_right fun _ => Nat.not_lt.symm

/-- The blocks after `count` segments that each came before all the others. -/
def fallingBlocks : Nat → TcpReceiver
  | 0 => ⟨0, [], ⟨tcpOptsFlagSackPermitted ||| tcpOptsFlagTstamp, 0, 0, 0, 0, [], 0⟩, 0, 0⟩
  | count + 1 =>
    tcpUpdateSackList (fallingBlocks count) (BitVec.ofNat 32 (1000 - 20 * count)) (BitVec.ofNat 32 (1010 - 20 * count))

theorem sackLists_falling (count : Nat) : SackLists (fallingBlocks count).sndSacks := by
  induction count with
  | zero => exact .empty
  | succ count ih => exact .update _ _ _ ih

theorem tcp_option_lengths_three :
    LengthsAgree (OptionsMaker.make 0 (fallingBlocks 3) ⟨0, 0, 0, 0, 0, [], 0⟩ .established) :=
  (tcp_option_lengths 0 (fallingBlocks 3) ⟨0, 0, 0, 0, 0, [], 0⟩ (sackLists_falling 3) .established).mpr (by decide)

/-- With four blocks 44 bytes are reserved and 36 written. -/
theorem tcp_option_lengths_fail : ¬ ∀ (timeNow : BitVec 32) (tc : TcpReceiver) (opts : TcpOptions),
    SackLists tc.sndSacks → ∀ maker : OptionsMaker, LengthsAgree (maker.make timeNow tc opts) := by
  intro hall
  have hfour := hall 0 (fallingBlocks 4) ⟨0, 0, 0, 0, 0, [], 0⟩ (sackLists_falling 4) .established
  exact absurd hfour.2 (by decide)

end Vpp.Tcp
