import Vpp.Tcp.Options

namespace Vpp.Tcp
open Vpp.Lib List

def sackWords (bs : List SackBlock) : List (BitVec 32) := bs.flatMap fun b => [b.start, b.stop]

def wordBytes (ws : List (BitVec 32)) : List (BitVec 8) := ws.flatMap fun w => netBytes 4 w.toNat

@[simp] theorem sackWords_cons (b : SackBlock) (bs : List SackBlock) :
    sackWords (b :: bs) = b.start :: b.stop :: sackWords bs := rfl

@[simp] theorem wordBytes_cons (w : BitVec 32) (ws : List (BitVec 32)) :
    wordBytes (w :: ws) = netBytes 4 w.toNat ++ wordBytes ws := rfl

theorem flatMap_sackBytes (bs : List SackBlock) : bs.flatMap sackBytes = wordBytes (sackWords bs) := by
  induction bs with
  | nil => rfl
  | cons b bs ih =>
    rw [flatMap_cons, ih, sackWords_cons, wordBytes_cons, wordBytes_cons, sackBytes,
      List.append_assoc]

theorem length_wordBytes (ws : List (BitVec 32)) : (wordBytes ws).length = 4 * ws.length := by
  induction ws with
  | nil => rfl
  | cons w ws ih =>
    rw [wordBytes_cons, length_append, length_netBytes, ih, length_cons]
    omega

theorem length_sackWords (bs : List SackBlock) : (sackWords bs).length = 2 * bs.length := by
  induction bs with
  | nil => rfl
  | cons b bs ih =>
    simp only [sackWords_cons, length_cons, ih]
    omega

theorem netWord_wordBytes (pre rest : List (BitVec 8)) (hj : ws[j]? = some w) :
    netWord 4 (pre ++ (wordBytes ws ++ rest)) (pre.length + 4 * j) = w := by
  induction ws generalizing pre j with
  | nil => simp at hj
  | cons v ws ih =>
    rw [wordBytes_cons, List.append_assoc]
    cases j with
    | zero =>
      simp only [getElem?_cons_zero, Option.some.injEq] at hj
      subst w
      exact (netWord_append (w := 4) pre _ 0).trans (netWord_netBytes (w := 4) v _)
    | succ j =>
      have hn := ih (pre ++ netBytes 4 v.toNat) hj
      rw [List.append_assoc, length_append, length_netBytes] at hn
      rw [← hn]
      congr 1
      omega

/-- The blocks the parser makes of a block list: the `j`-th one starts at the `j`-th word. -/
def stridedSacks (bs : List SackBlock) : List SackBlock :=
  (List.range bs.length).map fun j =>
    ⟨(sackWords bs).getD j 0, (sackWords bs).getD (j + 1) 0⟩

theorem readSackBlock_wordBytes (k l : BitVec 8) (bs : List SackBlock) (hj : j < bs.length) :
    readSackBlock (k :: l :: (wordBytes (sackWords bs) ++ rest)) j =
      ⟨(sackWords bs).getD j 0, (sackWords bs).getD (j + 1) 0⟩ := by
  have hl := length_sackWords bs
  have hw (i : Nat) (hi : i < (sackWords bs).length) :
      netWord 4 (k :: l :: (wordBytes (sackWords bs) ++ rest)) (2 + 4 * i) =
        (sackWords bs).getD i 0 :=
    netWord_wordBytes [k, l] rest (by simp [hi])
  rw [readSackBlock, hw j (by omega), show 6 + 4 * j = 2 + 4 * (j + 1) by omega,
    hw (j + 1) (by omega)]

def sackOptionBytes (opts : TcpOptions) : List (BitVec 8) :=
  if opts.has tcpOptsFlagSack then
    tcpOptionSackBlock :: BitVec.ofNat 8 (2 + opts.sacks.length * 8) ::
      wordBytes (sackWords opts.sacks)
  else []

def setSacks (opts opt : TcpOptions) : TcpOptions :=
  if opts.has tcpOptsFlagSack then
    { opt.set tcpOptsFlagSack with
      nSackBlocks := BitVec.ofNat 8 opts.sacks.length
      sacks := stridedSacks opts.sacks }
  else opt

theorem parseAt_sack (hs : tcpSyn th = false) (hp : opt.has tcpOptsFlagSackPermitted = true)
    (hb : (sackOptionBytes opts).length + len < 256)
    (hn : opts.has tcpOptsFlagSack = true → 1 ≤ opts.sacks.length) :
    parseAt th ((sackOptionBytes opts).length + len) (sackOptionBytes opts ++ rest) opt =
      parseAt th len rest (setSacks opts opt) := by
  have hl : (wordBytes (sackWords opts.sacks)).length = 8 * opts.sacks.length := by
    rw [length_wordBytes, length_sackWords]
    omega
  unfold sackOptionBytes at hb ⊢
  unfold setSacks
  split
  · next hf =>
    have h1 := hn hf
    simp only [hf, ↓reduceIte, length_cons, hl] at hb
    have ho := parseAt_option th opt (wordBytes (sackWords opts.sacks)) rest
      (show tcpOptionSackBlock ≠ _ ∧ _ by decide) (show _ + len < 256 by omega)
    have hlen : (BitVec.ofNat 8 (8 * opts.sacks.length + 2)).toNat =
        8 * opts.sacks.length + 2 := by
      rw [BitVec.toNat_ofNat]
      omega
    rw [hl] at ho
    simp only [length_cons, hl, List.cons_append]
    rw [show 2 + opts.sacks.length * 8 = 8 * opts.sacks.length + 2 by omega]
    refine ho.trans ?_
    have hdiv : (8 * opts.sacks.length + 2 - 2) / 8 = opts.sacks.length := by omega
    have hmod : ¬ (8 * opts.sacks.length + 2 < 10 ∨ (8 * opts.sacks.length + 2 - 2) % 8 ≠ 0) := by
      omega
    have hmap : (List.range opts.sacks.length).map (readSackBlock (tcpOptionSackBlock ::
        BitVec.ofNat 8 (8 * opts.sacks.length + 2) ::
          (wordBytes (sackWords opts.sacks) ++ rest))) = stridedSacks opts.sacks := by
      apply map_congr_left
      intro j hj
      exact readSackBlock_wordBytes _ _ _ (mem_range.mp hj)
    have hk : tcpOptionSackBlock ≠ tcpOptionMss ∧ tcpOptionSackBlock ≠ tcpOptionWindowScale ∧
        tcpOptionSackBlock ≠ tcpOptionTimestamp ∧ tcpOptionSackBlock ≠ tcpOptionSackPermitted := by
      decide
    simp only [tcpOptionParse, hk.1, hk.2.1, hk.2.2.1, hk.2.2.2, ↓reduceIte, hp, hs, hlen,
      tcpOptionLenSackBlock, hmod, hdiv, hmap, Bool.true_eq_false, Bool.false_eq_true, or_self]
  · simp

def OptionArea.push (area : OptionArea) (bytes : List (BitVec 8)) : OptionArea :=
  area.add bytes bytes.length

theorem OptionArea.push_push (area : OptionArea) (xs ys : List (BitVec 8)) :
    (area.push xs).push ys = area.push (xs ++ ys) := by
  simp [OptionArea.push, OptionArea.add, Nat.add_assoc]

theorem OptionArea.push_nil (area : OptionArea) : area.push [] = area := by
  simp [OptionArea.push, OptionArea.add]

theorem writeMss_push (opts : TcpOptions) (area : OptionArea) :
    writeMss opts area = area.push (mssBytes opts) := by
  unfold writeMss mssBytes
  split
  · rfl
  · exact area.push_nil.symm

theorem writeWscale_push (opts : TcpOptions) (area : OptionArea) :
    writeWscale opts area = area.push (wscaleBytes opts) := by
  unfold writeWscale wscaleBytes
  split
  · rfl
  · exact area.push_nil.symm

theorem writeSackPermitted_push (opts : TcpOptions) (area : OptionArea) :
    writeSackPermitted opts area = area.push (sackPermittedBytes opts) := by
  unfold writeSackPermitted sackPermittedBytes
  split
  · rfl
  · exact area.push_nil.symm

theorem writeTstamp_push (opts : TcpOptions) (area : OptionArea) :
    writeTstamp opts area = area.push (tstampBytes opts) := by
  unfold writeTstamp tstampBytes
  split
  · rfl
  · exact area.push_nil.symm

theorem writeSack_push (opts : TcpOptions) (area : OptionArea)
    (hn : opts.has tcpOptsFlagSack = true → 1 ≤ opts.sacks.length ∧ opts.sacks.length ≤ 3) :
    writeSack opts area = area.push (sackOptionBytes opts) := by
  unfold writeSack sackOptionBytes
  split
  · next hf =>
    obtain ⟨h1, h3⟩ := hn hf
    have hmin : min opts.sacks.length tcpOptsMaxSackBlocks = opts.sacks.length := Nat.min_eq_left h3
    have hl : (wordBytes (sackWords opts.sacks)).length + 1 + 1 = 2 + opts.sacks.length * 8 := by
      rw [length_wordBytes, length_sackWords]
      omega
    have hz : opts.sacks.length ≠ 0 := by omega
    simp only [hmin, take_length, flatMap_sackBytes, OptionArea.push, length_cons, hl,
      tcpOptionLenSackBlock, ne_eq, hz, not_false_eq_true, ↓reduceIte]
  · exact area.push_nil.symm

theorem writeNoops_push (n : Nat) (area : OptionArea) :
    ∃ bytes, writeNoops n area = area.push bytes ∧ bytes.length ≤ n ∧
      ((4 - area.2 % 4) % 4 ≤ n → (area.2 + bytes.length) % 4 = 0) := by
  induction n generalizing area with
  | zero => exact ⟨[], area.push_nil.symm, Nat.le_refl _, fun h => by simp only [length_nil]; omega⟩
  | succ n ih =>
    unfold writeNoops
    split
    · obtain ⟨bytes, he, hl, hm⟩ := ih (area.push [tcpOptionNoop])
      refine ⟨tcpOptionNoop :: bytes, ?_, by simpa using hl, ?_⟩
      · exact he.trans (area.push_push [tcpOptionNoop] bytes)
      · intro hle
        have h2 : (area.push [tcpOptionNoop]).2 = area.2 + 1 := rfl
        rw [h2] at hm
        simp only [length_cons]
        have := hm (by omega)
        omega
    · exact ⟨[], area.push_nil.symm, Nat.zero_le _, fun h => by simp only [length_nil]; omega⟩

theorem writePadding_push (area : OptionArea) :
    ∃ bytes, writePadding area = area.push bytes ∧ (area.2 + bytes.length) % 4 = 0 ∧
      bytes.length ≤ 4 ∧ (bytes = [] ∨ ∃ tail, bytes = tcpOptionEol :: tail) := by
  unfold writePadding
  split
  · next hz =>
    obtain ⟨bytes, he, hl, hm⟩ := writeNoops_push 3 (area.push [tcpOptionEol])
    refine ⟨tcpOptionEol :: bytes, ?_, ?_, Nat.succ_le_succ hl, .inr ⟨bytes, rfl⟩⟩
    · exact he.trans (area.push_push [tcpOptionEol] bytes)
    · have h2 : (area.push [tcpOptionEol]).2 = area.2 + 1 := rfl
      rw [h2] at hm
      simp only [length_cons]
      have := hm (by omega)
      omega
  · next hz =>
    have h0 : area.2 % 4 = 0 := by omega
    refine ⟨[], ?_, by simpa using h0, by simp, .inl rfl⟩
    rw [OptionArea.push_nil]
    simp [writeNoops, h0]

def optionBody (opts : TcpOptions) : List (BitVec 8) :=
  mssBytes opts ++ (wscaleBytes opts ++ (sackPermittedBytes opts ++
    (tstampBytes opts ++ sackOptionBytes opts)))

theorem tcpOptionsWrite_eq (opts : TcpOptions)
    (hn : opts.has tcpOptsFlagSack = true → 1 ≤ opts.sacks.length ∧ opts.sacks.length ≤ 3) :
    ∃ pad, tcpOptionsWrite opts = (optionBody opts ++ pad, (optionBody opts ++ pad).length) ∧
      pad.length ≤ 4 ∧ (pad = [] ∨ ∃ tail, pad = tcpOptionEol :: tail) := by
  obtain ⟨pad, he, hm, hl, hp⟩ := writePadding_push (OptionArea.push ([], 0) (optionBody opts))
  refine ⟨pad, ?_, hl, hp⟩
  rw [tcpOptionsWrite, writeSack_push _ _ hn, writeTstamp_push, writeSackPermitted_push,
    writeWscale_push, writeMss_push]
  simp only [OptionArea.push_push, List.append_assoc] at he ⊢
  refine he.trans ?_
  simp [OptionArea.push, OptionArea.add]

theorem length_optionBody_le (opts : TcpOptions)
    (hn : opts.has tcpOptsFlagSack = true → opts.sacks.length ≤ 3) :
    (optionBody opts).length ≤ 45 := by
  have h1 : (mssBytes opts).length ≤ 4 := by unfold mssBytes; split <;> simp
  have h2 : (wscaleBytes opts).length ≤ 3 := by unfold wscaleBytes; split <;> simp
  have h3 : (sackPermittedBytes opts).length ≤ 2 := by unfold sackPermittedBytes; split <;> simp
  have h4 : (tstampBytes opts).length ≤ 10 := by unfold tstampBytes; split <;> simp
  have h5 : (sackOptionBytes opts).length ≤ 26 := by
    unfold sackOptionBytes
    split
    · next hf =>
      have := hn hf
      simp only [length_cons, length_wordBytes, length_sackWords]
      omega
    · simp
  simp only [optionBody, length_append]
  omega

theorem parseAt_padding (hp : pad = [] ∨ ∃ tail, pad = tcpOptionEol :: tail) (rest : List (BitVec 8)) :
    parseAt th pad.length (pad ++ rest) opt = opt := by
  rcases hp with he | ⟨tail, he⟩
  · subst he
    exact parseAt_zero th rest opt
  · subst he
    exact parseAt_eol th _ _ opt

theorem tcpOptionsParse_eq (hd : (tcpDoff th).toNat * 4 = 20 + bytes.length)
    (rest : List (BitVec 8)) (opt : TcpOptions) :
    tcpOptionsParse th (bytes ++ rest) opt =
      parseAt th bytes.length (bytes ++ rest) { opt with flags := opt.flags &&& tcpOptsKept } := by
  have hlt : (tcpDoff th).toNat < 16 := by
    rw [tcpDoff, BitVec.toNat_ushiftRight, Nat.shiftRight_eq_div_pow]
    have := th.dataOffsetAndReserved.isLt
    omega
  have he : (tcpDoff th <<< 2) - 20 = BitVec.ofNat 8 bytes.length := by
    have hs : (tcpDoff th <<< 2).toNat = (tcpDoff th).toNat * 4 := by
      rw [BitVec.toNat_shiftLeft, Nat.shiftLeft_eq]
      omega
    bv_omega
  have hn : (BitVec.ofNat 8 bytes.length).toNat = bytes.length := by
    rw [BitVec.toNat_ofNat]
    omega
  rw [tcpOptionsParse, he, hn, parseAt]

/-- The flag `flag` if `opts` has it, and nothing otherwise. -/
def flagPart (opts : TcpOptions) (flag : BitVec 8) : BitVec 8 := if opts.has flag then flag else 0

def synFlags : BitVec 8 :=
  tcpOptsFlagMss ||| tcpOptsFlagWscale ||| tcpOptsFlagSackPermitted ||| tcpOptsFlagTstamp

def segmentFlags : BitVec 8 := tcpOptsFlagTstamp ||| tcpOptsFlagSack

theorem syn_flags (opts : TcpOptions) (h : opts.flags &&& ~~~synFlags = 0) :
    flagPart opts tcpOptsFlagMss ||| flagPart opts tcpOptsFlagWscale |||
      flagPart opts tcpOptsFlagSackPermitted ||| flagPart opts tcpOptsFlagTstamp = opts.flags := by
  have hall : ∀ flags : BitVec 8, flags &&& ~~~synFlags = 0 →
      (if decide (flags &&& tcpOptsFlagMss ≠ 0) then tcpOptsFlagMss else 0) |||
        (if decide (flags &&& tcpOptsFlagWscale ≠ 0) then tcpOptsFlagWscale else 0) |||
        (if decide (flags &&& tcpOptsFlagSackPermitted ≠ 0) then tcpOptsFlagSackPermitted else 0) |||
        (if decide (flags &&& tcpOptsFlagTstamp ≠ 0) then tcpOptsFlagTstamp else 0) = flags := by
    decide
  exact hall opts.flags h

theorem segment_flags (opts : TcpOptions) (h : opts.flags &&& ~~~segmentFlags = 0) :
    flagPart opts tcpOptsFlagTstamp ||| flagPart opts tcpOptsFlagSack = opts.flags := by
  have hall : ∀ flags : BitVec 8, flags &&& ~~~segmentFlags = 0 →
      (if decide (flags &&& tcpOptsFlagTstamp ≠ 0) then tcpOptsFlagTstamp else 0) |||
        (if decide (flags &&& tcpOptsFlagSack ≠ 0) then tcpOptsFlagSack else 0) = flags := by
    decide
  exact hall opts.flags h

/-- What a sender puts into a segment: handshake options with a legal window scale into a SYN,
timestamps and one to three SACK blocks into any other segment. -/
structure Emitted (th : TcpHeader) (opts : TcpOptions) : Prop where
  syn : tcpSyn th = true → opts.flags &&& ~~~synFlags = 0
  segment : tcpSyn th = false → opts.flags &&& ~~~segmentFlags = 0
  wscale : opts.has tcpOptsFlagWscale = true → opts.wscale ≤ tcpMaxWndScale
  sacks : opts.has tcpOptsFlagSack = true →
    1 ≤ opts.sacks.length ∧ opts.sacks.length ≤ tcpOptsMaxSackBlocks

/-- `got` carries every option of `opts`, beside the flags the receiver kept from the SYN. -/
structure Recovered (opts opt got : TcpOptions) : Prop where
  flags : got.flags = (opt.flags &&& tcpOptsKept) ||| opts.flags
  mss : opts.has tcpOptsFlagMss = true → got.mss = opts.mss
  wscale : opts.has tcpOptsFlagWscale = true → got.wscale = opts.wscale
  tsval : opts.has tcpOptsFlagTstamp = true → got.tsval = opts.tsval
  tsecr : opts.has tcpOptsFlagTstamp = true → got.tsecr = opts.tsecr
  sacks : opts.has tcpOptsFlagSack = true → got.sacks = opts.sacks

/-- Every block after the first is the empty block at the end of the first. -/
def TrailingEmpty : List SackBlock → Prop
  | [] => True
  | b :: bs => ∀ c ∈ bs, c = ⟨b.stop, b.stop⟩

theorem stridedSacks_eq_iff (h1 : 1 ≤ bs.length) (h3 : bs.length ≤ 3) :
    stridedSacks bs = bs ↔ TrailingEmpty bs := by
  match bs, h1, h3 with
  | [b], _, _ => simp [stridedSacks, TrailingEmpty]
  | [b, c], _, _ =>
    obtain ⟨cs, ce⟩ := c
    simp [stridedSacks, TrailingEmpty, range_succ]
    grind
  | [b, c, d], _, _ =>
    obtain ⟨cs, ce⟩ := c
    obtain ⟨ds, de⟩ := d
    simp [stridedSacks, TrailingEmpty, range_succ]
    grind

theorem has_eq_false (opts : TcpOptions) (h : opts.flags &&& ~~~allowed = 0)
    (hf : flag &&& allowed = 0) : opts.has flag = false := by
  have hz : opts.flags &&& flag = 0 := by
    have hall : ∀ i, i < 8 → (opts.flags &&& flag).getLsbD i = false := by
      intro i hi
      have h1 := congrArg (BitVec.getLsbD · i) h
      have h2 := congrArg (BitVec.getLsbD · i) hf
      simp only [BitVec.getLsbD_and, BitVec.getLsbD_not, hi, decide_true, Bool.true_and] at h1 h2 ⊢
      revert h1 h2
      cases opts.flags.getLsbD i <;> cases flag.getLsbD i <;> cases allowed.getLsbD i <;> simp
    apply BitVec.eq_of_getLsbD_eq
    intro i hi
    simpa using hall i hi
  simp [TcpOptions.has, hz]

theorem parse_syn (hs : tcpSyn th = true) (he : Emitted th opts)
    (hp : pad.length ≤ 4) (hpad : pad = [] ∨ ∃ tail, pad = tcpOptionEol :: tail)
    (rest : List (BitVec 8)) (opt : TcpOptions) :
    parseAt th (optionBody opts ++ pad).length (optionBody opts ++ pad ++ rest) opt =
      setTstamp opts (setSackPermitted opts (setWscale opts (setMss opts opt))) := by
  have hno : sackOptionBytes opts = [] := by
    rw [sackOptionBytes, has_eq_false opts (he.syn hs) (by decide)]
    rfl
  have hb := length_optionBody_le opts fun hf => (he.sacks hf).2
  simp only [optionBody, hno, append_nil, length_append, List.append_assoc] at hb ⊢
  rw [parseAt_mss hs (by omega), parseAt_wscale hs (by omega) he.wscale,
    parseAt_sackPermitted hs (by omega), parseAt_tstamp (by omega), parseAt_padding hpad]

/-- Outside the handshake the receiver sees the timestamps and the strided SACK blocks. -/
theorem parse_segment (hs : tcpSyn th = false) (he : Emitted th opts)
    (hp : pad.length ≤ 4) (hpad : pad = [] ∨ ∃ tail, pad = tcpOptionEol :: tail)
    (rest : List (BitVec 8)) (opt : TcpOptions) (ho : opt.has tcpOptsFlagSackPermitted = true) :
    parseAt th (optionBody opts ++ pad).length (optionBody opts ++ pad ++ rest) opt =
      setSacks opts (setTstamp opts opt) := by
  have hmss : mssBytes opts = [] := by
    rw [mssBytes, has_eq_false opts (he.segment hs) (by decide)]
    rfl
  have hws : wscaleBytes opts = [] := by
    rw [wscaleBytes, has_eq_false opts (he.segment hs) (by decide)]
    rfl
  have hsp : sackPermittedBytes opts = [] := by
    rw [sackPermittedBytes, has_eq_false opts (he.segment hs) (by decide)]
    rfl
  have hperm : (setTstamp opts opt).has tcpOptsFlagSackPermitted = true := by
    have hall : ∀ flags : BitVec 8, decide (flags &&& tcpOptsFlagSackPermitted ≠ 0) = true →
        decide ((flags ||| tcpOptsFlagTstamp) &&& tcpOptsFlagSackPermitted ≠ 0) = true := by decide
    unfold setTstamp
    split
    · exact hall opt.flags ho
    · exact ho
  have hb := length_optionBody_le opts fun hf => (he.sacks hf).2
  simp only [optionBody, hmss, hws, hsp, nil_append, length_append,
    List.append_assoc] at hb ⊢
  rw [parseAt_tstamp (by omega), parseAt_sack hs hperm (by omega) fun hf => (he.sacks hf).1,
    parseAt_padding hpad]

theorem setMss_flags : (setMss opts opt).flags = opt.flags ||| flagPart opts tcpOptsFlagMss := by
  unfold setMss flagPart
  split <;> simp [TcpOptions.set]

theorem setWscale_flags :
    (setWscale opts opt).flags = opt.flags ||| flagPart opts tcpOptsFlagWscale := by
  unfold setWscale flagPart
  split <;> simp [TcpOptions.set]

theorem setSackPermitted_flags :
    (setSackPermitted opts opt).flags = opt.flags ||| flagPart opts tcpOptsFlagSackPermitted := by
  unfold setSackPermitted flagPart
  split <;> simp [TcpOptions.set]

theorem setTstamp_flags :
    (setTstamp opts opt).flags = opt.flags ||| flagPart opts tcpOptsFlagTstamp := by
  unfold setTstamp flagPart
  split <;> simp [TcpOptions.set]

theorem setSacks_flags : (setSacks opts opt).flags = opt.flags ||| flagPart opts tcpOptsFlagSack := by
  unfold setSacks flagPart
  split <;> simp [TcpOptions.set]

theorem recovered_syn (hs : tcpSyn th = true) (he : Emitted th opts)
    (hb : base.flags = opt.flags &&& tcpOptsKept) :
    Recovered opts opt
      (setTstamp opts (setSackPermitted opts (setWscale opts (setMss opts base)))) := by
  have hno := has_eq_false opts (he.syn hs) (show tcpOptsFlagSack &&& _ = 0 by decide)
  constructor
  case flags =>
    rw [setTstamp_flags, setSackPermitted_flags, setWscale_flags, setMss_flags, hb,
      ← syn_flags opts (he.syn hs)]
    simp only [BitVec.or_assoc]
  case mss =>
    intro hf
    simp [setTstamp, setSackPermitted, setWscale, setMss, TcpOptions.set, hf,
      apply_ite TcpOptions.mss]
  case wscale =>
    intro hf
    simp [setTstamp, setSackPermitted, setWscale, TcpOptions.set, hf, apply_ite TcpOptions.wscale]
  case tsval =>
    intro hf
    simp [setTstamp, hf]
  case tsecr =>
    intro hf
    simp [setTstamp, hf]
  case sacks =>
    intro hf
    simp [hno] at hf

theorem recovered_segment_iff (hs : tcpSyn th = false) (he : Emitted th opts)
    (hb : base.flags = opt.flags &&& tcpOptsKept) :
    Recovered opts opt (setSacks opts (setTstamp opts base)) ↔
      (opts.has tcpOptsFlagSack = true → TrailingEmpty opts.sacks) := by
  have hmss := has_eq_false opts (he.segment hs) (show tcpOptsFlagMss &&& _ = 0 by decide)
  have hws := has_eq_false opts (he.segment hs) (show tcpOptsFlagWscale &&& _ = 0 by decide)
  have hsacks (hf : opts.has tcpOptsFlagSack = true) :
      (setSacks opts (setTstamp opts base)).sacks = stridedSacks opts.sacks := by
    simp [setSacks, hf]
  constructor
  · intro hr hf
    obtain ⟨h1, h3⟩ := he.sacks hf
    exact (stridedSacks_eq_iff h1 h3).mp ((hsacks hf).symm.trans (hr.sacks hf))
  · intro ht
    constructor
    case flags =>
      rw [setSacks_flags, setTstamp_flags, hb, ← segment_flags opts (he.segment hs)]
      simp only [BitVec.or_assoc]
    case mss =>
      intro hf
      simp [hmss] at hf
    case wscale =>
      intro hf
      simp [hws] at hf
    case tsval =>
      intro hf
      simp [setSacks, setTstamp, TcpOptions.set, hf, apply_ite TcpOptions.tsval]
    case tsecr =>
      intro hf
      simp [setSacks, setTstamp, TcpOptions.set, hf, apply_ite TcpOptions.tsecr]
    case sacks =>
      intro hf
      obtain ⟨h1, h3⟩ := he.sacks hf
      exact (hsacks hf).trans ((stridedSacks_eq_iff h1 h3).mpr (ht hf))

/-- The options survive the wire exactly when the parser's short stride does not show. -/
theorem tcp_options_round_trip_iff (th : TcpHeader) (opts opt : TcpOptions)
    (payload : List (BitVec 8)) (he : Emitted th opts)
    (hr : tcpSyn th = false → opt.has tcpOptsFlagSackPermitted = true)
    (hd : (tcpDoff th).toNat * 4 = 20 + (tcpOptionsWrite opts).2) :
    Recovered opts opt (tcpOptionsParse th ((tcpOptionsWrite opts).1 ++ payload) opt) ↔
      (opts.has tcpOptsFlagSack = true → TrailingEmpty opts.sacks) := by
  obtain ⟨pad, hw, hl, hpad⟩ := tcpOptionsWrite_eq opts he.sacks
  rw [hw] at hd ⊢
  rw [tcpOptionsParse_eq hd]
  cases hs : tcpSyn th with
  | true =>
    rw [parse_syn hs he hl hpad]
    have hno := has_eq_false opts (he.syn hs) (show tcpOptsFlagSack &&& _ = 0 by decide)
    constructor
    · intro _ hf
      simp [hno] at hf
    · intro _
      exact recovered_syn hs he rfl
  | false =>
    have hkept : ∀ flags : BitVec 8, decide (flags &&& tcpOptsFlagSackPermitted ≠ 0) = true →
        decide (flags &&& tcpOptsKept &&& tcpOptsFlagSackPermitted ≠ 0) = true := by decide
    rw [parse_segment hs he hl hpad payload { opt with flags := opt.flags &&& tcpOptsKept }
      (hkept opt.flags (hr hs))]
    exact recovered_segment_iff hs he rfl

/-- A data segment with `n` four-byte words of options. -/
def ackHeader (n : BitVec 8) : TcpHeader := ⟨(5 + n) <<< 4, 0x10⟩

def sackOptions (sacks : List SackBlock) : TcpOptions :=
  ⟨tcpOptsFlagTstamp ||| tcpOptsFlagSack, 0, 0, 7, 9, sacks, 0⟩

def sackReceiver : TcpOptions := ⟨tcpOptsFlagSackPermitted, 0, 0, 0, 0, [], 0⟩

theorem tcp_options_round_trip_one_block :
    Recovered (sackOptions [⟨1, 2⟩]) sackReceiver
      (tcpOptionsParse (ackHeader 5) ((tcpOptionsWrite (sackOptions [⟨1, 2⟩])).1 ++ [])
        sackReceiver) := by
  have he : Emitted (ackHeader 5) (sackOptions [⟨1, 2⟩]) :=
    ⟨by decide, by decide, by decide, by decide⟩
  apply (tcp_options_round_trip_iff _ _ sackReceiver [] he (by decide) (by decide)).mpr
  intro _
  simp [sackOptions, TrailingEmpty]

/-- The second of two blocks comes back as the end of the first and its own start. -/
theorem tcp_options_second_block_lost :
    Emitted (ackHeader 7) (sackOptions [⟨1, 2⟩, ⟨3, 4⟩]) ∧
      sackReceiver.has tcpOptsFlagSackPermitted = true ∧
      (tcpDoff (ackHeader 7)).toNat * 4 =
        20 + (tcpOptionsWrite (sackOptions [⟨1, 2⟩, ⟨3, 4⟩])).2 ∧
      (tcpOptionsParse (ackHeader 7) (tcpOptionsWrite (sackOptions [⟨1, 2⟩, ⟨3, 4⟩])).1
        sackReceiver).sacks = [⟨1, 2⟩, ⟨2, 3⟩] ∧
      ¬ Recovered (sackOptions [⟨1, 2⟩, ⟨3, 4⟩]) sackReceiver
        (tcpOptionsParse (ackHeader 7) (tcpOptionsWrite (sackOptions [⟨1, 2⟩, ⟨3, 4⟩])).1
          sackReceiver) := by
  have hs : (tcpOptionsParse (ackHeader 7) (tcpOptionsWrite (sackOptions [⟨1, 2⟩, ⟨3, 4⟩])).1
      sackReceiver).sacks = [⟨1, 2⟩, ⟨2, 3⟩] := by decide
  refine ⟨⟨by decide, by decide, by decide, by decide⟩, by decide, by decide, hs, ?_⟩
  intro hr
  have := hs.symm.trans (hr.sacks (by decide))
  exact absurd this (by decide)

end Vpp.Tcp
