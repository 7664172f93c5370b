import Vpp.Lib.NetBytes

namespace Vpp.Tcp
open Vpp.Lib List BitVec

def tcpOptionEol : BitVec 8 := 0
def tcpOptionNoop : BitVec 8 := 1
def tcpOptionMss : BitVec 8 := 2
def tcpOptionWindowScale : BitVec 8 := 3
def tcpOptionSackPermitted : BitVec 8 := 4
def tcpOptionSackBlock : BitVec 8 := 5
def tcpOptionTimestamp : BitVec 8 := 8

def tcpOptionLenEol : Nat := 1
def tcpOptionLenNoop : Nat := 1
def tcpOptionLenMss : Nat := 4
def tcpOptionLenWindowScale : Nat := 3
def tcpOptionLenSackPermitted : Nat := 2
def tcpOptionLenTimestamp : Nat := 10
def tcpOptionLenSackBlock : Nat := 8

def tcpMaxWndScale : BitVec 8 := 14
def tcpOptsMaxSackBlocks : Nat := 3

def tcpOptsFlagMss : BitVec 8 := 1
def tcpOptsFlagTstamp : BitVec 8 := 2
def tcpOptsFlagWscale : BitVec 8 := 4
def tcpOptsFlagSackPermitted : BitVec 8 := 8
def tcpOptsFlagSack : BitVec 8 := 16

structure SackBlock where
  start : BitVec 32
  stop : BitVec 32
  deriving DecidableEq, Repr

structure TcpOptions where
  flags : BitVec 8
  mss : BitVec 16
  wscale : BitVec 8
  tsval : BitVec 32
  tsecr : BitVec 32
  sacks : List SackBlock
  nSackBlocks : BitVec 8
  deriving DecidableEq, Repr

def TcpOptions.has (opts : TcpOptions) (flag : BitVec 8) : Bool := decide (opts.flags &&& flag ≠ 0)

def TcpOptions.set (opts : TcpOptions) (flag : BitVec 8) : TcpOptions :=
  { opts with flags := opts.flags ||| flag }

structure TcpHeader where
  dataOffsetAndReserved : BitVec 8
  flags : BitVec 8
  deriving DecidableEq, Repr

def tcpFlagSyn : BitVec 8 := 2

def tcpDoff (th : TcpHeader) : BitVec 8 := th.dataOffsetAndReserved >>> 4

def tcpSyn (th : TcpHeader) : Bool := decide (th.flags &&& tcpFlagSyn ≠ 0)

def sackBytes (b : SackBlock) : List (BitVec 8) :=
  netBytes 4 b.start.toNat ++ netBytes 4 b.stop.toNat

/-- A piece of the option area together with the length that is accounted for it. -/
abbrev OptionArea := List (BitVec 8) × Nat

def OptionArea.add (area : OptionArea) (bytes : List (BitVec 8)) (len : Nat) : OptionArea :=
  (area.1 ++ bytes, area.2 + len)

def writeMss (opts : TcpOptions) (area : OptionArea) : OptionArea :=
  if opts.has tcpOptsFlagMss then
    area.add (tcpOptionMss :: BitVec.ofNat 8 tcpOptionLenMss :: netBytes 2 opts.mss.toNat)
      tcpOptionLenMss
  else area

def writeWscale (opts : TcpOptions) (area : OptionArea) : OptionArea :=
  if opts.has tcpOptsFlagWscale then
    area.add [tcpOptionWindowScale, BitVec.ofNat 8 tcpOptionLenWindowScale, opts.wscale]
      tcpOptionLenWindowScale
  else area

def writeSackPermitted (opts : TcpOptions) (area : OptionArea) : OptionArea :=
  if opts.has tcpOptsFlagSackPermitted then
    area.add [tcpOptionSackPermitted, BitVec.ofNat 8 tcpOptionLenSackPermitted]
      tcpOptionLenSackPermitted
  else area

def writeTstamp (opts : TcpOptions) (area : OptionArea) : OptionArea :=
  if opts.has tcpOptsFlagTstamp then
    area.add (tcpOptionTimestamp :: BitVec.ofNat 8 tcpOptionLenTimestamp ::
      (netBytes 4 opts.tsval.toNat ++ netBytes 4 opts.tsecr.toNat)) tcpOptionLenTimestamp
  else area

def writeSack (opts : TcpOptions) (area : OptionArea) : OptionArea :=
  if opts.has tcpOptsFlagSack then
    let nSackBlocks := min opts.sacks.length tcpOptsMaxSackBlocks
    if nSackBlocks ≠ 0 then
      area.add (tcpOptionSackBlock :: BitVec.ofNat 8 (2 + nSackBlocks * tcpOptionLenSackBlock) ::
        (opts.sacks.take nSackBlocks).flatMap sackBytes) (2 + nSackBlocks * tcpOptionLenSackBlock)
    else area
  else area

/-- The padding loop; it runs at most three times. -/
def writeNoops : Nat → OptionArea → OptionArea
  | 0, area => area
  | n + 1, area =>
    if area.2 % 4 ≠ 0 then writeNoops n (area.add [tcpOptionNoop] tcpOptionLenNoop) else area

def writePadding (area : OptionArea) : OptionArea :=
  writeNoops 3 (if area.2 % 4 ≠ 0 then area.add [tcpOptionEol] tcpOptionLenEol else area)

def tcpOptionsWrite (opts : TcpOptions) : List (BitVec 8) × Nat :=
  writePadding (writeSack opts (writeTstamp opts (writeSackPermitted opts (writeWscale opts
    (writeMss opts ([], 0))))))

/-- One block as the parser reads it: the stride between blocks is four bytes. -/
def readSackBlock (data : List (BitVec 8)) (j : Nat) : SackBlock :=
  ⟨netWord 4 data (2 + 4 * j), netWord 4 data (6 + 4 * j)⟩

def tcpOptionParse (th : TcpHeader) (kind optLen : BitVec 8) (data : List (BitVec 8))
    (opt : TcpOptions) : TcpOptions :=
  if kind = tcpOptionMss then
    if optLen.toNat = tcpOptionLenMss ∧ tcpSyn th then
      { opt.set tcpOptsFlagMss with mss := netWord 2 data 2 }
    else opt
  else if kind = tcpOptionWindowScale then
    if optLen.toNat = tcpOptionLenWindowScale ∧ tcpSyn th then
      { opt.set tcpOptsFlagWscale with
        wscale := if tcpMaxWndScale < data.getD 2 0 then tcpMaxWndScale else data.getD 2 0 }
    else opt
  else if kind = tcpOptionTimestamp then
    if optLen.toNat = tcpOptionLenTimestamp then
      { opt.set tcpOptsFlagTstamp with tsval := netWord 4 data 2, tsecr := netWord 4 data 6 }
    else opt
  else if kind = tcpOptionSackPermitted then
    if optLen.toNat = tcpOptionLenSackPermitted ∧ tcpSyn th then opt.set tcpOptsFlagSackPermitted
    else opt
  else if kind = tcpOptionSackBlock then
    if opt.has tcpOptsFlagSackPermitted = false ∨ tcpSyn th then opt
    else if optLen.toNat < 10 ∨ (optLen.toNat - 2) % tcpOptionLenSackBlock ≠ 0 then opt
    else
      let nSackBlocks := (optLen.toNat - 2) / tcpOptionLenSackBlock
      { opt.set tcpOptsFlagSack with
        nSackBlocks := BitVec.ofNat 8 nSackBlocks
        sacks := (List.range nSackBlocks).map (readSackBlock data) }
  else opt

/-- The parsing loop. `optsLen` falls in every round, so it bounds the number of rounds. -/
def tcpOptionsParseLoop (th : TcpHeader) :
    Nat → BitVec 8 → List (BitVec 8) → TcpOptions → TcpOptions
  | 0, _, _, opt => opt
  | n + 1, optsLen, data, opt =>
    if optsLen = 0 then opt
    else
      let kind := data.getD 0 0
      let next (optLen : BitVec 8) := tcpOptionsParseLoop th n (optsLen - optLen)
        (data.drop optLen.toNat) (tcpOptionParse th kind optLen data opt)
      if kind = tcpOptionEol then opt
      else if kind = tcpOptionNoop then next 1
      else if optsLen < 2 then opt
      else if data.getD 1 0 < 2 ∨ optsLen < data.getD 1 0 then opt
      else next (data.getD 1 0)

/-- Flags that a later segment does not clear. -/
def tcpOptsKept : BitVec 8 := tcpOptsFlagSackPermitted ||| tcpOptsFlagWscale

/-- `data` is what follows the fixed header in the buffer. -/
def tcpOptionsParse (th : TcpHeader) (data : List (BitVec 8)) (opt : TcpOptions) : TcpOptions :=
  let optsLen := (tcpDoff th <<< 2) - 20
  tcpOptionsParseLoop th optsLen.toNat optsLen data { opt with flags := opt.flags &&& tcpOptsKept }

/-- The loop stops by itself: more rounds than remaining bytes change nothing. -/
theorem parseLoop_fuel (th : TcpHeader) (hn : optsLen.toNat ≤ n) (hm : optsLen.toNat ≤ m) :
    tcpOptionsParseLoop th n optsLen data opt = tcpOptionsParseLoop th m optsLen data opt := by
  induction n generalizing m optsLen data opt with
  | zero =>
    have hz : optsLen = 0 := eq_of_toNat_eq (by simp; omega)
    cases m with
    | zero => rfl
    | succ m => simp only [tcpOptionsParseLoop, hz, ↓reduceIte]
  | succ n ih =>
    cases m with
    | zero =>
      have hz : optsLen = 0 := eq_of_toNat_eq (by simp; omega)
      simp only [tcpOptionsParseLoop, hz, ↓reduceIte]
    | succ m =>
      have hstep {optLen : BitVec 8} (hpos : 1 ≤ optLen.toNat) (hle : optLen ≤ optsLen)
          (data : List (BitVec 8)) (opt : TcpOptions) :
          tcpOptionsParseLoop th n (optsLen - optLen) data opt =
            tcpOptionsParseLoop th m (optsLen - optLen) data opt := by
        have hs := toNat_sub_of_le hle
        apply ih <;> omega
      simp only [tcpOptionsParseLoop]
      by_cases h0 : optsLen = 0
      · simp only [h0, ↓reduceIte]
      · by_cases he : data.getD 0 0 = tcpOptionEol
        · simp only [he, ↓reduceIte]
        · by_cases hno : data.getD 0 0 = tcpOptionNoop
          · simp only [h0, hno, ↓reduceIte]
            rw [hstep (by decide) (by bv_omega)]
          · by_cases h2 : optsLen < 2
            · simp only [h0, he, hno, h2, ↓reduceIte]
            · by_cases hl : data.getD 1 0 < 2 ∨ optsLen < data.getD 1 0
              · simp only [h0, he, hno, h2, hl, ↓reduceIte]
              · simp only [h0, he, hno, h2, hl, ↓reduceIte]
                push Not at hl
                rw [hstep (by bv_omega) (by bv_omega)]

/-- Parsing with `len` option bytes left. -/
def parseAt (th : TcpHeader) (len : Nat) (data : List (BitVec 8)) (opt : TcpOptions) : TcpOptions :=
  tcpOptionsParseLoop th len (BitVec.ofNat 8 len) data opt

theorem parseAt_zero (th : TcpHeader) (data : List (BitVec 8)) (opt : TcpOptions) :
    parseAt th 0 data opt = opt := rfl

theorem parseAt_eol (th : TcpHeader) (len : Nat) (rest : List (BitVec 8)) (opt : TcpOptions) :
    parseAt th len (tcpOptionEol :: rest) opt = opt := by
  cases len with
  | zero => rfl
  | succ n => simp [parseAt, tcpOptionsParseLoop]

theorem parseAt_option (th : TcpHeader) (opt : TcpOptions) (body rest : List (BitVec 8))
    (hk : kind ≠ tcpOptionEol ∧ kind ≠ tcpOptionNoop) (hb : body.length + 2 + len < 256) :
    parseAt th (body.length + 2 + len)
        (kind :: BitVec.ofNat 8 (body.length + 2) :: (body ++ rest)) opt =
      parseAt th len rest (tcpOptionParse th kind (BitVec.ofNat 8 (body.length + 2))
        (kind :: BitVec.ofNat 8 (body.length + 2) :: (body ++ rest)) opt) := by
  have hlen : (BitVec.ofNat 8 (body.length + 2)).toNat = body.length + 2 := by
    rw [toNat_ofNat]
    omega
  have htot : (BitVec.ofNat 8 (body.length + 2 + len)).toNat = body.length + 2 + len := by
    rw [toNat_ofNat]
    omega
  have h0 : BitVec.ofNat 8 (body.length + 2 + len) ≠ 0 := by
    intro he
    have := congrArg BitVec.toNat he
    rw [htot] at this
    simp at this
  have h2 : ¬ BitVec.ofNat 8 (body.length + 2 + len) < 2 := by
    rw [lt_def, htot]
    simp
    omega
  have hl : ¬ (BitVec.ofNat 8 (body.length + 2) < 2 ∨
      BitVec.ofNat 8 (body.length + 2 + len) < BitVec.ofNat 8 (body.length + 2)) := by
    rw [lt_def, lt_def, htot, hlen]
    simp
  have hsub : BitVec.ofNat 8 (body.length + 2 + len) - BitVec.ofNat 8 (body.length + 2) =
      BitVec.ofNat 8 len := by
    apply eq_of_toNat_eq
    rw [toNat_sub_of_le (by rw [le_def, htot, hlen]; omega), htot, hlen,
      toNat_ofNat]
    omega
  have hdrop : (kind :: BitVec.ofNat 8 (body.length + 2) :: (body ++ rest)).drop
      (body.length + 2) = rest := by simp
  rw [parseAt, show body.length + 2 + len = (body.length + 1 + len) + 1 by omega,
    tcpOptionsParseLoop]
  rw [show (body.length + 1 + len) + 1 = body.length + 2 + len by omega]
  simp only [getD_cons_zero, getD_cons_succ, h0, hk.1, hk.2, h2, hl, ↓reduceIte, hlen,
    hdrop, hsub]
  exact parseLoop_fuel th (by rw [toNat_ofNat]; omega) (by rw [toNat_ofNat]; omega)

def mssBytes (opts : TcpOptions) : List (BitVec 8) :=
  if opts.has tcpOptsFlagMss then tcpOptionMss :: 4#8 :: netBytes 2 opts.mss.toNat else []

def setMss (opts opt : TcpOptions) : TcpOptions :=
  if opts.has tcpOptsFlagMss then { opt.set tcpOptsFlagMss with mss := opts.mss } else opt

def wscaleBytes (opts : TcpOptions) : List (BitVec 8) :=
  if opts.has tcpOptsFlagWscale then [tcpOptionWindowScale, 3#8, opts.wscale] else []

def setWscale (opts opt : TcpOptions) : TcpOptions :=
  if opts.has tcpOptsFlagWscale then { opt.set tcpOptsFlagWscale with wscale := opts.wscale } else opt

def sackPermittedBytes (opts : TcpOptions) : List (BitVec 8) :=
  if opts.has tcpOptsFlagSackPermitted then [tcpOptionSackPermitted, 2#8] else []

def setSackPermitted (opts opt : TcpOptions) : TcpOptions :=
  if opts.has tcpOptsFlagSackPermitted then opt.set tcpOptsFlagSackPermitted else opt

def tstampBytes (opts : TcpOptions) : List (BitVec 8) :=
  if opts.has tcpOptsFlagTstamp then
    tcpOptionTimestamp :: 10#8 :: (netBytes 4 opts.tsval.toNat ++ netBytes 4 opts.tsecr.toNat)
  else []

def setTstamp (opts opt : TcpOptions) : TcpOptions :=
  if opts.has tcpOptsFlagTstamp then
    { opt.set tcpOptsFlagTstamp with tsval := opts.tsval, tsecr := opts.tsecr }
  else opt

theorem parseAt_mss (hs : tcpSyn th = true) (hb : (mssBytes opts).length + len < 256) :
    parseAt th ((mssBytes opts).length + len) (mssBytes opts ++ rest) opt =
      parseAt th len rest (setMss opts opt) := by
  unfold mssBytes at hb ⊢
  unfold setMss
  split
  · next hf =>
    simp only [hf, ↓reduceIte, length_cons, length_netBytes] at hb
    have hw : netWord 2 (tcpOptionMss :: 4#8 :: (netBytes 2 opts.mss.toNat ++ rest)) 2 = opts.mss :=
      (netWord_append [tcpOptionMss, 4#8] _ 0).trans (netWord_netBytes (w := 2) opts.mss rest)
    have ho := parseAt_option th opt (netBytes 2 opts.mss.toNat) rest
      (show tcpOptionMss ≠ _ ∧ _ by decide) (by simpa using hb)
    simp only [length_netBytes] at ho
    simp only [length_cons, length_netBytes, List.cons_append]
    refine ho.trans ?_
    simp [tcpOptionParse, tcpOptionLenMss, hs, hw]
  · simp

theorem parseAt_wscale (hs : tcpSyn th = true) (hb : (wscaleBytes opts).length + len < 256)
    (hw : opts.has tcpOptsFlagWscale = true → opts.wscale ≤ tcpMaxWndScale) :
    parseAt th ((wscaleBytes opts).length + len) (wscaleBytes opts ++ rest) opt =
      parseAt th len rest (setWscale opts opt) := by
  unfold wscaleBytes at hb ⊢
  unfold setWscale
  split
  · next hf =>
    simp only [hf, ↓reduceIte, length_cons] at hb
    have ho := parseAt_option th opt [opts.wscale] rest
      (show tcpOptionWindowScale ≠ _ ∧ _ by decide) (by simpa using hb)
    refine ho.trans ?_
    have hle : ¬ tcpMaxWndScale < opts.wscale := BitVec.not_lt.mpr (hw hf)
    simp [tcpOptionParse, tcpOptionLenWindowScale, tcpOptionWindowScale, tcpOptionMss, hs, hle]
  · simp

theorem parseAt_sackPermitted (hs : tcpSyn th = true)
    (hb : (sackPermittedBytes opts).length + len < 256) :
    parseAt th ((sackPermittedBytes opts).length + len) (sackPermittedBytes opts ++ rest) opt =
      parseAt th len rest (setSackPermitted opts opt) := by
  unfold sackPermittedBytes at hb ⊢
  unfold setSackPermitted
  split
  · next hf =>
    simp only [hf, ↓reduceIte, length_cons] at hb
    have ho := parseAt_option th opt [] rest
      (show tcpOptionSackPermitted ≠ _ ∧ _ by decide) (by simpa using hb)
    refine ho.trans ?_
    simp [tcpOptionParse, tcpOptionLenSackPermitted, tcpOptionSackPermitted, tcpOptionMss,
      tcpOptionWindowScale, tcpOptionTimestamp, hs]
  · simp

theorem parseAt_tstamp (hb : (tstampBytes opts).length + len < 256) :
    parseAt th ((tstampBytes opts).length + len) (tstampBytes opts ++ rest) opt =
      parseAt th len rest (setTstamp opts opt) := by
  unfold tstampBytes at hb ⊢
  unfold setTstamp
  split
  · next hf =>
    simp only [hf, ↓reduceIte, length_cons, length_append, length_netBytes] at hb
    have hv : netWord 4 (tcpOptionTimestamp :: 10#8 :: (netBytes 4 opts.tsval.toNat ++
        (netBytes 4 opts.tsecr.toNat ++ rest))) 2 = opts.tsval :=
      (netWord_append [tcpOptionTimestamp, 10#8] _ 0).trans (netWord_netBytes (w := 4) opts.tsval _)
    have he : netWord 4 (tcpOptionTimestamp :: 10#8 :: (netBytes 4 opts.tsval.toNat ++
        (netBytes 4 opts.tsecr.toNat ++ rest))) 6 = opts.tsecr := by
      have ha := netWord_append (w := 4)
        (tcpOptionTimestamp :: 10#8 :: netBytes 4 opts.tsval.toNat)
        (netBytes 4 opts.tsecr.toNat ++ rest) 0
      simp only [length_cons, length_netBytes, List.cons_append] at ha
      exact ha.trans (netWord_netBytes (w := 4) opts.tsecr rest)
    have ho := parseAt_option th opt
      (netBytes 4 opts.tsval.toNat ++ netBytes 4 opts.tsecr.toNat) rest
      (show tcpOptionTimestamp ≠ _ ∧ _ by decide) (by simpa using hb)
    simp only [length_netBytes, length_append, List.append_assoc] at ho
    simp only [length_cons, length_append, length_netBytes, List.cons_append,
      List.append_assoc]
    refine ho.trans ?_
    simp [tcpOptionParse, tcpOptionLenTimestamp, tcpOptionTimestamp, tcpOptionMss,
      tcpOptionWindowScale] at hv he ⊢
    rw [hv, he]
  · simp

end Vpp.Tcp
