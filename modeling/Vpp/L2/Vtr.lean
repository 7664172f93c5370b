import Vpp.L2.VtrConfigure
import Vpp.Lib.Blocks

namespace Vpp.L2
open Vpp.Lib List BitVec

def ethernetTypeVlan9100 : BitVec 16 := 0x9100
def ethernetTypeVlan9200 : BitVec 16 := 0x9200

def ethBufferVlanBits : BitVec 32 := 0x30000000
def log2EthBufferVlan1Deep : Nat := 28

/-- The first buffer of a frame: what the tag rewrite reads and writes. -/
structure VlibBuffer where
  currentData : Int
  currentLength : BitVec 16
  flags : BitVec 32
  l2Len : BitVec 8
  data : Int → BitVec 8

def netU16 (x : BitVec 16) : List (BitVec 8) := [x.extractLsb' 8 8, x.extractLsb' 0 8]

def netU64 (x : BitVec 64) : List (BitVec 8) := (List.range 8).map fun i => x.extractLsb' (8 * (7 - i)) 8

def EthernetVlanHeaderTv.bytes (t : EthernetVlanHeaderTv) :
    List (BitVec 8) := netU16 t.type ++ netU16 t.priorityCfiAndId

def VtrConfig.rawTags (c : VtrConfig) : List (BitVec 8) := c.tag0.bytes ++ c.tag1.bytes

def vlibBufferAdvance (b : VlibBuffer) (l : Int) : VlibBuffer :=
  { b with
    currentData := b.currentData + l
    currentLength := b.currentLength - BitVec.ofInt 16 l }

def ethernetBufferGetVlanCount (b : VlibBuffer) :
    BitVec 32 := (b.flags &&& ethBufferVlanBits) >>> log2EthBufferVlan1Deep

def ethernetBufferSetVlanCount (b : VlibBuffer) (v : BitVec 32) : VlibBuffer :=
  { b with flags := b.flags &&& ~~~ethBufferVlanBits ||| (v <<< log2EthBufferVlan1Deep) &&& ethBufferVlanBits }

def ethernetBufferAdjustVlanCountByBytes (b : VlibBuffer) (v : Int) : VlibBuffer :=
  { b with
    flags := b.flags &&& ~~~ethBufferVlanBits
      ||| ((b.flags &&& ethBufferVlanBits) + BitVec.ofInt 32 (v * 2 ^ (log2EthBufferVlan1Deep - 2))) &&&
          ethBufferVlanBits }

def ethernetFrameIsTagged (type : BitVec 16) : Bool :=
  type = ethernetTypeVlan || type = ethernetTypeDot1ad || type = ethernetTypeVlan9100 || type = ethernetTypeVlan9200

def loadU16 (data : Int → BitVec 8) (p : Int) : BitVec 16 := data p ++ data (p + 1)

def vnetUpdateL2Len (b : VlibBuffer) : VlibBuffer :=
  let eth := b.currentData
  let ethertype := loadU16 b.data (eth + 12)
  if ethernetFrameIsTagged ethertype then
    let ethertype := loadU16 b.data (eth + 14 + 2)
    if ethertype = ethernetTypeVlan then ethernetBufferSetVlanCount { b with l2Len := 14 + 4 + 4 } 2
    else ethernetBufferSetVlanCount { b with l2Len := 14 + 4 } 1
  else ethernetBufferSetVlanCount { b with l2Len := 14 } 0

/-- The rewrite of the tags, or 1 if there are too few of them. -/
def l2VtrProcess (b : VlibBuffer) (config : VtrConfig) : Nat × VlibBuffer :=
  let eth := b.currentData
  let temp8 := loadBlock b.data eth 8
  let temp4 := loadBlock b.data (eth + 8) 4
  let eth := eth + config.popBytes
  if (b.l2Len.toNat : Int) - 12 < config.popBytes then (1, b)
  else
    let data := storeBlock b.data (eth + 12 - 8) config.rawTags
    let eth := eth - config.pushBytes
    let data := storeBlock data eth temp8
    let data := storeBlock data (eth + 8) temp4
    let b :=
      { b with
        data := data
        l2Len := b.l2Len + BitVec.ofInt 8 ((config.pushBytes : Int) - config.popBytes) }
    let b := ethernetBufferAdjustVlanCountByBytes b ((config.pushBytes : Int) - config.popBytes)
    (0, vlibBufferAdvance b ((config.popBytes : Int) - config.pushBytes))

/-- The tags that the input rewrite pushes are those of the frame, priority bits apart; 1 if they are not. -/
def l2EfpFilterProcess (b : VlibBuffer) (inConfig : VtrConfig) : Nat :=
  let eth := b.currentData
  let tagMask := netU64 0xffff0fffffff0fff
  let tagMask := if inConfig.pushBytes = 4 then netU64 0xffff0fff else tagMask
  let tagMask := if inConfig.pushBytes = 0 then netU64 0 else tagMask
  let packetTags := loadBlock b.data (eth + 4 + inConfig.pushBytes) 8
  if List.zipWith (· &&& ·) packetTags tagMask ≠ inConfig.rawTags then 1 else 0

def rewriteOf (pop : Nat) : List EthernetVlanHeaderTv → VtrConfig
  | [] => ⟨noTag, noTag, 0, 4 * pop⟩
  | [t] => ⟨noTag, t, 4, 4 * pop⟩
  | t :: t' :: _ => ⟨t, t', 8, 4 * pop⟩

def pushedTags (r : VtrRequest) : List EthernetVlanHeaderTv :=
  let tag1 := ⟨if r.pushDot1q then ethernetTypeVlan else ethernetTypeDot1ad, r.vtrTag1.setWidth 16⟩
  let tag2 := ⟨ethernetTypeVlan, r.vtrTag2.setWidth 16⟩
  match L2VtrOp.ofCode r.vtrOp with
  | some .push1 | some .translate11 | some .translate21 => [tag1]
  | some .push2 | some .translate12 | some .translate22 => [tag1, tag2]
  | _ => []

def interfaceTags (si : VnetSwInterface) : List EthernetVlanHeaderTv := [outerTag si, innerTag si].take (cfgTags si)

theorem cfgTags_le (si : VnetSwInterface) : cfgTags si ≤ 2 := by
  rw [cfgTags]
  repeat' split
  all_goals decide

theorem length_interfaceTags (si : VnetSwInterface) : (interfaceTags si).length = cfgTags si := by
  rw [interfaceTags, length_take]
  exact Nat.min_eq_left (cfgTags_le si)

theorem l2vtrConfigure_accepted {m : L2Main} {r : VtrRequest} {si : VnetSwInterface} {op : L2VtrOp}
    (hsi : r.si = some si)
    (hop : r.vtrOp = op.code) (hok : (l2vtrConfigure m r).1 = none) :
    neededTags (some op) ≤ cfgTags si
      ∧ ((l2vtrConfigure m r).2.configs r.swIfIndex).inputVtr = rewriteOf (neededTags (some op)) (pushedTags r)
      ∧ ((l2vtrConfigure m r).2.configs r.swIfIndex).outputVtr
        = rewriteOf (pushedTags r).length ((interfaceTags si).take (neededTags (some op))) := by
  have hcode : L2VtrOp.ofCode r.vtrOp = some op := hop ▸ L2VtrOp.ofCode_code op
  have hneeded : neededTags (some op) ≤ cfgTags si := by
    apply Nat.le_of_not_lt
    intro hfew
    have herr := (l2vtrConfigure_tooFew (m := m) ⟨si, hsi, hcode ▸ hfew⟩).1
    rw [herr] at hok
    cases hok
  refine ⟨hneeded, ?_⟩
  rw [l2vtrConfigure, hsi, interfaceTags, take_take, Nat.min_eq_left hneeded]
  cases op <;>
    simp only [neededTags] at hneeded <;>
    simp [hcode, inputVtrOf, pushedTags, rewriteOf, neededTags, outputVtrOf, VtrConfig.clearRawTags,
        Nat.not_lt.2 hneeded]

theorem rewriteOf_rawTags (pop : Nat) {tags : List EthernetVlanHeaderTv} (h : tags.length ≤ 2) :
    (rewriteOf pop tags).rawTags = List.replicate (8 - 4 * tags.length) 0 ++
        tags.flatMap EthernetVlanHeaderTv.bytes := by
  have hno : noTag.bytes = List.replicate 4 0 := by decide
  match tags with
  | [] =>
    rw [rewriteOf, VtrConfig.rawTags, hno]
    rfl
  | [t] =>
    rw [rewriteOf, VtrConfig.rawTags, hno]
    rfl
  | [t, t'] => rfl
  | _ :: _ :: _ :: tags => exact absurd h (by simp)

theorem rewriteOf_pushBytes (pop : Nat) {tags : List EthernetVlanHeaderTv} (h : tags.length ≤ 2) :
    (rewriteOf pop tags).pushBytes = 4 * tags.length := by
  match tags with
  | [] => rfl
  | [t] => rfl
  | [t, t'] => rfl
  | _ :: _ :: _ :: tags => exact absurd h (by simp)

theorem rewriteOf_popBytes (pop : Nat) (tags : List EthernetVlanHeaderTv) :
    (rewriteOf pop tags).popBytes = 4 * pop := by
  match tags with
  | [] => rfl
  | [t] => rfl
  | _ :: _ :: _ => rfl

theorem length_bytes (t : EthernetVlanHeaderTv) : t.bytes.length = 4 := rfl

theorem length_flatMap_bytes (tags : List EthernetVlanHeaderTv) :
    (tags.flatMap EthernetVlanHeaderTv.bytes).length = 4 * tags.length := by
  induction tags with
  | nil => rfl
  | cons t tags ih =>
    rw [flatMap_cons, length_append, ih, length_bytes, length_cons]
    omega

theorem length_rawTags (c : VtrConfig) : c.rawTags.length = 8 := rfl

def rewrittenData (b : VlibBuffer) (config : VtrConfig) : Int → BitVec 8 :=
  let eth := b.currentData + config.popBytes
  let data := storeBlock b.data (eth + 12 - 8) config.rawTags
  let data := storeBlock data (eth - config.pushBytes) (loadBlock b.data b.currentData 8)
  storeBlock data (eth - config.pushBytes + 8) (loadBlock b.data (b.currentData + 8) 4)

def rewritten (b : VlibBuffer) (config : VtrConfig) : VlibBuffer :=
  vlibBufferAdvance
    (ethernetBufferAdjustVlanCountByBytes
      { b with
        data := rewrittenData b config
        l2Len := b.l2Len + BitVec.ofInt 8 ((config.pushBytes : Int) - config.popBytes) }
      ((config.pushBytes : Int) - config.popBytes))
    ((config.popBytes : Int) - config.pushBytes)

variable {b : VlibBuffer}

theorem l2VtrProcess_eq {c : VtrConfig} (h : 12 + c.popBytes ≤ b.l2Len.toNat) :
    l2VtrProcess b c = (0, rewritten b c) := by
  have hnot : ¬ (b.l2Len.toNat : Int) - 12 < c.popBytes := by omega
  rw [l2VtrProcess]
  exact if_neg hnot

section
variable (b : VlibBuffer) (c : VtrConfig)

@[simp] theorem rewritten_currentData :
    (rewritten b c).currentData = b.currentData + ((c.popBytes : Int) - c.pushBytes) := rfl

@[simp] theorem rewritten_data : (rewritten b c).data = rewrittenData b c := rfl

theorem rewrittenData_eq :
    rewrittenData b c = storeBlock (storeBlock b.data (b.currentData + c.popBytes + 4) c.rawTags)
      (rewritten b c).currentData (loadBlock b.data b.currentData 12) := by
  have hstart : b.currentData + c.popBytes - c.pushBytes = (rewritten b c).currentData := by
    rw [rewritten_currentData]
    omega
  have hraw : b.currentData + c.popBytes + 12 - 8 = b.currentData + c.popBytes + 4 := by omega
  have happend := storeBlock_append (storeBlock b.data (b.currentData + c.popBytes + 4) c.rawTags)
    (rewritten b c).currentData (loadBlock b.data b.currentData 8) (loadBlock b.data (b.currentData + 8) 4)
  rw [length_loadBlock] at happend
  rw [rewrittenData, hstart, hraw, loadBlock_add b.data b.currentData 8 4]
  exact happend

theorem rewritten_addresses {k : Nat} (hk : k < 12) :
    (rewritten b c).data ((rewritten b c).currentData + k) = b.data (b.currentData + k) := by
  have hlen : k < (loadBlock b.data b.currentData 12).length := by rwa [length_loadBlock]
  rw [rewritten_data, rewrittenData_eq, storeBlock_inside _ _ hlen]
  exact (loadBlock_eq_iff b.data b.currentData (length_loadBlock _ _ 12)).1 rfl k hlen |>.symm

theorem rewritten_behind {k : Nat} (hk : 12 ≤ k) :
    (rewritten b c).data ((rewritten b c).currentData + k)
      = storeBlock b.data (b.currentData + c.popBytes + 4) c.rawTags ((rewritten b c).currentData + k) := by
  rw [rewritten_data, rewrittenData_eq]
  apply storeBlock_outside
  rw [length_loadBlock]
  omega

theorem rewritten_tags {k : Nat} (hpush : c.pushBytes ≤ 8) (hk : k < c.pushBytes) :
    (rewritten b c).data ((rewritten b c).currentData + (12 + k : Nat)) = c.rawTags.getD (8 - c.pushBytes + k) 0 := by
  have hlen : 8 - c.pushBytes + k < c.rawTags.length := by
    rw [length_rawTags]
    omega
  have haddr : (rewritten b c).currentData + (12 + k : Nat)
      = b.currentData + c.popBytes + 4 + (8 - c.pushBytes + k : Nat) := by
    rw [rewritten_currentData]
    omega
  rw [rewritten_behind b c (by omega), haddr, storeBlock_inside _ _ hlen, getD_eq_getElem _ _ hlen]

theorem rewritten_rest (k : Nat) :
    (rewritten b c).data ((rewritten b c).currentData + (12 + c.pushBytes + k : Nat))
      = b.data (b.currentData + (12 + c.popBytes + k : Nat)) := by
  have haddr : (rewritten b c).currentData + (12 + c.pushBytes + k : Nat)
      = b.currentData + (12 + c.popBytes + k : Nat) := by
    rw [rewritten_currentData]
    omega
  rw [rewritten_behind b c (by omega), haddr]
  apply storeBlock_outside
  rw [length_rawTags]
  omega

end

theorem toNat_vlanBits (x : BitVec 32) : (x &&& ethBufferVlanBits).toNat = 2 ^ 28 * (x.toNat / 2 ^ 28 % 2 ^ 2) := by
  have hbits : ethBufferVlanBits.toNat = 2 ^ 28 * (2 ^ 2 - 1) := by decide
  rw [toNat_and, hbits]
  apply Nat.eq_of_testBit_eq
  intro i
  rw [Nat.testBit_and, Nat.testBit_two_pow_mul, Nat.testBit_two_pow_mul, Nat.testBit_two_pow_sub_one,
      Nat.testBit_mod_two_pow,
    Nat.testBit_div_two_pow]
  by_cases hi : i ≥ 28
  · rw [decide_eq_true hi, Bool.true_and, Bool.true_and, Nat.sub_add_cancel hi, Bool.and_comm]
  · rw [decide_eq_false hi, Bool.false_and, Bool.false_and, Bool.and_false]

theorem vlanBits_replaced (f y : BitVec 32) :
    (f &&& ~~~ethBufferVlanBits ||| y &&& ethBufferVlanBits) &&& ethBufferVlanBits = y &&& ethBufferVlanBits := by
  apply eq_of_getLsbD_eq
  intro i hi
  simp only [getLsbD_and, getLsbD_or, getLsbD_not, hi, decide_true, Bool.true_and]
  cases ethBufferVlanBits.getLsbD i <;> simp

theorem vlanBits_undone {x d d' : BitVec 32} {j : Int} (hd : d = BitVec.ofInt 32 (4 * j * 2 ^ 26))
    (hd' : d' = BitVec.ofInt 32 (4 * -j * 2 ^ 26)) :
    ((((x &&& ethBufferVlanBits) + d) &&& ethBufferVlanBits) + d') &&& ethBufferVlanBits = x &&& ethBufferVlanBits := by
  have hx := toNat_vlanBits x
  have hnat (v : BitVec 32) (k : Int) (hv : v = BitVec.ofInt 32 (4 * k * 2 ^ 26)) : (v.toNat : Int) = 2 ^ 28 *
      (k % 16) := by
    rw [hv, toNat_ofInt]
    omega
  have hdn := hnat d j hd
  have hdn' := hnat d' (-j) hd'
  apply eq_of_toNat_eq
  rw [toNat_vlanBits, toNat_add, toNat_vlanBits, toNat_add, hx]
  omega

section
variable {b : VlibBuffer} {c c' : VtrConfig}

theorem rewritten_vlanBits (b : VlibBuffer) (c : VtrConfig) : (rewritten b c).flags &&& ethBufferVlanBits
    = ((b.flags &&& ethBufferVlanBits) + BitVec.ofInt 32 (((c.pushBytes : Int) - c.popBytes) * 2 ^ 26)) &&&
        ethBufferVlanBits :=
  vlanBits_replaced _ _

theorem vlanCount_undone (hpush : c'.pushBytes = c.popBytes) (hpop : c'.popBytes = c.pushBytes)
    (h4push : 4 ∣ c.pushBytes)
    (h4pop : 4 ∣ c.popBytes) :
    ethernetBufferGetVlanCount (rewritten (rewritten b c) c') = ethernetBufferGetVlanCount b := by
  obtain ⟨p, hp⟩ := h4push
  obtain ⟨q, hq⟩ := h4pop
  have hd : ((c.pushBytes : Int) - c.popBytes) = 4 * ((p : Int) - q) := by omega
  have hd' : ((c'.pushBytes : Int) - c'.popBytes) = 4 * -((p : Int) - q) := by omega
  rw [ethernetBufferGetVlanCount, ethernetBufferGetVlanCount, rewritten_vlanBits, rewritten_vlanBits, hd, hd',
    vlanBits_undone rfl rfl]

theorem sub_sub_of_add_eq_zero {w : Nat} {x d d' : BitVec w} (h : d + d' = 0) : x - d - d' = x := by
  have hd : d' = -d := by
    rw [← BitVec.zero_add (-d)]
    exact (BitVec.eq_sub_iff_add_eq.2 ((BitVec.add_comm d' d).trans h)).trans (BitVec.sub_eq_add_neg 0 d)
  rw [hd, BitVec.sub_neg, BitVec.sub_add_cancel]

theorem currentLength_undone (hpush : c'.pushBytes = c.popBytes) (hpop : c'.popBytes = c.pushBytes) :
    (rewritten (rewritten b c) c').currentLength = b.currentLength := by
  have hzero : BitVec.ofInt 16 ((c.popBytes : Int) - c.pushBytes) +
      BitVec.ofInt 16 ((c'.popBytes : Int) - c'.pushBytes) = 0 := by
    rw [← ofInt_add, hpush, hpop]
    simp
  exact sub_sub_of_add_eq_zero hzero

theorem l2Len_undone (hpush : c'.pushBytes = c.popBytes) (hpop : c'.popBytes = c.pushBytes) :
    (rewritten (rewritten b c) c').l2Len = b.l2Len := by
  have hzero : BitVec.ofInt 8 ((c.pushBytes : Int) - c.popBytes) +
      BitVec.ofInt 8 ((c'.pushBytes : Int) - c'.popBytes) = 0 := by
    rw [← ofInt_add, hpush, hpop]
    simp
  have hadd : b.l2Len + BitVec.ofInt 8 ((c.pushBytes : Int) - c.popBytes)
      + BitVec.ofInt 8 ((c'.pushBytes : Int) - c'.popBytes) = b.l2Len := by
    rw [BitVec.add_assoc, hzero]
    exact BitVec.add_zero _
  exact hadd

theorem currentData_undone (hpush : c'.pushBytes = c.popBytes) (hpop : c'.popBytes = c.pushBytes) :
    (rewritten (rewritten b c) c').currentData = b.currentData := by
  rw [rewritten_currentData, rewritten_currentData, hpush, hpop]
  omega

theorem data_undone (hpush : c'.pushBytes = c.popBytes) (hpop : c'.popBytes = c.pushBytes) (hle : c.popBytes ≤ 8)
    (htags : ∀ k < c.popBytes, c'.rawTags.getD (8 - c.popBytes + k) 0 = b.data (b.currentData + (12 + k : Nat)))
    (k : Nat) :
    (rewritten (rewritten b c) c').data (b.currentData + k) = b.data (b.currentData + k) := by
  rw [← currentData_undone hpush hpop]
  by_cases haddr : k < 12
  · rw [rewritten_addresses _ _ haddr, rewritten_addresses _ _ haddr, currentData_undone hpush hpop]
  · by_cases htag : k < 12 + c.popBytes
    · obtain ⟨i, rfl⟩ := Nat.exists_eq_add_of_le (Nat.le_of_not_lt haddr)
      have hi : i < c.popBytes := by omega
      rw [rewritten_tags _ _ (hpush ▸ hle) (hpush ▸ hi), hpush, htags i hi, currentData_undone hpush hpop]
    · obtain ⟨i, rfl⟩ := Nat.exists_eq_add_of_le (Nat.le_of_not_lt htag)
      have hsecond := rewritten_rest (rewritten b c) c' i
      rw [hpush, hpop, rewritten_rest] at hsecond
      rw [hsecond, currentData_undone hpush hpop]

end

def tagMaskBytes : List (BitVec 8) := [0xff, 0xff, 0x0f, 0xff]

theorem and_ff (x : BitVec 8) : x &&& 0xff = x := and_allOnes

theorem and_0f_iff {x : BitVec 8} : x &&& 0x0f = x ↔ x.toNat < 16 := by
  rw [← toNat_inj, toNat_and]
  have hmod : x.toNat &&& (0x0f : BitVec 8).toNat = x.toNat % 16 := Nat.and_two_pow_sub_one_eq_mod x.toNat 4
  rw [hmod]
  omega

theorem masked_iff {t : EthernetVlanHeaderTv} :
    List.zipWith (· &&& ·) t.bytes tagMaskBytes = t.bytes ↔ t.priorityCfiAndId.toNat < 2 ^ 12 := by
  have hhigh : (t.priorityCfiAndId.extractLsb' 8 8).toNat = t.priorityCfiAndId.toNat / 256 := by
    have hlt := t.priorityCfiAndId.isLt
    rw [extractLsb'_toNat, Nat.shiftRight_eq_div_pow]
    omega
  have hlt : (t.priorityCfiAndId.extractLsb' 8 8).toNat < 16 ↔ t.priorityCfiAndId.toNat < 2 ^ 12 := by
    rw [hhigh]
    omega
  rw [← hlt, ← and_0f_iff]
  simp only [EthernetVlanHeaderTv.bytes, netU16, tagMaskBytes, List.cons_append, nil_append, zipWith_cons_cons,
    zipWith_nil_left, and_ff, List.cons.injEq, true_and, and_true]

theorem zipWith_and_zero (l : List (BitVec 8)) :
    List.zipWith (· &&& ·) l (List.replicate l.length 0) = List.replicate l.length 0 := by
  induction l with
  | nil => rfl
  | cons x l ih =>
    rw [length_cons, List.replicate_succ, zipWith_cons_cons, ih]
    exact congrArg (· :: List.replicate l.length 0) BitVec.and_zero

theorem rewritten_pushed {n : Nat} {tags : List EthernetVlanHeaderTv} (h : tags.length ≤ 2) :
    loadBlock (rewritten b (rewriteOf n tags)).data ((rewritten b (rewriteOf n tags)).currentData + 12)
        (4 * tags.length)
      = tags.flatMap EthernetVlanHeaderTv.bytes := by
  have hpush := rewriteOf_pushBytes n h
  apply (loadBlock_eq_iff _ _ (length_flatMap_bytes tags)).2
  intro k hk
  have hk' : k < 4 * tags.length := length_flatMap_bytes tags ▸ hk
  have htag := rewritten_tags b (rewriteOf n tags) (k := k) (by omega) (by omega)
  have haddr : (rewritten b (rewriteOf n tags)).currentData + 12 + (k : Int)
      = (rewritten b (rewriteOf n tags)).currentData + (12 + k : Nat) := by omega
  rw [haddr, htag, hpush, rewriteOf_rawTags n h, getD_append_right _ _ _ _ (by rw [length_replicate]; omega),
    length_replicate, Nat.add_sub_cancel_left, getD_eq_getElem _ _ hk]

/-- The filter passes a frame that the input rewrite has tagged, unless a tag has priority bits. -/
theorem efp_rewritten_iff {n : Nat} {tags : List EthernetVlanHeaderTv} (h : tags.length ≤ 2) :
    l2EfpFilterProcess (rewritten b (rewriteOf n tags)) (rewriteOf n tags) = 0
      ↔ ∀ t ∈ tags, t.priorityCfiAndId.toNat < 2 ^ 12 := by
  have hpushed := rewritten_pushed (b := b) (n := n) h
  have hraw := rewriteOf_rawTags n h
  have hpass (x y : List (BitVec 8)) : (if x ≠ y then 1 else 0) = 0 ↔ x = y := by
    by_cases hxy : x = y <;> simp [hxy]
  have hone : netU64 0xffff0fff = List.replicate 4 0 ++ tagMaskBytes := by decide
  have htwo : netU64 0xffff0fffffff0fff = tagMaskBytes ++ tagMaskBytes := by decide
  have hzero : netU64 0 = List.replicate 8 0 := by decide
  rw [l2EfpFilterProcess, hpass, hraw, rewriteOf_pushBytes n h]
  generalize (rewritten b (rewriteOf n tags)).currentData = eth at hpushed ⊢
  generalize (rewritten b (rewriteOf n tags)).data = data at hpushed ⊢
  match tags with
  | [] =>
    have hand := zipWith_and_zero (loadBlock data (eth + 4 + (0 : Nat)) 8)
    rw [length_loadBlock, ← hzero] at hand
    exact iff_of_true (hand.trans (hzero.trans (append_nil _).symm)) (by simp)
  | [t] =>
    have htags : loadBlock data (eth + 12) 4 = t.bytes := hpushed.trans (append_nil _)
    have hand := zipWith_and_zero (loadBlock data (eth + 8) 4)
    have hsum : eth + 8 + (4 : Nat) = eth + 12 := by omega
    have hsplit := loadBlock_add data (eth + 8) 4 4
    rw [hsum, htags] at hsplit
    have hstart : eth + 4 + (4 * [t].length : Nat) = eth + 8 := by
      rw [length_singleton]
      omega
    rw [length_loadBlock] at hand
    rw [hstart, hsplit]
    have hmask : (if 4 * [t].length = 0 then netU64 0 else if 4 * [t].length = 4 then netU64 0xffff0fff
        else netU64 0xffff0fffffff0fff) = List.replicate 4 0 ++ tagMaskBytes := hone
    rw [hmask, zipWith_append (by rw [length_loadBlock, length_replicate]), hand]
    have hcancel : List.replicate 4 0 ++ List.zipWith (· &&& ·) t.bytes tagMaskBytes
        = List.replicate (8 - 4 * [t].length) 0 ++ [t].flatMap EthernetVlanHeaderTv.bytes
        ↔ List.zipWith (· &&& ·) t.bytes tagMaskBytes = t.bytes := by
      have hright : List.replicate (8 - 4 * [t].length) 0 ++ [t].flatMap EthernetVlanHeaderTv.bytes
          = List.replicate 4 0 ++ t.bytes := congrArg (List.replicate 4 0 ++ ·) (append_nil t.bytes)
      rw [hright, append_cancel_left_eq]
    rw [hcancel, masked_iff, forall_mem_singleton]
  | [t, t'] =>
    have htags : loadBlock data (eth + 12) 8 = t.bytes ++ t'.bytes :=
      hpushed.trans (congrArg (t.bytes ++ ·) (append_nil _))
    have hstart : eth + 4 + (4 * [t, t'].length : Nat) = eth + 12 := by
      simp only [length_cons, length_nil]
      omega
    have hmask : (if 4 * [t, t'].length = 0 then netU64 0 else if 4 * [t, t'].length = 4 then netU64 0xffff0fff
        else netU64 0xffff0fffffff0fff) = tagMaskBytes ++ tagMaskBytes := htwo
    have hright : List.replicate (8 - 4 * [t, t'].length) 0 ++ [t, t'].flatMap EthernetVlanHeaderTv.bytes
        = t.bytes ++ t'.bytes := congrArg (t.bytes ++ ·) (append_nil t'.bytes)
    have hlen : t.bytes.length = tagMaskBytes.length := rfl
    rw [hstart, htags, hmask, hright, zipWith_append hlen, forall_mem_cons, forall_mem_singleton,
      ← masked_iff, ← masked_iff]
    exact ⟨fun heq => append_inj heq rfl, fun heq => by rw [heq.1, heq.2]⟩
  | _ :: _ :: _ :: tags => exact absurd h (by simp)

def CarriesTags (b : VlibBuffer) (si : VnetSwInterface) : Prop :=
  loadBlock b.data (b.currentData + 12) (4 * cfgTags si) = (interfaceTags si).flatMap EthernetVlanHeaderTv.bytes

section
variable {b : VlibBuffer} {si : VnetSwInterface}

theorem CarriesTags.byte (h : CarriesTags b si) {k : Nat} (hk : k < 4 * cfgTags si) :
    ((interfaceTags si).flatMap EthernetVlanHeaderTv.bytes)[k]? = some (b.data (b.currentData + (12 + k : Nat))) := by
  have haddr : b.currentData + (12 + k : Nat) = b.currentData + 12 + k := by omega
  rw [← h, getElem?_loadBlock _ _ hk, haddr]

theorem CarriesTags.popped (h : CarriesTags b si) {m n k : Nat} (hn : n ≤ cfgTags si) (hk : k < 4 * n) :
    (rewriteOf m ((interfaceTags si).take n)).rawTags.getD (8 - 4 * n + k) 0 =
        b.data (b.currentData + (12 + k : Nat)) := by
  have hcfg := cfgTags_le si
  have htake : ((interfaceTags si).take n).length = n := by
    rw [length_take, length_interfaceTags]
    exact Nat.min_eq_left hn
  have hlen : k < (((interfaceTags si).take n).flatMap EthernetVlanHeaderTv.bytes).length := by
    rw [length_flatMap_bytes, htake]
    exact hk
  have hbyte := h.byte (Nat.lt_of_lt_of_le hk (Nat.mul_le_mul_left 4 hn))
  rw [← take_append_drop n (interfaceTags si), flatMap_append, getElem?_append_left hlen] at hbyte
  rw [rewriteOf_rawTags m (by omega), htake, getD_append_right _ _ _ _ (by rw [length_replicate]; omega),
    length_replicate, Nat.add_sub_cancel_left, getD_eq_getElem?_getD, hbyte, Option.getD_some]

theorem append_netU16 (x : BitVec 16) : (x.extractLsb' 8 8 ++ x.extractLsb' 0 8 : BitVec 16) = x := by
  apply eq_of_getLsbD_eq
  intro i hi
  rw [getLsbD_append, getLsbD_extractLsb', getLsbD_extractLsb']
  by_cases hlow : i < 8
  · simp [hlow]
  · have hsum : 8 + (i - 8) = i := by omega
    have hlt : i - 8 < 8 := by omega
    simp [hlow, hsum, hlt]

theorem loadU16_eq {data : Int → BitVec 8} {p : Int} {x : BitVec 16} (hhigh : data p = x.extractLsb' 8 8)
    (hlow : data (p + 1) = x.extractLsb' 0 8) : loadU16 data p = x := by
  rw [loadU16, hhigh, hlow]
  exact append_netU16 x

theorem CarriesTags.outerType (h : CarriesTags b si) (hone : 1 ≤ cfgTags si) :
    loadU16 b.data (b.currentData + 12) = (outerTag si).type := by
  have htags : interfaceTags si = outerTag si :: [innerTag si].take (cfgTags si - 1) := by
    rw [interfaceTags, ← Nat.sub_add_cancel hone, take_succ_cons]
    rfl
  have hhigh := h.byte (k := 0) (by omega)
  have hlow := h.byte (k := 1) (by omega)
  rw [htags] at hhigh hlow
  have haddr : b.currentData + (12 + 0 : Nat) + 1 = b.currentData + (12 + 1 : Nat) := by omega
  apply loadU16_eq (Option.some.inj hhigh).symm
  rw [haddr]
  exact (Option.some.inj hlow).symm

theorem CarriesTags.innerType (h : CarriesTags b si) (htwo : 2 ≤ cfgTags si) :
    loadU16 b.data (b.currentData + 14 + 2) = ethernetTypeVlan := by
  have hcfg : cfgTags si = 2 := Nat.le_antisymm (cfgTags_le si) htwo
  have htags : interfaceTags si = [outerTag si, innerTag si] := by
    rw [interfaceTags, hcfg]
    rfl
  have hhigh := h.byte (k := 4) (by omega)
  have hlow := h.byte (k := 5) (by omega)
  rw [htags] at hhigh hlow
  have haddr : b.currentData + 14 + 2 = b.currentData + (12 + 4 : Nat) := by omega
  have haddr' : b.currentData + (12 + 4 : Nat) + 1 = b.currentData + (12 + 5 : Nat) := by omega
  rw [haddr]
  apply loadU16_eq (Option.some.inj hhigh).symm
  rw [haddr']
  exact (Option.some.inj hlow).symm

theorem tagged_outerType (si : VnetSwInterface) : ethernetFrameIsTagged (outerTag si).type = true := by
  rw [outerTag]
  cases si.dot1ad <;> rfl

theorem CarriesTags.l2Len (h : CarriesTags b si) (hlen : b.l2Len = (vnetUpdateL2Len b).l2Len) :
    14 + 4 * cfgTags si ≤ b.l2Len.toNat ∧ b.l2Len.toNat ≤ 22 := by
  have hcfg := cfgTags_le si
  rw [hlen, vnetUpdateL2Len]
  by_cases htagged : ethernetFrameIsTagged (loadU16 b.data (b.currentData + 12)) = true
  · rw [if_pos htagged]
    by_cases hvlan : loadU16 b.data (b.currentData + 14 + 2) = ethernetTypeVlan
    · rw [if_pos hvlan]
      exact ⟨(by omega : 14 + 4 * cfgTags si ≤ 22), Nat.le_refl 22⟩
    · have hone : cfgTags si ≤ 1 := Nat.le_of_not_lt fun htwo => hvlan (h.innerType htwo)
      rw [if_neg hvlan]
      exact ⟨(by omega : 14 + 4 * cfgTags si ≤ 18), (by decide : 18 ≤ 22)⟩
  · have hzero : cfgTags si = 0 := by
      apply Nat.eq_zero_of_not_pos
      intro hone
      rw [h.outerType hone] at htagged
      exact htagged (tagged_outerType si)
    rw [if_neg htagged, hzero]
    exact ⟨Nat.le_refl 14, (by decide : 14 ≤ 22)⟩

end

def VlibBuffer.frame (b : VlibBuffer) : List (BitVec 8) := loadBlock b.data b.currentData b.currentLength.toNat

structure SameFrame (b b' : VlibBuffer) : Prop where
  frame_eq : b'.frame = b.frame
  currentLength_eq : b'.currentLength = b.currentLength
  l2Len_eq : b'.l2Len = b.l2Len
  vlanCount_eq : ethernetBufferGetVlanCount b' = ethernetBufferGetVlanCount b

/-- The input rewrite passes, its result passes the filter, and the output rewrite gives the frame back. -/
def Undone (b : VlibBuffer) (c : L2OutputConfig) : Prop :=
  ∃ b1 b2, l2VtrProcess b c.inputVtr = (0, b1) ∧ l2EfpFilterProcess b1 c.inputVtr = 0
    ∧ l2VtrProcess b1 c.outputVtr = (0, b2) ∧ SameFrame b b2

theorem length_pushedTags (r : VtrRequest) : (pushedTags r).length ≤ 2 := by
  rw [pushedTags]
  rcases L2VtrOp.ofCode r.vtrOp with _ | op
  · exact Nat.zero_le 2
  · cases op <;> simp

theorem undone_iff {si : VnetSwInterface} {c : L2OutputConfig} {n : Nat} {tags : List EthernetVlanHeaderTv}
    (hb : CarriesTags b si) (hlen : b.l2Len = (vnetUpdateL2Len b).l2Len) (hn : n ≤ cfgTags si) (htags : tags.length ≤ 2)
    (hin : c.inputVtr = rewriteOf n tags) (hout : c.outputVtr = rewriteOf tags.length ((interfaceTags si).take n)) :
    Undone b c ↔ ∀ t ∈ tags, t.priorityCfiAndId.toNat < 2 ^ 12 := by
  have hcfg := cfgTags_le si
  have htake : ((interfaceTags si).take n).length = n := by
    rw [length_take, length_interfaceTags]
    exact Nat.min_eq_left hn
  obtain ⟨hlow, hhigh⟩ := hb.l2Len hlen
  have hinPush : c.inputVtr.pushBytes = 4 * tags.length := hin ▸ rewriteOf_pushBytes n htags
  have hinPop : c.inputVtr.popBytes = 4 * n := hin ▸ rewriteOf_popBytes n tags
  have houtPop : c.outputVtr.popBytes = 4 * tags.length := hout ▸ rewriteOf_popBytes _ _
  have houtPush : c.outputVtr.pushBytes = 4 * n := by
    rw [hout, rewriteOf_pushBytes _ (by omega), htake]
  have hpush : c.outputVtr.pushBytes = c.inputVtr.popBytes := houtPush.trans hinPop.symm
  have hpop : c.outputVtr.popBytes = c.inputVtr.pushBytes := houtPop.trans hinPush.symm
  have hfirst := l2VtrProcess_eq (b := b) (c := c.inputVtr) (by omega)
  have hl2Len : (rewritten b c.inputVtr).l2Len.toNat = b.l2Len.toNat + 4 * tags.length - 4 * n := by
    have hdef : (rewritten b c.inputVtr).l2Len
        = b.l2Len + BitVec.ofInt 8 ((c.inputVtr.pushBytes : Int) - c.inputVtr.popBytes) := rfl
    rw [hdef, toNat_add, toNat_ofInt, hinPush, hinPop]
    omega
  have hsecond := l2VtrProcess_eq (b := rewritten b c.inputVtr) (c := c.outputVtr) (by omega)
  have hefp : l2EfpFilterProcess (rewritten b c.inputVtr) c.inputVtr = 0 ↔
      ∀ t ∈ tags, t.priorityCfiAndId.toNat < 2 ^ 12 := by
    rw [hin]
    exact efp_rewritten_iff htags
  have hdata := data_undone (b := b) hpush hpop (by omega) fun k hk => by
    rw [hinPop] at hk ⊢
    rw [hout]
    exact hb.popped hn hk
  have hsame : SameFrame b (rewritten (rewritten b c.inputVtr) c.outputVtr) :=
    { frame_eq := by
        rw [VlibBuffer.frame, VlibBuffer.frame, currentLength_undone hpush hpop, currentData_undone hpush hpop]
        exact loadBlock_congr _ _ fun k _ => hdata k
      currentLength_eq := currentLength_undone hpush hpop
      l2Len_eq := l2Len_undone hpush hpop
      vlanCount_eq := vlanCount_undone hpush hpop ⟨_, hinPush⟩ ⟨_, hinPop⟩ }
  rw [← hefp]
  constructor
  · rintro ⟨b1, b2, h1, h2, -, -⟩
    rw [hfirst] at h1
    cases h1
    exact h2
  · intro h
    exact ⟨_, _, hfirst, h, hsecond, hsame⟩

/-- **Rewrites are undone**: for every operation that the interface accepts and every frame with its tags, exactly when
the pushed tags have no priority bits. -/
theorem vtr_undone_iff {m : L2Main} {r : VtrRequest} {si : VnetSwInterface} {op : L2VtrOp} {b : VlibBuffer}
    (hsi : r.si = some si) (hop : r.vtrOp = op.code) (hok : (l2vtrConfigure m r).1 = none) (hb : CarriesTags b si)
    (hlen : b.l2Len = (vnetUpdateL2Len b).l2Len) :
    Undone b ((l2vtrConfigure m r).2.configs r.swIfIndex)
      ↔ ∀ t ∈ pushedTags r, t.priorityCfiAndId.toNat < 2 ^ 12 := by
  obtain ⟨hn, hin, hout⟩ := l2vtrConfigure_accepted hsi hop hok
  exact undone_iff hb hlen hn (length_pushedTags r) hin hout

def subInterface : VnetSwInterface := { port with isHardware := false, oneTag := true, outerVlanId := 10 }

def subFrame : VlibBuffer :=
  { currentData := 0
    currentLength := 64
    flags := 0x10000000
    l2Len := 18
    data := fun a => if a = 12 then 0x81 else if a = 15 then 10 else 0 }

def translateRequest (tag : BitVec 32) : VtrRequest :=
  { si := some subInterface
    swIfIndex := 1
    vtrOp := L2VtrOp.translate11.code
    pushDot1q := true
    vtrTag1 := tag
    vtrTag2 := 0 }

theorem subFrame_carries : CarriesTags subFrame subInterface := by
  rw [CarriesTags]
  decide

theorem vtr_undone_iff_translate :
    Undone subFrame ((l2vtrConfigure portMain (translateRequest 100)).2.configs 1)
      ↔ ∀ t ∈ pushedTags (translateRequest 100), t.priorityCfiAndId.toNat < 2 ^ 12 :=
  @vtr_undone_iff portMain (translateRequest 100) subInterface .translate11 subFrame rfl rfl
      (by decide) subFrame_carries (by decide)

/-- With a priority in the new tag, the filter drops the frames that the rewrite has tagged. -/
theorem vtr_not_undone : ¬ ∀ (m : L2Main) (r : VtrRequest) (si : VnetSwInterface) (op : L2VtrOp) (b : VlibBuffer),
    r.si = some si → r.vtrOp = op.code → (l2vtrConfigure m r).1 = none → CarriesTags b si →
      b.l2Len = (vnetUpdateL2Len b).l2Len → Undone b ((l2vtrConfigure m r).2.configs r.swIfIndex) := by
  intro h
  obtain ⟨b1, b2, hfirst, hpass, -, -⟩ :=
    h portMain (translateRequest 0x2064) subInterface .translate11 subFrame rfl rfl
    (by decide) subFrame_carries (by decide)
  have hdrop : l2EfpFilterProcess
      (l2VtrProcess subFrame ((l2vtrConfigure portMain (translateRequest 0x2064)).2.configs 1).inputVtr).2
      ((l2vtrConfigure portMain (translateRequest 0x2064)).2.configs 1).inputVtr = 1 := by
    decide
  have hsame : (l2VtrProcess subFrame ((l2vtrConfigure portMain (translateRequest 0x2064)).2.configs
      1).inputVtr).2 = b1 :=
    congrArg Prod.snd hfirst
  rw [hsame] at hdrop
  exact absurd (hdrop.symm.trans hpass) Nat.one_ne_zero

end Vpp.L2
