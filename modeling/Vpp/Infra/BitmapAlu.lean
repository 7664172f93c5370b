import Vpp.Infra.Bitmap
import Mathlib.Order.ConditionallyCompleteLattice.Basic

namespace Vpp.Infra
open Vpp.Lib List

inductive BitmapPtr where
  | null
  | vec (words : Bitmap)
  deriving DecidableEq, Repr

def BitmapPtr.words : BitmapPtr → Bitmap
  | .null => []
  | .vec words => words

def clibBitmapIsEqual (a b : BitmapPtr) : Bool :=
  a.words.length == b.words.length && (List.range a.words.length).all fun i => a.words.getD i 0 == b.words.getD i 0

def clibBitmapSet (ai : BitmapPtr) (i : Nat) (value : Word) : BitmapPtr :=
  let i0 := i / 64
  let i1 := i % 64
  -- the zeros past the end are implied
  if value == 0 && i0 ≥ ai.words.length then ai
  else
    let words := vecValidate ai.words i0
    let a := words.getD i0 0
    let a := a &&& ~~~(1#64 <<< i1)
    let a := a ||| ((if value != 0 then 1#64 else 0#64) <<< i1)
    let words := words.set i0 a
    .vec (if a == 0 then clibBitmapRemoveTrailingZeros words else words)

def clibBitmapXori : Bitmap → Nat → Bitmap := clibBitmapImmediate (fun a b => a ^^^ b) true

/-- The words of the result from the `i`th on, and the zeros at their end. -/
def aluLoop (body : Word → Word → Word) (bi : Bitmap) : Bitmap → Nat → Nat → Bitmap × Nat
  | [], _, nTrailingZeros => ([], nTrailingZeros)
  | a :: ai, i, nTrailingZeros =>
    let a := body a (bi.getD i 0)
    let (ai, nTrailingZeros) := aluLoop body bi ai (i + 1) (if a == 0 then nTrailingZeros + 1 else 0)
    (a :: ai, nTrailingZeros)

/-- The functions of two bitmaps; `none` when the length of the null pointer is written. -/
def clibBitmapAlu (body : Word → Word → Word) (checkZero : Bool) (ai bi : BitmapPtr) : Option BitmapPtr :=
  let ai := if bi.words.length > 0 then .vec (vecValidate ai.words (bi.words.length - 1)) else ai
  let (words, nTrailingZeros) := aluLoop body bi.words ai.words 0 0
  match ai with
  | .null => if checkZero then none else some .null
  | .vec _ => some (.vec (if checkZero then words.take (words.length - nTrailingZeros) else words))

def clibBitmapAnd : BitmapPtr → BitmapPtr → Option BitmapPtr := clibBitmapAlu (fun a b => a &&& b) true

def clibBitmapAndnot : BitmapPtr → BitmapPtr → Option BitmapPtr := clibBitmapAlu (fun a b => a &&& ~~~b) true

def clibBitmapOr : BitmapPtr → BitmapPtr → Option BitmapPtr := clibBitmapAlu (fun a b => a ||| b) false

def clibBitmapXor : BitmapPtr → BitmapPtr → Option BitmapPtr := clibBitmapAlu (fun a b => a ^^^ b) true

def Canonical (ai : BitmapPtr) : Prop := NoTrailing 0 ai.words

instance (ai : BitmapPtr) : Decidable (Canonical ai) := inferInstanceAs (Decidable (NoTrailing 0 ai.words))

def bits (ai : BitmapPtr) : Set Nat := {i | clibBitmapGet ai.words i = true}

theorem mem_bits_iff : i ∈ bits ai ↔ clibBitmapGet ai.words i = true := Iff.rfl

theorem mem_bits : i ∈ bits ai ↔ (ai.words.getD (i / 64) 0).getLsbD (i % 64) = true := by
  rw [mem_bits_iff, clibBitmapGet_eq]

theorem getD_eq_of_bits (h : bits a = bits b) (w : Nat) : a.words.getD w 0 = b.words.getD w 0 := by
  apply BitVec.eq_of_getLsbD_eq
  intro k hk
  have hj : 64 * w + k ∈ bits a ↔ 64 * w + k ∈ bits b := by rw [h]
  rw [mem_bits, mem_bits, Nat.mul_add_div (by decide), Nat.div_eq_of_lt hk, Nat.add_zero, Nat.mul_add_mod,
    Nat.mod_eq_of_lt hk] at hj
  exact Bool.eq_iff_iff.mpr hj

theorem clibBitmapIsEqual_iff : clibBitmapIsEqual a b = true ↔ a.words = b.words := by
  rw [clibBitmapIsEqual, Bool.and_eq_true, beq_iff_eq, List.all_eq_true]
  constructor
  · intro ⟨hlen, hall⟩
    apply ext_getElem hlen
    intro i hi hi'
    have he := beq_iff_eq.mp (hall i (mem_range.mpr hi))
    rwa [getD_eq_getElem _ _ hi, getD_eq_getElem _ _ hi'] at he
  · intro h
    rw [h]
    exact ⟨rfl, fun i _ => beq_self_eq_true _⟩

theorem Canonical.isEqual_iff (ha : Canonical a) (hb : Canonical b) :
    clibBitmapIsEqual a b = true ↔ bits a = bits b := by
  rw [clibBitmapIsEqual_iff]
  constructor
  · intro h
    rw [bits, h]
    rfl
  · intro h
    exact NoTrailing.ext ha hb (getD_eq_of_bits h)

theorem noTrailing_set_vecValidate {ai : Bitmap} (h : NoTrailing 0 ai) (ha : a ≠ 0) (i : Nat) :
    NoTrailing 0 ((vecValidate ai i).set i a) := by
  rw [noTrailing_iff]
  intro n hn
  rw [length_set, length_vecValidate] at hn
  rw [getD_set_vecValidate]
  by_cases hw : n = i
  · rw [if_pos hw]
    exact ha
  · rw [if_neg hw]
    exact noTrailing_iff.mp h n (by omega)

theorem noTrailing_store {ai : Bitmap} (h : NoTrailing 0 ai) (a : Word) (i : Nat) :
    NoTrailing 0 (if a == 0 then clibBitmapRemoveTrailingZeros ((vecValidate ai i).set i a)
      else (vecValidate ai i).set i a) := by
  split
  · exact noTrailing_trim 0 _
  · next hne => exact noTrailing_set_vecValidate h (fun hz => hne (beq_iff_eq.mpr hz)) i

theorem getD_store (ai : Bitmap) (a : Word) (i w : Nat) :
    (if a == 0 then clibBitmapRemoveTrailingZeros ((vecValidate ai i).set i a)
      else (vecValidate ai i).set i a).getD w 0 = if w = i then a else ai.getD w 0 := by
  rw [← getD_set_vecValidate]
  split
  · exact getD_clibBitmapRemoveTrailingZeros _ w
  · rfl

theorem noTrailing_clibBitmapImmediate {ai : Bitmap} (h : NoTrailing 0 ai)
    (hbody : checkZero = true ∨ body (ai.getD (i / 64) 0) (1#64 <<< (i % 64)) ≠ 0) :
    NoTrailing 0 (clibBitmapImmediate body checkZero ai i) := by
  rw [clibBitmapImmediate, getD_vecValidate]
  cases checkZero with
  | true =>
    rw [Bool.true_and]
    exact noTrailing_store h _ _
  | false =>
    obtain hc | hne := hbody
    · cases hc
    · exact noTrailing_set_vecValidate h hne _

theorem or_bit_ne_zero (a : Word) (i : Nat) : a ||| 1#64 <<< (i % 64) ≠ 0 := by
  intro h
  have hbit := congrArg (fun x => x.getLsbD (i % 64)) h
  have hmod : i % 64 < 64 := Nat.mod_lt i (by decide)
  simp only [BitVec.getLsbD_or, getLsbD_bit _ _ hmod, decide_true, Bool.or_true] at hbit
  simp at hbit

theorem clibBitmapSet_word (a value : Word) (i : Nat) (hk : k < 64) :
    (a &&& ~~~(1#64 <<< (i % 64)) ||| (if value != 0 then 1#64 else 0#64) <<< (i % 64)).getLsbD k =
      if k = i % 64 then value != 0 else a.getLsbD k := by
  rw [BitVec.getLsbD_or, getLsbD_and_not hk, getLsbD_bit _ _ hk]
  by_cases hi : k = i % 64
  · rw [hi, if_pos rfl, decide_eq_true rfl, Bool.not_true, Bool.and_false, Bool.false_or]
    split
    · next hv => rw [getLsbD_bit _ _ (hi ▸ hk), decide_eq_true rfl, hv]
    · next hv => rw [eq_false_of_ne_true hv, BitVec.zero_shiftLeft, BitVec.getLsbD_zero]
  · rw [if_neg hi, decide_eq_false hi, Bool.not_false, Bool.and_true]
    split
    · rw [getLsbD_bit _ _ hk, decide_eq_false hi, Bool.or_false]
    · rw [BitVec.zero_shiftLeft, BitVec.getLsbD_zero, Bool.or_false]

theorem getD_clibBitmapSet (ai : BitmapPtr) (i : Nat) (value : Word) (w : Nat) :
    (clibBitmapSet ai i value).words.getD w 0 =
      if w = i / 64 then
        ai.words.getD (i / 64) 0 &&& ~~~(1#64 <<< (i % 64)) ||| (if value != 0 then 1#64 else 0#64) <<< (i % 64)
      else ai.words.getD w 0 := by
  rw [clibBitmapSet]
  by_cases hskip : (value == 0 && decide (i / 64 ≥ ai.words.length)) = true
  · obtain ⟨hv, hi⟩ := Bool.and_eq_true_iff.mp hskip
    rw [if_pos hskip]
    split
    · next hw =>
      rw [hw, getD_eq_default _ _ (of_decide_eq_true hi), eq_of_beq hv]
      simp
    · rfl
  · rw [if_neg hskip]
    simp only [getD_vecValidate]
    exact getD_store ai.words _ _ w

theorem canonical_clibBitmapSet {ai : BitmapPtr} (h : Canonical ai) (i : Nat) (value : Word) :
    Canonical (clibBitmapSet ai i value) := by
  rw [clibBitmapSet]
  by_cases hskip : (value == 0 && decide (i / 64 ≥ ai.words.length)) = true
  · rw [if_pos hskip]
    exact h
  · rw [if_neg hskip]
    exact noTrailing_store h _ _

theorem bits_clibBitmapSet (ai : BitmapPtr) (i : Nat) (value : Word) :
    bits (clibBitmapSet ai i value) = if value = 0 then bits ai \ {i} else insert i (bits ai) := by
  ext j
  have hmod : j % 64 < 64 := Nat.mod_lt j (by decide)
  have hget : j ∈ bits (clibBitmapSet ai i value) ↔ if j = i then value ≠ 0 else j ∈ bits ai := by
    rw [mem_bits, mem_bits, getD_clibBitmapSet]
    by_cases hw : j / 64 = i / 64
    · rw [if_pos hw, clibBitmapSet_word _ _ _ hmod, hw]
      by_cases hj : j = i
      · rw [if_pos hj, if_pos (by rw [hj]), bne_iff_ne]
      · rw [if_neg hj, if_neg (by omega)]
    · rw [if_neg hw, if_neg (fun hj => hw (by rw [hj]))]
  rw [hget]
  by_cases hv : value = 0
  · rw [if_pos hv, Set.mem_sdiff, Set.mem_singleton_iff]
    split
    · next hj => exact ⟨fun hne => absurd hv hne, fun hm => absurd hj hm.2⟩
    · next hj => exact ⟨fun hm => ⟨hm, hj⟩, And.left⟩
  · rw [if_neg hv, Set.mem_insert_iff]
    split
    · next hj => exact ⟨fun _ => .inl hj, fun _ => hv⟩
    · next hj => exact ⟨.inr, fun hm => hm.resolve_left hj⟩

inductive ImmediateOp where
  | ori
  | andnoti
  | xori

def ImmediateOp.run (op : ImmediateOp) (ai : BitmapPtr) (i : Nat) : BitmapPtr :=
  match op with
  | .ori => .vec (clibBitmapOri ai.words i)
  | .andnoti => .vec (clibBitmapAndnoti ai.words i)
  | .xori => .vec (clibBitmapXori ai.words i)

def ImmediateOp.effect (op : ImmediateOp) (s : Set Nat) (i : Nat) : Set Nat :=
  match op with
  | .ori => insert i s
  | .andnoti => s \ {i}
  | .xori => symmDiff s {i}

theorem ImmediateOp.canonical_run {ai : BitmapPtr} (h : Canonical ai) (op : ImmediateOp) (i : Nat) :
    Canonical (op.run ai i) := by
  have hori : NoTrailing 0 (clibBitmapOri ai.words i) := noTrailing_clibBitmapImmediate h (.inr (or_bit_ne_zero _ i))
  have handnoti : NoTrailing 0 (clibBitmapAndnoti ai.words i) := noTrailing_clibBitmapImmediate h (.inl rfl)
  have hxori : NoTrailing 0 (clibBitmapXori ai.words i) := noTrailing_clibBitmapImmediate h (.inl rfl)
  cases op with
  | ori => exact hori
  | andnoti => exact handnoti
  | xori => exact hxori

theorem ImmediateOp.bits_run (op : ImmediateOp) (ai : BitmapPtr) (i : Nat) :
    bits (op.run ai i) = op.effect (bits ai) i := by
  ext j
  cases op with
  | ori =>
    rw [ImmediateOp.run, ImmediateOp.effect, mem_bits_iff, Set.mem_insert_iff, mem_bits_iff]
    exact (Bool.eq_iff_iff.mp (clibBitmapGet_ori ai.words i j)).trans (by simp)
  | andnoti =>
    rw [ImmediateOp.run, ImmediateOp.effect, mem_bits_iff, Set.mem_sdiff, Set.mem_singleton_iff, mem_bits_iff]
    exact (Bool.eq_iff_iff.mp (clibBitmapGet_andnoti ai.words i j)).trans (by simp [and_comm])
  | xori =>
    rw [ImmediateOp.run, ImmediateOp.effect, mem_bits_iff, Set.mem_symmDiff, Set.mem_singleton_iff, mem_bits_iff]
    have hget := clibBitmapGet_immediate (fun a b k _ => BitVec.getLsbD_xor) Bool.xor_false true ai.words i j
    refine (Bool.eq_iff_iff.mp hget).trans ?_
    cases clibBitmapGet ai.words j with
    | true => simp
    | false => simp

section Loop
variable (body : Word → Word → Word) (bi : Bitmap)

theorem aluLoop_length (ai : Bitmap) (i n : Nat) : (aluLoop body bi ai i n).1.length = ai.length := by
  induction ai generalizing i n with
  | nil => rfl
  | cons a ai ih => exact congrArg (· + 1) (ih _ _)

theorem aluLoop_snd (ai : Bitmap) (i n : Nat) :
    (aluLoop body bi ai i n).2 = countTrailing 0 n (aluLoop body bi ai i n).1 := by
  induction ai generalizing i n with
  | nil => rfl
  | cons a ai ih => exact ih _ _

theorem aluLoop_getD (hzero : body 0 0 = 0) (ai : Bitmap) (i n w : Nat) (hlen : bi.length ≤ i + ai.length) :
    (aluLoop body bi ai i n).1.getD w 0 = body (ai.getD w 0) (bi.getD (i + w) 0) := by
  induction ai generalizing i n w with
  | nil =>
    have hpast : bi.length ≤ i + w := hlen.trans (Nat.add_le_add_left (Nat.zero_le w) i)
    rw [aluLoop, getD_nil, getD_eq_default bi _ hpast, hzero]
  | cons a ai ih =>
    cases w with
    | zero => rfl
    | succ w =>
      rw [aluLoop, getD_cons_succ, getD_cons_succ, ih _ _ _ (by rw [length_cons] at hlen; omega)]
      congr 2
      omega

end Loop

theorem clibBitmapAlu_vec {body : Word → Word → Word} (hzero : body 0 0 = 0) (checkZero : Bool) {ai bi : BitmapPtr}
    (h : ai ≠ .null ∨ bi.words ≠ []) : ∃ words : Bitmap, words.length = max ai.words.length bi.words.length ∧
      (∀ w, words.getD w 0 = body (ai.words.getD w 0) (bi.words.getD w 0)) ∧
      clibBitmapAlu body checkZero ai bi = some (.vec (if checkZero then trim 0 words else words)) := by
  have hvec : ∃ v : Bitmap, (if bi.words.length > 0 then .vec (vecValidate ai.words (bi.words.length - 1)) else ai) =
      BitmapPtr.vec v ∧ v.length = max ai.words.length bi.words.length ∧ ∀ w, v.getD w 0 = ai.words.getD w 0 := by
    by_cases hlen : bi.words.length > 0
    · refine ⟨_, if_pos hlen, ?_, getD_vecValidate _ _⟩
      rw [length_vecValidate, Nat.sub_add_cancel hlen]
    · have hnil := eq_nil_of_length_eq_zero (Nat.eq_zero_of_not_pos hlen)
      cases ai with
      | null => exact absurd hnil (h.resolve_left fun hne => hne rfl)
      | vec v =>
        refine ⟨v, if_neg hlen, ?_, fun _ => rfl⟩
        rw [hnil]
        exact (Nat.max_zero _).symm
  obtain ⟨v, hv, hlen, hget⟩ := hvec
  refine ⟨(aluLoop body bi.words v 0 0).1, (aluLoop_length ..).trans hlen, ?_, ?_⟩
  · intro w
    rw [aluLoop_getD body bi.words hzero v 0 0 w (by omega), hget, Nat.zero_add]
  · rw [clibBitmapAlu, hv, ← take_countTrailing, ← aluLoop_snd]
    rfl

inductive AluOp where
  | and
  | andnot
  | or
  | xor
  deriving DecidableEq

def AluOp.run : AluOp → BitmapPtr → BitmapPtr → Option BitmapPtr
  | .and => clibBitmapAnd
  | .andnot => clibBitmapAndnot
  | .or => clibBitmapOr
  | .xor => clibBitmapXor

def AluOp.effect (op : AluOp) (s t : Set Nat) : Set Nat :=
  match op with
  | .and => s ∩ t
  | .andnot => s \ t
  | .or => s ∪ t
  | .xor => symmDiff s t

def AluOp.Safe (op : AluOp) (ai bi : BitmapPtr) : Prop := op = .or ∨ ai ≠ .null ∨ bi.words ≠ []

theorem clibBitmapOr_spec (ai bi : BitmapPtr) (ha : Canonical ai) (hb : Canonical bi) :
    ∃ ci, clibBitmapOr ai bi = some ci ∧ Canonical ci ∧
      ∀ w, ci.words.getD w 0 = ai.words.getD w 0 ||| bi.words.getD w 0 := by
  by_cases h : ai ≠ .null ∨ bi.words ≠ []
  · obtain ⟨words, hlen, hget, he⟩ := clibBitmapAlu_vec (by decide : (0 : Word) ||| 0 = 0) false h
    refine ⟨.vec words, he, ?_, hget⟩
    rw [Canonical, BitmapPtr.words, noTrailing_iff]
    intro n hn hz
    obtain ⟨hza, hzb⟩ := BitVec.or_eq_zero_iff.mp ((hget n).symm.trans hz)
    obtain hla | hlb : ai.words.length = n + 1 ∨ bi.words.length = n + 1 := by omega
    · exact noTrailing_iff.mp ha n hla hza
    · exact noTrailing_iff.mp hb n hlb hzb
  · obtain ⟨rfl, hnil⟩ : ai = .null ∧ bi.words = [] := by
      push Not at h
      exact h
    refine ⟨.null, ?_, noTrailing_nil, ?_⟩
    · rw [clibBitmapOr, clibBitmapAlu, hnil]
      rfl
    · rw [hnil]
      simp [BitmapPtr.words]

theorem AluOp.run_spec (op : AluOp) {ai bi : BitmapPtr} (ha : Canonical ai) (hb : Canonical bi)
    (hsafe : op.Safe ai bi) :
    ∃ ci, op.run ai bi = some ci ∧ Canonical ci ∧ bits ci = op.effect (bits ai) (bits bi) := by
  -- the three functions that trim their result
  have htrim (body : Word → Word → Word) (hzero : body 0 0 = 0) (h : ai ≠ .null ∨ bi.words ≠ []) :
      ∃ ci, clibBitmapAlu body true ai bi = some ci ∧ Canonical ci ∧
        ∀ w, ci.words.getD w 0 = body (ai.words.getD w 0) (bi.words.getD w 0) := by
    obtain ⟨words, _, hget, he⟩ := clibBitmapAlu_vec hzero true h
    exact ⟨_, he, noTrailing_trim 0 words, fun w => (getD_trim 0 words w).trans (hget w)⟩
  cases op with
  | and =>
    obtain ⟨ci, he, hc, hget⟩ := htrim (fun a b => a &&& b) (by decide) (hsafe.resolve_left (by decide))
    refine ⟨ci, he, hc, ?_⟩
    ext j
    rw [AluOp.effect, Set.mem_inter_iff, mem_bits, mem_bits, mem_bits, hget, BitVec.getLsbD_and, Bool.and_eq_true]
  | andnot =>
    obtain ⟨ci, he, hc, hget⟩ := htrim (fun a b => a &&& ~~~b) (by decide) (hsafe.resolve_left (by decide))
    refine ⟨ci, he, hc, ?_⟩
    ext j
    rw [AluOp.effect, Set.mem_sdiff, mem_bits, mem_bits, mem_bits, hget, getLsbD_and_not (Nat.mod_lt j (by decide)),
      Bool.and_eq_true, Bool.not_eq_true', Bool.not_eq_true]
  | or =>
    obtain ⟨ci, he, hc, hget⟩ := clibBitmapOr_spec ai bi ha hb
    refine ⟨ci, he, hc, ?_⟩
    ext j
    rw [AluOp.effect, Set.mem_union, mem_bits, mem_bits, mem_bits, hget, BitVec.getLsbD_or, Bool.or_eq_true]
  | xor =>
    obtain ⟨ci, he, hc, hget⟩ := htrim (fun a b => a ^^^ b) (by decide) (hsafe.resolve_left (by decide))
    refine ⟨ci, he, hc, ?_⟩
    ext j
    rw [AluOp.effect, Set.mem_symmDiff, mem_bits, mem_bits, mem_bits, hget, BitVec.getLsbD_xor]
    cases (ai.words.getD (j / 64) 0).getLsbD (j % 64) with
    | true => simp
    | false => simp

theorem AluOp.run_of_not_safe (op : AluOp) {ai bi : BitmapPtr} (hbad : ¬ op.Safe ai bi) : op.run ai bi = none := by
  obtain ⟨hop, rfl, hnil⟩ : op ≠ .or ∧ ai = .null ∧ bi.words = [] := by
    rw [AluOp.Safe] at hbad
    push Not at hbad
    exact hbad
  have hnone (body : Word → Word → Word) : clibBitmapAlu body true .null bi = none := by
    rw [clibBitmapAlu, hnil]
    rfl
  cases op with
  | or => exact absurd rfl hop
  | and => exact hnone _
  | andnot => exact hnone _
  | xor => exact hnone _

inductive Script where
  | null
  | set (s : Script) (i : Nat) (value : Word)
  | immediate (op : ImmediateOp) (s : Script) (i : Nat)
  | alu (op : AluOp) (s t : Script)

def Script.run : Script → Option BitmapPtr
  | .null => some .null
  | .set s i value => s.run.map fun ai => clibBitmapSet ai i value
  | .immediate op s i => s.run.map fun ai => op.run ai i
  | .alu op s t => s.run.bind fun ai => t.run.bind fun bi => op.run ai bi

def Script.Safe : Script → Prop
  | .null => True
  | .set s _ _ => s.Safe
  | .immediate _ s _ => s.Safe
  | .alu op s t => s.Safe ∧ t.Safe ∧ ∀ ai bi, s.run = some ai → t.run = some bi → op.Safe ai bi

theorem Script.canonical_of_run (s : Script) (h : s.run = some ai) : s.Safe ∧ Canonical ai := by
  induction s generalizing ai with
  | null =>
    obtain rfl := Option.some.inj h
    exact ⟨trivial, noTrailing_nil⟩
  | set s i value ih =>
    obtain ⟨a, hs, rfl⟩ := Option.map_eq_some_iff.mp h
    exact ⟨(ih hs).1, canonical_clibBitmapSet (ih hs).2 i value⟩
  | immediate op s i ih =>
    obtain ⟨a, hs, rfl⟩ := Option.map_eq_some_iff.mp h
    exact ⟨(ih hs).1, op.canonical_run (ih hs).2 i⟩
  | alu op s t ihs iht =>
    obtain ⟨a, hs, h⟩ := Option.bind_eq_some_iff.mp h
    obtain ⟨b, ht, h⟩ := Option.bind_eq_some_iff.mp h
    have hsafe : op.Safe a b := by
      by_contra hbad
      rw [op.run_of_not_safe hbad] at h
      cases h
    obtain ⟨c, he, hc, _⟩ := op.run_spec (ihs hs).2 (iht ht).2 hsafe
    obtain rfl := Option.some.inj (h.symm.trans he)
    refine ⟨⟨(ihs hs).1, (iht ht).1, ?_⟩, hc⟩
    intro a' b' hs' ht'
    obtain rfl := Option.some.inj (hs.symm.trans hs')
    obtain rfl := Option.some.inj (ht.symm.trans ht')
    exact hsafe

theorem Script.exists_run (s : Script) (h : s.Safe) : ∃ ai, s.run = some ai := by
  induction s with
  | null => exact ⟨_, rfl⟩
  | set s i value ih =>
    obtain ⟨a, hs⟩ := ih h
    exact ⟨_, Option.map_eq_some_iff.mpr ⟨a, hs, rfl⟩⟩
  | immediate op s i ih =>
    obtain ⟨a, hs⟩ := ih h
    exact ⟨_, Option.map_eq_some_iff.mpr ⟨a, hs, rfl⟩⟩
  | alu op s t ihs iht =>
    obtain ⟨a, hs⟩ := ihs h.1
    obtain ⟨b, ht⟩ := iht h.2.1
    obtain ⟨c, hc, _⟩ := op.run_spec (s.canonical_of_run hs).2 (t.canonical_of_run ht).2 (h.2.2 a b hs ht)
    exact ⟨c, Option.bind_eq_some_iff.mpr ⟨a, hs, Option.bind_eq_some_iff.mpr ⟨b, ht, hc⟩⟩⟩

/-- The operations are those of sets of bits, and equality is that of the sets, but the functions of two bitmaps that
trim their result must not be given two empty ones of which the first is the null pointer. -/
theorem clib_bitmap_alu (ai bi : BitmapPtr) (ha : Canonical ai) (hb : Canonical bi) (i : Nat) (value : Word)
    (iop : ImmediateOp) (op : AluOp) (s t : Script) :
    (Canonical (clibBitmapSet ai i value) ∧
      bits (clibBitmapSet ai i value) = if value = 0 then bits ai \ {i} else insert i (bits ai)) ∧
    (Canonical (iop.run ai i) ∧ bits (iop.run ai i) = iop.effect (bits ai) i) ∧
    ((∃ ci, op.run ai bi = some ci ∧ Canonical ci ∧ bits ci = op.effect (bits ai) (bits bi)) ↔ op.Safe ai bi) ∧
    ((∃ a b, s.run = some a ∧ t.run = some b ∧ (clibBitmapIsEqual a b = true ↔ bits a = bits b)) ↔
      s.Safe ∧ t.Safe) := by
  refine ⟨⟨canonical_clibBitmapSet ha i value, bits_clibBitmapSet ai i value⟩,
    ⟨iop.canonical_run ha i, iop.bits_run ai i⟩, ?_, ?_⟩
  · constructor
    · intro ⟨ci, he, _⟩
      by_contra hbad
      rw [op.run_of_not_safe hbad] at he
      cases he
    · exact op.run_spec ha hb
  · constructor
    · intro ⟨a, b, hs, ht, _⟩
      exact ⟨(s.canonical_of_run hs).1, (t.canonical_of_run ht).1⟩
    · intro ⟨hs, ht⟩
      obtain ⟨a, hs⟩ := s.exists_run hs
      obtain ⟨b, ht⟩ := t.exists_run ht
      exact ⟨a, b, hs, ht, (s.canonical_of_run hs).2.isEqual_iff (t.canonical_of_run ht).2⟩

theorem clib_bitmap_alu_one :
    (Canonical (clibBitmapSet (.vec [1]) 70 1) ∧
      bits (clibBitmapSet (.vec [1]) 70 1) = if (1 : Word) = 0 then bits (.vec [1]) \ {70}
          else insert 70 (bits (.vec [1]))) ∧
    (Canonical (ImmediateOp.xori.run (.vec [1]) 70) ∧
      bits (ImmediateOp.xori.run (.vec [1]) 70) = ImmediateOp.xori.effect (bits (.vec [1])) 70) ∧
    ((∃ ci, AluOp.and.run (.vec [1]) .null = some ci ∧ Canonical ci ∧
      bits ci = AluOp.and.effect (bits (.vec [1])) (bits .null)) ↔ AluOp.and.Safe (.vec [1]) .null) ∧
    ((∃ a b, Script.null.run = some a ∧ Script.null.run = some b ∧ (clibBitmapIsEqual a b = true ↔ bits a = bits b)) ↔
      Script.null.Safe ∧ Script.null.Safe) :=
  clib_bitmap_alu (.vec [1]) .null (by decide) (by decide) 70 1 .xori .and .null .null

/-- The intersection of two bitmaps that nothing was put in does not return. -/
theorem clib_bitmap_alu_null : ¬ ∀ ai bi : BitmapPtr, Canonical ai → Canonical bi → ∀ op : AluOp,
    ∃ ci, op.run ai bi = some ci ∧ Canonical ci ∧ bits ci = op.effect (bits ai) (bits bi) := by
  intro hall
  obtain ⟨ci, he, _⟩ := hall .null .null (by decide) (by decide) .and
  cases he

end Vpp.Infra
