import Vpp.Tcp.Scoreboard
import Mathlib.Tactic.LinearCombination

namespace Vpp.Tcp
open Vpp.Lib BitVec

variable {ack : Seq}

/-- Holes by the positions of their bytes in the stream, with their indices in the pool. -/
abbrev Spans := List (Nat × Nat × Nat)

namespace Spans

def placed (base : Seq) (l : Spans) : List (Nat × Seq × Seq) :=
  l.map fun (i, start, stop) => (i, Seq.at base start, Seq.at base stop)

def missing : Spans → Finset Nat
  | [] => ∅
  | (_, start, stop) :: l => Finset.Ico start stop ∪ missing l

/-- Each hole has a byte and is below the next. All of them are between two positions less than half of the
sequence numbers apart. -/
structure Ordered (lo hi : Nat) (l : Spans) : Prop where
  pairwise : l.Pairwise fun h h' => h.2.2 ≤ h'.2.1
  nonempty : ∀ h ∈ l, h.2.1 < h.2.2
  lower : ∀ h ∈ l, lo ≤ h.2.1
  upper : ∀ h ∈ l, h.2.2 ≤ hi

theorem Ordered.tail (h : Ordered lo hi (x :: l)) : Ordered lo hi l :=
  ⟨(List.pairwise_cons.mp h.pairwise).2, fun y hy => h.nonempty y (.tail _ hy), fun y hy => h.lower y (.tail _ hy),
    fun y hy => h.upper y (.tail _ hy)⟩

variable {l : Spans}

theorem mem_missing : n ∈ missing l ↔ ∃ h ∈ l, h.2.1 ≤ n ∧ n < h.2.2 := by
  induction l with
  | nil => simp [missing]
  | cons x l ih =>
    obtain ⟨i, start, stop⟩ := x
    simp [missing, ih]

theorem Ordered.le_of_missing (h : Ordered lo hi ((i, start, stop) :: l)) (hn : n ∈ missing l) : stop ≤ n := by
  obtain ⟨x, hx, hle, -⟩ := mem_missing.mp hn
  exact Nat.le_trans ((List.pairwise_cons.mp h.pairwise).1 x hx) hle

theorem Ordered.card_missing (h : Ordered lo hi ((i, start, stop) :: l)) :
    (missing ((i, start, stop) :: l)).card = (stop - start) + (missing l).card := by
  rw [missing, Finset.card_union_of_disjoint, Nat.card_Ico]
  apply Finset.disjoint_left.mpr
  intro n hn hm
  have hle := h.le_of_missing hm
  rw [Finset.mem_Ico] at hn
  omega

theorem Ordered.set_start (h : Ordered lo hi ((i, start, stop) :: l)) (hle : start ≤ e) (hlt : e < stop) :
    Ordered lo hi ((i, e, stop) :: l) := by
  obtain ⟨hp, hrest⟩ := List.pairwise_cons.mp h.pairwise
  have hlo := h.lower _ List.mem_cons_self
  have hhi := h.upper _ List.mem_cons_self
  refine ⟨List.pairwise_cons.mpr ⟨hp, hrest⟩, ?_, ?_, ?_⟩
  · exact List.forall_mem_cons.mpr ⟨hlt, h.tail.nonempty⟩
  · exact List.forall_mem_cons.mpr ⟨Nat.le_trans hlo hle, h.tail.lower⟩
  · exact List.forall_mem_cons.mpr ⟨hhi, h.tail.upper⟩

theorem Ordered.cons (hlo : lo ≤ start) (hne : start < stop) (hhi : stop ≤ hi) (h : Ordered stop hi l) :
    Ordered lo hi ((i, start, stop) :: l) := by
  have hlow : lo ≤ stop := Nat.le_trans hlo (Nat.le_of_lt hne)
  refine ⟨List.pairwise_cons.mpr ⟨h.lower, h.pairwise⟩, ?_, ?_, ?_⟩
  · exact List.forall_mem_cons.mpr ⟨hne, h.nonempty⟩
  · exact List.forall_mem_cons.mpr ⟨hlo, fun x hx => Nat.le_trans hlow (h.lower x hx)⟩
  · exact List.forall_mem_cons.mpr ⟨hhi, h.upper⟩

theorem Ordered.above (h : Ordered lo hi ((i, start, stop) :: l)) : Ordered stop hi l :=
  ⟨h.tail.pairwise, h.tail.nonempty, (List.pairwise_cons.mp h.pairwise).1, h.tail.upper⟩

theorem missing_covered (hs : s ≤ start) (he : stop ≤ e) :
    missing ((i, start, stop) :: l) \ Finset.Ico s e = missing l \ Finset.Ico s e := by
  ext n
  simp only [missing, Finset.mem_sdiff, Finset.mem_union, Finset.mem_Ico]
  constructor
  · rintro ⟨hn | hn, hout⟩
    · exact absurd ⟨by omega, by omega⟩ hout
    · exact ⟨hn, hout⟩
  · exact fun ⟨hn, hout⟩ => ⟨.inr hn, hout⟩

theorem Ordered.missing_below (h : Ordered lo hi ((i, start, stop) :: (j, start', stop') :: l)) (hlt : stop < k)
    (hne : start ≤ start') :
    missing ((j, start', stop') :: l) \ Finset.Ico start' k =
      missing ((i, start, stop) :: (j, start', stop') :: l) \ Finset.Ico start k := by
  ext n
  have hcons : missing ((i, start, stop) :: (j, start', stop') :: l) =
    Finset.Ico start stop ∪ missing ((j, start', stop') :: l) := rfl
  rw [hcons, Finset.mem_sdiff, Finset.mem_sdiff, Finset.mem_union, Finset.mem_Ico, Finset.mem_Ico, Finset.mem_Ico]
  constructor
  · intro ⟨hn, hout⟩
    have hne' := h.tail.nonempty _ List.mem_cons_self
    have hle : start' ≤ n := by
      rcases Finset.mem_union.mp hn with hin | hin
      · exact (Finset.mem_Ico.mp hin).1
      · exact Nat.le_trans (Nat.le_of_lt hne') (h.tail.le_of_missing hin)
    exact ⟨.inr hn, by omega⟩
  · rintro ⟨hn | hn, hout⟩
    · exact absurd ⟨hn.1, by omega⟩ hout
    · exact ⟨hn, by omega⟩

theorem Ordered.missing_trimmed (h : Ordered lo hi ((i, start, stop) :: l)) (hs : s ≤ start) (hle : start ≤ e)
    (hlt : e < stop) :
    missing ((i, start, stop) :: l) \ Finset.Ico s e = missing ((i, e, stop) :: l) := by
  ext n
  simp only [missing, Finset.mem_sdiff, Finset.mem_union, Finset.mem_Ico]
  constructor
  · rintro ⟨hn | hn, hout⟩
    · exact .inl ⟨by omega, hn.2⟩
    · exact .inr hn
  · rintro (hn | hn)
    · exact ⟨.inl ⟨by omega, hn.2⟩, by omega⟩
    · have hle' := h.le_of_missing hn
      exact ⟨.inr hn, by omega⟩

end Spans

def placedBlocks (base : Seq) (blocks : List (Nat × Nat)) : List SackBlock :=
  blocks.map fun (s, e) => ⟨Seq.at base s, Seq.at base e⟩

def blockBytes (blocks : List (Nat × Nat)) : Finset Nat :=
  blocks.foldr (fun (s, e) bytes => Finset.Ico s e ∪ bytes) ∅

@[simp] theorem mem_blockBytes : n ∈ blockBytes blocks ↔ ∃ b ∈ blocks, b.1 ≤ n ∧ n < b.2 := by
  induction blocks with
  | nil => simp [blockBytes]
  | cons b blocks ih =>
    rw [blockBytes] at ih
    simp [blockBytes, ih]

theorem sdiff_blockBytes_cons (missing : Finset Nat) (s e : Nat) (blocks : List (Nat × Nat)) :
    (missing \ Finset.Ico s e) \ blockBytes blocks = missing \ blockBytes ((s, e) :: blocks) := by
  rw [sdiff_sdiff]
  rfl

open Spans

/-- A block of bytes from `lo` on that ends within half of the sequence numbers. -/
def BlockIn (lo : Nat) (b : Nat × Nat) : Prop := lo ≤ b.1 ∧ b.1 < b.2 ∧ b.2 < lo + 2 ^ 31

/-- A cumulative ack of all bytes below `k` ends in a hole, of which it takes off and counts the first bytes. The
holes before that are gone. -/
inductive Cuts (k : Nat) : (holes : List (Nat × Nat)) → (counted : Nat) → (holes' : List (Nat × Nat)) → Prop
  | here : a ≤ k → k < b → Cuts k ((a, b) :: holes) (k - a) ((k, b) :: holes)
  | past : b < k → Cuts k holes counted holes' → Cuts k ((a, b) :: holes) counted holes'

/-- The passes of the walk that do as they should, and how many of them lose a byte in the count: a block covers a
hole, takes off its first bytes, or starts right after the byte that follows a hole. A block within a hole makes it
one byte too short, and the next one, which starts one byte further on, sets that right. -/
inductive Passes : (holes blocks : List (Nat × Nat)) → (lost : Nat) → Prop
  | done : Passes holes [] 0
  | none : Passes [] blocks 0
  | cover : s ≤ a → b ≤ e → Passes holes ((s, e) :: blocks) n → Passes ((a, b) :: holes) ((s, e) :: blocks) n
  | trim : s ≤ a → a ≤ e → e < b → Passes ((e, b) :: holes) blocks n → Passes ((a, b) :: holes) ((s, e) :: blocks) n
  | skip : (∀ blk ∈ blocks, b ≤ blk.1) → Passes holes ((b + 1, e) :: blocks) n →
      Passes ((a, b) :: holes) ((b + 1, e) :: blocks) n
  | split : a < s → e < b → (∀ blk ∈ blocks, s ≤ blk.1) → Passes ((e, b) :: holes) ((s + 1, e') :: blocks) n →
      Passes ((a, b) :: holes) ((s, e) :: (s + 1, e') :: blocks) (n + 1)

/-- The walk with the block of a cumulative ack of the bytes from `una` to `k`, if there is one, and the blocks that a
segment has besides. What the ack counts, and the bytes from `una` on that it does not take off as there is no hole
before them, is what is lost in splits. -/
inductive Walks (una k : Nat) : (holes blocks : List (Nat × Nat)) → (lost : Nat) → Prop
  | unmoved : k = una → Passes holes blocks 0 → Walks una k holes blocks 0
  | acked : una < k → Cuts k ((a, b) :: holes) counted holes' → Passes holes' blocks (a - una + counted) →
      Walks una k ((a, b) :: holes) blocks (a - una + counted)

def ackBlock (una k : Nat) : List (Nat × Nat) := if una < k then [(una, k)] else []

variable {sb : Scoreboard}

theorem At.withSacked (h : At sb prev hole pre l) (sackedBytes : BitVec 32) :
    At { sb with sackedBytes } prev hole pre l :=
  ⟨h.before.frame rfl fun _ _ hlive => ⟨hlive, rfl⟩, h.after⟩

section
variable (ack : Seq) (blk : SackBlock) (sacks : List SackBlock)
  (h : At sb prev hole pre ((i, start, stop) :: l))
include h

theorem walkHoles_remove (hhole : sb.holeAt i = some hole₀) (hbytes : sb.removedBytes ack hole₀ = some sackedBytes)
    (hleft : seqLeq blk.start start = true) (hright : seqGeq blk.stop stop = true) :
    ∃ sb' hole', At sb' prev hole' pre l ∧ sb'.sackedBytes = sackedBytes ∧ (∀ n, sb.Room n → sb'.Room n) ∧
      ∀ fuel, walkHoles ack (fuel + 1) sb hole (blk :: sacks) = walkHoles ack fuel sb' hole' (blk :: sacks) := by
  obtain rfl : hole = some i := h.here.1
  obtain ⟨sb', next, hnext, hremove, hat, hsacked, hroom⟩ := (h.withSacked sackedBytes).remove
  obtain rfl : ⟨next, prev, start, stop⟩ = hole₀ := Option.some.inj (hnext.symm.trans hhole)
  refine ⟨sb', next, hat, hsacked, hroom, fun fuel => ?_⟩
  rw [walkHoles]
  simp [hhole, hleft, hright, hbytes, hremove]

theorem walkHoles_trim (hleft : seqLeq blk.start start = true) (hright : seqGeq blk.stop stop = false) :
    ∃ sb', At sb' prev hole pre ((i, blk.stop, stop) :: l) ∧ sb'.sackedBytes = sb.sackedBytes + (blk.stop - start) ∧
      (∀ n, sb.Room n → sb'.Room n) ∧
      ∀ fuel, walkHoles ack (fuel + 1) sb hole (blk :: sacks) = walkHoles ack fuel sb' hole sacks := by
  obtain ⟨rfl, next, hhole, -⟩ := h.here
  have hset := (h.withSacked (sb.sackedBytes + (blk.stop - start))).setHole blk.stop stop hhole
  refine ⟨_, hset, rfl, fun n hroom => (SamePool.setHole ..).room hroom, fun fuel => ?_⟩
  rw [walkHoles]
  simp [hhole, hleft, hright]

theorem walkHoles_skip (hleft : seqLeq blk.start start = false) (hright : seqLeq blk.stop stop = false) :
    ∃ sb' hole', At sb' (some i) hole' ((i, start, blk.start - 1) :: pre) l ∧
      sb'.sackedBytes = sb.sackedBytes + (stop - blk.start + 1) ∧ (∀ n, sb.Room n → sb'.Room n) ∧
      ∀ fuel, walkHoles ack (fuel + 1) sb hole (blk :: sacks) = walkHoles ack fuel sb' hole' (blk :: sacks) := by
  obtain ⟨rfl, next, hhole, -⟩ := h.here
  have hset := (h.withSacked (sb.sackedBytes + (stop - blk.start + 1))).setHole start (blk.start - 1) hhole
  obtain ⟨-, next', hnext', -⟩ := hset.here
  obtain rfl : next' = next := by
    have hself : (Scoreboard.setHole { sb with sackedBytes := sb.sackedBytes + (stop - blk.start + 1) } i
      ⟨next, prev, start, blk.start - 1⟩).holeAt i = _ := Scoreboard.elts_setHole_self h.after.2.1
    exact congrArg Hole.next (Option.some.inj (hnext'.symm.trans hself))
  refine ⟨_, next', hset.pass hnext', rfl, fun n hroom => (SamePool.setHole ..).room hroom, fun fuel => ?_⟩
  rw [walkHoles]
  simp [hhole, hleft, hright]

theorem walkHoles_split (hleft : seqLeq blk.start start = false) (hright : seqLeq blk.stop stop = true)
    (hroom : sb.Room (n + 1)) :
    ∃ sb' j, At sb' prev hole pre ((i, start, blk.start - 1) :: (j, blk.stop, stop) :: l) ∧
      sb'.sackedBytes = sb.sackedBytes + (blk.stop - blk.start) ∧ sb'.Room n ∧
      ∀ fuel, walkHoles ack (fuel + 1) sb hole (blk :: sacks) = walkHoles ack fuel sb' hole sacks := by
  obtain ⟨rfl, next, hhole, -⟩ := h.here
  have hsacked : Scoreboard.Room { sb with sackedBytes := sb.sackedBytes + (blk.stop - blk.start) } (n + 1) := hroom
  obtain ⟨sb₁, j, hinsert, hat, hbytes, hroom₁⟩ := (h.withSacked _).insert hsacked blk.stop stop
  obtain ⟨-, next₁, hhole₁, -⟩ := hat.here
  refine ⟨_, j, hat.setHole start (blk.start - 1) hhole₁, hbytes,
    (SamePool.setHole ..).room hroom₁, fun fuel => ?_⟩
  rw [walkHoles]
  simp [hhole, hleft, hright, hinsert, hhole₁]

end

theorem Seq.at_succ_sub_one (base : Seq) (n : Nat) : Seq.at base (n + 1) - 1 = Seq.at base n := by
  rw [Seq.at_add]
  exact add_sub_cancel_right _ _

theorem removedBytes_below (hnext : sb.holeAt j = some ⟨next, prev, Seq.at base start', stop'⟩) (hgap : stop ≤ start')
    (hle : start' ≤ k) (hlt : stop < k) (hw : k < stop + 2 ^ 31) :
    sb.removedBytes (Seq.at base k) ⟨some j, p, a, Seq.at base stop⟩ =
      some (sb.sackedBytes - BitVec.ofNat 32 (start' - stop)) := by
  have hend : seqLt (Seq.at base stop) (Seq.at base k) = true := by
    rw [seqLt_at base (by omega) (by omega)]
    exact decide_eq_true hlt
  have hstart : seqLt (Seq.at base start') (Seq.at base k) = decide (start' < k) :=
    seqLt_at base (by omega) (by omega)
  simp only [Scoreboard.removedBytes, hend, if_true, Option.bind_some, hnext, bind, hstart, decide_eq_true_eq]
  split
  · rw [Seq.at_sub base hgap]
  · obtain rfl : start' = k := by omega
    rw [Seq.at_sub base hgap]

theorem removedBytes_above (hle : k ≤ stop) (hw : stop < k + 2 ^ 31) (hne : start ≤ stop) :
    sb.removedBytes (Seq.at base k) ⟨next, prev, Seq.at base start, Seq.at base stop⟩ =
      some (sb.sackedBytes + BitVec.ofNat 32 (stop - start)) := by
  have hack : seqLt (Seq.at base stop) (Seq.at base k) = false := by
    rw [seqLt_at base (by omega) (by omega)]
    exact decide_eq_false (by omega)
  simp [Scoreboard.removedBytes, hack, scoreboardHoleBytes, Seq.at_sub base hne]

theorem Cuts.start_le (h : Cuts k (l.map Prod.snd) counted holes') (ho : Ordered lo hi l) :
    ∃ i start stop rest, l = (i, start, stop) :: rest ∧ start ≤ k ∧ k < hi := by
  generalize hl : l.map Prod.snd = holes at h
  induction h generalizing l lo with
  | @here a b holes ha hb =>
    obtain ⟨⟨i, start, stop⟩, rest, rfl, he, -⟩ := List.map_eq_cons_iff.mp hl
    cases he
    have htop := ho.upper _ List.mem_cons_self
    exact ⟨i, a, b, rest, rfl, ha, Nat.lt_of_lt_of_le hb htop⟩
  | @past b holes counted holes' a hb _ ih =>
    obtain ⟨⟨i, start, stop⟩, rest, rfl, he, hrest⟩ := List.map_eq_cons_iff.mp hl
    cases he
    have hne := ho.nonempty _ List.mem_cons_self
    obtain ⟨-, -, -, -, -, -, hhi⟩ := ih ho.tail hrest
    exact ⟨i, a, b, rest, rfl, by simp only at hne; omega, hhi⟩

/-- The walk with the block of a cumulative ack. -/
theorem walkHoles_cuts (sacks : List SackBlock) (hc : Cuts k holes counted holes') (hl : l.map Prod.snd = holes)
    (hlinked : Linked sb.holes sb.head none (placed base l)) (ho : Ordered lo hi l) (hw : hi < lo + 2 ^ 31)
    (hu : lo ≤ una) (hstart : l = (i, start, stop) :: rest) (hus : una ≤ start) (hfuel : l.length < fuel) :
    ∃ sb' l' fuel', walkHoles (Seq.at base k) fuel sb sb.head (⟨Seq.at base una, Seq.at base k⟩ :: sacks) =
        walkHoles (Seq.at base k) fuel' sb' sb'.head sacks ∧ fuel' + l.length + 1 = fuel + l'.length ∧
      l'.map Prod.snd = holes' ∧ Linked sb'.holes sb'.head none (placed base l') ∧ Ordered k hi l' ∧
      missing l' = missing l \ Finset.Ico start k ∧ (∀ n, sb.Room n → sb'.Room n) ∧
      sb'.sackedBytes + BitVec.ofNat 32 (k - start) + BitVec.ofNat 32 (missing l').card =
        sb.sackedBytes + BitVec.ofNat 32 (missing l).card + BitVec.ofNat 32 counted := by
  induction hc generalizing sb l lo fuel i start stop rest with
  | @here a b holes ha hb =>
    subst hstart
    obtain ⟨hhole, hrest⟩ := List.cons.inj hl
    cases hhole
    have hlow := ho.lower _ List.mem_cons_self
    have htop := ho.upper _ List.mem_cons_self
    simp only at hlow htop
    obtain ⟨fuel, rfl⟩ : ∃ m, fuel = m + 1 := ⟨fuel - 1, by omega⟩
    have hright : seqGeq (Seq.at base k) (Seq.at base b) = false := seqGeq_false base hb (by omega)
    obtain ⟨sb', hat, hs, hroom, hwalk⟩ := walkHoles_trim (Seq.at base k) ⟨Seq.at base una, Seq.at base k⟩ sacks
      (.of_linked hlinked) (seqLeq_true base hus (by omega)) hright
    have hhead : sb'.head = sb.head := hat.before.2
    have hcut := ho.set_start ha hb
    refine ⟨sb', (i, k, b) :: rest, fuel, ?_, ?_, congrArg _ hrest, hat.linked, ?_, ?_, hroom, ?_⟩
    · rw [hwalk, hhead]
    · simp only [List.length_cons]
      omega
    · exact .cons (Nat.le_refl k) hb htop ho.above
    · rw [ho.missing_trimmed (Nat.le_refl a) ha hb]
    · have hsplit : b - a = (k - a) + (b - k) := by omega
      simp only [Seq.at_sub base ha] at hs
      rw [hcut.card_missing, ho.card_missing, hsplit]
      simp only [ofNat_add]
      linear_combination hs
  | @past b holes counted holes' a hb hc ih =>
    subst hstart
    obtain ⟨hhole, hrest⟩ := List.cons.inj hl
    cases hhole
    have hlow := ho.lower _ List.mem_cons_self
    have hne := ho.nonempty _ List.mem_cons_self
    simp only at hlow hne
    obtain ⟨j, a', b', rest, rfl, hak, hkhi⟩ := Cuts.start_le (hrest ▸ hc) ho.tail
    have hgap : b ≤ a' := ho.above.lower _ List.mem_cons_self
    have hne' : a' < b' := ho.tail.nonempty _ List.mem_cons_self
    simp only [List.length_cons] at hfuel
    obtain ⟨fuel, rfl⟩ : ∃ m, fuel = m + 1 := ⟨fuel - 1, by omega⟩
    have hright : seqGeq (Seq.at base k) (Seq.at base b) = true :=
      seqGeq_true base (Nat.le_of_lt hb) (by omega)
    obtain ⟨-, next, hnext, rfl, -, next', hnext', -⟩ := (At.of_linked hlinked).here
    obtain ⟨sb₁, hole₁, hat, hs₁, hroom, hwalk⟩ :=
      walkHoles_remove (Seq.at base k) ⟨Seq.at base una, Seq.at base k⟩ sacks
      (.of_linked hlinked) hnext (removedBytes_below hnext' hgap hak hb (by omega))
      (seqLeq_true base hus (by omega)) hright
    have hhead : sb₁.head = hole₁ := hat.before.2
    obtain ⟨sb', l', fuel', hrun, hlen, hl', hlinked', ho', hm', hroom', hc'⟩ := ih hrest hat.linked ho.tail hw hu rfl
      (by omega) (show ((j, a', b') :: rest).length < fuel by simp only [List.length_cons]; omega)
    refine ⟨sb', l', fuel', ?_, ?_, hl', hlinked', ho', ?_, fun n h => hroom' n (hroom n h), ?_⟩
    · rw [hwalk, ← hhead, hrun]
    · simp only [List.length_cons] at hlen ⊢
      omega
    · rw [hm', ho.missing_below hb (by omega)]
    · have hsplit : k - a = (a' - b) + (b - a) + (k - a') := by omega
      rw [ho.card_missing, hsplit]
      simp only [ofNat_add]
      linear_combination hc' + hs₁

/-- The walk is at the first of the holes `l` with blocks that have not been used up. -/
structure Walking (base : Seq) (k lo hi : Nat) (sb : Scoreboard) (prev hole : Option Nat) (pre : List (Nat × Seq × Seq))
    (l : Spans) (blocks : List (Nat × Nat)) (n : Nat) : Prop where
  place : At sb prev hole pre (placed base l)
  ordered : Ordered lo hi l
  low : k ≤ lo
  half : hi < k + 2 ^ 31
  within : ∀ b ∈ blocks, BlockIn k b
  room : sb.Room n

/-- The walk takes the bytes of the blocks out of the holes, and counts them but for those that are lost. -/
def Leaves (base : Seq) (k lo hi fuel : Nat) (sb : Scoreboard) (hole : Option Nat) (pre : List (Nat × Seq × Seq))
    (l : Spans) (blocks : List (Nat × Nat)) (n : Nat) : Prop :=
  ∃ sb' l', walkHoles (Seq.at base k) fuel sb hole (placedBlocks base blocks) = some sb' ∧
    Linked sb'.holes sb'.head none (pre.reverse ++ placed base l') ∧ Ordered lo hi l' ∧
    missing l' = missing l \ blockBytes blocks ∧
    sb'.sackedBytes + BitVec.ofNat 32 n + BitVec.ofNat 32 (missing l').card =
      sb.sackedBytes + BitVec.ofNat 32 (missing l).card

section
variable {l : Spans} (h : Walking base k lo hi sb prev hole pre ((i, a, b) :: l) ((s, e) :: blocks) n)
include h

theorem Walking.bounds : k ≤ a ∧ a < b ∧ b < k + 2 ^ 31 ∧ k ≤ s ∧ s < e ∧ e < k + 2 ^ 31 := by
  have hlow := Nat.le_trans h.low (h.ordered.lower _ List.mem_cons_self)
  have htop := Nat.lt_of_le_of_lt (h.ordered.upper _ List.mem_cons_self) h.half
  obtain ⟨hks, hse, hek⟩ := h.within _ List.mem_cons_self
  exact ⟨hlow, h.ordered.nonempty _ List.mem_cons_self, htop, hks, hse, hek⟩

theorem Walking.cover (hs : s ≤ a) (he : b ≤ e) :
    ∃ sb₁ hole₁, Walking base k lo hi sb₁ prev hole₁ pre l ((s, e) :: blocks) n ∧ ∀ fuel,
      Leaves base k lo hi fuel sb₁ hole₁ pre l ((s, e) :: blocks) n →
        Leaves base k lo hi (fuel + 1) sb hole pre ((i, a, b) :: l) ((s, e) :: blocks) n := by
  obtain ⟨hka, hab, hbk, hks, hse, hek⟩ := h.bounds
  obtain ⟨-, next, hhole, -⟩ := h.place.here
  have hleft : seqLeq (Seq.at base s) (Seq.at base a) = true := seqLeq_true base hs (by omega)
  have hright : seqGeq (Seq.at base e) (Seq.at base b) = true := seqGeq_true base he (by omega)
  obtain ⟨sb₁, hole₁, hat, hs₁, hroom, hwalk⟩ := walkHoles_remove (Seq.at base k) ⟨Seq.at base s, Seq.at base e⟩
    (placedBlocks base blocks) h.place hhole (removedBytes_above (by omega) hbk (Nat.le_of_lt hab)) hleft hright
  refine ⟨sb₁, hole₁, ⟨hat, h.ordered.tail, h.low, h.half, h.within, hroom n h.room⟩, fun fuel => ?_⟩
  rintro ⟨sb', l', hrun, hl', ho', hm', hc'⟩
  refine ⟨sb', l', (hwalk fuel).trans hrun, hl', ho', ?_, ?_⟩
  · rw [hm', ← sdiff_blockBytes_cons, ← sdiff_blockBytes_cons, missing_covered hs he]
  · rw [h.ordered.card_missing, ofNat_add]
    linear_combination hc' + hs₁

theorem Walking.trim (hs : s ≤ a) (ha : a ≤ e) (he : e < b) :
    ∃ sb₁, Walking base k lo hi sb₁ prev hole pre ((i, e, b) :: l) blocks n ∧ ∀ fuel,
      Leaves base k lo hi fuel sb₁ hole pre ((i, e, b) :: l) blocks n →
        Leaves base k lo hi (fuel + 1) sb hole pre ((i, a, b) :: l) ((s, e) :: blocks) n := by
  obtain ⟨hka, hab, hbk, hks, hse, hek⟩ := h.bounds
  have hleft : seqLeq (Seq.at base s) (Seq.at base a) = true := seqLeq_true base hs (by omega)
  have hright : seqGeq (Seq.at base e) (Seq.at base b) = false := seqGeq_false base he (by omega)
  obtain ⟨sb₁, hat, hs₁, hroom, hwalk⟩ := walkHoles_trim (Seq.at base k) ⟨Seq.at base s, Seq.at base e⟩
    (placedBlocks base blocks) h.place hleft hright
  have ho := h.ordered.set_start ha he
  refine ⟨sb₁, ⟨hat, ho, h.low, h.half, fun b hb => h.within b (.tail _ hb), hroom n h.room⟩, fun fuel => ?_⟩
  rintro ⟨sb', l', hrun, hl', ho', hm', hc'⟩
  refine ⟨sb', l', (hwalk fuel).trans hrun, hl', ho', ?_, ?_⟩
  · rw [hm', ← sdiff_blockBytes_cons, h.ordered.missing_trimmed hs ha he]
  · have hsplit : b - a = (e - a) + (b - e) := by omega
    rw [Seq.at_sub base ha] at hs₁
    rw [ho.card_missing, ofNat_add] at hc'
    rw [h.ordered.card_missing, ofNat_add, hsplit, ofNat_add]
    linear_combination hc' + hs₁

end

/-- The hole is passed with its new end `c`. -/
theorem Leaves.pass {l₁ : Spans} (hlo : lo ≤ a) (hac : a < c) (hcl : c ≤ lo') (hbhi : c ≤ hi)
    (hleaves : Leaves base k lo' hi fuel sb₁ hole₁ ((i, Seq.at base a, Seq.at base c) :: pre) l₁ blocks₁ n₁) :
    ∃ sb' l', walkHoles (Seq.at base k) fuel sb₁ hole₁ (placedBlocks base blocks₁) = some sb' ∧
      Linked sb'.holes sb'.head none (pre.reverse ++ placed base ((i, a, c) :: l')) ∧
      Ordered lo hi ((i, a, c) :: l') ∧ missing l' = missing l₁ \ blockBytes blocks₁ ∧
      sb'.sackedBytes + BitVec.ofNat 32 n₁ + BitVec.ofNat 32 (missing l').card =
        sb₁.sackedBytes + BitVec.ofNat 32 (missing l₁).card := by
  obtain ⟨sb', l', hrun, hl', ho', hm', hc'⟩ := hleaves
  have ho : Ordered c hi l' :=
    ⟨ho'.pairwise, ho'.nonempty, fun x hx => Nat.le_trans hcl (ho'.lower x hx), ho'.upper⟩
  refine ⟨sb', l', hrun, ?_, .cons hlo hac hbhi ho, hm', hc'⟩
  rw [List.reverse_cons, List.append_assoc] at hl'
  exact hl'

theorem missing_passed {l l' : Spans} (hlater : ∀ blk ∈ blocks, c ≤ blk.1)
    (hm : missing l' = missing l \ blockBytes blocks) :
    missing ((i, a, c) :: l') = missing ((i, a, c) :: l) \ blockBytes blocks := by
  have hout : Disjoint (Finset.Ico a c) (blockBytes blocks) := by
    apply Finset.disjoint_left.mpr
    intro n hn hin
    obtain ⟨blk, hblk, hle, -⟩ := mem_blockBytes.mp hin
    have := hlater blk hblk
    have := (Finset.mem_Ico.mp hn).2
    omega
  rw [missing, missing, Finset.union_sdiff_distrib, Finset.sdiff_eq_self_of_disjoint hout, hm]

theorem Spans.Ordered.missing_split (h : Ordered lo hi ((i, a, b) :: l)) (ha : a < s) (hse : s < e)
    (he : e < b) : missing ((i, a, b) :: l) \ Finset.Ico s e = missing ((i, a, s) :: (j, e, b) :: l) := by
  ext n
  simp only [missing, Finset.mem_sdiff, Finset.mem_union, Finset.mem_Ico]
  constructor
  · rintro ⟨hn | hn, hout⟩
    · omega
    · exact .inr (.inr hn)
  · rintro (hn | hn | hn)
    · omega
    · omega
    · have := h.le_of_missing hn
      exact ⟨.inr hn, by omega⟩

/-- A block that starts one byte after the byte that follows a hole leaves it alone. -/
theorem Walking.skip (h : Walking base k lo hi sb prev hole pre ((i, a, b) :: l) ((b + 1, e) :: blocks) n)
    (hlater : ∀ blk ∈ blocks, b ≤ blk.1) :
    ∃ sb₁ hole₁, Walking base k b hi sb₁ (some i) hole₁ ((i, Seq.at base a, Seq.at base b) :: pre) l
        ((b + 1, e) :: blocks) n ∧ ∀ fuel,
      Leaves base k b hi fuel sb₁ hole₁ ((i, Seq.at base a, Seq.at base b) :: pre) l ((b + 1, e) :: blocks) n →
        Leaves base k lo hi (fuel + 1) sb hole pre ((i, a, b) :: l) ((b + 1, e) :: blocks) n := by
  obtain ⟨hka, hab, hbk, hks, hse, hek⟩ := h.bounds
  have hleft : seqLeq (Seq.at base (b + 1)) (Seq.at base a) = false := seqLeq_false base (by omega) (by omega)
  have hright : seqLeq (Seq.at base e) (Seq.at base b) = false := seqLeq_false base (by omega) (by omega)
  obtain ⟨sb₁, hole₁, hat, hs₁, hroom, hwalk⟩ := walkHoles_skip (Seq.at base k) ⟨Seq.at base (b + 1), Seq.at base e⟩
    (placedBlocks base blocks) h.place hleft hright
  have hlow := h.ordered.lower _ List.mem_cons_self
  have htop := h.ordered.upper _ List.mem_cons_self
  simp only [Seq.at_succ_sub_one] at hat
  refine ⟨sb₁, hole₁, ⟨hat, h.ordered.above, by omega, h.half, h.within, hroom n h.room⟩, fun fuel hleaves => ?_⟩
  obtain ⟨sb', l', hrun, hl', ho', hm', hc'⟩ := hleaves.pass hlow hab (Nat.le_refl b) htop
  refine ⟨sb', _, (hwalk fuel).trans hrun, hl', ho', ?_, ?_⟩
  · exact missing_passed (List.forall_mem_cons.mpr ⟨Nat.le_succ b, hlater⟩) hm'
  · have hnone : Seq.at base b - Seq.at base (b + 1) + 1 = 0 := by
      rw [Seq.at_add, sub_add_cancel_left]
      exact neg_add_cancel 1
    simp only [hnone, add_zero] at hs₁
    rw [h.ordered.card_missing, ho'.card_missing, ofNat_add, ofNat_add]
    linear_combination hc' + hs₁

/-- A block within a hole loses the byte before it, and the block that starts one byte further on finds it again. -/
theorem Walking.split
    (h : Walking base k lo hi sb prev hole pre ((i, a, b) :: l) ((s, e) :: (s + 1, e') :: blocks) (n + 1))
    (ha : a < s) (he : e < b) (hlater : ∀ blk ∈ blocks, s ≤ blk.1) :
    ∃ sb₂ hole₂ j, Walking base k e hi sb₂ (some i) hole₂ ((i, Seq.at base a, Seq.at base s) :: pre) ((j, e, b) :: l)
        ((s + 1, e') :: blocks) n ∧ ∀ fuel,
      Leaves base k e hi fuel sb₂ hole₂ ((i, Seq.at base a, Seq.at base s) :: pre) ((j, e, b) :: l)
          ((s + 1, e') :: blocks) n →
        Leaves base k lo hi (fuel + 2) sb hole pre ((i, a, b) :: l) ((s, e) :: (s + 1, e') :: blocks) (n + 1) := by
  obtain ⟨hka, hab, hbk, hks, hse, hek⟩ := h.bounds
  obtain ⟨-, hse', hek'⟩ := h.within _ (.tail _ List.mem_cons_self)
  obtain ⟨m, rfl⟩ : ∃ m, s = m + 1 := ⟨s - 1, by omega⟩
  simp only at hse' hek'
  have hleft : seqLeq (Seq.at base (m + 1)) (Seq.at base a) = false := seqLeq_false base (by omega) (by omega)
  have hright : seqLeq (Seq.at base e) (Seq.at base b) = true := seqLeq_true base (by omega) (by omega)
  obtain ⟨sb₁, j, hat, hs₁, hroom₁, hwalk⟩ := walkHoles_split (Seq.at base k) ⟨Seq.at base (m + 1), Seq.at base e⟩
    (placedBlocks base ((m + 1 + 1, e') :: blocks)) h.place hleft hright h.room
  simp only [Seq.at_succ_sub_one] at hat
  have hleft₁ : seqLeq (Seq.at base (m + 1 + 1)) (Seq.at base a) = false :=
    seqLeq_false base (by omega) (by omega)
  have hright₁ : seqLeq (Seq.at base e') (Seq.at base m) = false := seqLeq_false base (by omega) (by omega)
  obtain ⟨sb₂, hole₂, hat₂, hs₂, hroom₂, hwalk₂⟩ := walkHoles_skip (Seq.at base k)
    ⟨Seq.at base (m + 1 + 1), Seq.at base e'⟩ (placedBlocks base blocks) hat hleft₁ hright₁
  simp only [Seq.at_succ_sub_one] at hat₂
  have hlow := h.ordered.lower _ List.mem_cons_self
  have htop := h.ordered.upper _ List.mem_cons_self
  have ho : Ordered e hi ((j, e, b) :: l) := .cons (Nat.le_refl e) he htop h.ordered.above
  refine ⟨sb₂, hole₂, j, ⟨hat₂, ho, by omega, h.half, fun b hb => h.within b (.tail _ hb), hroom₂ n hroom₁⟩,
    fun fuel hleaves => ?_⟩
  simp only at hlow htop
  obtain ⟨sb', l', hrun, hl', ho', hm', hc'⟩ := hleaves.pass hlow ha (Nat.le_of_lt hse) (by omega)
  refine ⟨sb', _, (hwalk (fuel + 1)).trans ((hwalk₂ fuel).trans hrun), hl', ho', ?_, ?_⟩
  · rw [← sdiff_blockBytes_cons, h.ordered.missing_split ha hse he]
    exact missing_passed (List.forall_mem_cons.mpr ⟨Nat.le_succ _, hlater⟩) hm'
  · have hone : BitVec.ofNat 32 1 = 1 := rfl
    have hlost : Seq.at base m - Seq.at base (m + 1 + 1) + 1 = -1 := by
      rw [Seq.at_add, Seq.at_add, hone]
      ring
    have hsplit : b - a = (m + 1 - a) + (e - (m + 1)) + (b - e) := by omega
    simp only [hlost] at hs₂
    rw [Seq.at_sub base (Nat.le_of_lt hse)] at hs₁
    rw [ho.card_missing, ofNat_add] at hc'
    rw [h.ordered.card_missing, ho'.card_missing, hsplit]
    simp only [ofNat_add, hone]
    linear_combination hc' + hs₂ + hs₁

/-- The walk with blocks of which none does harm. -/
theorem Walking.leaves (hp : Passes holes blocks n) (hl : l.map Prod.snd = holes)
    (h : Walking base k lo hi sb prev hole pre l blocks n) (hfuel : l.length + 2 * blocks.length < fuel) :
    Leaves base k lo hi fuel sb hole pre l blocks n := by
  induction hp generalizing sb prev hole pre l lo fuel with
  | done =>
    refine ⟨sb, l, ?_, h.place.linked, h.ordered, by simp [blockBytes], by simp⟩
    obtain ⟨fuel, rfl⟩ : ∃ m, fuel = m + 1 := ⟨fuel - 1, by omega⟩
    cases hole <;> rfl
  | none =>
    obtain rfl : l = [] := List.map_eq_nil_iff.mp hl
    refine ⟨sb, [], ?_, h.place.linked, h.ordered, by simp [missing], by simp [missing]⟩
    obtain ⟨fuel, rfl⟩ : ∃ m, fuel = m + 1 := ⟨fuel - 1, by omega⟩
    obtain rfl : hole = none := h.place.after
    rfl
  | cover hs he _ ih =>
    obtain ⟨⟨i, start, stop⟩, rest, rfl, ⟨⟩, hrest⟩ := List.map_eq_cons_iff.mp hl
    obtain ⟨sb₁, hole₁, h₁, hleaves⟩ := h.cover hs he
    simp only [List.length_cons] at hfuel
    obtain ⟨fuel, rfl⟩ : ∃ m, fuel = m + 1 := ⟨fuel - 1, by omega⟩
    exact hleaves fuel (ih hrest h₁ (by simp only [List.length_cons]; omega))
  | trim hs ha he _ ih =>
    obtain ⟨⟨i, start, stop⟩, rest, rfl, ⟨⟩, hrest⟩ := List.map_eq_cons_iff.mp hl
    obtain ⟨sb₁, h₁, hleaves⟩ := h.trim hs ha he
    simp only [List.length_cons] at hfuel
    obtain ⟨fuel, rfl⟩ : ∃ m, fuel = m + 1 := ⟨fuel - 1, by omega⟩
    exact hleaves fuel (ih (congrArg _ hrest) h₁ (by simp only [List.length_cons]; omega))
  | skip hlater _ ih =>
    obtain ⟨⟨i, start, stop⟩, rest, rfl, ⟨⟩, hrest⟩ := List.map_eq_cons_iff.mp hl
    obtain ⟨sb₁, hole₁, h₁, hleaves⟩ := h.skip hlater
    simp only [List.length_cons] at hfuel
    obtain ⟨fuel, rfl⟩ : ∃ m, fuel = m + 1 := ⟨fuel - 1, by omega⟩
    exact hleaves fuel (ih hrest h₁ (by simp only [List.length_cons]; omega))
  | split ha he hlater _ ih =>
    obtain ⟨⟨i, start, stop⟩, rest, rfl, ⟨⟩, hrest⟩ := List.map_eq_cons_iff.mp hl
    obtain ⟨sb₂, hole₂, j, h₂, hleaves⟩ := h.split ha he hlater
    simp only [List.length_cons] at hfuel
    obtain ⟨fuel, rfl⟩ : ∃ m, fuel = m + 2 := ⟨fuel - 2, by omega⟩
    exact hleaves fuel (ih (congrArg _ hrest) h₂ (by simp only [List.length_cons]; omega))

theorem Spans.Ordered.missing_from (h : Ordered lo hi ((i, start, stop) :: l)) (hle : una ≤ start) (k : Nat) :
    missing ((i, start, stop) :: l) \ Finset.Ico start k = missing ((i, start, stop) :: l) \ Finset.Ico una k := by
  ext n
  rw [Finset.mem_sdiff, Finset.mem_sdiff, Finset.mem_Ico, Finset.mem_Ico]
  refine and_congr_right fun hn => ?_
  have hne := h.nonempty _ List.mem_cons_self
  have hstart : start ≤ n := by
    rcases Finset.mem_union.mp hn with hin | hin
    · exact (Finset.mem_Ico.mp hin).1
    · exact Nat.le_trans (Nat.le_of_lt hne) (h.le_of_missing hin)
  omega

/-- The walk leaves what neither the ack nor a block has covered, and counts the rest. -/
theorem Walks.run (h : Walks una k (l.map Prod.snd) blocks n)
    (hlinked : Linked sb.holes sb.head none (placed base l)) (ho : Ordered una hi l) (hw : hi < una + 2 ^ 31)
    (hb : ∀ b ∈ blocks, BlockIn k b) (hroom : sb.Room n) (hfuel : l.length + 2 * blocks.length + 1 < fuel) :
    ∃ sb' l', walkHoles (Seq.at base k) fuel sb sb.head (placedBlocks base (ackBlock una k ++ blocks)) = some sb' ∧
      Linked sb'.holes sb'.head none (placed base l') ∧ Ordered k hi l' ∧
      missing l' = (missing l \ Finset.Ico una k) \ blockBytes blocks ∧ hi - una = (k - una) + (hi - k) ∧
      sb'.sackedBytes + BitVec.ofNat 32 (k - una) + BitVec.ofNat 32 (missing l').card =
        sb.sackedBytes + BitVec.ofNat 32 (missing l).card := by
  generalize hl : l.map Prod.snd = holes at h
  cases h with
  | unmoved hk hp =>
    subst hk
    obtain ⟨sb', l', hrun, hl', ho', hm', hc'⟩ := Walking.leaves hp hl
      ⟨.of_linked hlinked, ho, Nat.le_refl k, hw, hb, hroom⟩ (show _ < fuel by omega)
    refine ⟨sb', l', ?_, hl', ho', ?_, by omega, ?_⟩
    · rw [ackBlock, if_neg (Nat.lt_irrefl k), List.nil_append, hrun]
    · rw [hm', Finset.Ico_self, Finset.sdiff_empty]
    · rw [Nat.sub_self]
      exact hc'
  | @acked a b holes counted holes' _ hk hc hp =>
    obtain ⟨⟨i, start, stop⟩, rest, rfl, ⟨⟩, hrest⟩ := List.map_eq_cons_iff.mp hl
    have hlow := ho.lower _ List.mem_cons_self
    simp only at hlow
    obtain ⟨_, _, _, _, ⟨⟩, hle, hkhi⟩ := Cuts.start_le (hl ▸ hc) ho
    obtain ⟨sb₁, l₁, fuel₁, hcut, hlen, hl₁, hlinked₁, ho₁, hm₁, hroom₁, hc₁⟩ := walkHoles_cuts
      (placedBlocks base blocks) hc hl hlinked ho hw (Nat.le_refl una) rfl hlow (show _ < fuel by omega)
    obtain ⟨sb', l', hrun, hl', ho', hm', hc'⟩ := Walking.leaves hp hl₁
      ⟨.of_linked hlinked₁, ho₁, Nat.le_refl k, by omega, hb, hroom₁ _ hroom⟩ (show _ < fuel₁ by omega)
    refine ⟨sb', l', ?_, hl', ho', ?_, by omega, ?_⟩
    · rw [ackBlock, if_pos hk]
      exact hcut.trans hrun
    · rw [hm', hm₁, ho.missing_from hlow]
    · have hsplit : k - una = (k - a) + (a - una) := by omega
      rw [ofNat_add] at hc'
      rw [hsplit, ofNat_add]
      linear_combination hc' + hc₁

end Vpp.Tcp
