import Vpp.Svm.OooExact

namespace Vpp.Svm
open Vpp.Lib List BitVec

variable {f g : SvmFifo} {t x n : BitVec 32} {T fuel : Nat} {l pre rest : List Seg} {s : Seg}

/-- What the code takes for the bytes from the start of a segment to the tail. -/
def SvmFifo.diff (g : SvmFifo) (s : Seg) : Nat := (g.tailDiff (BitVec.ofNat 32 s.idx)).toNat

theorem tailDiff_link (hx : linkIndex x = some s.idx) : (g.tailDiff x).toNat = g.diff s := by
  rw [SvmFifo.diff, ← (linkIndex_eq_some.mp hx).2, ofNat_toNat, setWidth_eq]

theorem place_eq {o N p : Nat} (hp : p < N) (ho : o ≤ N) : (p + o) % N = if p + o < N then p + o else p + o - N := by
  split
  · next hlt => exact Nat.mod_eq_of_lt hlt
  · next hge => rw [Nat.mod_eq_sub_mod (Nat.le_of_not_lt hge), Nat.mod_eq_of_lt (by omega)]

/-- The sum wraps where the tail is far behind the segment. -/
theorem diff_cases (h : SvmFifo.Ooo { g with tail := t } l) (hs : s ∈ l) (hlt : g.tail.toNat < g.nitems.toNat) :
    let pos := (t.toNat + s.off) % g.nitems.toNat
    g.tail.toNat < pos ∧ g.diff s + pos = g.nitems.toNat + g.tail.toNat ∨
      pos ≤ g.tail.toNat ∧ g.nitems.toNat + g.tail.toNat < 2 ^ 32 + pos ∧ g.diff s + pos = g.tail.toNat ∨
      2 ^ 32 + pos ≤ g.nitems.toNat + g.tail.toNat ∧ g.diff s + (2 ^ 32 + pos) = g.nitems.toNat + g.tail.toNat := by
  have hseg := h.segs s hs
  have hpos : (g.segment (BitVec.ofNat 32 s.idx)).fifoPosition.toNat = (t.toNat + s.off) % g.nitems.toNat := by
    rw [SvmFifo.segment, (linkIndex_eq_some.mp hseg.link).2]
    exact hseg.position
  have hn := g.nitems.isLt
  have hmod : (t.toNat + s.off) % g.nitems.toNat < g.nitems.toNat := Nat.mod_lt _ (by omega)
  have hval : g.diff s = (g.nitems.toNat + g.tail.toNat + 2 ^ 32 - (t.toNat + s.off) % g.nitems.toNat) % 2 ^ 32 %
      g.nitems.toNat := by
    rw [SvmFifo.diff, SvmFifo.tailDiff, toNat_umod, toNat_sub, toNat_add, hpos]
    congr 1
    omega
  rw [hval]
  dsimp only
  generalize (t.toNat + s.off) % g.nitems.toNat = pos at *
  rcases Nat.lt_or_ge g.tail.toNat pos with hbefore | hbehind
  · left
    rw [Nat.mod_eq_of_lt (a := _ % 2 ^ 32) (by omega)]
    omega
  · right
    rcases Nat.lt_or_ge (g.nitems.toNat + g.tail.toNat) (2 ^ 32 + pos) with hfit | hover
    · left
      have hred : (g.nitems.toNat + g.tail.toNat + 2 ^ 32 - pos) % 2 ^ 32 = g.tail.toNat - pos + g.nitems.toNat :=
        by omega
      rw [hred, Nat.add_mod_right, Nat.mod_eq_of_lt (by omega)]
      omega
    · right
      rw [Nat.mod_eq_of_lt (a := _ % 2 ^ 32) (by omega)]
      omega

theorem diff_eq (h : SvmFifo.Ooo { g with tail := t } l) (hs : s ∈ l) (ht : t.toNat < g.nitems.toNat)
    (htail : g.tail.toNat = (t.toNat + T) % g.nitems.toNat) (hT : T ≤ g.nitems.toNat) (hoff : 1 ≤ s.off) :
    let d := if s.off ≤ T then T - s.off else g.nitems.toNat + T - s.off
    g.diff s = d ∨ g.diff s + 2 ^ 32 = d + g.nitems.toNat ∧ g.diff s < d := by
  have hlt : s.off < g.nitems.toNat := (h.segs s hs).off_lt
  have hn := g.nitems.isLt
  have hcases := diff_cases h hs (by rw [htail]; exact Nat.mod_lt _ (by omega))
  rw [place_eq ht hT] at htail
  rw [place_eq ht hlt.le] at hcases
  dsimp only at hcases ⊢
  split_ifs at htail hcases ⊢ <;> omega

theorem del_tail (f : SvmFifo) (x t : BitVec 32) :
    oooSegmentDel { f with tail := t } x = { oooSegmentDel f x with tail := t } := by
  have hseg : SvmFifo.segment { f with tail := t } x = f.segment x := rfl
  simp only [oooSegmentDel, hseg]
  split <;> split <;> rfl

theorem tailDiff_del (f : SvmFifo) (x y : BitVec 32) : (oooSegmentDel f x).tailDiff y = f.tailDiff y := by
  have hpos : ((oooSegmentDel f x).segment y).fifoPosition = (f.segment y).fifoPosition :=
    (congrArg OooSegment.fifoPosition (Pool.eltAt_put _ _ _)).trans ((sameSegs_unlink f x).position _)
  rw [SvmFifo.tailDiff, SvmFifo.tailDiff, hpos, tail_del, nitems_del]

theorem diff_del (g : SvmFifo) (x : BitVec 32) (s : Seg) : (oooSegmentDel g x).diff s = g.diff s :=
  congrArg BitVec.toNat (tailDiff_del g x _)

/-- The loop deletes the segment where there is a next one. -/
structure SvmFifo.Passes (g : SvmFifo) (n : BitVec 32) (s : Seg) : Prop where
  pos : 0 < g.diff s
  lt : g.diff s < n.toNat
  len_le : s.len ≤ g.diff s

theorem length_link (h : SvmFifo.Ooo { g with tail := t } (pre ++ s :: rest)) (hx : linkIndex x = some s.idx) :
    (g.segment x).length.toNat = s.len := by
  rw [SvmFifo.segment, (linkIndex_eq_some.mp hx).2]
  exact (h.segs s (mem_append_right pre mem_cons_self)).length

theorem next_link (h : SvmFifo.Ooo { g with tail := t } (s :: rest)) (hx : linkIndex x = some s.idx) :
    linkIndex (g.segment x).next = (rest.map Seg.idx).head? :=
  (nexts_eq (f := g) hx).symm.trans (@SvmFifo.Ooo.neighbours { g with tail := t } [] rest s h).1

theorem SvmFifo.Ooo.del_past (h : SvmFifo.Ooo { g with tail := t } (s :: rest)) (hx : linkIndex x = some s.idx) :
    SvmFifo.Ooo { oooSegmentDel g x with tail := t } rest := by
  have hdel := @SvmFifo.Ooo.del { g with tail := t } x [] rest s h hx
  rw [del_tail] at hdel
  exact hdel

structure SvmFifo.SameRing (g g' : SvmFifo) : Prop where
  ring : g'.ring = g.ring
  tail : g'.tail = g.tail
  diff : ∀ s, g'.diff s = g.diff s

theorem tryCollectLoop_passes (h : SvmFifo.Ooo { g with tail := t } (pre ++ s :: rest))
    (hx : linkIndex x = ((pre ++ s :: rest).map Seg.idx).head?) (hpre : ∀ p ∈ pre, g.Passes n p)
    (hfuel : pre.length < fuel) :
    ∃ g' x' fuel', SvmFifo.Ooo { g' with tail := t } (s :: rest) ∧ linkIndex x' = some s.idx ∧ g.SameRing g' ∧
      tryCollectLoop n fuel g x (g.tailDiff x) = tryCollectLoop n (fuel' + 1) g' x' (g'.tailDiff x') := by
  induction pre generalizing g x fuel with
  | nil =>
    obtain ⟨fuel, rfl⟩ := Nat.exists_eq_add_of_lt hfuel
    exact ⟨g, x, _, h, hx, ⟨rfl, rfl, fun _ => rfl⟩, by rw [length_nil, Nat.zero_add]⟩
  | cons p pre ih =>
    obtain ⟨hpos, hlt, hlen⟩ := hpre p mem_cons_self
    obtain ⟨fuel, rfl⟩ := Nat.exists_eq_add_of_lt (Nat.zero_lt_of_lt hfuel)
    rw [List.cons_append] at h hx
    have hdiff : (g.tailDiff x).toNat = g.diff p := tailDiff_link hx
    have hlength : (g.segment x).length.toNat = p.len := @length_link g t x [] _ p h hx
    have hnext := next_link h hx
    have hvalid : (g.segment x).next ≠ oooSegmentInvalidIndex := by
      intro he
      rw [linkIndex_eq_none.mpr he] at hnext
      cases pre with
      | nil => cases hnext
      | cons q pre => cases hnext
    have hfuel' : pre.length < fuel := by
      rw [length_cons] at hfuel
      omega
    have hrest : ∀ q ∈ pre, (oooSegmentDel g x).Passes n q := by
      intro q hq
      obtain ⟨h1, h2, h3⟩ := hpre q (mem_cons_of_mem p hq)
      rw [← diff_del g x] at h1 h2 h3
      exact ⟨h1, h2, h3⟩
    obtain ⟨g', x', fuel', hooo, hx', hsame, hloop⟩ := ih (h.del_past hx) hnext hrest hfuel'
    refine ⟨g', x', fuel', hooo, hx', ⟨hsame.ring.trans (ring_oooSegmentDel g x), hsame.tail.trans (tail_del g x),
      fun q => (hsame.diff q).trans (diff_del g x q)⟩, ?_⟩
    rw [← hloop, tailDiff_del, Nat.zero_add, tryCollectLoop]
    have hin : 0 < g.tailDiff x ∧ g.tailDiff x < n := by
      rw [lt_def, lt_def, hdiff]
      exact ⟨hpos, hlt⟩
    have hpast : ¬ g.tailDiff x < (g.segment x).length := by
      rw [lt_def, hdiff, hlength]
      exact Nat.not_lt.mpr hlen
    rw [if_pos hin]
    exact (if_neg hpast).trans (if_pos hvalid)

def consume (r : SvmFifo × BitVec 32 × BitVec 32) : SvmFifo × BitVec 32 :=
  if r.2.2 = 0 then
    let length := (r.1.segment r.2.1).length
    let bytes := if length ≤ r.1.nitems - r.1.cursize then length else r.1.nitems - r.1.cursize
    (oooSegmentDel { r.1 with tail := (r.1.tail + bytes) % r.1.nitems } r.2.1, bytes)
  else (r.1, 0)

theorem oooSegmentTryCollect_eq (g : SvmFifo) (n : BitVec 32) : oooSegmentTryCollect g n =
    consume (tryCollectLoop n (g.oooSegments.elts.length + 1) g g.ooosListHead (g.tailDiff g.ooosListHead)) := rfl

theorem consume_of_ne {d : BitVec 32} (hd : d.toNat ≠ 0) (g : SvmFifo) (x : BitVec 32) :
    consume (g, x, d) = (g, 0) := by
  rw [consume, if_neg]
  intro he
  exact hd (congrArg BitVec.toNat he)

section
variable (h : SvmFifo.Ooo { g with tail := t } (s :: rest)) (hx : linkIndex x = some s.idx)
include h hx

theorem consume_zero (hzero : g.diff s = 0) (hsize : g.cursize.toNat ≤ g.nitems.toNat)
    (hroom : s.len ≤ g.nitems.toNat - g.cursize.toNat) :
    let r := consume (tryCollectLoop n (fuel + 1) g x (g.tailDiff x))
    r.2.toNat = s.len ∧ r.1.tail.toNat = (g.tail.toNat + s.len) % 2 ^ 32 % g.nitems.toNat ∧
      SvmFifo.Ooo { r.1 with tail := t } rest := by
  have hlen : (g.segment x).length.toNat = s.len := @length_link g t x [] rest s h hx
  have hdiff : g.tailDiff x = 0 := eq_of_toNat_eq ((tailDiff_link hx).trans hzero)
  have hloop : tryCollectLoop n (fuel + 1) g x (g.tailDiff x) = (g, x, 0) := by
    rw [tryCollectLoop, hdiff]
    exact if_neg fun hc : (0 : BitVec 32) < 0 ∧ _ => absurd hc.1 (by decide)
  have hbytes : (if (g.segment x).length ≤ g.nitems - g.cursize then (g.segment x).length else g.nitems - g.cursize) =
      (g.segment x).length := by
    rw [if_pos]
    rw [le_def, hlen, toNat_sub_of_le (le_def.mpr hsize)]
    exact hroom
  rw [hloop, consume, if_pos rfl]
  simp only [hbytes]
  refine ⟨hlen, ?_, ?_⟩
  · rw [tail_del, toNat_umod, toNat_add, hlen]
  · rw [del_tail]
    exact h.del_past hx

theorem consume_short (hpos : 0 < g.diff s) (hlt : g.diff s < n.toNat) (hshort : g.diff s < s.len) :
    let r := consume (tryCollectLoop n (fuel + 1) g x (g.tailDiff x))
    r.2 = 0 ∧ r.1.tail.toNat = (g.tail.toNat + (s.len - g.diff s)) % 2 ^ 32 % g.nitems.toNat ∧
      SvmFifo.Ooo { r.1 with tail := t } (s :: rest) := by
  have hlen : (g.segment x).length.toNat = s.len := @length_link g t x [] rest s h hx
  have hdiff : (g.tailDiff x).toNat = g.diff s := tailDiff_link hx
  have hcond : 0 < g.tailDiff x ∧ g.tailDiff x < n := by
    rw [lt_def, lt_def, hdiff]
    exact ⟨hpos, hlt⟩
  have hless : g.tailDiff x < (g.segment x).length := by
    rw [lt_def, hdiff, hlen]
    exact hshort
  have hloop : tryCollectLoop n (fuel + 1) g x (g.tailDiff x) =
      ({ g with tail := (g.tail + ((g.segment x).length - g.tailDiff x)) % g.nitems }, x, g.tailDiff x) := by
    rw [tryCollectLoop, if_pos hcond]
    exact if_pos hless
  rw [hloop, consume_of_ne (by omega)]
  refine ⟨rfl, ?_, h⟩
  rw [toNat_umod, toNat_add, toNat_sub_of_le (BitVec.le_of_lt hless), hlen, hdiff]

theorem consume_stays (hne : g.diff s ≠ 0) (hstop : n.toNat ≤ g.diff s ∨ rest = [] ∧ s.len ≤ g.diff s) :
    consume (tryCollectLoop n (fuel + 1) g x (g.tailDiff x)) = (g, 0) := by
  have hlen : (g.segment x).length.toNat = s.len := @length_link g t x [] rest s h hx
  have hdiff : (g.tailDiff x).toNat = g.diff s := tailDiff_link hx
  have hloop : tryCollectLoop n (fuel + 1) g x (g.tailDiff x) = (g, x, g.tailDiff x) := by
    rw [tryCollectLoop]
    split
    · next hin =>
      rw [lt_def, lt_def, hdiff] at hin
      obtain ⟨hlast, hle⟩ := hstop.resolve_left (Nat.not_le.mpr hin.2)
      have hnext := next_link h hx
      rw [hlast] at hnext
      have hover : ¬ g.tailDiff x < (g.segment x).length := by
        rw [lt_def, hdiff, hlen]
        exact Nat.not_lt.mpr hle
      exact (if_neg hover).trans (if_neg (not_not.mpr (linkIndex_eq_none.mp hnext)))
    · rfl
  rw [hloop]
  exact consume_of_ne (hdiff ▸ hne) g x

end

section
variable (h : SvmFifo.Ooo { g with tail := t } (pre ++ s :: rest)) (hpre : ∀ p ∈ pre, g.Passes n p)
include h hpre

theorem tryCollect_at : ∃ g' x' fuel', SvmFifo.Ooo { g' with tail := t } (s :: rest) ∧ linkIndex x' = some s.idx ∧
    g.SameRing g' ∧ oooSegmentTryCollect g n = consume (tryCollectLoop n (fuel' + 1) g' x' (g'.tailDiff x')) := by
  have hfuel : pre.length < g.oooSegments.elts.length + 1 := by
    have hle : (pre ++ s :: rest).length ≤ g.oooSegments.elts.length := h.length_le
    rw [length_append] at hle
    omega
  obtain ⟨g', x', fuel', hooo, hx, hsame, hloop⟩ := tryCollectLoop_passes h h.list.head_eq hpre hfuel
  exact ⟨g', x', fuel', hooo, hx, hsame, (oooSegmentTryCollect_eq g n).trans (congrArg consume hloop)⟩

theorem tryCollect_zero (hzero : g.diff s = 0) (hsize : g.cursize.toNat ≤ g.nitems.toNat)
    (hroom : s.len ≤ g.nitems.toNat - g.cursize.toNat) :
    let r := oooSegmentTryCollect g n
    r.2.toNat = s.len ∧ r.1.tail.toNat = (g.tail.toNat + s.len) % 2 ^ 32 % g.nitems.toNat ∧
      SvmFifo.Ooo { r.1 with tail := t } rest := by
  obtain ⟨g', x, fuel, hooo, hx, ⟨hring, htail, hdiff⟩, he⟩ := tryCollect_at h hpre
  have hn : g'.nitems = g.nitems := congrArg (·.2.1) hring
  have hc : g'.cursize = g.cursize := congrArg (·.2.2) hring
  rw [← hdiff] at hzero
  rw [← hn, ← hc] at hsize hroom
  rw [he, ← hn, ← htail]
  exact consume_zero hooo hx hzero hsize hroom

theorem tryCollect_short (hpos : 0 < g.diff s) (hlt : g.diff s < n.toNat) (hshort : g.diff s < s.len) :
    let r := oooSegmentTryCollect g n
    r.2 = 0 ∧ r.1.tail.toNat = (g.tail.toNat + (s.len - g.diff s)) % 2 ^ 32 % g.nitems.toNat ∧
      SvmFifo.Ooo { r.1 with tail := t } (s :: rest) := by
  obtain ⟨g', x, fuel, hooo, hx, ⟨hring, htail, hdiff⟩, he⟩ := tryCollect_at h hpre
  have hn : g'.nitems = g.nitems := congrArg (·.2.1) hring
  rw [← hdiff] at hpos hlt hshort ⊢
  rw [he, ← hn, ← htail]
  exact consume_short hooo hx hpos hlt hshort

theorem tryCollect_stays (hne : g.diff s ≠ 0) (hstop : n.toNat ≤ g.diff s ∨ rest = [] ∧ s.len ≤ g.diff s) :
    let r := oooSegmentTryCollect g n
    r.2 = 0 ∧ r.1.tail = g.tail ∧ SvmFifo.Ooo { r.1 with tail := t } (s :: rest) := by
  obtain ⟨g', x, fuel, hooo, hx, ⟨hring, htail, hdiff⟩, he⟩ := tryCollect_at h hpre
  rw [← hdiff] at hne hstop
  rw [he, consume_stays hooo hx hne hstop]
  exact ⟨rfl, htail, hooo⟩

end

/-- The segment seen from a tail that is `r` bytes further. -/
def Seg.back (s : Seg) (r : Nat) : Seg := { s with off := s.off - r }

/-- The segments that a tail `r` bytes further has not reached. -/
def remaining (l : List Seg) (r : Nat) : List Seg := (l.filter fun s => r < s.off).map (·.back r)

/-- After `T` bytes came in order the tail is at the first byte that did not come, the size and the returned value say
so, and the segments behind it are as before. -/
structure Collects (f f' : SvmFifo) (l : List Seg) (T : Nat) (r : BitVec 32) : Prop where
  size : f'.tail.toNat = (f'.head.toNat + f'.cursize.toNat) % f'.nitems.toNat
  returned : f'.tail.toNat = (f.tail.toNat + r.toNat) % f.nitems.toNat
  received : ∀ x < r.toNat, x < T ∨ Covers l x
  missing : T ≤ r.toNat ∧ ¬ Covers l r.toNat
  rest : f'.HasOoo (remaining l r.toNat)

/-- The bytes neither end in a segment nor reach the end of all of them. -/
structure EndsClear (l : List Seg) (T : Nat) : Prop where
  last : l = [] ∨ ∃ s ∈ l, T < s.fin
  inside : ∀ s ∈ l, ¬ (s.off < T ∧ T < s.fin)

theorem SegList.remaining (h : SegList m l) (r : Nat) : SegList (m - r) (remaining l r) := by
  have hmem {s : Seg} (hs : s ∈ l.filter fun s => r < s.off) : s ∈ l ∧ r < s.off := by
    obtain ⟨hs, hr⟩ := mem_filter.mp hs
    exact ⟨hs, of_decide_eq_true hr⟩
  constructor
  · refine pairwise_map.mpr ((h.apart.filter _).imp_of_mem ?_)
    intro s u hs hu hlt
    have hr := (hmem hs).2
    simp only [Seg.fin, Seg.back] at hlt ⊢
    omega
  · intro u hu
    obtain ⟨s, hs, rfl⟩ := List.mem_map.mp hu
    obtain ⟨hs, hr⟩ := hmem hs
    obtain ⟨_, hlen, hfin⟩ := h.bounds s hs
    simp only [Seg.fin, Seg.back] at hfin ⊢
    omega

theorem SvmFifo.Ooo.back (h : SvmFifo.Ooo { f with tail := t } l) (hr : ∀ s ∈ l, r ≤ s.off)
    (htail : f.tail.toNat = (t.toNat + r) % f.nitems.toNat) : f.Ooo (l.map (·.back r)) := by
  have hidx : (l.map (·.back r)).map Seg.idx = l.map Seg.idx := by
    rw [List.map_map]
    rfl
  constructor
  · rw [hidx]
    exact h.list
  · intro u hu
    obtain ⟨s, hs, rfl⟩ := List.mem_map.mp hu
    have hseg := h.segs s hs
    have hle := hr s hs
    refine ⟨hseg.live, hseg.small, hseg.position.trans ?_, hseg.length, Nat.lt_of_le_of_lt (Nat.sub_le _ _) hseg.off_lt⟩
    rw [htail, Nat.mod_add_mod, Seg.back, Nat.add_assoc, Nat.add_sub_cancel' hle]

theorem SvmFifo.Ooo.congr_links (h : f.Ooo l) (hseg : g.oooSegments = f.oooSegments)
    (hhead : g.ooosListHead = f.ooosListHead)
    (htail : g.tail = f.tail) (hnitems : g.nitems = f.nitems) : g.Ooo l := by
  have hn : g.nexts = f.nexts := by
    unfold SvmFifo.nexts
    rw [hseg]
  have hp : g.prevs = f.prevs := by
    unfold SvmFifo.prevs
    rw [hseg]
  constructor
  · rw [hn, hp, hhead]
    exact h.list
  · intro s hs
    obtain ⟨hlive, hsmall, hpos, hlen, hoff⟩ := h.segs s hs
    refine ⟨hseg ▸ hlive, hsmall, ?_, ?_, hnitems ▸ hoff⟩
    · rw [hseg, htail, hnitems]
      exact hpos
    · rw [hseg]
      exact hlen

theorem Collects.of_ring {k : SvmFifo} {r : BitVec 32} (hring : k.ring = f.ring)
    (htail : f.tail.toNat = (f.head.toNat + f.cursize.toNat) % f.nitems.toNat)
    (hsegs : SegList (f.nitems.toNat - f.cursize.toNat) l) (hle : f.cursize.toNat + r.toNat ≤ f.nitems.toNat)
    (hreturned : k.tail.toNat = (f.tail.toNat + r.toNat) % f.nitems.toNat)
    (hreceived : ∀ x < r.toNat, x < T ∨ Covers l x) (hmissing : T ≤ r.toNat ∧ ¬ Covers l r.toNat)
    (hooo : SvmFifo.Ooo { k with tail := f.tail } (l.filter fun s => r.toNat < s.off)) :
    Collects f { k with cursize := k.cursize + r } l T r := by
  have hhead : k.head = f.head := congrArg Prod.fst hring
  have hnitems : k.nitems = f.nitems := congrArg (·.2.1) hring
  have hcursize : k.cursize = f.cursize := congrArg (·.2.2) hring
  have hn := f.nitems.isLt
  have hsize : (k.cursize + r).toNat = f.cursize.toNat + r.toNat := by
    rw [hcursize, toNat_add, Nat.mod_eq_of_lt (by omega)]
  refine ⟨?_, hreturned, hreceived, hmissing, ?_, ?_⟩
  · change k.tail.toNat = (k.head.toNat + (k.cursize + r).toNat) % k.nitems.toNat
    rw [hreturned, htail, hsize, hhead, hnitems, Nat.mod_add_mod, Nat.add_assoc]
  · change SegList (k.nitems.toNat - (k.cursize + r).toNat) _
    rw [hsize, hnitems, Nat.sub_add_eq]
    exact hsegs.remaining r.toNat
  · have hback := hooo.back (fun s hs => (of_decide_eq_true (mem_filter.mp hs).2).le) (hnitems ▸ hreturned)
    exact hback.congr_links rfl rfl rfl rfl

theorem exists_stop (P : Seg → Prop) (hne : l ≠ []) :
    ∃ pre s rest, l = pre ++ s :: rest ∧ (∀ p ∈ pre, P p) ∧ (P s → rest = []) := by
  induction l with
  | nil => exact absurd rfl hne
  | cons a l ih =>
    by_cases hstop : P a → l = []
    · exact ⟨[], a, l, rfl, fun p hp => absurd hp not_mem_nil, hstop⟩
    · obtain ⟨ha, hl⟩ := Classical.not_imp.mp hstop
      obtain ⟨pre, s, rest, rfl, hpre, hs⟩ := ih hl
      refine ⟨a :: pre, s, rest, rfl, ?_, hs⟩
      intro p hp
      rcases mem_cons.mp hp with rfl | hp
      · exact ha
      · exact hpre p hp

theorem filter_off (hpre : ∀ p ∈ pre, p.off ≤ r) (hrest : ∀ q ∈ rest, r < q.off) :
    (pre ++ rest).filter (fun s => r < s.off) = rest := by
  have hnone : pre.filter (fun s => r < s.off) = [] := by
    refine filter_eq_nil_iff.mpr ?_
    intro p hp
    simpa using hpre p hp
  have hall : rest.filter (fun s => r < s.off) = rest := by
    refine filter_eq_self.mpr ?_
    intro q hq
    simpa using hrest q hq
  rw [filter_append, hnone, hall, nil_append]

/-- The bytes end where the code can go on from, and no sum of the code on the way there wraps to a wrong place. -/
structure SvmFifo.Settles (g : SvmFifo) (n : BitVec 32) (l : List Seg) : Prop where
  ends : EndsClear l n.toNat
  behind : ∀ s ∈ l, s.fin ≤ n.toNat → s.len ≤ g.diff s
  adjacent : ∀ s ∈ l, s.off = n.toNat → g.tail.toNat + s.len < 2 ^ 32
  ahead : ∀ pre s rest, l = pre ++ s :: rest → (∀ p ∈ pre, p.fin ≤ n.toNat) → n.toNat < s.off →
    g.diff s ≠ 0 ∧ (n.toNat ≤ g.diff s ∨ rest = [] ∧ s.len ≤ g.diff s)

/-- The first segment that is not behind the tail decides. -/
theorem settles_iff (hl : SegList m (pre ++ s :: rest)) (hpre : ∀ p ∈ pre, p.fin ≤ n.toNat) (hs : n.toNat ≤ s.off) :
    g.Settles n (pre ++ s :: rest) ↔ (∀ p ∈ pre, p.len ≤ g.diff p) ∧
      (s.off = n.toNat → g.tail.toNat + s.len < 2 ^ 32) ∧
      (n.toNat < s.off → g.diff s ≠ 0 ∧ (n.toNat ≤ g.diff s ∨ rest = [] ∧ s.len ≤ g.diff s)) := by
  have hmem : s ∈ pre ++ s :: rest := mem_append_right pre mem_cons_self
  obtain ⟨-, hlen, -⟩ := hl.bounds s hmem
  obtain ⟨-, hsrest, hprerest⟩ := apart_append.mp hl.apart
  have hafter : ∀ u ∈ rest, s.fin < u.off := (apart_cons.mp hsrest).1
  have hfin : n.toNat < s.fin := by
    rw [Seg.fin]
    omega
  -- behind the tail are those before, and those after are ahead of it
  have hplace {u : Seg} (hu : u ∈ pre ++ s :: rest) : u ∈ pre ∧ u.fin ≤ n.toNat ∨ u = s ∨ n.toNat < u.off := by
    rcases mem_append.mp hu with hu | hu
    · exact .inl ⟨hu, hpre u hu⟩
    · rcases mem_cons.mp hu with rfl | hu
      · exact .inr (.inl rfl)
      · exact .inr (.inr (hfin.trans (hafter u hu)))
  constructor
  · intro h
    exact ⟨fun p hp => h.behind p (mem_append_left _ hp) (hpre p hp), h.adjacent s hmem,
      h.ahead pre s rest rfl hpre⟩
  · intro h
    obtain ⟨hbehind, hadjacent, hahead⟩ := h
    constructor
    · constructor
      · exact .inr ⟨s, hmem, hfin⟩
      · intro u hu hinside
        rcases hplace hu with ⟨-, hle⟩ | rfl | hlt
        · omega
        · omega
        · omega
    · intro u hu hle
      obtain ⟨-, hulen, -⟩ := hl.bounds u hu
      rcases hplace hu with ⟨hu, -⟩ | rfl | hlt
      · exact hbehind u hu
      · omega
      · rw [Seg.fin] at hle
        omega
    · intro u hu hoff
      obtain ⟨-, hulen, -⟩ := hl.bounds u hu
      rcases hplace hu with ⟨-, hle⟩ | rfl | hlt
      · rw [Seg.fin] at hle
        omega
      · exact hadjacent hoff
      · omega
    · intro pre' s' rest' he hpre' hs'
      have hoff {u : Seg} {us : List Seg} (hus : ∀ p ∈ us, p.fin ≤ n.toNat) (hu : u ∈ us) : u.off ≤ n.toNat :=
        (Nat.le_add_right _ _).trans (hus u hu)
      have hne : n.toNat < s.off := by
        rcases Nat.lt_or_eq_of_le hs with hlt | heq
        · exact hlt
        · have hs : s ∈ pre' ++ s' :: rest' := he ▸ hmem
          rw [he] at hl
          obtain ⟨-, hsrest', -⟩ := apart_append.mp hl.apart
          rcases mem_append.mp hs with hs | hs
          · exact absurd (hpre' s hs) (Nat.not_le.mpr hfin)
          · rcases mem_cons.mp hs with rfl | hs
            · exact hs'
            · have hgap := (apart_cons.mp hsrest').1 s hs
              rw [Seg.fin] at hgap
              omega
      have hloc : Located n.toNat pre s rest := ⟨fun p hp => hoff hpre hp, .inr hne⟩
      have hloc' : Located n.toNat pre' s' rest' := ⟨fun p hp => hoff hpre' hp, .inr hs'⟩
      obtain ⟨rfl, rfl, rfl⟩ := hloc.unique hloc' he
      exact hahead hs'

theorem EndsClear.split (h : EndsClear l T) (hne : l ≠ []) :
    ∃ pre s rest, l = pre ++ s :: rest ∧ (∀ p ∈ pre, p.fin ≤ T) ∧ T ≤ s.off := by
  obtain ⟨pre, s, rest, rfl, hpre, hstop⟩ := exists_stop (fun s => s.fin ≤ T) hne
  refine ⟨pre, s, rest, rfl, hpre, ?_⟩
  have hfin : T < s.fin := by
    apply Nat.lt_of_not_le
    intro hle
    obtain ⟨u, hu, hlt⟩ := h.last.resolve_left hne
    rw [hstop hle] at hu
    rcases mem_append.mp hu with hu | hu
    · exact absurd (hpre u hu) (Nat.not_le.mpr hlt)
    · rw [mem_singleton.mp hu] at hlt
      exact absurd hle (Nat.not_le.mpr hlt)
  apply Nat.le_of_not_lt
  intro hlt
  exact h.inside s (mem_append_right pre mem_cons_self) ⟨hlt, hfin⟩

section
variable (hl : SegList g.nitems.toNat l) (h : SvmFifo.Ooo { g with tail := t } l) (ht : t.toNat < g.nitems.toNat)
  (htail : g.tail.toNat = (t.toNat + n.toNat) % g.nitems.toNat) (hn : n.toNat ≤ g.nitems.toNat)
include hl h ht htail hn

/-- No sum wraps in a fifo of half the words. -/
theorem settles_of_le (hsmall : g.nitems.toNat ≤ 2 ^ 31) : g.Settles n l ↔ EndsClear l n.toNat := by
  constructor
  · exact fun hset => hset.ends
  · intro hclear
    by_cases hne : l = []
    · subst hne
      exact ⟨hclear, nofun, nofun, fun pre s rest he => by simp at he⟩
    · obtain ⟨pre, s, rest, rfl, hpre, hs⟩ := hclear.split hne
      have hexact {u : Seg} (hu : u ∈ pre ++ s :: rest) : g.diff u =
          if u.off ≤ n.toNat then n.toNat - u.off else g.nitems.toNat + n.toNat - u.off := by
        obtain ⟨hoff, -, -⟩ := hl.bounds u hu
        rcases diff_eq h hu ht htail hn hoff with heq | ⟨hover, -⟩
        · exact heq
        · split_ifs at hover ⊢ <;> omega
      have hmem : s ∈ pre ++ s :: rest := mem_append_right pre mem_cons_self
      have hlt : s.off < g.nitems.toNat := (h.segs s hmem).off_lt
      refine (settles_iff hl hpre hs).mpr ⟨?_, ?_, ?_⟩
      · intro p hp
        have hle := hpre p hp
        rw [Seg.fin] at hle
        rw [hexact (mem_append_left _ hp), if_pos (by omega)]
        omega
      · intro _
        have htlt : g.tail.toNat < g.nitems.toNat := by
          rw [htail]
          exact Nat.mod_lt _ (Nat.zero_lt_of_lt ht)
        obtain ⟨hoff, -, hfin⟩ := hl.bounds s hmem
        rw [Seg.fin] at hfin
        omega
      · intro hahead
        rw [hexact hmem, if_neg (Nat.not_le.mpr hahead)]
        omega

end

theorem Collects.mem_iff {k : SvmFifo} {c r : BitVec 32} {us : List Seg} {u : Seg}
    (hc : Collects f { k with cursize := c } l T r) (h : f.Ooo l) (hus : SvmFifo.Ooo { k with tail := t } us)
    (hsub : ∀ u ∈ us, u ∈ l) (hu : u ∈ l) :
    u ∈ us ↔ r.toNat < u.off := by
  have hidx : us.map Seg.idx = (l.filter fun s => r.toNat < s.off).map Seg.idx := by
    have heq : us.map Seg.idx = (remaining l r.toNat).map Seg.idx := hus.list.eq hc.rest.ooo.list
    rw [heq, remaining, List.map_map]
    rfl
  constructor
  · intro hin
    obtain ⟨v, hv, he⟩ := List.mem_map.mp (hidx ▸ List.mem_map_of_mem hin)
    obtain ⟨hv, hlt⟩ := mem_filter.mp hv
    rw [← h.idx_inj hv hu he]
    exact of_decide_eq_true hlt
  · intro hlt
    have hin : u ∈ l.filter fun s => r.toNat < s.off := mem_filter.mpr ⟨hu, decide_eq_true hlt⟩
    obtain ⟨v, hv, he⟩ := List.mem_map.mp (hidx ▸ List.mem_map_of_mem hin)
    exact h.idx_inj (hsub v hv) hu he ▸ hv

theorem move_eq {p y N : Nat} (hp : p < N) (hN : N < 2 ^ 32) (hy : y ≤ N) : (p + y) % 2 ^ 32 % N =
    if p + y < N then p + y else if p + y < 2 ^ 32 then p + y - N else p + y - 2 ^ 32 := by
  rcases Nat.lt_or_ge (p + y) (2 ^ 32) with hlt | hge
  · rw [Nat.mod_eq_of_lt hlt, place_eq hp hy, if_pos hlt]
  · rw [Nat.mod_eq_sub_mod hge, Nat.mod_eq_of_lt (a := p + y - 2 ^ 32) (by omega), Nat.mod_eq_of_lt (by omega),
      if_neg (by omega), if_neg (Nat.not_lt.mpr hge)]

theorem move_ne {p y N : Nat} (hp : p < N) (hN : N < 2 ^ 32) (hpos : 0 < y) (hy : y < N) :
    (p + y) % 2 ^ 32 % N ≠ p := by
  rw [move_eq hp hN hy.le]
  split_ifs <;> omega

theorem toNat_add_of_le {a b : BitVec 32} (h : a.toNat ≤ (a + b).toNat) : (a + b).toNat = a.toNat + b.toNat := by
  have ha := a.isLt
  have hb := b.isLt
  rw [toNat_add] at h ⊢
  omega

def entered (g : SvmFifo) (n : BitVec 32) : SvmFifo × BitVec 32 :=
  ({ (collected g n).1 with cursize := (collected g n).1.cursize + (collected g n).2 }, (collected g n).2)

theorem entered_nil (h : SvmFifo.Ooo { g with tail := t } []) :
    entered g n = ({ g with cursize := g.cursize + n }, n) := by
  have hcol : collected g n = (g, n) := by
    rw [collected, if_neg]
    exact not_not.mpr h.of_nil
  rw [entered, hcol]

theorem entered_cons (h : SvmFifo.Ooo { g with tail := t } l) (hne : l ≠ []) : entered g n =
    ({ (oooSegmentTryCollect g n).1 with
      cursize := (oooSegmentTryCollect g n).1.cursize + (n + (oooSegmentTryCollect g n).2) },
      n + (oooSegmentTryCollect g n).2) := by
  have hcol : collected g n = ((oooSegmentTryCollect g n).1, n + (oooSegmentTryCollect g n).2) := by
    rw [collected, if_pos]
    intro he
    cases l with
    | nil => exact hne rfl
    | cons s l => exact (linkIndex_eq_some.mp (@SvmFifo.Ooo.head { g with tail := t } l s h)).1 he
  rw [entered, hcol]

section
variable (hring : g.InRing) (hsize : t.toNat = (g.head.toNat + g.cursize.toNat) % g.nitems.toNat)
  (hfree : n.toNat ≤ g.nitems.toNat - g.cursize.toNat) (htail : g.tail.toNat = (t.toNat + n.toNat) % g.nitems.toNat)
  (hsegs : SegList (g.nitems.toNat - g.cursize.toNat) (pre ++ s :: rest))
  (h : SvmFifo.Ooo { g with tail := t } (pre ++ s :: rest)) (hpre : ∀ u ∈ pre, g.Passes n u)

include hring hsize in
theorem tail_lt : t.toNat < g.nitems.toNat := by
  rw [hsize]
  exact Nat.mod_lt _ (Nat.zero_lt_of_lt hring.head_lt)

include hring hsize hfree htail hsegs h hpre

theorem passes_fin {u : Seg} (hu : u ∈ pre) (hoff : u.off ≤ n.toNat) : u.fin ≤ n.toNat := by
  have hmem : u ∈ pre ++ s :: rest := mem_append_left _ hu
  have hlen := (hpre u hu).len_le
  have hdiff := diff_eq h hmem (tail_lt hring hsize) htail (hfree.trans (Nat.sub_le _ _)) (hsegs.bounds u hmem).1
  dsimp only at hdiff
  rw [if_pos hoff] at hdiff
  rw [Seg.fin]
  omega

omit hring hsize hfree htail h hpre in
theorem before_fin {u v : Seg} (hu : u ∈ pre) (hv : v ∈ s :: rest) : u.fin < v.off :=
  (apart_append.mp hsegs.apart).2.2 u hu v hv

theorem stays_settles (hne : g.diff s ≠ 0) (hstop : n.toNat ≤ g.diff s ∨ rest = [] ∧ s.len ≤ g.diff s)
    (hc : Collects { g with tail := t } (entered g n).1 (pre ++ s :: rest) n.toNat (entered g n).2) :
    g.Settles n (pre ++ s :: rest) := by
  obtain ⟨hbytes, -, hooo⟩ := tryCollect_stays h hpre hne hstop
  have hn : n + (0 : BitVec 32) = n := BitVec.add_zero n
  rw [entered_cons h (append_ne_nil_of_right_ne_nil _ (cons_ne_nil _ _)), hbytes, hn] at hc
  have hleft {u : Seg} (hu : u ∈ pre ++ s :: rest) : u ∈ s :: rest ↔ n.toNat < u.off :=
    hc.mem_iff h hooo (fun u hu => mem_append_right pre hu) hu
  have hahead : n.toNat < s.off := (hleft (mem_append_right pre mem_cons_self)).mp mem_cons_self
  have hfin : ∀ u ∈ pre, u.fin ≤ n.toNat := by
    intro u hu
    apply passes_fin hring hsize hfree htail hsegs h hpre hu
    apply Nat.le_of_not_lt
    intro hlt
    have hin := (hleft (mem_append_left _ hu)).mpr hlt
    exact absurd (before_fin hsegs hu hin) (Nat.not_lt.mpr (Nat.le_add_right _ _))
  exact (settles_iff hsegs hfin hahead.le).mpr
    ⟨fun u hu => (hpre u hu).len_le, fun he => absurd he hahead.ne', fun _ => ⟨hne, hstop⟩⟩

theorem stays_collects (hne : g.diff s ≠ 0) (hstop : n.toNat ≤ g.diff s ∨ rest = [] ∧ s.len ≤ g.diff s)
    (hfin : ∀ u ∈ pre, u.fin ≤ n.toNat) (hahead : n.toNat < s.off) :
    Collects { g with tail := t } (entered g n).1 (pre ++ s :: rest) n.toNat (entered g n).2 := by
  obtain ⟨hbytes, hk, hooo⟩ := tryCollect_stays h hpre hne hstop
  have hn : n + (0 : BitVec 32) = n := BitVec.add_zero n
  have hle := hring.size_le
  have hrest : ∀ u ∈ s :: rest, n.toNat < u.off := by
    intro u hu
    rcases mem_cons.mp hu with rfl | hu
    · exact hahead
    · have hgap := (apart_cons.mp (apart_append.mp hsegs.apart).2.1).1 u hu
      rw [Seg.fin] at hgap
      omega
  have hoff : ∀ u ∈ pre, u.off ≤ n.toNat := fun u hu => (Nat.le_add_right _ _).trans (hfin u hu)
  have hcovers : ¬ Covers (pre ++ s :: rest) n.toNat := by
    intro hcov
    obtain ⟨u, hu, hstart, hend⟩ := hcov
    rcases mem_append.mp hu with hu | hu
    · exact absurd (hfin u hu) (Nat.not_le.mpr hend)
    · exact absurd (hrest u hu) (Nat.not_lt.mpr hstart)
  rw [entered_cons h (append_ne_nil_of_right_ne_nil _ (cons_ne_nil _ _)), hbytes, hn]
  refine Collects.of_ring (ring_oooSegmentTryCollect g n) hsize hsegs (by dsimp only; omega)
    ((congrArg BitVec.toNat hk).trans htail) (fun x hx => .inl hx) ⟨le_rfl, hcovers⟩ ?_
  rw [filter_off hoff hrest]
  exact hooo

omit hsize in
theorem short_fails (hpos : 0 < g.diff s) (hlt : g.diff s < n.toNat) (hshort : g.diff s < s.len) :
    ¬ Collects { g with tail := t } (entered g n).1 (pre ++ s :: rest) n.toNat (entered g n).2 := by
  intro hc
  obtain ⟨hbytes, hk, -⟩ := tryCollect_short h hpre hpos hlt hshort
  have hn : n + (0 : BitVec 32) = n := BitVec.add_zero n
  rw [entered_cons h (append_ne_nil_of_right_ne_nil _ (cons_ne_nil _ _)), hbytes, hn] at hc
  have hmem : s ∈ pre ++ s :: rest := mem_append_right pre mem_cons_self
  obtain ⟨hoff, -, hend⟩ := hsegs.bounds s hmem
  have hlen : s.len - g.diff s < g.nitems.toNat := by
    rw [Seg.fin] at hend
    omega
  have htlt : g.tail.toNat < g.nitems.toNat := by
    rw [htail]
    exact Nat.mod_lt _ (Nat.zero_lt_of_lt hring.head_lt)
  exact move_ne htlt g.nitems.isLt (Nat.sub_pos_of_lt hshort) hlen (hk.symm.trans (hc.returned.trans htail.symm))

omit hring hsize hfree htail h hpre in
theorem not_covers_fin : ¬ Covers (pre ++ s :: rest) s.fin := by
  intro hcov
  obtain ⟨u, hu, hstart, hend⟩ := hcov
  rcases mem_append.mp hu with hu | hu
  · have hgap := before_fin hsegs hu mem_cons_self
    rw [Seg.fin] at hend
    omega
  · rcases mem_cons.mp hu with rfl | hu
    · exact Nat.lt_irrefl _ hend
    · exact absurd ((apart_cons.mp (apart_append.mp hsegs.apart).2.1).1 u hu) (Nat.not_lt.mpr hstart)

theorem zero_settles (hzero : g.diff s = 0)
    (hc : Collects { g with tail := t } (entered g n).1 (pre ++ s :: rest) n.toNat (entered g n).2) :
    g.Settles n (pre ++ s :: rest) := by
  have hmem : s ∈ pre ++ s :: rest := mem_append_right pre mem_cons_self
  obtain ⟨hoff, hlen, hend⟩ := hsegs.bounds s hmem
  have hroom : s.len ≤ g.nitems.toNat - g.cursize.toNat := (Nat.le_add_left _ _).trans hend
  obtain ⟨hbytes, hk, hooo⟩ := tryCollect_zero h hpre hzero hring.size_le hroom
  rw [entered_cons h (append_ne_nil_of_right_ne_nil _ (cons_ne_nil _ _))] at hc
  have hsfin : s.fin = s.off + s.len := rfl
  have hN := g.nitems.isLt
  -- the returned value does not wrap, or else it is too small
  have hr : (n + (oooSegmentTryCollect g n).2).toNat = n.toNat + s.len := by
    rw [toNat_add_of_le hc.missing.1, hbytes]
  have hreceived := hc.received
  rw [hr] at hreceived
  have hleft {u : Seg} (hu : u ∈ pre ++ s :: rest) : u ∈ rest ↔ n.toNat + s.len < u.off := by
    rw [← hr]
    exact hc.mem_iff h hooo (fun u hu => mem_append_right pre (mem_cons_of_mem s hu)) hu
  have hafter : ∀ u ∈ rest, s.fin < u.off := (apart_cons.mp (apart_append.mp hsegs.apart).2.1).1
  -- nothing before the segment has the byte after those enqueued
  have hcover : Covers (pre ++ s :: rest) n.toNat → s.off ≤ n.toNat ∧ n.toNat < s.fin := by
    intro hcov
    obtain ⟨u, hu, hstart, hlt⟩ := hcov
    rcases mem_append.mp hu with hu | hu
    · exact absurd (passes_fin hring hsize hfree htail hsegs h hpre hu hstart) (Nat.not_le.mpr hlt)
    · rcases mem_cons.mp hu with rfl | hu
      · exact ⟨hstart, hlt⟩
      · have hgap := (hleft (mem_append_right pre (mem_cons_of_mem s hu))).mp hu
        omega
  have hat : s.off = n.toNat := by
    obtain ⟨hstart, hlt⟩ := hcover ((hreceived n.toNat (by omega)).resolve_left (Nat.lt_irrefl _))
    apply Nat.le_antisymm hstart
    apply Nat.le_of_not_lt
    intro hin
    rcases hreceived s.fin (by omega) with hcontra | hcontra
    · omega
    · exact not_covers_fin hsegs hcontra
  have hfin : ∀ u ∈ pre, u.fin ≤ n.toNat := fun u hu => hat ▸ (before_fin hsegs hu mem_cons_self).le
  have hsum : g.tail.toNat + s.len < 2 ^ 32 := by
    have htlt : g.tail.toNat < g.nitems.toNat := by
      rw [htail]
      exact Nat.mod_lt _ (Nat.zero_lt_of_lt hring.head_lt)
    have hplace : (t.toNat + (n.toNat + s.len)) % g.nitems.toNat = (g.tail.toNat + s.len) % g.nitems.toNat := by
      rw [htail, Nat.mod_add_mod, Nat.add_assoc]
    have hreturned := hk.symm.trans (hc.returned.trans (congrArg (fun r => (t.toNat + r) % g.nitems.toNat) hr))
    rw [hplace, place_eq htlt (by omega)] at hreturned
    apply Nat.lt_of_not_le
    intro hover
    rw [move_eq htlt hN (by omega)] at hreturned
    split_ifs at hreturned <;> omega
  exact (settles_iff hsegs hfin hat.ge).mpr ⟨fun u hu => (hpre u hu).len_le, fun _ => hsum, fun hlt =>
    absurd hat hlt.ne'⟩

omit hfree in
theorem zero_collects (hzero : g.diff s = 0) (hat : s.off = n.toNat)
    (hsum : g.tail.toNat + s.len < 2 ^ 32) :
    Collects { g with tail := t } (entered g n).1 (pre ++ s :: rest) n.toNat (entered g n).2 := by
  have hmem : s ∈ pre ++ s :: rest := mem_append_right pre mem_cons_self
  obtain ⟨-, -, hend⟩ := hsegs.bounds s hmem
  rw [Seg.fin] at hend
  obtain ⟨hbytes, hk, hooo⟩ := tryCollect_zero h hpre hzero hring.size_le (by omega)
  have hle := hring.size_le
  have hn := g.nitems.isLt
  have hr : (n + (oooSegmentTryCollect g n).2).toNat = s.fin := by
    rw [toNat_add, hbytes, Nat.mod_eq_of_lt (by omega), Seg.fin, hat]
  have hreturned : (oooSegmentTryCollect g n).1.tail.toNat = (t.toNat + s.fin) % g.nitems.toNat := by
    rw [hk, Nat.mod_eq_of_lt hsum, htail, Nat.mod_add_mod, Seg.fin, hat, Nat.add_assoc]
  have hcovered : ∀ x < s.fin, x < n.toNat ∨ Covers (pre ++ s :: rest) x := by
    intro x hx
    rcases Nat.lt_or_ge x n.toNat with hlt | hge
    · exact .inl hlt
    · exact .inr ⟨s, hmem, hat ▸ hge, hx⟩
  have hbefore : ∀ u ∈ pre ++ [s], u.off ≤ s.fin := by
    intro u hu
    rw [Seg.fin]
    rcases mem_append.mp hu with hu | hu
    · have hlt := before_fin hsegs hu mem_cons_self
      rw [Seg.fin] at hlt
      omega
    · rw [mem_singleton.mp hu]
      exact Nat.le_add_right _ _
  have hfilter : (pre ++ s :: rest).filter (fun u => s.fin < u.off) = rest := by
    rw [append_cons]
    exact filter_off hbefore (apart_cons.mp (apart_append.mp hsegs.apart).2.1).1
  rw [entered_cons h (append_ne_nil_of_right_ne_nil _ (cons_ne_nil _ _))]
  refine Collects.of_ring (ring_oooSegmentTryCollect g n) hsize hsegs ?_ ?_ ?_ ?_ ?_
  · rw [hr, Seg.fin]
    dsimp only
    omega
  · rw [hr]
    exact hreturned
  · rw [hr]
    exact hcovered
  · rw [hr]
    exact ⟨hat ▸ Nat.le_add_right _ _, not_covers_fin hsegs⟩
  · rw [hr, hfilter]
    exact hooo

end

section
variable (hring : g.InRing) (hsize : t.toNat = (g.head.toNat + g.cursize.toNat) % g.nitems.toNat)
  (hfree : n.toNat ≤ g.nitems.toNat - g.cursize.toNat) (hsegs : SegList (g.nitems.toNat - g.cursize.toNat) l)
  (h : SvmFifo.Ooo { g with tail := t } l)
include hring hsize hfree hsegs h

theorem entered_iff (htail : g.tail.toNat = (t.toNat + n.toNat) % g.nitems.toNat) :
    Collects { g with tail := t } (entered g n).1 l n.toNat (entered g n).2 ↔ g.Settles n l := by
  have hle := hring.size_le
  constructor
  · intro hc
    by_cases hne : l = []
    · subst hne
      exact ⟨⟨.inl rfl, nofun⟩, nofun, nofun, fun pre s rest he => by simp at he⟩
    · obtain ⟨pre, s, rest, rfl, hpre, hstop⟩ := exists_stop (g.Passes n) hne
      rcases Nat.eq_zero_or_pos (g.diff s) with hzero | hpos
      · exact zero_settles hring hsize hfree htail hsegs h hpre hzero hc
      · by_cases hin : g.diff s < n.toNat
        · by_cases hlen : s.len ≤ g.diff s
          · exact stays_settles hring hsize hfree htail hsegs h hpre hpos.ne' (.inr ⟨hstop ⟨hpos, hin, hlen⟩, hlen⟩) hc
          · exact absurd hc (short_fails hring hfree htail hsegs h hpre hpos hin (Nat.lt_of_not_le hlen))
        · exact stays_settles hring hsize hfree htail hsegs h hpre hpos.ne' (.inl (Nat.le_of_not_lt hin)) hc
  · intro hset
    by_cases hne : l = []
    · subst hne
      rw [entered_nil h]
      have hooo : SvmFifo.Ooo { g with tail := t } ([].filter fun s : Seg => n.toNat < s.off) := h
      exact Collects.of_ring rfl hsize hsegs (by dsimp only; omega) htail (fun x hx => .inl hx)
        ⟨le_rfl, not_covers_nil⟩ hooo
    · obtain ⟨pre, s, rest, rfl, hfin, hs⟩ := hset.ends.split hne
      obtain ⟨hbehind, hadjacent, hahead⟩ := (settles_iff hsegs hfin hs).mp hset
      have hdiff {u : Seg} (hu : u ∈ pre ++ s :: rest) := diff_eq h hu (tail_lt hring hsize) htail
        (hfree.trans (Nat.sub_le _ _)) (hsegs.bounds u hu).1
      have hpre : ∀ u ∈ pre, g.Passes n u := by
        intro u hu
        have hmem : u ∈ pre ++ s :: rest := mem_append_left _ hu
        obtain ⟨hoff, hlen, -⟩ := hsegs.bounds u hmem
        have hle := hbehind u hu
        have hend := hfin u hu
        have hd := hdiff hmem
        rw [Seg.fin] at hend
        rw [if_pos (by omega)] at hd
        exact ⟨by omega, by omega, hle⟩
      have hmem : s ∈ pre ++ s :: rest := mem_append_right pre mem_cons_self
      rcases Nat.lt_or_eq_of_le hs with hlt | heq
      · obtain ⟨hd, hstop⟩ := hahead hlt
        exact stays_collects hring hsize hfree htail hsegs h hpre hd hstop hfin hlt
      · have hd := hdiff hmem
        rw [if_pos heq.ge] at hd
        exact zero_collects hring hsize htail hsegs h hpre (by omega) heq.symm (hadjacent heq.symm)

/-- Where the sum for the new tail wraps all comes out wrong. -/
theorem wrapped_fails (hwrap : g.tail.toNat + 2 ^ 32 = t.toNat + n.toNat) :
    ¬ Collects { g with tail := t } (entered g n).1 l n.toNat (entered g n).2 := by
  intro hc
  have hN := g.nitems.isLt
  have ht := tail_lt hring hsize
  have hn0 : n + (0 : BitVec 32) = n := BitVec.add_zero n
  have hplace : (t.toNat + n.toNat) % g.nitems.toNat = t.toNat + n.toNat - g.nitems.toNat := by
    rw [place_eq ht (by omega), if_neg (by omega)]
  by_cases hne : l = []
  · subst hne
    rw [entered_nil h] at hc
    have hreturned := hc.returned.trans hplace
    dsimp only at hreturned
    omega
  · obtain ⟨pre, s, rest, rfl, hpre, hstop⟩ := exists_stop (g.Passes n) hne
    rw [entered_cons h hne] at hc
    have hmem : s ∈ pre ++ s :: rest := mem_append_right pre mem_cons_self
    obtain ⟨hoff, hlen, hend⟩ := hsegs.bounds s hmem
    rw [Seg.fin] at hend
    rcases Nat.eq_zero_or_pos (g.diff s) with hzero | hpos
    · obtain ⟨hbytes, hk, -⟩ := tryCollect_zero h hpre hzero hring.size_le (by omega)
      have hr := toNat_add_of_le hc.missing.1
      have hreturned := hc.returned
      dsimp only at hreturned
      rw [hr, hk, hbytes, move_eq (by omega) hN (by omega)] at hreturned
      have hround : (t.toNat + (n.toNat + s.len)) % g.nitems.toNat =
          if g.tail.toNat + 2 ^ 32 + s.len < 2 * g.nitems.toNat then g.tail.toNat + 2 ^ 32 + s.len - g.nitems.toNat
          else g.tail.toNat + 2 ^ 32 + s.len - 2 * g.nitems.toNat := by
        rw [← Nat.add_assoc, ← hwrap, Nat.mod_eq_sub_mod (by omega)]
        split
        · exact Nat.mod_eq_of_lt (by omega)
        · rw [Nat.mod_eq_sub_mod (by omega), Nat.mod_eq_of_lt (by omega)]
          omega
      rw [hround] at hreturned
      split_ifs at hreturned <;> omega
    · by_cases hshort : g.diff s < n.toNat ∧ g.diff s < s.len
      · obtain ⟨hbytes, hk, hooo⟩ := tryCollect_short h hpre hpos hshort.1 hshort.2
        rw [hbytes, hn0] at hc
        have hahead : n.toNat < s.off :=
          (hc.mem_iff h hooo (fun u hu => mem_append_right pre hu) hmem).mp mem_cons_self
        have hreturned := hc.returned.trans hplace
        dsimp only at hreturned
        rw [hk, move_eq (by omega) hN (by omega)] at hreturned
        have hdiff := diff_cases h hmem (by omega)
        dsimp only at hdiff
        rw [place_eq ht (by omega)] at hdiff
        split_ifs at hdiff hreturned <;> omega
      · have hstay : n.toNat ≤ g.diff s ∨ rest = [] ∧ s.len ≤ g.diff s := by
          rcases Nat.lt_or_ge (g.diff s) n.toNat with hlt | hge
          · have hle := Nat.le_of_not_lt fun hlt' => hshort ⟨hlt, hlt'⟩
            exact .inr ⟨hstop ⟨hpos, hlt, hle⟩, hle⟩
          · exact .inl hge
        obtain ⟨hbytes, hk, -⟩ := tryCollect_stays h hpre hpos.ne' hstay
        rw [hbytes, hn0] at hc
        have hreturned := hc.returned.trans hplace
        dsimp only at hreturned
        rw [hk] at hreturned
        omega

end

def SvmFifo.moved (f : SvmFifo) (n : BitVec 32) : SvmFifo :=
  { f with tail := BitVec.ofNat 32 ((f.tail.toNat + n.toNat) % f.nitems.toNat) }

/-- The bytes end at the right place; those of a zero-copy enqueue are added to the tail without a wrap. -/
def SvmFifo.CanCollect (f : SvmFifo) (n : BitVec 32) (copyFromHere : Option Buffer) (l : List Seg) : Prop :=
  (copyFromHere = none → f.tail.toNat + n.toNat < 2 ^ 32) ∧ (f.moved n).Settles n l

theorem collects_data (data : Buffer) (f' : SvmFifo) (r : BitVec 32) :
    Collects { f with data } f' l T r ↔ Collects f f' l T r :=
  ⟨fun h => ⟨h.size, h.returned, h.received, h.missing, h.rest⟩, fun h =>
    ⟨h.size, h.returned, h.received, h.missing, h.rest⟩⟩

theorem settles_data (data : Buffer) : SvmFifo.Settles { g with data } n l ↔ g.Settles n l :=
  ⟨fun h => ⟨h.ends, h.behind, h.adjacent, h.ahead⟩, fun h => ⟨h.ends, h.behind, h.adjacent, h.ahead⟩⟩

theorem svm_fifo_collect (f : SvmFifo) (l : List Seg) (maxBytes : BitVec 32) (copyFromHere : Option Buffer)
    (hring : f.InRing) (hsize : f.tail.toNat = (f.head.toNat + f.cursize.toNat) % f.nitems.toNat) (h : f.HasOoo l)
    (hfits : copyFromHere = none → maxBytes ≤ f.nitems - f.cursize) :
    let r := svmFifoEnqueueNowait f maxBytes copyFromHere
    let n := copyBytes f maxBytes
    (f.cursize = f.nitems → r = (f, fifoStuck)) ∧
      (f.cursize ≠ f.nitems → (Collects f r.1 l n.toNat r.2 ↔ f.CanCollect n copyFromHere l)) ∧
      (f.nitems.toNat ≤ 2 ^ 31 → (f.CanCollect n copyFromHere l ↔ EndsClear l n.toNat)) := by
  have ht : f.tail.toNat < f.nitems.toNat := tail_lt hring hsize
  have hN := f.nitems.isLt
  have hfreeEq : (f.nitems - f.cursize).toNat = f.nitems.toNat - f.cursize.toNat :=
    toNat_sub_of_le (le_def.mpr hring.size_le)
  have hfree : (copyBytes f maxBytes).toNat ≤ f.nitems.toNat - f.cursize.toNat := by
    rw [copyBytes, min_toNat, hfreeEq]
    exact Nat.min_le_left _ _
  dsimp only
  generalize hn : copyBytes f maxBytes = n at hfree ⊢
  have hmod : (f.tail.toNat + n.toNat) % f.nitems.toNat < f.nitems.toNat := Nat.mod_lt _ (Nat.zero_lt_of_lt ht)
  have hmoved : (f.moved n).tail.toNat = (f.tail.toNat + n.toNat) % f.nitems.toNat := by
    rw [SvmFifo.moved, toNat_ofNat, Nat.mod_eq_of_lt (hmod.trans hN)]
  -- with the right tail, whatever the data
  have hentered (data : Buffer) {p : BitVec 32} (hp : p.toNat = (f.tail.toNat + n.toNat) % f.nitems.toNat) :
      Collects f (entered { f with data, tail := p } n).1 l n.toNat (entered { f with data, tail := p } n).2 ↔
        (f.moved n).Settles n l := by
    have hiff := @entered_iff { f with data, tail := p } f.tail n l (hring.congr rfl) hsize hfree h.segs
      ((SvmFifo.Ooo.data data).mpr h.ooo) hp
    have heq : (f.moved n).tail = p := eq_of_toNat_eq (hmoved.trans hp.symm)
    have hset : SvmFifo.Settles { f with data, tail := p } n l ↔ (f.moved n).Settles n l := by
      rw [← heq]
      exact @settles_data (f.moved n) n l data
    exact (collects_data data _ _).symm.trans (hiff.trans hset)
  refine ⟨?_, ?_, ?_⟩
  · intro hfull
    rw [svmFifoEnqueueNowait, svmFifoEnqueueInternal, if_pos hfull]
  · intro hne
    rw [SvmFifo.CanCollect]
    cases copyFromHere with
    | some buf =>
      obtain ⟨tail, htail, he⟩ := enqueueCopy_eq ht (hfree.trans (Nat.sub_le _ _)) buf
      rw [enqueue_some hne, hn, he]
      exact (hentered _ htail).trans (and_iff_right fun hnone => absurd hnone (Option.some_ne_none buf)).symm
    | none =>
      have hall : n = maxBytes := by
        rw [← hn, copyBytes, if_neg (BitVec.not_lt.mpr (hfits rfl))]
      rw [enqueue_none hne, ← hall]
      have hsum : ((f.tail + n) % f.nitems).toNat = (f.tail.toNat + n.toNat) % 2 ^ 32 % f.nitems.toNat := by
        rw [toNat_umod, toNat_add]
      rcases Nat.lt_or_ge (f.tail.toNat + n.toNat) (2 ^ 32) with hlt | hover
      · rw [Nat.mod_eq_of_lt hlt] at hsum
        exact (hentered f.data hsum).trans (and_iff_right fun _ => hlt).symm
      · rw [move_eq ht hN (by omega), if_neg (by omega), if_neg (Nat.not_lt.mpr hover)] at hsum
        have hfails := @wrapped_fails { f with tail := (f.tail + n) % f.nitems } f.tail n l
            (hring.congr rfl) hsize hfree h.segs
          h.ooo (by dsimp only; omega)
        exact ⟨fun hc => absurd hc hfails, fun hcan => absurd (hcan.1 rfl) (Nat.not_lt.mpr hover)⟩
  · intro hsmall
    have hiff := @settles_of_le (f.moved n) f.tail n l h.ring h.ooo ht hmoved (hfree.trans (Nat.sub_le _ _)) hsmall
    rw [SvmFifo.CanCollect, hiff]
    exact and_iff_right fun _ => by omega

/-- Ten bytes are past the first segment and not at the second. -/
theorem svm_fifo_collect_ten : Collects twoSegs (svmFifoEnqueueNowait twoSegs 10 (some fun _ => 0)).1
    [⟨0, 1, 4⟩, ⟨1, 20, 5⟩] 10 (svmFifoEnqueueNowait twoSegs 10 (some fun _ => 0)).2 := by
  have hspec := svm_fifo_collect twoSegs _ 10 (some fun _ => 0) ⟨by decide, by decide⟩ (by decide) hasOoo_twoSegs nofun
  refine (hspec.2.1 (by decide)).mpr ((hspec.2.2 (by decide)).mpr ⟨?_, ?_⟩)
  · exact .inr ⟨⟨1, 20, 5⟩, by decide, by decide⟩
  · decide

/-- Three bytes end in the first segment: the tail moves past it, and the size does not. -/
theorem svm_fifo_collect_fails : ¬ ∀ (f : SvmFifo) (l : List Seg) (maxBytes : BitVec 32) (copyFromHere : Option Buffer),
    f.InRing → f.tail.toNat = (f.head.toNat + f.cursize.toNat) % f.nitems.toNat → f.HasOoo l →
      (copyFromHere = none → maxBytes ≤ f.nitems - f.cursize) → f.cursize ≠ f.nitems →
      Collects f (svmFifoEnqueueNowait f maxBytes copyFromHere).1 l (copyBytes f maxBytes).toNat
        (svmFifoEnqueueNowait f maxBytes copyFromHere).2 := by
  intro hall
  have hc := hall twoSegs _ 3 (some fun _ => 0) ⟨by decide, by decide⟩ (by decide) hasOoo_twoSegs nofun (by decide)
  exact absurd hc.size (by decide)

end Vpp.Svm
