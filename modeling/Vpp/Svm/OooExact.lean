import Vpp.Svm.OooAdd

namespace Vpp.Svm
open Vpp.Lib List BitVec

variable {f f' : SvmFifo} {l l' : List Seg} {offset length : BitVec 32}

theorem SvmFifo.Ooo.unique (h : f.Ooo l) (h' : f.Ooo l') : l = l' := by
  have hidx : l.map Seg.idx = l'.map Seg.idx := h.list.eq h'.list
  have hseg {s t : Seg} (hs : f.HasSeg s) (ht : f.HasSeg t) (he : s.idx = t.idx) : s = t := by
    have hoff : s.off = t.off := by
      have hmod := hs.position.symm.trans (he ▸ ht.position)
      exact (Nat.ModEq.add_left_cancel' _ hmod).eq_of_lt_of_lt hs.off_lt ht.off_lt
    obtain ⟨i, o, len⟩ := s
    obtain ⟨i', o', len'⟩ := t
    dsimp only at he hoff
    subst he hoff
    congr 1
    exact hs.length.symm.trans ht.length
  apply ext_getElem
  · simpa using congrArg List.length hidx
  · intro k hk hk'
    apply hseg (h.segs _ (getElem_mem hk)) (h'.segs _ (getElem_mem hk'))
    have := congrArg (·[k]?) hidx
    simpa [hk, hk'] using this

structure SvmFifo.Request (f : SvmFifo) (offset length : BitVec 32) : Prop where
  tail_lt : f.tail.toNat < f.nitems.toNat
  cursize_le : f.cursize.toNat ≤ f.nitems.toNat
  room : f.oooSegments.elts.length < 2 ^ 32 - 1
  offset_pos : 0 < offset.toNat
  length_pos : 0 < length.toNat
  end_le : offset.toNat + length.toNat ≤ f.nitems.toNat - f.cursize.toNat

/-- The segments are in order, apart and where they can be in the fifo, which has them in a list. -/
structure SvmFifo.HasOoo (f : SvmFifo) (l : List Seg) : Prop where
  segs : SegList (f.nitems.toNat - f.cursize.toNat) l
  ooo : f.Ooo l

/-- Wherever the search ends, the code does the right thing. -/
def SvmFifo.Safe (f : SvmFifo) (l : List Seg) (offset length : BitVec 32) : Prop :=
  ∀ pre s post, l = pre ++ s :: post → Located offset.toNat pre s post →
    AddSafe f.nitems.toNat offset.toNat (offset.toNat + length.toNat) pre s post

def SvmFifo.Added (f : SvmFifo) (l : List Seg) (offset length : BitVec 32) : Prop :=
  ∃ l', f.Ooo l' ∧ Adds offset.toNat (offset.toNat + length.toNat) l l'

theorem enqueue_eq (h : f.Request offset length) (copyFromHere : Buffer) : ∃ data,
    svmFifoEnqueueWithOffset f offset length copyFromHere = ({ oooSegmentAdd f offset length with data }, 0) := by
  have hle : ¬ length + offset > f.nitems - f.cursize := by
    have hfit := h.end_le
    have hn := f.nitems.isLt
    rw [gt_iff_lt, lt_def, toNat_sub_of_le (le_def.mpr h.cursize_le), toNat_add,
      Nat.mod_eq_of_lt (by omega)]
    omega
  rw [svmFifoEnqueueWithOffset, if_neg hle]
  exact ⟨_, rfl⟩

theorem SvmFifo.Ooo.data (data : Buffer) : SvmFifo.Ooo { f with data } l ↔ f.Ooo l := by
  constructor
  · exact fun h => ⟨h.list, fun s hs => ⟨(h.segs s hs).live, (h.segs s hs).small, (h.segs s hs).position,
      (h.segs s hs).length, (h.segs s hs).off_lt⟩⟩
  · exact fun h => ⟨h.list, fun s hs => ⟨(h.segs s hs).live, (h.segs s hs).small, (h.segs s hs).position,
      (h.segs s hs).length, (h.segs s hs).off_lt⟩⟩

theorem added_data (data : Buffer) :
    SvmFifo.Added { f with data } l offset length ↔ f.Added l offset length :=
  exists_congr fun _ => and_congr_left' (SvmFifo.Ooo.data data)

theorem Located.unique (h : Located a pre s post) (h' : Located a pre' s' post')
    (hl : pre ++ s :: post = pre' ++ s' :: post') : pre = pre' ∧ s = s' ∧ post = post' := by
  have hshort {us vs ws zs xs : List Seg} {t u : Seg} (h : Located a us t vs) (h' : Located a ws u zs)
      (hws : ws = us ++ t :: xs) (hvs : vs = xs ++ u :: zs) : False := by
    have hle : t.off ≤ a := h'.before t (hws ▸ mem_append_right us mem_cons_self)
    rcases h.after with hnil | hlt
    · rw [hnil] at hvs
      simp at hvs
    · exact absurd hlt (Nat.not_lt.mpr hle)
  rcases append_eq_append_iff.mp hl with ⟨ws, hws, hs⟩ | ⟨ws, hws, hs⟩
  · cases ws with
    | nil =>
      obtain ⟨rfl, rfl⟩ := List.cons.inj hs
      exact ⟨by simpa using hws.symm, rfl, rfl⟩
    | cons w ws =>
      exact (hshort h h' ((List.cons.inj hs).1 ▸ hws) (List.cons.inj hs).2).elim
  · cases ws with
    | nil =>
      obtain ⟨rfl, rfl⟩ := List.cons.inj hs
      exact ⟨by simpa using hws, rfl, rfl⟩
    | cons w ws =>
      exact (hshort h' h ((List.cons.inj hs).1 ▸ hws) (List.cons.inj hs).2).elim

section
variable (hq : f.Request offset length) (h : f.HasOoo l)
include hq h

omit hq in
theorem SvmFifo.HasOoo.ring : SegList f.nitems.toNat l :=
  ⟨h.segs.apart, fun s hs => ⟨(h.segs.bounds s hs).1, (h.segs.bounds s hs).2.1,
    (h.segs.bounds s hs).2.2.trans (Nat.sub_le _ _)⟩⟩

theorem added_of_safe (hw : f.NoWrap l offset.toNat) (hsafe : f.Safe l offset length) :
    (oooSegmentAdd f offset length).Added l offset length := by
  have hend := hq.end_le
  have hlen := hq.length_pos
  have ha : offset.toNat < f.nitems.toNat := by omega
  have hb : offset.toNat + length.toNat ≤ f.nitems.toNat := by omega
  by_cases hne : l = []
  · refine ⟨_, oooSegmentAdd_nil h.ooo hq.room hw ha hne, pairwise_singleton _ _, ?_⟩
    intro x
    rw [covers_cons, hne, or_iff_left not_covers_nil, or_iff_right not_covers_nil]
    rfl
  · obtain ⟨pre, s, post, rfl, hloc, hooo⟩ :=
      oooSegmentAdd_cons h.ring h.ooo hq.tail_lt hq.room hw ha hb hq.offset_pos hne
    exact ⟨_, hooo, addSegs_safe h.ring hloc hq.offset_pos (by omega) (hsafe pre s post rfl hloc)⟩

theorem safe_of_added (hn : f.nitems.toNat ≤ 2 ^ 31) (hadd : (oooSegmentAdd f offset length).Added l offset length) :
    f.Safe l offset length := by
  have hend := hq.end_le
  have hlen := hq.length_pos
  have ha : offset.toNat < f.nitems.toNat := by omega
  have hb : offset.toNat + length.toNat ≤ f.nitems.toNat := by omega
  intro pre s post hl hloc
  have hne : l ≠ [] := by simp [hl]
  obtain ⟨pre', s', post', hl', hloc', hooo⟩ :=
    oooSegmentAdd_cons h.ring h.ooo hq.tail_lt hq.room (.of_le hn hq.tail_lt ha) ha hb hq.offset_pos hne
  obtain ⟨rfl, rfl, rfl⟩ := hloc.unique hloc' (hl.symm.trans hl')
  obtain ⟨l', hooo', hadds⟩ := hadd
  rw [hooo'.unique hooo, hl] at hadds
  exact addSegs_unsafe (hl ▸ h.ring) hq.offset_pos (by omega) hb hn hadds

end

theorem ooo_segment_add (f : SvmFifo) (l : List Seg) (offset length : BitVec 32) (copyFromHere : Buffer)
    (h : f.HasOoo l) (hq : f.Request offset length) :
    (f.NoWrap l offset.toNat → f.Safe l offset length →
      (svmFifoEnqueueWithOffset f offset length copyFromHere).2 = 0 ∧
      (svmFifoEnqueueWithOffset f offset length copyFromHere).1.Added l offset length) ∧
    (f.nitems.toNat ≤ 2 ^ 31 → ((svmFifoEnqueueWithOffset f offset length copyFromHere).2 = 0 →
      (svmFifoEnqueueWithOffset f offset length copyFromHere).1.Added l offset length) →
      f.NoWrap l offset.toNat ∧ f.Safe l offset length) := by
  obtain ⟨data, heq⟩ := enqueue_eq hq copyFromHere
  have hend := hq.end_le
  have hlen := hq.length_pos
  rw [heq]
  constructor
  · intro hw hsafe
    exact ⟨rfl, (added_data data).mpr (added_of_safe hq h hw hsafe)⟩
  · intro hn hadd
    exact ⟨.of_le hn hq.tail_lt (by omega), safe_of_added hq h hn ((added_data data).mp (hadd rfl))⟩

/-- Two segments, from 1 to 5 and from 20 to 25. -/
def twoSegs : SvmFifo where
  cursize := 0
  nitems := 100
  head := 0
  tail := 0
  oooSegments := .ofElts [⟨1, oooSegmentInvalidIndex, 1, 4⟩, ⟨oooSegmentInvalidIndex, 0, 20, 5⟩]
  ooosListHead := 0
  ooosNewest := 0
  data := fun _ => 0

theorem hasOoo_twoSegs : twoSegs.HasOoo [⟨0, 1, 4⟩, ⟨1, 20, 5⟩] := by
  constructor
  · exact ⟨by simp [Apart, Seg.fin], by decide⟩
  · constructor
    · exact .of_getElem (by decide) rfl rfl (by decide)
    · intro s hs
      rcases mem_cons.mp hs with rfl | hs
      · exact ⟨by decide, by decide, by decide, by decide, by decide⟩
      · rw [mem_singleton.mp hs]
        exact ⟨by decide, by decide, by decide, by decide, by decide⟩

theorem twoSegs_located (ha : 1 ≤ a) : Located a [⟨0, 1, 4⟩] ⟨1, 20, 5⟩ [] :=
  ⟨by simpa using ha, .inl rfl⟩

theorem ooo_segment_add_fails : ¬ ∀ (f : SvmFifo) (l : List Seg) (offset length : BitVec 32) (copyFromHere : Buffer),
    f.HasOoo l → f.Request offset length → (svmFifoEnqueueWithOffset f offset length copyFromHere).2 = 0 →
      (svmFifoEnqueueWithOffset f offset length copyFromHere).1.Added l offset length := by
  intro hall
  have hq : twoSegs.Request 3 5 := ⟨by decide, by decide, by decide, by decide, by decide, by decide⟩
  obtain ⟨data, heq⟩ := enqueue_eq hq fun _ => 0
  have hadd := hall twoSegs _ 3 5 (fun _ => 0) hasOoo_twoSegs hq (by rw [heq])
  rw [heq] at hadd
  have hsafe := safe_of_added hq hasOoo_twoSegs (by decide) ((added_data data).mp hadd)
  have hbefore := (hsafe _ _ _ rfl (twoSegs_located (by decide))).before (by decide) _ mem_cons_self
  exact absurd hbefore (by decide)

/-- From 7 to 10, between the two. -/
theorem ooo_segment_add_between :
    (svmFifoEnqueueWithOffset twoSegs 7 3 fun _ => 0).1.Added [⟨0, 1, 4⟩, ⟨1, 20, 5⟩] 7 3 := by
  have hq : twoSegs.Request 7 3 := ⟨by decide, by decide, by decide, by decide, by decide, by decide⟩
  have hspec := ooo_segment_add twoSegs _ 7 3 (fun _ => 0) hasOoo_twoSegs hq
  refine (hspec.1 (.of_le (by decide) (by decide) (by decide)) ?_).2
  intro pre s post hl hloc
  obtain ⟨rfl, rfl, rfl⟩ := hloc.unique (twoSegs_located (a := 7) (by decide)) hl.symm
  exact ⟨by decide, by decide, by decide, by decide⟩

end Vpp.Svm
