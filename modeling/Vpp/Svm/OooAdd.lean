import Vpp.Svm.OooList

namespace Vpp.Svm
open Vpp.Lib List

variable {f f' : SvmFifo} {x y e : BitVec 32} {l xs ys : List Seg} {s d : Seg} {a b n o len : Nat}

/-- The sum for an end that is `len` behind the offset does not wrap, or does so without harm. -/
def SvmFifo.Fits (f : SvmFifo) (o len : Nat) : Prop :=
  f.nitems.toNat ≤ 2 ^ 31 ∨ f.nitems.toNat + (f.tail.toNat + o) % f.nitems.toNat + len < 2 ^ 32 + f.tail.toNat

theorem SvmFifo.Fits.start (h : f.Fits o len) : f.Fits o 0 := h.imp_right fun h => by omega

theorem SvmFifo.Fits.same (h : f.Fits o len) (ht : f'.tail = f.tail) (hn : f'.nitems = f.nitems) : f'.Fits o len := by
  unfold SvmFifo.Fits
  rw [ht, hn]
  exact h

theorem offset_eq (ht : t < n) (ho : o < n) : ∃ k, n + (t + o) % n = t + o + k * n ∧ k ≤ 1 := by
  by_cases hlt : t + o < n
  · exact ⟨1, by rw [Nat.mod_eq_of_lt hlt]; omega, le_refl 1⟩
  · refine ⟨0, ?_, Nat.zero_le 1⟩
    rw [Nat.mod_eq_sub_mod (by omega), Nat.mod_eq_of_lt (by omega)]
    omega

theorem fifoOffset (ht : f.tail.toNat < f.nitems.toNat) (ho : o < f.nitems.toNat) (hlen : o + y.toNat ≤ f.nitems.toNat)
    (hx : x.toNat = (f.tail.toNat + o) % f.nitems.toNat) (hfit : f.Fits o y.toNat) :
    ((f.nitems + x + y - f.tail) % f.nitems).toNat = (o + y.toNat) % f.nitems.toNat := by
  obtain ⟨k, hk, hk1⟩ := offset_eq ht ho
  have hn := f.nitems.isLt
  have hsum : f.nitems.toNat + x.toNat + y.toNat = f.tail.toNat + (o + y.toNat + k * f.nitems.toNat) := by
    rw [hx, hk]
    omega
  have hval : (f.nitems + x + y - f.tail).toNat = (o + y.toNat + k * f.nitems.toNat) % 2 ^ 32 := by
    simp only [BitVec.toNat_sub, BitVec.toNat_add]
    omega
  rw [BitVec.toNat_umod, hval]
  by_cases hlt : o + y.toNat + k * f.nitems.toNat < 2 ^ 32
  · rw [Nat.mod_eq_of_lt hlt, Nat.add_mul_mod_self_right]
  · -- the ring is half of all numbers, and the end is that of the ring
    rcases hfit with hhalf | hfit
    · have hkn : k * f.nitems.toNat ≤ 1 * f.nitems.toNat := Nat.mul_le_mul_right _ hk1
      have hend : o + y.toNat = f.nitems.toNat ∧ o + y.toNat + k * f.nitems.toNat = 2 ^ 32 := by omega
      rw [hend.2, hend.1, Nat.mod_self, Nat.mod_self, Nat.zero_mod]
    · omega

theorem oooSegmentOffset_eq {g : OooSegment} (ht : f.tail.toNat < f.nitems.toNat) (ho : o < f.nitems.toNat)
    (hx : g.fifoPosition.toNat = (f.tail.toNat + o) % f.nitems.toNat) (hfit : f.Fits o 0) :
    (oooSegmentOffset f g).toNat = o := by
  have h := fifoOffset (y := 0#32) ht ho (by simpa using ho.le) hx hfit
  rw [BitVec.add_zero] at h
  exact h.trans (Nat.mod_eq_of_lt ho)

namespace SvmFifo.HasSeg

theorem offset (h : f.HasSeg s) (hx : linkIndex x = some s.idx) (ht : f.tail.toNat < f.nitems.toNat)
    (hfit : f.Fits s.off 0) : (oooSegmentOffset f (f.segment x)).toNat = s.off := by
  apply oooSegmentOffset_eq ht h.off_lt _ hfit
  rw [SvmFifo.segment, (linkIndex_eq_some.mp hx).2]
  exact h.position

theorem endOffset (h : f.HasSeg s) (hx : linkIndex x = some s.idx) (ht : f.tail.toNat < f.nitems.toNat)
    (hfin : s.fin ≤ f.nitems.toNat) (hfit : f.Fits s.off s.len) :
    (oooSegmentEndOffset f (f.segment x)).toNat = s.fin % f.nitems.toNat := by
  have hlen : (f.segment x).length.toNat = s.len := by
    rw [SvmFifo.segment, (linkIndex_eq_some.mp hx).2]
    exact h.length
  have hpos : (f.segment x).fifoPosition.toNat = (f.tail.toNat + s.off) % f.nitems.toNat := by
    rw [SvmFifo.segment, (linkIndex_eq_some.mp hx).2]
    exact h.position
  have hend := fifoOffset (y := (f.segment x).length) ht h.off_lt (by rw [hlen]; exact hfin) hpos
      (by rw [hlen]; exact hfit)
  rw [hlen] at hend
  exact hend

end SvmFifo.HasSeg

theorem SvmFifo.Ooo.resize {g : OooSegment → OooSegment} (h : f.Ooo (xs ++ d :: ys))
    (hx : linkIndex x = some d.idx) (hg : ∀ t, (g t).next = t.next ∧ (g t).prev = t.prev)
    (hpos : (g (f.segment x)).fifoPosition.toNat = (f.tail.toNat + o) % f.nitems.toNat)
    (hlen : (g (f.segment x)).length.toNat = len) (ho : o < f.nitems.toNat) :
    (f.modifySegment x g).Ooo (xs ++ ⟨d.idx, o, len⟩ :: ys) := by
  have hxi := (linkIndex_eq_some.mp hx).2
  have hmap : (xs ++ (⟨d.idx, o, len⟩ : Seg) :: ys).map Seg.idx = (xs ++ d :: ys).map Seg.idx := by
    rw [map_append, map_cons, map_append, map_cons]
  have hd := h.segs d (mem_append_right xs mem_cons_self)
  have hlive : f.oooSegments.Live x.toNat := hxi ▸ hd.live
  have hnd := h.nodup
  rw [map_append, map_cons, nodup_append] at hnd
  have hself : (f.modifySegment x g).oooSegments.eltAt d.idx = g (f.segment x) := by
    rw [← hxi]
    exact Pool.eltAt_modify_self hlive
  have hother {i : Nat} (hi : i ≠ d.idx) : (f.modifySegment x g).oooSegments.eltAt i = f.oooSegments.eltAt i :=
    Pool.eltAt_modify_ne (hxi ▸ hi)
  have hsame {t : Seg} (ht : f.HasSeg t) (hne : t.idx ≠ d.idx) : (f.modifySegment x g).HasSeg t := by
    refine ⟨Pool.live_modify.mpr ht.live, ht.small, ?_, ?_, ht.off_lt⟩
    · rw [hother hne]
      exact ht.position
    · rw [hother hne]
      exact ht.length
  constructor
  · rw [hmap]
    apply h.list.congr
    · exact fun i _ => congrArg linkIndex (Pool.proj_modify (fun t => (hg t).1) f.oooSegments x.toNat i)
    · exact fun i _ => congrArg linkIndex (Pool.proj_modify (fun t => (hg t).2) f.oooSegments x.toNat i)
  · intro t ht
    rcases mem_append.mp ht with ht | ht
    · refine hsame (h.segs t (mem_append_left _ ht)) fun he => ?_
      exact hnd.2.2 _ (List.mem_map_of_mem ht) _ mem_cons_self he
    · rcases mem_cons.mp ht with rfl | ht
      · exact ⟨Pool.live_modify.mpr hd.live, hd.small, (congrArg (·.fifoPosition.toNat) hself).trans hpos,
          (congrArg (·.length.toNat) hself).trans hlen, ho⟩
      · refine hsame (h.segs t (mem_append_right xs (mem_cons_of_mem d ht))) fun he => ?_
        exact (nodup_cons.mp hnd.2.1).1 (he ▸ List.mem_map_of_mem ht)

theorem SvmFifo.Ooo.length_le (h : f.Ooo l) : l.length ≤ f.oooSegments.elts.length := by
  have hsub : l.map Seg.idx ⊆ List.range f.oooSegments.elts.length := by
    intro i hi
    exact mem_range.mpr (h.mem_of_idx hi).1
  have hle := (subperm_of_subset h.nodup hsub).length_le
  rwa [length_map, length_range] at hle

theorem findSegment_spec (ht : f.tail.toNat < f.nitems.toNat) (hf : f.Ooo l) (hfit : ∀ s ∈ l, f.Fits s.off 0)
    {fuel : Nat} (hl : l = xs ++ d :: ys) (hx : linkIndex x = some d.idx) (hfuel : ys.length ≤ fuel)
    (hxs : ∀ p ∈ xs, p.off ≤ y.toNat) :
    ∃ pre s post, l = pre ++ s :: post ∧ linkIndex (findSegment f y fuel x) = some s.idx ∧
      Located y.toNat pre s post := by
  induction fuel generalizing xs d ys x with
  | zero =>
    exact ⟨xs, d, ys, hl, hx, hxs, .inl (length_eq_zero_iff.mp (Nat.le_zero.mp hfuel))⟩
  | succ fuel ih =>
    have hd : d ∈ l := hl ▸ mem_append_right xs mem_cons_self
    have hoff := (hf.segs d hd).offset hx ht (hfit d hd)
    have hnext : linkIndex (f.segment x).next = (ys.map Seg.idx).head? := by
      rw [← nexts_eq hx]
      exact (hl ▸ hf).neighbours.1
    unfold findSegment
    split
    · next hc =>
      rw [BitVec.le_def, hoff] at hc
      cases ys with
      | nil => exact absurd (linkIndex_eq_none.mp hnext) hc.1
      | cons z ys =>
        apply ih (hl.trans (by rw [List.append_assoc, singleton_append]) : l = (xs ++ [d]) ++ z :: ys) hnext
          (Nat.le_of_succ_le_succ hfuel)
        intro p hp
        rcases mem_append.mp hp with hp | hp
        · exact hxs p hp
        · exact mem_singleton.mp hp ▸ hc.2
    · next hc =>
      refine ⟨xs, d, ys, hl, hx, hxs, ?_⟩
      rw [not_and_or, not_not, BitVec.le_def, hoff] at hc
      rcases hc with hc | hc
      · left
        rw [linkIndex_eq_none.mpr hc] at hnext
        exact map_eq_nil_iff.mp (head?_eq_none_iff.mp hnext.symm)
      · exact .inr (Nat.not_le.mp hc)

theorem removeCovered_spec {fuel : Nat} (hf : f.Ooo (xs ++ d :: ys)) (hx : linkIndex x = (ys.map Seg.idx).head?)
    (ht : f.tail.toNat < f.nitems.toNat) (hfit : ∀ s ∈ ys, f.Fits s.off s.len ∧ s.fin ≤ f.nitems.toNat)
    (hfuel : ys.length < fuel) :
    (removeCovered e fuel f x).1.Ooo (xs ++ d :: ys.dropWhile fun z => z.fin % f.nitems.toNat < e.toNat) ∧
      linkIndex (removeCovered e fuel f x).2 =
        ((ys.dropWhile fun z => z.fin % f.nitems.toNat < e.toNat).map Seg.idx).head? ∧
      (removeCovered e fuel f x).1.tail = f.tail ∧ (removeCovered e fuel f x).1.nitems = f.nitems := by
  induction fuel generalizing f x ys with
  | zero => exact absurd hfuel (Nat.not_lt_zero _)
  | succ fuel ih =>
    unfold removeCovered
    cases ys with
    | nil =>
      rw [if_neg fun hc => hc.1 (linkIndex_eq_none.mp hx)]
      exact ⟨hf, hx, rfl, rfl⟩
    | cons z ys =>
      have hsplit : xs ++ d :: z :: ys = (xs ++ [d]) ++ z :: ys := by rw [List.append_assoc, singleton_append]
      have hz := hf.segs z (by rw [hsplit]; exact mem_append_right _ mem_cons_self)
      have hend := hz.endOffset hx ht (hfit z mem_cons_self).2 (hfit z mem_cons_self).1
      by_cases hc : z.fin % f.nitems.toNat < e.toNat
      · have hlt : oooSegmentEndOffset f (f.segment x) < e := BitVec.lt_def.mpr (hend.symm ▸ hc)
        have hne := (linkIndex_eq_some.mp hx).1
        have hnext : linkIndex (f.segment x).next = (ys.map Seg.idx).head? := by
          rw [← nexts_eq hx]
          exact (hsplit ▸ hf).neighbours.1
        have hdel : (oooSegmentDel f x).Ooo (xs ++ d :: ys) := by
          have hdel := (hsplit ▸ hf).del hx
          rwa [List.append_assoc, singleton_append] at hdel
        rw [if_pos ⟨hne, hlt⟩, dropWhile_cons_of_pos (by simpa using hc)]
        have hstep := ih hdel hnext (by rw [tail_del, nitems_del]; exact ht)
          (fun s hs => ⟨(hfit s (mem_cons_of_mem z hs)).1.same (tail_del f x) (nitems_del f x),
            nitems_del f x ▸ (hfit s (mem_cons_of_mem z hs)).2⟩) (Nat.lt_of_succ_lt_succ hfuel)
        rw [tail_del, nitems_del] at hstep
        exact hstep
      · have hlt : ¬ oooSegmentEndOffset f (f.segment x) < e := fun h => hc (hend ▸ BitVec.lt_def.mp h)
        rw [if_neg fun h => hlt h.2, dropWhile_cons_of_neg (by simpa using hc)]
        exact ⟨hf, hx, rfl, rfl⟩

/-- The later segments, when the new one ends after `d`. -/
theorem SvmFifo.Ooo.mergeEnd (hf : f.Ooo (xs ++ d :: ys)) (hx : linkIndex x = some d.idx)
    (ht : f.tail.toNat < f.nitems.toNat) (hd : f.Fits d.off 0)
    (hfit : ∀ s ∈ ys, f.Fits s.off s.len ∧ s.fin ≤ f.nitems.toNat) (hb : d.off ≤ e.toNat) :
    (mergeEnd f x e).Ooo (xs ++ mergeLater f.nitems.toNat e.toNat d ys) := by
  have hdm : d ∈ xs ++ d :: ys := mem_append_right xs mem_cons_self
  have hnext : linkIndex (f.segment x).next = (ys.map Seg.idx).head? := by
    rw [← nexts_eq hx]
    exact hf.neighbours.1
  have hfuel : ys.length < f.oooSegments.elts.length + 1 := by
    have hle := hf.length_le
    rw [length_append, length_cons] at hle
    omega
  obtain ⟨hrem, hit, htail, hnitems⟩ := removeCovered_spec (e := e) hf hnext ht hfit hfuel
  unfold Svm.mergeEnd mergeLater
  generalize removeCovered e (f.oooSegments.elts.length + 1) f (f.segment x).next = r at *
  obtain ⟨g, it⟩ := r
  have hgt : g.tail.toNat < g.nitems.toNat := by
    rw [htail, hnitems]
    exact ht
  have hoff := (hrem.segs d (mem_append_right xs mem_cons_self)).offset hx hgt (hd.same htail hnitems)
  have hpos := (hrem.segs d (mem_append_right xs mem_cons_self)).position
  have hlen : (e - oooSegmentOffset g (g.segment x)).toNat = e.toNat - d.off := by
    rw [BitVec.toNat_sub_of_le (by rw [BitVec.le_def, hoff]; exact hb), hoff]
  have hposx : (g.segment x).fifoPosition.toNat = (g.tail.toNat + d.off) % g.nitems.toNat := by
    rw [SvmFifo.segment, (linkIndex_eq_some.mp hx).2]
    exact hpos
  have hdn : d.off < g.nitems.toNat := hnitems ▸ (hf.segs d hdm).off_lt
  have hcut := hrem.resize hx (g := fun t => { t with length := e - oooSegmentOffset g t }) (fun _ => ⟨rfl, rfl⟩)
    hposx hlen hdn
  dsimp only at *
  generalize hq : (g.modifySegment x fun t => { t with length := e - oooSegmentOffset g t }) = q at *
  have hqt : q.tail = f.tail := by
    rw [← hq]
    exact htail
  have hqn : q.nitems = f.nitems := by
    rw [← hq]
    exact hnitems
  have hdrop : ∀ z ∈ ys.dropWhile (fun z => z.fin % f.nitems.toNat < e.toNat), f.Fits z.off z.len :=
    fun z hz => (hfit z ((dropWhile_sublist _).subset hz)).1
  generalize ys.dropWhile (fun z => z.fin % f.nitems.toNat < e.toNat) = rest at *
  cases rest with
  | nil =>
    rw [if_neg fun hc => hc.1 (linkIndex_eq_none.mp hit)]
    exact hcut
  | cons z rest =>
    dsimp only
    have hzm : z ∈ xs ++ (⟨d.idx, d.off, e.toNat - d.off⟩ : Seg) :: z :: rest :=
      mem_append_right xs (mem_cons_of_mem _ mem_cons_self)
    have hz := hcut.segs z hzm
    have hzoff := hz.offset hit (by rw [hqt, hqn]; exact ht) ((hdrop z mem_cons_self).start.same hqt hqn)
    by_cases hzb : z.off < e.toNat
    · have hlt : oooSegmentOffset q (q.segment it) < e := BitVec.lt_def.mpr (hzoff.symm ▸ hzb)
      rw [if_pos ⟨(linkIndex_eq_some.mp hit).1, hlt⟩, if_pos hzb]
      have hqd := hcut.segs _ (mem_append_right xs mem_cons_self)
      have hgrow : (q.modifySegment x fun t => { t with
            length := t.length + ((q.segment it).length - (oooSegmentOffset q (q.segment it) - e)) }).Ooo
          (xs ++ ⟨d.idx, d.off, (e.toNat - d.off + (z.len + (e.toNat - z.off))) % 2 ^ 32⟩ :: z :: rest) :=
            hcut.resize hx
        (fun _ => ⟨rfl, rfl⟩) (by
          rw [SvmFifo.segment, (linkIndex_eq_some.mp hx).2]
          exact hqd.position) (by
          have hxlen : (q.segment x).length.toNat = e.toNat - d.off := by
            rw [SvmFifo.segment, (linkIndex_eq_some.mp hx).2]
            exact hqd.length
          have hzlen : (q.segment it).length.toNat = z.len := by
            rw [SvmFifo.segment, (linkIndex_eq_some.mp hit).2]
            exact hz.length
          simp only [BitVec.toNat_add, BitVec.toNat_sub, hxlen, hzlen, hzoff]
          have hze := (q.segment it).length.isLt
          have hee := e.isLt
          omega) hqd.off_lt
      have hsplit : xs ++ (⟨d.idx, d.off, (e.toNat - d.off + (z.len + (e.toNat - z.off))) % 2 ^ 32⟩ : Seg) ::
          z :: rest =
          (xs ++ [⟨d.idx, d.off, (e.toNat - d.off + (z.len + (e.toNat - z.off))) % 2 ^ 32⟩]) ++ z :: rest := by
        rw [List.append_assoc, singleton_append]
      rw [hsplit] at hgrow
      have hdel := hgrow.del hit
      rwa [List.append_assoc, singleton_append] at hdel
    · have hlt : ¬ oooSegmentOffset q (q.segment it) < e := fun h => hzb (hzoff ▸ BitVec.lt_def.mp h)
      rw [if_neg fun h => hlt h.2, if_neg hzb]
      exact hcut

/-- Where `s` starts after its merge with the segment before. -/
def startSegs (a : Nat) (pre : List Seg) (s : Seg) : List Seg × Seg :=
  match pre.getLast? with
  | none => ([], s.startAt a)
  | some p => if a ≤ p.fin then (pre.dropLast, s.startAt p.off) else (pre, s)

theorem SvmFifo.Ooo.mergeStart {sEof : BitVec 32} (hf : f.Ooo (xs ++ d :: ys)) (hl : SegList n (xs ++ d :: ys))
    (hx : linkIndex x = some d.idx) (ht : f.tail.toNat < f.nitems.toNat)
    (hfit : ∀ s ∈ xs, f.Fits s.off s.len) (hya : y.toNat ≤ d.off) (hyfit : f.Fits y.toNat 0)
    (hpos : e.toNat = (f.tail.toNat + y.toNat) % f.nitems.toNat) (hfin : sEof.toNat = d.fin) :
    (mergeStart f x y e sEof).Ooo
      ((startSegs y.toNat xs d).1 ++ (startSegs y.toNat xs d).2 :: ys) := by
  have hd := hf.segs d (mem_append_right xs mem_cons_self)
  have hprev : linkIndex (f.segment x).prev = (xs.map Seg.idx).getLast? := by
    rw [← prevs_eq hx]
    exact hf.neighbours.2
  have hdoff := hd.off_lt
  have hdfin : d.fin = d.off + d.len := rfl
  unfold Svm.mergeStart startSegs
  rcases eq_nil_or_concat xs with rfl | ⟨ps, p, rfl⟩
  · rw [if_neg fun hc => hc (linkIndex_eq_none.mp hprev)]
    have hy : y.toNat < f.nitems.toNat := by omega
    have hoff := oooSegmentOffset_eq (g := { f.segment x with fifoPosition := e }) ht hy hpos hyfit
    refine hf.resize hx (g := fun t => { t with
      fifoPosition := e
      length := sEof - oooSegmentOffset f { t with fifoPosition := e } }) (fun _ => ⟨rfl, rfl⟩) hpos ?_ hy
    rw [BitVec.toNat_sub_of_le (by rw [BitVec.le_def, hoff]; omega), hoff, hfin]
  · rw [concat_eq_append] at *
    have hp := hf.segs p (mem_append_left _ (mem_append_right ps (mem_singleton.mpr rfl)))
    have hpl : p ∈ ps ++ [p] := mem_append_right ps (mem_singleton.mpr rfl)
    rw [map_append, map_singleton, getLast?_concat] at hprev
    have hpd : p.fin < d.off := (apart_append.mp hl.apart).2.2 p hpl d mem_cons_self
    have hpfin : p.fin = p.off + p.len := rfl
    have hend := hp.endOffset hprev ht (by omega) (hfit p hpl)
    rw [Nat.mod_eq_of_lt (by omega)] at hend
    have hoff := hp.offset hprev ht (hfit p hpl).start
    have hppos : (f.segment (f.segment x).prev).fifoPosition.toNat = (f.tail.toNat + p.off) % f.nitems.toNat := by
      rw [SvmFifo.segment, (linkIndex_eq_some.mp hprev).2]
      exact hp.position
    have hsplit (t : Seg) : ps ++ [p] ++ t :: ys = ps ++ p :: t :: ys := by
      rw [List.append_assoc, singleton_append]
    dsimp only
    rw [getLast?_concat, if_pos (linkIndex_eq_some.mp hprev).1]
    dsimp only
    by_cases hreach : y.toNat ≤ p.fin
    · have hge : oooSegmentEndOffset f (f.segment (f.segment x).prev) ≥ y := BitVec.le_def.mpr (hend.symm ▸ hreach)
      rw [if_pos hge, if_pos hreach, dropLast_concat]
      have hmoved : (f.modifySegment x fun t => { t with
          fifoPosition := (f.segment (f.segment x).prev).fifoPosition
          length := sEof - oooSegmentOffset f (f.segment (f.segment x).prev) }).Ooo
          (ps ++ [p] ++ ⟨d.idx, p.off, d.fin - p.off⟩ :: ys) := hf.resize hx (fun _ => ⟨rfl, rfl⟩) hppos (by
        show (sEof - _).toNat = _
        rw [BitVec.toNat_sub_of_le (by rw [BitVec.le_def, hoff]; omega), hoff, hfin]) hp.off_lt
      rw [hsplit] at hmoved
      exact hmoved.del hprev
    · have hge : ¬ oooSegmentEndOffset f (f.segment (f.segment x).prev) ≥ y := fun h =>
        hreach (hend ▸ BitVec.le_def.mp h)
      rw [if_neg hge, if_neg hreach]
      exact hf

theorem tail_mergeStart (f : SvmFifo) (s y e sEof : BitVec 32) : (mergeStart f s y e sEof).tail = f.tail := by
  unfold mergeStart
  dsimp only
  split
  · split
    · exact tail_del _ _
    · rfl
  · rfl

theorem nitems_mergeStart (f : SvmFifo) (s y e sEof : BitVec 32) :
    (mergeStart f s y e sEof).nitems = f.nitems := by
  unfold mergeStart
  dsimp only
  split
  · split
    · exact nitems_del _ _
    · rfl
  · rfl

/-- No sum for the new offset `a` or for a segment wraps in a way that matters. -/
structure SvmFifo.NoWrap (f : SvmFifo) (l : List Seg) (a : Nat) : Prop where
  position : f.tail.toNat + a < 2 ^ 32
  start : f.Fits a 0
  segs : ∀ s ∈ l, f.Fits s.off s.len

theorem SvmFifo.NoWrap.of_le (h : f.nitems.toNat ≤ 2 ^ 31) (ht : f.tail.toNat < f.nitems.toNat)
    (ha : a < f.nitems.toNat) : f.NoWrap l a := ⟨by omega, .inl h, fun _ _ => .inl h⟩

theorem SvmFifo.Ooo.newest (h : f.Ooo l) (x : BitVec 32) :
    SvmFifo.Ooo { f with ooosNewest := x } l := ⟨h.list, fun s hs =>
  ⟨(h.segs s hs).live, (h.segs s hs).small, (h.segs s hs).position, (h.segs s hs).length, (h.segs s hs).off_lt⟩⟩

theorem fin_startSegs (hl : SegList n (pre ++ s :: post)) (ha : a ≤ s.off) : (startSegs a pre s).2.fin = s.fin := by
  have hfin : s.fin = s.off + s.len := rfl
  unfold startSegs
  split
  · exact Seg.fin_startAt (by omega)
  · next p hp =>
    split
    · have hlt := (apart_append.mp hl.apart).2.2 p (mem_of_getLast? hp) s mem_cons_self
      have hpfin : p.fin = p.off + p.len := rfl
      exact Seg.fin_startAt (by omega)
    · rfl

theorem idx_startSegs (a : Nat) (pre : List Seg) (s : Seg) : (startSegs a pre s).2.idx = s.idx := by
  unfold startSegs
  split
  · rfl
  · split <;> rfl

theorem off_startSegs (a : Nat) (pre : List Seg) (s : Seg) (post : List Seg) :
    (startSegs a pre s).2.off = a ∨ ∃ t ∈ pre ++ s :: post, (startSegs a pre s).2.off = t.off := by
  unfold startSegs
  split
  · exact .inl rfl
  · next p hp =>
    split
    · exact .inr ⟨p, mem_append_left _ (mem_of_getLast? hp), rfl⟩
    · exact .inr ⟨s, mem_append_right pre mem_cons_self, rfl⟩

theorem addSegs_merge (hb : ¬ b < s.off) (ha : ¬ s.fin % n < a) (hs : a ≤ s.off) :
    addSegs n a b new pre s post =
      (startSegs a pre s).1 ++ mergeTail n b (startSegs a pre s).2 post := by
  unfold addSegs startSegs
  rw [if_neg hb, if_neg ha, if_pos hs]
  cases hlast : pre.getLast? with
  | none => rw [getLast?_eq_none_iff.mp hlast]; rfl
  | some p =>
    dsimp only
    split <;> rfl

section
variable {offset length : BitVec 32} (hl : SegList f.nitems.toNat l) (hf : f.Ooo l)
  (ht : f.tail.toNat < f.nitems.toNat) (hroom : f.oooSegments.elts.length < 2 ^ 32 - 1)
  (hw : f.NoWrap l offset.toNat) (ha : offset.toNat < f.nitems.toNat)
  (hb : offset.toNat + length.toNat ≤ f.nitems.toNat) (hpos : 0 < offset.toNat)
include hl hf ht hroom hw ha hb hpos

omit hl hf hroom ht ha hb hpos in
theorem position_eq : ((f.tail + offset) % f.nitems).toNat = (f.tail.toNat + offset.toNat) % f.nitems.toNat := by
  rw [BitVec.toNat_umod, BitVec.toNat_add, Nat.mod_eq_of_lt hw.position]

omit hl ht hb hpos in
theorem oooSegmentAdd_nil (hnil : l = []) :
    (oooSegmentAdd f offset length).Ooo [⟨f.oooSegments.get.2, offset.toNat, length.toNat⟩] := by
  subst hnil
  obtain ⟨hnew, -, hfresh⟩ := oooSegmentNew_spec (y := length) hf hroom (position_eq hw) ha
  unfold oooSegmentAdd
  rw [if_pos hf.of_nil]
  constructor
  · refine ⟨nodup_singleton _, hnew, rfl, ?_, ?_⟩
    · intro xs i ys he
      obtain ⟨rfl, he⟩ | ⟨ws, -, he⟩ := cons_eq_append_iff.mp he
      · obtain ⟨rfl, rfl⟩ := List.cons.inj he
        exact hfresh.nexts
      · simp at he
    · intro xs i ys he
      obtain ⟨rfl, he⟩ | ⟨ws, -, he⟩ := cons_eq_append_iff.mp he
      · obtain ⟨rfl, rfl⟩ := List.cons.inj he
        exact hfresh.prevs
      · simp at he
  · intro s hs
    rw [mem_singleton.mp hs]
    exact ⟨hfresh.seg.live, hfresh.seg.small, hfresh.seg.position, hfresh.seg.length, hfresh.seg.off_lt⟩

theorem oooSegmentAdd_cons (hne : l ≠ []) : ∃ pre s post, l = pre ++ s :: post ∧
    Located offset.toNat pre s post ∧ (oooSegmentAdd f offset length).Ooo
      (addSegs f.nitems.toNat offset.toNat (offset.toNat + length.toNat) f.oooSegments.get.2 pre s post) := by
  obtain ⟨s₀, l₀, rfl⟩ := exists_cons_of_ne_nil hne
  have hfuel : l₀.length ≤ f.oooSegments.elts.length + 1 := by
    have hle := hf.length_le
    rw [length_cons] at hle
    omega
  obtain ⟨pre, s, post, hsplit, hx, hloc⟩ := findSegment_spec (y := offset) ht hf (fun s hs => (hw.segs s hs).start)
    (nil_append _).symm hf.head hfuel nofun
  refine ⟨pre, s, post, hsplit, hloc, ?_⟩
  have hhead : f.ooosListHead ≠ oooSegmentInvalidIndex := (linkIndex_eq_some.mp hf.head).1
  have hbv : (offset + length).toNat = offset.toNat + length.toNat := by
    have hn := f.nitems.isLt
    rw [BitVec.toNat_add, Nat.mod_eq_of_lt (by omega)]
  rw [hsplit] at hl hf hw
  have hposition := position_eq hw
  have hsm : s ∈ pre ++ s :: post := mem_append_right pre mem_cons_self
  have hsb := hl.bounds s hsm
  have hsfin : s.fin = s.off + s.len := rfl
  have hsof := (hf.segs s hsm).offset hx ht (hw.segs s hsm).start
  have heof := (hf.segs s hsm).endOffset hx ht hsb.2.2 (hw.segs s hsm)
  have hnew := oooSegmentNew_spec (y := length) hf hroom hposition ha
  have hblen : offset.toNat + length.toNat - offset.toNat = length.toNat := Nat.add_sub_cancel_left _ _
  unfold oooSegmentAdd
  rw [if_neg hhead]
  dsimp only
  generalize findSegment f offset (f.oooSegments.elts.length + 1) f.ooosListHead = x at *
  generalize (f.tail + offset) % f.nitems = position at *
  simp only [BitVec.lt_def, BitVec.le_def, hsof, heof, hbv]
  by_cases hbefore : offset.toNat + length.toNat < s.off
  · rw [if_pos hbefore, addSegs, if_pos hbefore, hblen]
    exact (hnew.2.1.before hx hnew.2.2 hnew.1).newest _
  by_cases hafter : s.fin % f.nitems.toNat < offset.toNat
  · rw [if_neg hbefore, if_pos hafter, addSegs, if_neg hbefore, if_pos hafter, hblen]
    exact (hnew.2.1.after hx hnew.2.2 hnew.1).newest _
  have hfin : s.fin < f.nitems.toNat := by
    apply Nat.lt_of_le_of_ne hsb.2.2
    intro he
    rw [he, Nat.mod_self] at hafter
    exact hafter hpos
  rw [if_neg hbefore, if_neg hafter]
  apply SvmFifo.Ooo.newest
  rw [Nat.mod_eq_of_lt hfin] at heof
  by_cases hstart : offset.toNat ≤ s.off
  · rw [if_pos hstart, addSegs_merge hbefore hafter hstart, mergeTail, fin_startSegs hl hstart,
      Nat.mod_eq_of_lt hfin]
    have hmerged := hf.mergeStart hl hx ht (fun t ht => hw.segs t (mem_append_left _ ht)) hstart
      hw.start hposition heof
    by_cases hend : s.fin < offset.toNat + length.toNat
    · have htail := tail_mergeStart f x offset position (oooSegmentEndOffset f (f.segment x))
      have hnitems := nitems_mergeStart f x offset position (oooSegmentEndOffset f (f.segment x))
      rw [if_pos hend, if_pos hend, ← hbv, ← hnitems]
      have hidx := idx_startSegs offset.toNat pre s
      have hoff := off_startSegs offset.toNat pre s post
      have hsfin' := fin_startSegs hl hstart
      rw [Seg.fin] at hsfin'
      apply hmerged.mergeEnd (hidx ▸ hx)
      · rw [htail, hnitems]
        exact ht
      · apply SvmFifo.Fits.same _ htail hnitems
        rcases hoff with hoff | ⟨t, htm, hoff⟩
        · rw [hoff]
          exact hw.start
        · rw [hoff]
          exact (hw.segs t htm).start
      · intro t htm
        have htm' : t ∈ pre ++ s :: post := mem_append_right pre (mem_cons_of_mem s htm)
        exact ⟨(hw.segs t htm').same htail hnitems, hnitems ▸ (hl.bounds t htm').2.2⟩
      · omega
    · rw [if_neg hend, if_neg hend]
      exact hmerged
  · rw [if_neg hstart, addSegs, if_neg hbefore, if_neg hafter, if_neg hstart, Nat.mod_eq_of_lt hfin]
    by_cases hend : s.fin ≤ offset.toNat + length.toNat
    · rw [if_pos hend, if_pos hend]
      refine hf.resize hx (g := fun t => { t with length := offset + length - oooSegmentOffset f t })
        (fun _ => ⟨rfl, rfl⟩) ?_ ?_ (hf.segs s hsm).off_lt
      · rw [SvmFifo.segment, (linkIndex_eq_some.mp hx).2]
        exact (hf.segs s hsm).position
      · rw [BitVec.toNat_sub_of_le (by rw [BitVec.le_def, hsof, hbv]; omega), hsof, hbv]
    · rw [if_neg hend, if_neg hend]
      exact hf

end

end Vpp.Svm
