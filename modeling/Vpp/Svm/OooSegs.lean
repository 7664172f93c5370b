import Mathlib.Algebra.Order.Group.Nat
import Mathlib.Data.List.Basic

namespace Vpp.Svm
open List

/-- A segment of the list: its place in the pool, its distance from the tail and its length. -/
structure Seg where
  idx : Nat
  off : Nat
  len : Nat
deriving DecidableEq

def Seg.fin (s : Seg) : Nat := s.off + s.len

def Covers (l : List Seg) (x : Nat) : Prop := ∃ s ∈ l, s.off ≤ x ∧ x < s.fin

/-- In order, and no segment reaches the next. -/
def Apart (l : List Seg) : Prop := l.Pairwise fun s t => s.fin < t.off

/-- The segments of a fifo with room for `n` bytes. -/
structure SegList (n : Nat) (l : List Seg) : Prop where
  apart : Apart l
  bounds : ∀ s ∈ l, 1 ≤ s.off ∧ 0 < s.len ∧ s.fin ≤ n

structure Located (a : Nat) (pre : List Seg) (s : Seg) (post : List Seg) : Prop where
  before : ∀ p ∈ pre, p.off ≤ a
  after : post = [] ∨ a < s.off

/-- Segments behind that end before `b` go, where the end of the ring is at zero, and one that starts before `b` is
added with its overlap twice. -/
def mergeLater (n b : Nat) (s : Seg) (post : List Seg) : List Seg :=
  match post.dropWhile fun z => z.fin % n < b with
  | [] => [⟨s.idx, s.off, b - s.off⟩]
  | z :: rest =>
    if z.off < b then ⟨s.idx, s.off, (b - s.off + (z.len + (b - z.off))) % 2 ^ 32⟩ :: rest
    else ⟨s.idx, s.off, b - s.off⟩ :: z :: rest

def mergeTail (n b : Nat) (s : Seg) (post : List Seg) : List Seg :=
  if s.fin < b then mergeLater n b s post else s :: post

def addSegs (n a b new : Nat) (pre : List Seg) (s : Seg) (post : List Seg) : List Seg :=
  if b < s.off then pre ++ ⟨new, a, b - a⟩ :: s :: post
  else if s.fin % n < a then pre ++ s :: ⟨new, a, b - a⟩ :: post
  else if a ≤ s.off then
    match pre.getLast? with
    | none => mergeTail n b ⟨s.idx, a, s.fin - a⟩ post
    | some p =>
      if a ≤ p.fin then pre.dropLast ++ mergeTail n b ⟨s.idx, p.off, s.fin - p.off⟩ post
      else pre ++ mergeTail n b s post
  else if s.fin ≤ b then pre ++ ⟨s.idx, s.off, b - s.off⟩ :: post
  else pre ++ s :: post

/-- The bytes of `l` and those from `a` to `b`, in order and apart. -/
structure Adds (a b : Nat) (l l' : List Seg) : Prop where
  apart : Apart l'
  covers : ∀ x, Covers l' x ↔ Covers l x ∨ a ≤ x ∧ x < b

/-- Of the segments around the place of the new one: one that is not reached by `s` is not reached before; `s` does
not end with the ring where it is reached; a start that moves reaches the segment before; and behind `s`, the first
segment that does not end before `b` starts after it within the ring, or both end with the ring. -/
structure AddSafe (n a b : Nat) (pre : List Seg) (s : Seg) (post : List Seg) : Prop where
  before : b < s.off → ∀ p ∈ pre, p.fin < a
  ring : s.off ≤ b → s.fin ≠ n
  start : s.off ≤ b → a < s.off → ∀ p ∈ pre.getLast?, a ≤ p.fin
  later : a ≤ s.off → s.off ≤ b → s.fin < b → ∀ z ∈ post.find? fun z => b ≤ z.fin,
    z.fin = n ∧ b = n ∨ z.fin ≠ n ∧ b < z.off

theorem covers_append : Covers (xs ++ ys) x ↔ Covers xs x ∨ Covers ys x := by
  constructor
  · intro ⟨s, hs, hx⟩
    exact (mem_append.mp hs).imp (fun h => ⟨s, h, hx⟩) fun h => ⟨s, h, hx⟩
  · rintro (⟨s, hs, hx⟩ | ⟨s, hs, hx⟩)
    · exact ⟨s, mem_append_left ys hs, hx⟩
    · exact ⟨s, mem_append_right xs hs, hx⟩

theorem covers_cons : Covers (s :: l) x ↔ (s.off ≤ x ∧ x < s.fin) ∨ Covers l x := by
  constructor
  · rintro ⟨t, ht, hx⟩
    rcases mem_cons.mp ht with rfl | ht
    · exact .inl hx
    · exact .inr ⟨t, ht, hx⟩
  · rintro (hx | ⟨t, ht, hx⟩)
    · exact ⟨s, mem_cons_self, hx⟩
    · exact ⟨t, mem_cons_of_mem s ht, hx⟩

theorem not_covers_nil : ¬ Covers [] x := fun ⟨_, h, _⟩ => nomatch h

theorem covers_singleton : Covers [s] x ↔ s.off ≤ x ∧ x < s.fin := by
  rw [covers_cons, or_iff_left not_covers_nil]

theorem apart_append : Apart (xs ++ ys) ↔ Apart xs ∧ Apart ys ∧ ∀ s ∈ xs, ∀ t ∈ ys, s.fin < t.off :=
  pairwise_append

theorem apart_cons : Apart (s :: l) ↔ (∀ t ∈ l, s.fin < t.off) ∧ Apart l := pairwise_cons

theorem SegList.tail (h : SegList n (xs ++ ys)) : SegList n ys :=
  ⟨(apart_append.mp h.apart).2.1, fun s hs => h.bounds s (mem_append_right xs hs)⟩

theorem SegList.tail_cons {s : Seg} (h : SegList n (s :: ys)) : SegList n ys :=
  ⟨(apart_cons.mp h.apart).2, fun t ht => h.bounds t (mem_cons_of_mem s ht)⟩

theorem SegList.init (h : SegList n (xs ++ ys)) : SegList n xs :=
  ⟨(apart_append.mp h.apart).1, fun s hs => h.bounds s (mem_append_left ys hs)⟩

theorem SegList.last (h : SegList n (z :: l)) (hz : z.fin = n) : l = [] := by
  cases l with
  | nil => rfl
  | cons t l =>
    have hlt := (apart_cons.mp h.apart).1 t mem_cons_self
    obtain ⟨-, hpos, hle⟩ := h.bounds t (mem_cons_of_mem z mem_cons_self)
    unfold Seg.fin at *
    omega

theorem find_split (h : post.find? (fun z : Seg => b ≤ z.fin) = some z) :
    ∃ us vs, post = us ++ z :: vs ∧ b ≤ z.fin ∧ ∀ u ∈ us, u.fin < b := by
  obtain ⟨hz, us, vs, hsplit, hus⟩ := find?_eq_some_iff_append.mp h
  refine ⟨us, vs, hsplit, by simpa using hz, ?_⟩
  intro u hu
  simpa using hus u hu

theorem dropWhile_before (n : Nat) (us vs : List Seg) (hus : ∀ u ∈ us, u.fin < b) :
    (us ++ vs).dropWhile (fun z : Seg => z.fin % n < b) = vs.dropWhile fun z : Seg => z.fin % n < b := by
  apply dropWhile_append_of_pos
  intro u hu
  exact decide_eq_true ((Nat.mod_le _ _).trans_lt (hus u hu))

theorem dropWhile_ring (hz : z.fin = n) (hb : 0 < b) :
    [z].dropWhile (fun z : Seg => z.fin % n < b) = [] := by
  rw [dropWhile_cons_of_pos]
  · rfl
  · rw [hz, Nat.mod_self]
    exact decide_eq_true hb

theorem dropWhile_reached (hz : z.fin < n) (hb : b ≤ z.fin) :
    (z :: vs).dropWhile (fun z : Seg => z.fin % n < b) = z :: vs := by
  rw [dropWhile_cons_of_neg]
  rw [Nat.mod_eq_of_lt hz]
  simpa using hb

section Tail
variable {n b : Nat} {s : Seg} {post : List Seg} (h : SegList n (s :: post))
include h

omit h in
theorem mergeLater_none (hnone : post.find? (fun z : Seg => b ≤ z.fin) = none) :
    mergeLater n b s post = [⟨s.idx, s.off, b - s.off⟩] := by
  have hdrop := dropWhile_before n post [] fun u hu => by simpa using find?_eq_none.mp hnone u hu
  rw [append_nil] at hdrop
  rw [mergeLater, hdrop]
  rfl

theorem mergeLater_ring (hb : 0 < b) (hsplit : post = us ++ z :: vs) (hus : ∀ u ∈ us, u.fin < b) (hz : z.fin = n) :
    vs = [] ∧ mergeLater n b s post = [⟨s.idx, s.off, b - s.off⟩] := by
  have hpost : SegList n (us ++ z :: vs) := hsplit ▸ h.tail_cons
  have hvs := hpost.tail.last hz
  rw [mergeLater, hsplit, dropWhile_before n us _ hus, hvs, dropWhile_ring hz hb]
  exact ⟨rfl, rfl⟩

theorem mergeLater_reached (hsplit : post = us ++ z :: vs) (hus : ∀ u ∈ us, u.fin < b) (hbz : b ≤ z.fin)
    (hz : z.fin ≠ n) :
    mergeLater n b s post =
      if z.off < b then ⟨s.idx, s.off, (b - s.off + (z.len + (b - z.off))) % 2 ^ 32⟩ :: vs
      else ⟨s.idx, s.off, b - s.off⟩ :: z :: vs := by
  have hpost : SegList n (us ++ z :: vs) := hsplit ▸ h.tail_cons
  have hzn := (hpost.tail.bounds z mem_cons_self).2.2
  rw [mergeLater, hsplit, dropWhile_before n us _ hus, dropWhile_reached (Nat.lt_of_le_of_ne hzn hz) hbz]

/-- Where nothing is in the way, the segment takes up all that it reaches. -/
theorem mergeTail_safe (hb : s.off < b) (hlater : s.fin < b → ∀ z ∈ post.find? fun z => b ≤ z.fin,
      z.fin = n ∧ b = n ∨ z.fin ≠ n ∧ b < z.off) :
    Apart (mergeTail n b s post) ∧ (∀ t ∈ mergeTail n b s post, s.off ≤ t.off) ∧
      ∀ x, Covers (mergeTail n b s post) x ↔ (s.off ≤ x ∧ (x < s.fin ∨ x < b)) ∨ Covers post x := by
  obtain ⟨hsep, hap⟩ := apart_cons.mp h.apart
  have hlen := (h.bounds s mem_cons_self).2.1
  have hfin : s.fin = s.off + s.len := rfl
  have hnew : (⟨s.idx, s.off, b - s.off⟩ : Seg).fin = b := Nat.add_sub_cancel' hb.le
  unfold mergeTail
  by_cases hlt : s.fin < b
  · rw [if_pos hlt]
    have hsafe := hlater hlt
    -- what goes is between the start of `s` and `b`
    have hgone {us : List Seg} (hsub : ∀ u ∈ us, u ∈ post) (hus : ∀ u ∈ us, u.fin ≤ b) {x : Nat}
        (hx : Covers us x) : s.off ≤ x ∧ x < b := by
      obtain ⟨u, hu, hlo, hhi⟩ := hx
      have h₁ := hsep u (hsub u hu)
      have h₂ := hus u hu
      omega
    cases hfind : post.find? (fun z => b ≤ z.fin) with
    | none =>
      have hall : ∀ u ∈ post, u.fin < b := fun u hu => by simpa using find?_eq_none.mp hfind u hu
      rw [mergeLater_none hfind]
      refine ⟨pairwise_singleton _ _, fun t ht => (mem_singleton.mp ht) ▸ le_refl _, ?_⟩
      intro x
      rw [covers_cons, hnew]
      have hpost := hgone (fun u hu => hu) (fun u hu => (hall u hu).le) (x := x)
      constructor
      · rintro (hx | hx)
        · exact .inl ⟨hx.1, .inr hx.2⟩
        · exact absurd hx not_covers_nil
      · rintro (⟨hlo, hhi⟩ | hx)
        · exact .inl ⟨hlo, by omega⟩
        · exact .inl (hpost hx)
    | some z =>
      obtain ⟨us, vs, hsplit, hbz, hus⟩ := find_split hfind
      have hin : ∀ u ∈ us, u ∈ post := fun u hu => hsplit ▸ mem_append_left _ hu
      have husx := fun x => hgone hin (fun u hu => (hus u hu).le) (x := x)
      have hzsep := hsep z (hsplit ▸ mem_append_right us mem_cons_self)
      rcases hsafe z hfind with ⟨hz, hbe⟩ | ⟨hz, hbz'⟩
      · obtain ⟨rfl, hresult⟩ := mergeLater_ring h (Nat.zero_lt_of_lt hb) hsplit hus hz
        rw [hresult]
        refine ⟨pairwise_singleton _ _, fun t ht => (mem_singleton.mp ht) ▸ le_refl _, ?_⟩
        intro x
        rw [covers_cons, hnew, hsplit, covers_append, covers_cons]
        constructor
        · rintro (hx | hx)
          · exact .inl ⟨hx.1, .inr hx.2⟩
          · exact absurd hx not_covers_nil
        · rintro (⟨hlo, hhi⟩ | hx | hx | hx)
          · exact .inl ⟨hlo, by omega⟩
          · exact .inl (husx x hx)
          · exact .inl ⟨show s.off ≤ x by omega, by omega⟩
          · exact absurd hx not_covers_nil
      · rw [mergeLater_reached h hsplit hus hbz hz, if_neg (Nat.not_lt.mpr hbz'.le)]
        have hap' := hsplit ▸ hap
        obtain ⟨hzvs, hvs⟩ := apart_cons.mp (apart_append.mp hap').2.1
        have hzlen := (h.bounds z (mem_cons_of_mem s (hsplit ▸ mem_append_right us mem_cons_self))).2.1
        have hzfin : z.fin = z.off + z.len := rfl
        refine ⟨apart_cons.mpr ⟨?_, apart_cons.mpr ⟨hzvs, hvs⟩⟩, ?_, ?_⟩
        · intro t ht
          rw [hnew]
          rcases mem_cons.mp ht with rfl | ht
          · exact hbz'
          · have := hzvs t ht
            omega
        · intro t ht
          rcases mem_cons.mp ht with rfl | ht
          · exact le_refl _
          · rcases mem_cons.mp ht with rfl | ht
            · omega
            · have := hzvs t ht
              omega
        · intro x
          rw [covers_cons, hnew, hsplit, covers_append]
          constructor
          · rintro (hx | hx)
            · exact .inl ⟨hx.1, .inr hx.2⟩
            · exact .inr (.inr hx)
          · rintro (⟨hlo, hhi⟩ | hx | hx)
            · exact .inl ⟨hlo, by omega⟩
            · exact .inl (husx x hx)
            · exact .inr hx
  · rw [if_neg hlt]
    refine ⟨h.apart, ?_, ?_⟩
    · intro t ht
      rcases mem_cons.mp ht with rfl | ht
      · exact le_refl _
      · have := hsep t ht
        omega
    · intro x
      rw [covers_cons]
      apply or_congr_left
      constructor
      · exact fun ⟨hlo, hhi⟩ => ⟨hlo, .inl hhi⟩
      · rintro ⟨hlo, hhi⟩
        exact ⟨hlo, by omega⟩

theorem le_off_mergeTail (hb : s.off < b) : ∀ t ∈ mergeTail n b s post, s.off ≤ t.off := by
  obtain ⟨hsep, -⟩ := apart_cons.mp h.apart
  have hfin : s.fin = s.off + s.len := rfl
  have hpost {t : Seg} (ht : t ∈ post) : s.off ≤ t.off := by
    have := hsep t ht
    omega
  intro t ht
  unfold mergeTail mergeLater at ht
  have hdrop {z : Seg} {rest : List Seg} (he : post.dropWhile (fun z => z.fin % n < b) = z :: rest) :
      ∀ t ∈ z :: rest, t ∈ post := fun t ht => (dropWhile_sublist _).subset (he ▸ ht)
  split at ht
  · split at ht
    · rw [mem_singleton.mp ht]
    · next z rest he =>
      split at ht
      · rcases mem_cons.mp ht with rfl | ht
        · exact le_refl _
        · exact hpost (hdrop he t (mem_cons_of_mem z ht))
      · rcases mem_cons.mp ht with rfl | ht
        · exact le_refl _
        · exact hpost (hdrop he t ht)
  · rcases mem_cons.mp ht with rfl | ht
    · exact le_refl _
    · exact hpost ht

/-- Where something is in the way, bytes are lost or added, or two segments touch. -/
theorem mergeTail_unsafe (hlt : s.fin < b) (hbn : b ≤ n) (hn : n ≤ 2 ^ 31) (hab : a < b)
    (hpre : ∀ p ∈ pre, p.fin < s.off) (hpost : ∀ x, Covers post x → Covers old x)
    (hstart : ∀ x, s.off ≤ x → x < a → Covers old x) (hold : ∀ x, s.fin ≤ x → Covers old x → Covers post x)
    (hfind : post.find? (fun z => b ≤ z.fin) = some z)
    (hnot : ¬ (z.fin = n ∧ b = n ∨ z.fin ≠ n ∧ b < z.off)) : ¬ Adds a b old (pre ++ mergeTail n b s post) := by
  obtain ⟨hsep, hap⟩ := apart_cons.mp h.apart
  have hfin : s.fin = s.off + s.len := rfl
  have hb : s.off < b := by omega
  have hnew : (⟨s.idx, s.off, b - s.off⟩ : Seg).fin = b := Nat.add_sub_cancel' hb.le
  obtain ⟨us, vs, hsplit, hbz, hus⟩ := find_split hfind
  have hzpost : z ∈ post := hsplit ▸ mem_append_right us mem_cons_self
  have hzsep := hsep z hzpost
  obtain ⟨-, hzlen, hzn⟩ := h.bounds z (mem_cons_of_mem s hzpost)
  have hzfin : z.fin = z.off + z.len := rfl
  have hvs : ∀ t ∈ vs, z.fin < t.off := by
    have hap' := hsplit ▸ hap
    exact (apart_cons.mp (apart_append.mp hap').2.1).1
  have hnopre {x : Nat} (hx : s.off ≤ x) : ¬ Covers pre x := by
    rintro ⟨p, hp, -, hhi⟩
    have := hpre p hp
    omega
  rw [mergeTail, if_pos hlt]
  intro ⟨hapart, hcov⟩
  by_cases hz : z.fin = n
  · obtain ⟨rfl, hresult⟩ := mergeLater_ring h (Nat.zero_lt_of_lt hb) hsplit hus hz
    rw [hresult] at hcov
    have hcovered := (hcov (n - 1)).mpr (.inl (hpost _ ⟨z, hzpost, by omega, by omega⟩))
    rcases covers_append.mp hcovered with hx | hx
    · exact hnopre (by omega) hx
    · rcases covers_cons.mp hx with hx | hx
      · rw [hnew] at hx
        omega
      · exact not_covers_nil hx
  · rw [mergeLater_reached h hsplit hus hbz hz] at hapart hcov
    by_cases hover : z.off < b
    · rw [if_pos hover] at hapart hcov
      obtain ⟨L, hL⟩ : ∃ L, L = (b - s.off + (z.len + (b - z.off))) % 2 ^ 32 := ⟨_, rfl⟩
      rw [← hL] at hapart hcov
      have hLfin : (⟨s.idx, s.off, L⟩ : Seg).fin = s.off + L := rfl
      rcases Nat.lt_trichotomy (s.off + L) z.fin with hless | heq | hmore
      · -- a byte of `z` is missing
        have hmissing : Covers old (s.off + L) ∨ a ≤ s.off + L ∧ s.off + L < b := by
          by_cases ha : s.off + L < a
          · exact .inl (hstart _ (Nat.le_add_right _ _) ha)
          · by_cases hbl : s.off + L < b
            · exact .inr ⟨by omega, hbl⟩
            · exact .inl (hpost _ ⟨z, hzpost, by omega, hless⟩)
        rcases covers_append.mp ((hcov _).mpr hmissing) with hx | hx
        · exact hnopre (Nat.le_add_right _ _) hx
        · rcases covers_cons.mp hx with hx | ⟨t, ht, hlo, -⟩
          · rw [hLfin] at hx
            omega
          · have := hvs t ht
            omega
      · omega
      · -- the byte behind `z` is added
        have hextra : Covers (pre ++ ⟨s.idx, s.off, L⟩ :: vs) z.fin :=
          covers_append.mpr (.inr (covers_cons.mpr (.inl ⟨show s.off ≤ z.fin by omega, hmore⟩)))
        rcases (hcov _).mp hextra with hx | hx
        · obtain ⟨t, ht, hlo, hhi⟩ := hold _ (by omega) hx
          rw [hsplit] at ht
          rcases mem_append.mp ht with ht | ht
          · have := hus t ht
            omega
          · rcases mem_cons.mp ht with rfl | ht
            · omega
            · have := hvs t ht
              omega
        · omega
    · rw [if_neg hover] at hapart
      have htouch := (apart_cons.mp (apart_append.mp hapart).2.1).1 z mem_cons_self
      rw [hnew] at htouch
      omega

end Tail

/-- `s` with an earlier start. -/
def Seg.startAt (s : Seg) (o : Nat) : Seg := ⟨s.idx, o, s.fin - o⟩

theorem Seg.fin_startAt {s : Seg} (h : o ≤ s.fin) : (s.startAt o).fin = s.fin := Nat.add_sub_cancel' h

theorem SegList.startAt {s : Seg} (h : SegList n (s :: post)) (ho : 1 ≤ o) (hs : o < s.fin) :
    SegList n (s.startAt o :: post) := by
  obtain ⟨hsep, hap⟩ := apart_cons.mp h.apart
  have hfin := Seg.fin_startAt hs.le
  refine ⟨apart_cons.mpr ⟨fun t ht => hfin ▸ hsep t ht, hap⟩, ?_⟩
  intro t ht
  rcases mem_cons.mp ht with rfl | ht
  · exact ⟨ho, Nat.sub_pos_of_lt hs, hfin ▸ (h.bounds s mem_cons_self).2.2⟩
  · exact h.bounds t (mem_cons_of_mem s ht)

/-- A segment that starts at `s.off` takes the place of those in `mid`, and reaches on to `b`. -/
theorem Adds.merge (h : SegList n (s :: post)) (hb : s.off < b) (hpre : Apart pre) (hsep : ∀ p ∈ pre, p.fin < s.off)
    (hlater : s.fin < b → ∀ z ∈ post.find? fun z => b ≤ z.fin, z.fin = n ∧ b = n ∨ z.fin ≠ n ∧ b < z.off)
    (mid : List Seg) (hmid : ∀ x, Covers mid x ∨ (a ≤ x ∧ x < b) ↔ s.off ≤ x ∧ (x < s.fin ∨ x < b)) :
    Adds a b (pre ++ (mid ++ post)) (pre ++ mergeTail n b s post) := by
  obtain ⟨hap, hoff, hcovers⟩ := mergeTail_safe h hb hlater
  constructor
  · refine apart_append.mpr ⟨hpre, hap, ?_⟩
    intro p hp t ht
    exact (hsep p hp).trans_le (hoff t ht)
  · intro x
    rw [covers_append, hcovers, covers_append, covers_append, ← or_assoc (b := _ ≤ x ∧ _), ← hmid]
    tauto

theorem Adds.insert (hap : Apart (xs ++ ys)) (hxs : ∀ p ∈ xs, p.fin < a) (hys : ∀ t ∈ ys, b < t.off) (hab : a < b) :
    Adds a b (xs ++ ys) (xs ++ ⟨new, a, b - a⟩ :: ys) := by
  obtain ⟨hx, hy, hcross⟩ := apart_append.mp hap
  have hnew : (⟨new, a, b - a⟩ : Seg).fin = b := Nat.add_sub_cancel' hab.le
  constructor
  · refine apart_append.mpr ⟨hx, apart_cons.mpr ⟨by rwa [hnew], hy⟩, ?_⟩
    intro p hp t ht
    rcases mem_cons.mp ht with rfl | ht
    · exact hxs p hp
    · exact hcross p hp t ht
  · intro x
    rw [covers_append, covers_append, covers_cons, hnew]
    exact or_left_comm.trans or_comm

/-- The last segment goes on to `b`. -/
theorem Adds.extend (hap : Apart (pre ++ [s])) (ha : s.off ≤ a) (hs : a ≤ s.fin) (hb : s.fin ≤ b) :
    Adds a b (pre ++ [s]) (pre ++ [⟨s.idx, s.off, b - s.off⟩]) := by
  obtain ⟨hpre, -, hcross⟩ := apart_append.mp hap
  have hfin : (⟨s.idx, s.off, b - s.off⟩ : Seg).fin = b := Nat.add_sub_cancel' (by show s.off ≤ b; omega)
  constructor
  · refine apart_append.mpr ⟨hpre, pairwise_singleton _ _, ?_⟩
    intro p hp t ht
    rw [mem_singleton.mp ht]
    exact hcross p hp s mem_cons_self
  · intro x
    rw [covers_append, covers_append, covers_singleton, covers_singleton, hfin, or_assoc]
    show _ ∨ (s.off ≤ x ∧ _) ↔ _
    exact or_congr_right (by omega)

section Merge
variable {n a b : Nat} {pre post ps : List Seg} {p s : Seg} (hstart : a ≤ s.off) (hreached : s.off ≤ b) (hab : a < b)
  (hlater : s.fin < b → ∀ z ∈ post.find? fun z => b ≤ z.fin, z.fin = n ∧ b = n ∨ z.fin ≠ n ∧ b < z.off)
include hstart hreached hab hlater

/-- The first segment starts after `a`. -/
theorem Adds.mergeFirst (hl : SegList n (s :: post)) (ha : 1 ≤ a) :
    Adds a b (s :: post) (mergeTail n b (s.startAt a) post) := by
  have hpos := (hl.bounds s mem_cons_self).2.1
  have hsfin : s.fin = s.off + s.len := rfl
  have hfin : (s.startAt a).fin = s.fin := Seg.fin_startAt (by omega)
  refine Adds.merge (hl.startAt ha (by omega)) hab .nil nofun (hfin ▸ hlater) [s] ?_
  intro x
  rw [hfin, covers_singleton]
  show _ ↔ a ≤ x ∧ _
  omega

/-- The segment before `s` reaches `a`, and takes `s` in. -/
theorem Adds.mergeInto (hl : SegList n (ps ++ [p] ++ s :: post)) (hp : p.off ≤ a) (hreach : a ≤ p.fin) :
    Adds a b (ps ++ [p] ++ s :: post) (ps ++ mergeTail n b (s.startAt p.off) post) := by
  obtain ⟨hpre, -, hcross⟩ := apart_append.mp hl.apart
  obtain ⟨hps, -, hpsep⟩ := apart_append.mp hpre
  have hpm : p ∈ ps ++ [p] := mem_append_right ps mem_cons_self
  have hpb := hl.init.bounds p hpm
  have hsb := hl.tail.bounds s mem_cons_self
  have hpfin : p.fin = p.off + p.len := rfl
  have hsfin : s.fin = s.off + s.len := rfl
  have hapart := hcross p hpm s mem_cons_self
  have hfin : (s.startAt p.off).fin = s.fin := Seg.fin_startAt (by omega)
  rw [append_assoc]
  refine Adds.merge (hl.tail.startAt hpb.1 (by omega)) (show p.off < b by omega) hps ?_ (hfin ▸ hlater) [p, s] ?_
  · exact fun q hq => hpsep q hq p mem_cons_self
  · intro x
    rw [hfin, covers_cons, covers_singleton]
    show _ ↔ p.off ≤ x ∧ _
    omega

omit hstart hreached in
theorem Adds.mergeAt (hl : SegList n (pre ++ s :: post)) (heq : s.off = a) :
    Adds a b (pre ++ s :: post) (pre ++ mergeTail n b s post) := by
  obtain ⟨hpre, -, hcross⟩ := apart_append.mp hl.apart
  refine Adds.merge hl.tail (heq ▸ hab) hpre (fun p hp => hcross p hp s mem_cons_self) hlater [s] ?_
  intro x
  rw [covers_singleton]
  omega

end Merge

section Add
variable {n a b new : Nat} {pre post : List Seg} {s : Seg} (hl : SegList n (pre ++ s :: post))
  (hloc : Located a pre s post) (ha : 1 ≤ a) (hab : a < b)
include hl hloc ha hab

theorem addSegs_safe (hsafe : AddSafe n a b pre s post) :
    Adds a b (pre ++ s :: post) (addSegs n a b new pre s post) := by
  obtain ⟨-, hspost, hcross⟩ := apart_append.mp hl.apart
  obtain ⟨hsep, -⟩ := apart_cons.mp hspost
  have hsb := hl.tail.bounds s mem_cons_self
  have hsfin : s.fin = s.off + s.len := rfl
  unfold addSegs
  by_cases hbefore : b < s.off
  · rw [if_pos hbefore]
    apply Adds.insert hl.apart (hsafe.before hbefore) _ hab
    intro t ht
    rcases mem_cons.mp ht with rfl | ht
    · exact hbefore
    · have := hsep t ht
      omega
  rw [if_neg hbefore]
  have hreached := Nat.not_lt.mp hbefore
  have hmod : s.fin % n = s.fin := Nat.mod_eq_of_lt (Nat.lt_of_le_of_ne hsb.2.2 (hsafe.ring hreached))
  rw [hmod]
  by_cases hstart : a ≤ s.off
  · have hlater := hsafe.later hstart hreached
    rw [if_neg (by omega), if_pos hstart]
    split
    · next hnil =>
      obtain rfl := getLast?_eq_none_iff.mp hnil
      exact Adds.mergeFirst hstart hreached hab hlater hl ha
    · next p hp =>
      obtain ⟨ps, rfl⟩ := getLast?_eq_some_iff.mp hp
      by_cases hreach : a ≤ p.fin
      · rw [if_pos hreach, dropLast_concat]
        exact Adds.mergeInto hstart hreached hab hlater hl (hloc.before p (mem_append_right ps mem_cons_self)) hreach
      · rw [if_neg hreach]
        apply Adds.mergeAt hab hlater hl
        by_contra hne
        exact hreach (hsafe.start hreached (by omega) p hp)
  obtain rfl : post = [] := hloc.after.resolve_right (by omega)
  by_cases hafter : s.fin < a
  · have hbehind : ∀ p ∈ pre ++ [s], p.fin < a := by
      intro p hp
      rcases mem_append.mp hp with hp | hp
      · have := hcross p hp s mem_cons_self
        omega
      · rwa [mem_singleton.mp hp]
    have hinsert : Adds a b (pre ++ [s] ++ []) (pre ++ [s] ++ [⟨new, a, b - a⟩]) :=
      Adds.insert (by rw [append_nil]; exact hl.apart) hbehind (by simp) hab
    rw [if_pos hafter]
    rwa [append_nil, append_assoc] at hinsert
  rw [if_neg hafter, if_neg hstart]
  by_cases hend : s.fin ≤ b
  · rw [if_pos hend]
    exact Adds.extend hl.apart (by omega) (by omega) hend
  · rw [if_neg hend]
    refine ⟨hl.apart, fun x => ⟨.inl, ?_⟩⟩
    rintro (hx | hx)
    · exact hx
    · exact covers_append.mpr (.inr (covers_cons.mpr (.inl ⟨by omega, by omega⟩)))

omit hloc in
theorem addSegs_unsafe (hbn : b ≤ n) (hn : n ≤ 2 ^ 31)
    (h : Adds a b (pre ++ s :: post) (addSegs n a b new pre s post)) :
    AddSafe n a b pre s post := by
  obtain ⟨hpre, hspost, hcross⟩ := apart_append.mp hl.apart
  obtain ⟨hsep, hpost⟩ := apart_cons.mp hspost
  have hsb := hl.tail.bounds s mem_cons_self
  have hsfin : s.fin = s.off + s.len := rfl
  have hps : ∀ p ∈ pre, p.fin < s.off := fun p hp => hcross p hp s mem_cons_self
  have hring : s.off ≤ b → s.fin ≠ n := by
    intro hle heq
    have hap := h.apart
    rw [addSegs, if_neg (Nat.not_lt.mpr hle), heq, Nat.mod_self,
      if_pos (show 0 < a from ha)] at hap
    have := (apart_cons.mp (apart_append.mp hap).2.1).1 _ mem_cons_self
    have hlt : s.fin < a := this
    omega
  -- the result where the new segment starts no later than `s`
  have hmerge (hle : s.off ≤ b) (hstart : a ≤ s.off) : addSegs n a b new pre s post =
      match pre.getLast? with
      | none => mergeTail n b (s.startAt a) post
      | some p =>
        if a ≤ p.fin then pre.dropLast ++ mergeTail n b (s.startAt p.off) post else pre ++ mergeTail n b s post := by
    have hmod : s.fin % n = s.fin := Nat.mod_eq_of_lt (Nat.lt_of_le_of_ne hsb.2.2 (hring hle))
    rw [addSegs, if_neg (Nat.not_lt.mpr hle), hmod, if_neg (by omega), if_pos hstart]
    rfl
  have hcovpost (x : Nat) (hx : Covers post x) : Covers (pre ++ s :: post) x :=
    covers_append.mpr (.inr (covers_cons.mpr (.inr hx)))
  have hcovbehind (x : Nat) (hlo : s.fin ≤ x) (hx : Covers (pre ++ s :: post) x) : Covers post x := by
    rcases covers_append.mp hx with ⟨p, hp, -, hhi⟩ | hx
    · have := hps p hp
      omega
    · rcases covers_cons.mp hx with hx | hx
      · omega
      · exact hx
  constructor
  case before =>
    intro hlt p hp
    have hap := h.apart
    rw [addSegs, if_pos hlt] at hap
    exact (apart_append.mp hap).2.2 p hp _ mem_cons_self
  case ring => exact hring
  case start =>
    intro hle hlt p hp
    by_contra hnot
    have hpa := Nat.not_le.mp hnot
    have hcov := h.covers
    rw [hmerge hle hlt.le, show pre.getLast? = some p from hp] at hcov
    simp only [if_neg hnot] at hcov
    obtain ⟨ps, rfl⟩ := getLast?_eq_some_iff.mp hp
    rcases covers_append.mp ((hcov a).mpr (.inr ⟨le_refl a, hab⟩)) with ⟨q, hq, -, hhi⟩ | ⟨t, ht, hlo, -⟩
    · rcases mem_append.mp hq with hq | hq
      · have := (apart_append.mp hpre).2.2 q hq p (mem_singleton.mpr rfl)
        have : p.fin = p.off + p.len := rfl
        omega
      · rw [mem_singleton.mp hq] at hhi
        omega
    · by_cases hsb' : s.off < b
      · have := le_off_mergeTail hl.tail hsb' t ht
        omega
      · have htail : mergeTail n b s post = s :: post := if_neg (by omega)
        rw [htail] at ht
        rcases mem_cons.mp ht with rfl | ht
        · omega
        · have := hsep t ht
          omega
  case later =>
    intro hstart hle hlt z hz
    by_contra hnot
    rw [hmerge hle hstart] at h
    split at h
    · next hnil =>
      obtain rfl := getLast?_eq_none_iff.mp hnil
      have hfin : (s.startAt a).fin = s.fin := Seg.fin_startAt (by omega)
      have hnone : ∀ p ∈ ([] : List Seg), p.fin < (s.startAt a).off := nofun
      refine mergeTail_unsafe (hl.tail.startAt ha (by omega)) (hfin.symm ▸ hlt) hbn hn hab hnone hcovpost
        ?_ (hfin.symm ▸ hcovbehind) hz hnot h
      intro x hlo hhi
      have hlo : a ≤ x := hlo
      omega
    · next p hp =>
      obtain ⟨ps, rfl⟩ := getLast?_eq_some_iff.mp hp
      have hpm : p ∈ ps ++ [p] := mem_append_right ps (mem_singleton.mpr rfl)
      have hpb := hl.init.bounds p hpm
      have hpfin : p.fin = p.off + p.len := rfl
      have hpss := hps p hpm
      split at h
      · next hreach =>
        rw [dropLast_concat] at h
        have hfin : (s.startAt p.off).fin = s.fin := Seg.fin_startAt (by omega)
        refine mergeTail_unsafe (hl.tail.startAt hpb.1 (by omega)) (hfin.symm ▸ hlt) hbn hn hab
          (fun q hq => (apart_append.mp hpre).2.2 q hq p (mem_singleton.mpr rfl)) hcovpost ?_
          (hfin.symm ▸ hcovbehind) hz hnot h
        intro x hlo hhi
        exact covers_append.mpr (.inl ⟨p, hpm, hlo, by omega⟩)
      · refine mergeTail_unsafe hl.tail hlt hbn hn hab hps hcovpost ?_ hcovbehind hz hnot h
        intro x hlo hhi
        omega

end Add

end Vpp.Svm
