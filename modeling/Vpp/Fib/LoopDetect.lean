import Vpp.Lib.EndedList
import Vpp.Lib.Walks

namespace Vpp.Fib
open Vpp.Lib Relation List

/-- The types of a path; a recursive one resolves through the entry `fpViaFib`. -/
inductive FibPathType where
  | attachedNextHop
  | attached
  | recursive (fpViaFib : Nat)
  | special
  | exclusive
  | deag
  | receive
  deriving DecidableEq, Repr

/-- The drop flags are the ones of the configuration and of the operation. -/
structure FibPath where
  fpType : FibPathType
  cfgDrop : Bool
  operDrop : Bool
  deriving DecidableEq, Repr

def FibPath.isPermanentDrop (path : FibPath) : Bool := path.cfgDrop || path.operDrop

/-- The entries, path-lists and paths by their indexes. An entry that is linked to no path-list has no parent. -/
structure FibGraph where
  feParent : Nat → Option Nat
  fplPaths : Nat → List Nat
  path : Nat → FibPath
  numEntries : Nat
  live : ∀ e, feParent e ≠ none → e < numEntries

/-- What the walk writes: the flags RECURSIVE_LOOP of the paths and LOOPED of the path-lists, the paths that were given
the drop object, and the entries whose forwarding was evaluated again. -/
structure LoopState where
  recursiveLoop : Nat → Bool
  looped : Nat → Bool
  dropped : List Nat
  reevaluated : List Nat

namespace LoopState

def setRecursiveLoop (s : LoopState) (path : Nat) (b : Bool) : LoopState :=
  { s with recursiveLoop := Function.update s.recursiveLoop path b }

def setLooped (s : LoopState) (pathList : Nat) (b : Bool) : LoopState :=
  { s with looped := Function.update s.looped pathList b }

def stackOnDrop (s : LoopState) (path : Nat) : LoopState := { s with dropped := s.dropped ++ [path] }

def reevaluate (s : LoopState) (entry : Nat) : LoopState := { s with reevaluated := s.reevaluated ++ [entry] }

end LoopState

abbrev Detect := LoopState → Option (Nat × LoopState)

namespace LoopState

@[simp] theorem setRecursiveLoop_self (s : LoopState) (p : Nat) (b : Bool) :
    (s.setRecursiveLoop p b).recursiveLoop p = b := by
  simp [setRecursiveLoop]

theorem setRecursiveLoop_of_ne (s : LoopState) (h : q ≠ p) (b : Bool) :
    (s.setRecursiveLoop p b).recursiveLoop q = s.recursiveLoop q := by
  simp [setRecursiveLoop, h]

end LoopState

def fibPathIsLooped (s : LoopState) (path : Nat) : Nat := (s.recursiveLoop path).toNat

variable (g : FibGraph)

def fibEntryRecursiveLoopDetect (listDetect : Nat → List Nat → Detect) (entry : Nat) (entries : List Nat) :
    Detect := fun s =>
  match g.feParent entry with
  | some parent => do
    let (isLooped, s') ← listDetect parent (entries ++ [entry]) s
    if s.looped parent = decide (isLooped ≠ 0) then pure (isLooped, s')
    else pure (isLooped, s'.reevaluate entry)
  | none => pure (0, s)

def fibPathRecursiveLoopDetect (listDetect : Nat → List Nat → Detect) (path : Nat) (entries : List Nat) :
    Detect := fun s =>
  if (g.path path).isPermanentDrop then pure (0, s)
  else
    match (g.path path).fpType with
    | .recursive viaFib =>
      if viaFib ∈ entries then do
        let s' := (s.setRecursiveLoop path true).stackOnDrop path
        pure (fibPathIsLooped s' path, s')
      else do
        let (isLooped, s') ← fibEntryRecursiveLoopDetect g listDetect viaFib entries s
        let s'' := s'.setRecursiveLoop path (decide (isLooped ≠ 0))
        pure (fibPathIsLooped s'' path, s'')
    | _ => pure (fibPathIsLooped s path, s)

def detectPaths (detect : Nat → Detect) : List Nat → Nat → Detect
  | [], listLooped => fun s => pure (listLooped, s)
  | path :: paths, listLooped => fun s => do
    let (isLooped, s') ← detect path s
    detectPaths detect paths (listLooped + isLooped) s'

/-- No result when a walk goes through more than `n` path-lists. -/
def fibPathListRecursiveLoopDetect : Nat → Nat → List Nat → Detect
  | 0, _, _ => fun _ => none
  | n + 1, pathList, entries => fun s => do
    let (listLooped, s') ← detectPaths
      (fun path => fibPathRecursiveLoopDetect g (fibPathListRecursiveLoopDetect n) path entries)
      (g.fplPaths pathList) 0 s
    pure (listLooped, s'.setLooped pathList (decide (listLooped ≠ 0)))

inductive FibNode where
  | entry (index : Nat)
  | pathList (index : Nat)
  | path (index : Nat)
  deriving DecidableEq

/-- A path that is dropped for good is not resolved, so it leads nowhere. -/
inductive FibEdge : FibNode → FibNode → Prop
  | parent (h : g.feParent e = some l) : FibEdge (.entry e) (.pathList l)
  | member (h : p ∈ g.fplPaths l) : FibEdge (.pathList l) (.path p)
  | via (hd : (g.path p).isPermanentDrop = false) (ht : (g.path p).fpType = .recursive e) :
    FibEdge (.path p) (.entry e)

def FibGraph.IsLeaf (p : Nat) : Prop :=
  (g.path p).isPermanentDrop = false ∧ ∀ e, (g.path p).fpType ≠ .recursive e

def FibGraph.IsRecursive (p : Nat) : Prop :=
  (g.path p).isPermanentDrop = false ∧ ∃ e, (g.path p).fpType = .recursive e

/-- The leaf paths that carry the flag; no walk sets or clears it there. -/
def MarkedLeaf (s : LoopState) (x : FibNode) : Prop := ∃ p, x = .path p ∧ g.IsLeaf p ∧ s.recursiveLoop p = true

def Looping (s : LoopState) : FibNode → Prop := Trapped (FibEdge g) (MarkedLeaf g s)

variable {g}

theorem looping_pathList : Looping g s (.pathList l) ↔ ∃ p ∈ g.fplPaths l, Looping g s (.path p) := by
  rw [Looping, trapped_iff]
  constructor
  · rintro (⟨p, hp, -⟩ | ⟨y, hy, ht⟩)
    · cases hp
    · cases hy with
      | member hp => exact ⟨_, hp, ht⟩
  · rintro ⟨p, hp, ht⟩
    exact .inr ⟨_, .member hp, ht⟩

theorem looping_entry : Looping g s (.entry e) ↔ ∃ l, g.feParent e = some l ∧ Looping g s (.pathList l) := by
  rw [Looping, trapped_iff]
  constructor
  · rintro (⟨p, hp, -⟩ | ⟨y, hy, ht⟩)
    · cases hp
    · cases hy with
      | parent hl => exact ⟨_, hl, ht⟩
  · rintro ⟨l, hl, ht⟩
    exact .inr ⟨_, .parent hl, ht⟩

theorem looping_recursive (hd : (g.path p).isPermanentDrop = false) (ht : (g.path p).fpType = .recursive e) :
    Looping g s (.path p) ↔ Looping g s (.entry e) := by
  rw [Looping, trapped_iff]
  constructor
  · rintro (⟨q, hq, hleaf, -⟩ | ⟨y, hy, htrap⟩)
    · cases hq
      exact absurd ht (hleaf.2 e)
    · cases hy with
      | via _ ht' =>
        rw [ht] at ht'
        cases ht'
        exact htrap
  · intro htrap
    exact .inr ⟨_, .via hd ht, htrap⟩

theorem looping_leaf (h : g.IsLeaf p) : Looping g s (.path p) ↔ s.recursiveLoop p = true := by
  rw [Looping, trapped_iff]
  constructor
  · rintro (⟨q, hq, -, hm⟩ | ⟨y, hy, -⟩)
    · cases hq
      exact hm
    · cases hy with
      | via _ ht => exact absurd ht (h.2 _)
  · intro hm
    exact .inl ⟨p, rfl, h, hm⟩

theorem looping_drop (h : (g.path p).isPermanentDrop = true) : ¬ Looping g s (.path p) := by
  rw [Looping, trapped_iff]
  rintro (⟨q, hq, hleaf, -⟩ | ⟨y, hy, -⟩)
  · cases hq
    rw [hleaf.1] at h
    cases h
  · cases hy with
    | via hd _ =>
      rw [hd] at h
      cases h

def InEntries (entries : List Nat) (x : FibNode) : Prop := ∃ e ∈ entries, x = .entry e

def FlagRight (g : FibGraph) (s₀ s : LoopState) (p : Nat) : Prop :=
  s.recursiveLoop p = true ↔ Looping g s₀ (.path p)

def Kept (g : FibGraph) (s₀ s s' : LoopState) : Prop :=
  ∀ p, s'.recursiveLoop p = s.recursiveLoop p ∨ FlagRight g s₀ s' p

/-- The flags behind `x` are right, as far as one gets without the entries seen before. -/
def Reached (g : FibGraph) (s₀ : LoopState) (entries : List Nat) (x : FibNode) (s : LoopState) : Prop :=
  ∀ p, (g.path p).isPermanentDrop = false →
    ReflTransGen (Outside (FibEdge g) (InEntries entries)) x (.path p) → FlagRight g s₀ s p

def LeavesRight (g : FibGraph) (s₀ s : LoopState) : Prop := ∀ p, g.IsLeaf p → FlagRight g s₀ s p

theorem Kept.refl (s : LoopState) : Kept g s₀ s s := fun _ => .inl rfl

theorem Kept.right (h : Kept g s₀ s s') (hp : FlagRight g s₀ s p) : FlagRight g s₀ s' p := by
  cases h p with
  | inl heq => rwa [FlagRight, heq]
  | inr hr => exact hr

theorem Kept.trans (h : Kept g s₀ s s') (h' : Kept g s₀ s' s'') : Kept g s₀ s s'' := by
  intro p
  cases h p with
  | inl heq =>
    cases h' p with
    | inl heq' => exact .inl (heq'.trans heq)
    | inr hr => exact .inr hr
  | inr hr => exact .inr (h'.right hr)

theorem Reached.keep (h : Reached g s₀ entries x s) (hk : Kept g s₀ s s') : Reached g s₀ entries x s' :=
  fun p hd hp => hk.right (h p hd hp)

theorem LeavesRight.keep (h : LeavesRight g s₀ s) (hk : Kept g s₀ s s') : LeavesRight g s₀ s' :=
  fun p hp => hk.right (h p hp)

theorem setRecursiveLoop_kept (hb : b = true ↔ Looping g s₀ (.path p)) :
    Kept g s₀ s (s.setRecursiveLoop p b) ∧ FlagRight g s₀ (s.setRecursiveLoop p b) p := by
  have hr : FlagRight g s₀ (s.setRecursiveLoop p b) p := by
    rw [FlagRight, LoopState.setRecursiveLoop_self]
    exact hb
  refine ⟨?_, hr⟩
  intro q
  by_cases hq : q = p
  · subst hq
    exact .inr hr
  · exact .inl (s.setRecursiveLoop_of_ne hq b)

/-- A part of the walk at `x` comes to an end, makes the flags behind `x` right and tells whether there is a loop. -/
def Walks (g : FibGraph) (s₀ : LoopState) (entries : List Nat) (x : FibNode) (detect : Detect) : Prop :=
  ∀ s, LeavesRight g s₀ s → ∃ k s', detect s = some (k, s') ∧ Kept g s₀ s s' ∧ Reached g s₀ entries x s' ∧
    (k ≠ 0 ↔ Looping g s₀ x)

/-- The entries on the way to `x`; each leads to `x`, and `n` path-lists more are enough to see the others. -/
structure Context (g : FibGraph) (entries : List Nat) (x : FibNode) (n : Nat) : Prop where
  nodup : entries.Nodup
  live : ∀ e ∈ entries, e < g.numEntries
  trail : ∀ e ∈ entries, ReflTransGen (FibEdge g) (.entry e) x
  rounds : g.numEntries < entries.length + n

theorem Context.step (h : Context g entries x n) (hxy : FibEdge g x y) : Context g entries y n :=
  { h with trail := fun e he => (h.trail e he).tail hxy }

theorem Context.push (h : Context g entries (.entry e) (n + 1)) (he : e ∉ entries) (hl : g.feParent e = some l) :
    Context g (entries ++ [e]) (.pathList l) n where
  nodup := by
    rw [nodup_append]
    refine ⟨h.nodup, nodup_singleton e, ?_⟩
    intro a ha b hb hab
    rw [mem_singleton] at hb
    exact he (hb ▸ hab ▸ ha)
  live := by
    intro a ha
    cases mem_append.mp ha with
    | inl ha => exact h.live a ha
    | inr ha =>
      rw [mem_singleton.mp ha]
      apply g.live
      rw [hl]
      exact Option.some_ne_none l
  trail := by
    intro a ha
    cases mem_append.mp ha with
    | inl ha => exact (h.trail a ha).tail (.parent hl)
    | inr ha =>
      rw [mem_singleton.mp ha]
      exact .single (.parent hl)
  rounds := by
    have hr := h.rounds
    rw [length_append, length_singleton]
    omega

theorem Context.not_zero (h : Context g entries x 0) : False := by
  have hle := length_le_of_lt h.nodup h.live
  have hr := h.rounds
  omega

theorem outside_push (h : ReflTransGen (Outside (FibEdge g) (InEntries entries)) (.entry e) y) :
    ReflTransGen (Outside (FibEdge g) (InEntries (entries ++ [e]))) (.entry e) y := by
  have hmono : ∀ a b, Outside (FibEdge g) (fun z => InEntries entries z ∨ z = .entry e) a b →
      Outside (FibEdge g) (InEntries (entries ++ [e])) a b := by
    rintro a b ⟨hab, hb⟩
    refine ⟨hab, ?_⟩
    rintro ⟨e', he', rfl⟩
    apply hb
    cases mem_append.mp he' with
    | inl he' => exact .inl ⟨e', he', rfl⟩
    | inr he' => exact .inr (congrArg FibNode.entry (mem_singleton.mp he'))
  exact ReflTransGen.mono hmono _ _ (outside_restart h)

section Steps

variable {listDetect : Nat → List Nat → Detect}

theorem fibEntryRecursiveLoopDetect_walks (hc : Context g entries (.entry e) (n + 1)) (he : e ∉ entries)
    (hlist : ∀ l entries, Context g entries (.pathList l) n → Walks g s₀ entries (.pathList l) (listDetect l entries)) :
    Walks g s₀ entries (.entry e) (fibEntryRecursiveLoopDetect g listDetect e entries) := by
  intro s hs
  rw [fibEntryRecursiveLoopDetect]
  cases hl : g.feParent e with
  | none =>
    refine ⟨0, s, rfl, .refl s, ?_, ?_⟩
    · intro p _ hp
      cases hp.cases_head with
      | inl heq => cases heq
      | inr hstep =>
        obtain ⟨y, ⟨hy, -⟩, -⟩ := hstep
        cases hy with
        | parent hl' =>
          rw [hl] at hl'
          cases hl'
    · rw [looping_entry, hl]
      simp
  | some l =>
    obtain ⟨k, s', hrun, hk, hr, hloop⟩ := hlist l (entries ++ [e]) (hc.push he hl) s hs
    have hreached : Reached g s₀ entries (.entry e) s' := by
      intro p hd hp
      cases (outside_push hp).cases_head with
      | inl heq => cases heq
      | inr hstep =>
        obtain ⟨y, ⟨hy, -⟩, hrest⟩ := hstep
        cases hy with
        | parent hl' =>
          rw [hl] at hl'
          cases hl'
          exact hr p hd hrest
    have hlooping : k ≠ 0 ↔ Looping g s₀ (.entry e) := by
      rw [hloop, looping_entry, hl]
      simp
    simp only [hrun, Option.bind_eq_bind, Option.bind_some]
    split
    · exact ⟨k, s', rfl, hk, hreached, hlooping⟩
    · exact ⟨k, s'.reevaluate e, rfl, hk, hreached, hlooping⟩

theorem fibPathRecursiveLoopDetect_walks (hc : Context g entries (.path p) (n + 1))
    (hlist : ∀ l entries, Context g entries (.pathList l) n → Walks g s₀ entries (.pathList l) (listDetect l entries)) :
    Walks g s₀ entries (.path p) (fibPathRecursiveLoopDetect g listDetect p entries) := by
  intro s hs
  rw [fibPathRecursiveLoopDetect]
  cases hd : (g.path p).isPermanentDrop with
  | true =>
    refine ⟨0, s, rfl, .refl s, ?_, ?_⟩
    · intro q hq hp
      cases hp.cases_head with
      | inl heq =>
        cases heq
        rw [hd] at hq
        cases hq
      | inr hstep =>
        obtain ⟨y, ⟨hy, -⟩, -⟩ := hstep
        cases hy with
        | via hd' _ =>
          rw [hd] at hd'
          cases hd'
    · simp [looping_drop hd]
  | false =>
    -- behind the path itself come the paths behind its entry
    have hbehind {s' : LoopState} (hp : FlagRight g s₀ s' p)
        (he : ∀ e, (g.path p).fpType = .recursive e → e ∉ entries → Reached g s₀ entries (.entry e) s') :
        Reached g s₀ entries (.path p) s' := by
      intro q hq hpath
      cases hpath.cases_head with
      | inl heq =>
        cases heq
        exact hp
      | inr hstep =>
        obtain ⟨y, ⟨hy, hout⟩, hrest⟩ := hstep
        cases hy with
        | via _ ht => exact he _ ht (fun hm => hout ⟨_, hm, rfl⟩) q hq hrest
    have hflag {s' : LoopState} (hp : FlagRight g s₀ s' p) :
        fibPathIsLooped s' p ≠ 0 ↔ Looping g s₀ (.path p) := by
      rw [← show s'.recursiveLoop p = true ↔ _ from hp, fibPathIsLooped]
      cases s'.recursiveLoop p <;> decide
    have hleaf (hne : ∀ e, (g.path p).fpType ≠ .recursive e) : FlagRight g s₀ s p := hs p ⟨hd, hne⟩
    cases ht : (g.path p).fpType with
    | recursive e =>
      simp only [Bool.false_eq_true, ↓reduceIte]
      split
      · next hin =>
        have hcycle : Looping g s₀ (.path p) :=
          Trapped.of_cycle (TransGen.head' (.via hd ht) (hc.trail e hin))
        obtain ⟨hk, hr⟩ := setRecursiveLoop_kept (s := s) (b := true) (iff_of_true rfl hcycle)
        refine ⟨_, _, rfl, hk, ?_, hflag hr⟩
        apply hbehind hr
        intro e' ht' hout
        rw [ht] at ht'
        cases ht'
        exact absurd hin hout
      · next hout =>
        obtain ⟨k, s', hrun, hk, hr, hloop⟩ :=
          fibEntryRecursiveLoopDetect_walks (hc.step (.via hd ht)) hout hlist s hs
        have hb : decide (k ≠ 0) = true ↔ Looping g s₀ (.path p) := by
          rw [decide_eq_true_iff, hloop, looping_recursive hd ht]
        obtain ⟨hk', hp⟩ := setRecursiveLoop_kept (s := s') hb
        simp only [hrun, Option.bind_eq_bind, Option.bind_some]
        refine ⟨_, _, rfl, hk.trans hk', ?_, hflag hp⟩
        apply hbehind hp
        intro e' ht' _
        rw [ht] at ht'
        cases ht'
        exact hr.keep hk'
    | attachedNextHop | attached | special | exclusive | deag | receive =>
      have hp := hleaf (by simp [ht])
      refine ⟨_, s, rfl, .refl s, ?_, hflag hp⟩
      apply hbehind hp
      intro e he
      rw [ht] at he
      cases he

theorem detectPaths_walks {detect : Nat → Detect} (paths : List Nat)
    (h : ∀ p ∈ paths, Walks g s₀ entries (.path p) (detect p)) (k : Nat) (hs : LeavesRight g s₀ s) :
    ∃ k' s', detectPaths detect paths k s = some (k', s') ∧ Kept g s₀ s s' ∧
      (∀ p ∈ paths, Reached g s₀ entries (.path p) s') ∧
      (k' ≠ 0 ↔ k ≠ 0 ∨ ∃ p ∈ paths, Looping g s₀ (.path p)) := by
  induction paths generalizing k s with
  | nil => exact ⟨k, s, rfl, .refl s, by simp, by simp⟩
  | cons p paths ih =>
    obtain ⟨k₁, s₁, hrun₁, hk₁, hr₁, hl₁⟩ := h p mem_cons_self s hs
    obtain ⟨k₂, s₂, hrun₂, hk₂, hr₂, hl₂⟩ :=
      ih (fun q hq => h q (mem_cons_of_mem p hq)) (k + k₁) (hs.keep hk₁)
    refine ⟨k₂, s₂, ?_, hk₁.trans hk₂, ?_, ?_⟩
    · simp only [detectPaths, hrun₁, Option.bind_eq_bind, Option.bind_some, hrun₂]
    · intro q hq
      cases mem_cons.mp hq with
      | inl heq =>
        rw [heq]
        exact hr₁.keep hk₂
      | inr hq => exact hr₂ q hq
    · rw [hl₂, exists_mem_cons_iff, ← hl₁]
      have hsum : k + k₁ ≠ 0 ↔ k ≠ 0 ∨ k₁ ≠ 0 := by omega
      rw [hsum, or_assoc]

end Steps

theorem fibPathListRecursiveLoopDetect_walks (hc : Context g entries (.pathList l) n) :
    Walks g s₀ entries (.pathList l) (fibPathListRecursiveLoopDetect g n l entries) := by
  induction n generalizing l entries with
  | zero => exact hc.not_zero.elim
  | succ n ih =>
    intro s hs
    have hpaths (p : Nat) (hp : p ∈ g.fplPaths l) : Walks g s₀ entries (.path p)
        (fibPathRecursiveLoopDetect g (fibPathListRecursiveLoopDetect g n) p entries) :=
      fibPathRecursiveLoopDetect_walks (hc.step (.member hp)) fun l' entries' hc' => ih hc'
    obtain ⟨k, s', hrun, hk, hr, hloop⟩ := detectPaths_walks (g.fplPaths l) hpaths 0 hs
    refine ⟨k, s'.setLooped l (decide (k ≠ 0)), ?_, hk, ?_, ?_⟩
    · simp only [fibPathListRecursiveLoopDetect, hrun, Option.bind_eq_bind, Option.bind_some, pure]
    · intro q hq hpath
      cases hpath.cases_head with
      | inl heq => cases heq
      | inr hstep =>
        obtain ⟨y, ⟨hy, -⟩, hrest⟩ := hstep
        cases hy with
        | member hp => exact hr _ hp q hq hrest
    · rw [hloop, looping_pathList]
      simp

/-- The walk as the users of a path-list start it. A walk that has seen every entry goes no further. -/
def recursiveLoopDetect (g : FibGraph) (pathList : Nat) : Detect :=
  fibPathListRecursiveLoopDetect g (g.numEntries + 1) pathList []

theorem context_nil (g : FibGraph) (x : FibNode) : Context g [] x (g.numEntries + 1) where
  nodup := nodup_nil
  live := by simp
  trail := by simp
  rounds := by simp

theorem leavesRight_refl (g : FibGraph) (s : LoopState) : LeavesRight g s s := fun _ hp => (looping_leaf hp).symm

theorem recursiveLoopDetect_flags (g : FibGraph) (l : Nat) (s : LoopState) :
    ∃ k s', recursiveLoopDetect g l s = some (k, s') ∧ ∀ p, (g.path p).isPermanentDrop = false →
      ReflTransGen (FibEdge g) (.pathList l) (.path p) → FlagRight g s s' p := by
  obtain ⟨k, s', hrun, -, hr, -⟩ :=
    fibPathListRecursiveLoopDetect_walks (context_nil g (.pathList l)) s (leavesRight_refl g s)
  refine ⟨k, s', hrun, ?_⟩
  intro p hd hp
  apply hr p hd
  have hmono : ∀ a b, FibEdge g a b → Outside (FibEdge g) (InEntries []) a b := by
    intro a b hab
    refine ⟨hab, ?_⟩
    rintro ⟨e, he, -⟩
    cases he
  exact ReflTransGen.mono hmono _ _ hp

/-- The edges that carry packets: a path that is marked as looped does not forward. -/
def ForwardEdge (g : FibGraph) (s : LoopState) (x y : FibNode) : Prop :=
  FibEdge g x y ∧ ∀ p, x = .path p → s.recursiveLoop p = false

theorem reach_of_forward (h : ReflTransGen (ForwardEdge g s) x y) : ReflTransGen (FibEdge g) x y :=
  ReflTransGen.mono (fun _ _ hab => hab.1) _ _ h

/-- No packet can go round in circles, whatever the graph and the flags were before. -/
theorem recursiveLoopDetect_sound (g : FibGraph) (l : Nat) (s : LoopState) :
    ∃ k s', recursiveLoopDetect g l s = some (k, s') ∧
      ∀ x, ReflTransGen (ForwardEdge g s') (.pathList l) x → ¬ TransGen (ForwardEdge g s') x x := by
  obtain ⟨k, s', hrun, hflags⟩ := recursiveLoopDetect_flags g l s
  refine ⟨k, s', hrun, ?_⟩
  -- a cycle goes through a path, and a path on a cycle is marked
  have hpath (p : Nat) (hx : ReflTransGen (ForwardEdge g s') (.pathList l) (.path p)) :
      ¬ TransGen (ForwardEdge g s') (.path p) (.path p) := by
    intro hc
    obtain ⟨y, ⟨hy, hfree⟩, hback⟩ := TransGen.head'_iff.mp hc
    cases hy with
    | via hd ht =>
      have hcycle := TransGen.head' (.via hd ht) (reach_of_forward hback)
      have hmark := (hflags p hd (reach_of_forward hx)).mpr (.of_cycle hcycle)
      rw [hfree p rfl] at hmark
      cases hmark
  have hlist (l' : Nat) (hx : ReflTransGen (ForwardEdge g s') (.pathList l) (.pathList l')) :
      ¬ TransGen (ForwardEdge g s') (.pathList l') (.pathList l') := by
    intro hc
    obtain ⟨y, hy, hback⟩ := TransGen.head'_iff.mp hc
    cases hy.1 with
    | member hp => exact hpath _ (hx.tail hy) (TransGen.tail' hback hy)
  intro x hx hc
  cases x with
  | path p => exact hpath p hx hc
  | pathList l' => exact hlist l' hx hc
  | entry e =>
    obtain ⟨y, hy, hback⟩ := TransGen.head'_iff.mp hc
    cases hy.1 with
    | parent hl => exact hlist _ (hx.tail hy) (TransGen.tail' hback hy)

/-- One looped path makes the whole list looped, and a list that is looped makes every path that leads to it looped: a
path is marked just when a loop can be reached from it, also when there is a way out. -/
theorem recursiveLoopDetect_marks (g : FibGraph) (l : Nat) (s : LoopState) :
    ∃ k s', recursiveLoopDetect g l s = some (k, s') ∧ ∀ p ∈ g.fplPaths l, g.IsRecursive p →
      (s'.recursiveLoop p = true ↔ Looping g s (.path p)) := by
  obtain ⟨k, s', hrun, hflags⟩ := recursiveLoopDetect_flags g l s
  refine ⟨k, s', hrun, ?_⟩
  intro p hp hrec
  exact hflags p hrec.1 (.single (.member hp))

def OffCycles (g : FibGraph) (p : Nat) : Prop := ¬ TransGen (FibEdge g) (.path p) (.path p)

def OffCycleEdge (g : FibGraph) (x y : FibNode) : Prop := FibEdge g x y ∧ ∀ p, x = .path p → OffCycles g p

/-- From the entry of the path a leaf can be reached along paths that lie on no cycle. -/
def HasWayOut (g : FibGraph) (p : Nat) : Prop :=
  ∃ e q, (g.path p).fpType = .recursive e ∧ g.IsLeaf q ∧ ReflTransGen (OffCycleEdge g) (.entry e) (.path q)

/-- Only paths that lie on a cycle, or cannot but run into one, are marked. -/
def DetectPrecise (g : FibGraph) (l : Nat) (s : LoopState) : Prop :=
  ∃ k s', recursiveLoopDetect g l s = some (k, s') ∧ ∀ p ∈ g.fplPaths l, g.IsRecursive p → OffCycles g p →
    HasWayOut g p → s'.recursiveLoop p = false

def plainPath (t : FibPathType) : FibPath := ⟨t, false, false⟩

def taintedParent (e : Nat) : Option Nat := if e < 2 then some (e + 1) else none

theorem taintedParent_live (e : Nat) (h : taintedParent e ≠ none) : e < 2 := by
  by_contra hge
  exact h (if_neg hge)

/-- Path 0 leads to entry 0, which has the path 1 into the loop of entry 1 and the attached path 2. -/
def taintedGraph : FibGraph where
  feParent := taintedParent
  fplPaths l := if l = 0 then [0] else if l = 1 then [1, 2] else [3]
  path p := plainPath (if p = 0 then .recursive 0 else if p = 2 then .attached else .recursive 1)
  numEntries := 2
  live := taintedParent_live

def clearState : LoopState := ⟨fun _ => false, fun _ => false, [], []⟩

theorem recursiveLoopDetect_imprecise : ¬ DetectPrecise taintedGraph 0 clearState := by
  rintro ⟨k, s', hrun, hp⟩
  have hmarked : (recursiveLoopDetect taintedGraph 0 clearState).map (fun r => r.2.recursiveLoop 0) = some true := by
    rfl
  -- nothing leads back to path 0
  have hleave {x y : FibNode} (h : FibEdge taintedGraph x y) (hx : x ≠ .pathList 0) :
      y ≠ .pathList 0 ∧ y ≠ .path 0 := by
    cases h with
    | parent hl =>
      refine ⟨?_, FibNode.noConfusion⟩
      rintro ⟨⟩
      simp [taintedGraph, taintedParent] at hl
    | @member l q hq =>
      refine ⟨FibNode.noConfusion, ?_⟩
      rintro ⟨⟩
      have hl : l ≠ 0 := fun h0 => hx (congrArg FibNode.pathList h0)
      by_cases h1 : l = 1
      · simp [taintedGraph, h1] at hq
      · simp [taintedGraph, hl, h1] at hq
    | via _ _ => exact ⟨FibNode.noConfusion, FibNode.noConfusion⟩
  have hoff : OffCycles taintedGraph 0 := by
    intro hc
    have hend {y : FibNode} (h : TransGen (FibEdge taintedGraph) (.path 0) y) : y ≠ .pathList 0 ∧ y ≠ .path 0 := by
      induction h with
      | single h => exact hleave h FibNode.noConfusion
      | tail _ h ih => exact hleave h ih.1
    exact (hend hc).2 rfl
  have hout : HasWayOut taintedGraph 0 := by
    refine ⟨0, 2, rfl, ⟨rfl, fun e he => ?_⟩, ?_⟩
    · cases he
    · have hparent : FibEdge taintedGraph (.entry 0) (.pathList 1) := .parent rfl
      have hmember : FibEdge taintedGraph (.pathList 1) (.path 2) := .member (by decide)
      have hfirst : OffCycleEdge taintedGraph (.entry 0) (.pathList 1) := ⟨hparent, fun p hp => by cases hp⟩
      have hlast : OffCycleEdge taintedGraph (.pathList 1) (.path 2) := ⟨hmember, fun p hp => by cases hp⟩
      exact .tail (.single hfirst) hlast
  have hclear := hp 0 (by decide) ⟨rfl, 0, rfl⟩ hoff hout
  rw [hrun, Option.map_some, hclear] at hmarked
  cases hmarked

end Vpp.Fib
