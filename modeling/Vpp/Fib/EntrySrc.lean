import Vpp.Lib.SortedVec

namespace Vpp.Fib
open Vpp.Lib

inductive FibSource where
  | special
  | classify
  | interface
  | pluginHi
  | api
  | cli
  | lisp
  | sr
  | map
  | sixrd
  | dhcp
  | ip6NdProxy
  | adj
  | mpls
  | ae
  | rr
  | urpfExempt
  | defaultRoute
  deriving DecidableEq

instance : LinearOrder FibSource :=
  LinearOrder.lift' FibSource.ctorIdx (by
    intro a b h
    cases a <;> cases b <;> first | rfl | cases h)

abbrev PathList := BitVec 32

def pathListInvalid : PathList := BitVec.allOnes 32

/-- The flags of a source are its bits ACTIVE and ADDED. The flags of the entry and the path extensions are left out. -/
structure FibEntrySrc where
  fesPl : PathList
  fesSrc : FibSource
  active : Bool
  added : Bool
  fesRefCount : BitVec 8
  deriving DecidableEq

/-- The forwarding is known by the source and path-list that it was installed from. -/
structure FibEntry where
  feSrcs : List FibEntrySrc
  feParent : PathList
  feLb : Option (FibSource × PathList)

/-- What the functions of a source make of its path-list, as the tables are at the time. One that a source lacks leaves
it as it is, and is go for install. -/
structure FibEntrySrcVft where
  fesvAdd : PathList → PathList
  fesvRemove : PathList → PathList
  fesvActivate : PathList → PathList × Bool
  fesvDeactivate : PathList → PathList
  fesvPathAdd : PathList → PathList
  fesvPathSwap : PathList → PathList
  fesvPathRemove : PathList → PathList

abbrev Vft := FibSource → FibEntrySrcVft

def fibEntrySrcFind (e : FibEntry) (source : FibSource) : Option FibEntrySrc := look FibEntrySrc.fesSrc e.feSrcs source

def FibEntry.updateSrc (e : FibEntry) (source : FibSource) (f : FibEntrySrc → FibEntrySrc) : FibEntry :=
  { e with feSrcs := updateFirst FibEntrySrc.fesSrc source f e.feSrcs }

def fibEntrySrcActionInit (e : FibEntry) (source : FibSource) : FibEntry :=
  { e with feSrcs := sortBy FibEntrySrc.fesSrc (e.feSrcs ++ [⟨pathListInvalid, source, false, false, 0⟩]) }

def fibEntrySrcFindOrCreate (e : FibEntry) (source : FibSource) : FibEntry :=
  if (fibEntrySrcFind e source).isSome then e else fibEntrySrcActionInit e source

def fibEntrySrcIndex (e : FibEntry) (source : FibSource) : Nat := e.feSrcs.findIdx (·.fesSrc = source)

/-- The last source takes the place of the one that goes. -/
def fibEntrySrcActionDeinit (e : FibEntry) (source : FibSource) : FibEntry :=
  { e with feSrcs := delSwap e.feSrcs (fibEntrySrcIndex e source) }

def fibEntryGetBestSource (e : FibEntry) : Option FibSource := e.feSrcs.head?.map FibEntrySrc.fesSrc

/-- The callers know that the source is there. -/
def fibEntrySrcActionInstall (e : FibEntry) (source : FibSource) : FibEntry :=
  { e with feLb := (fibEntrySrcFind e source).map fun esrc => (source, esrc.fesPl) }

def fibEntrySrcActionUninstall (e : FibEntry) : FibEntry := { e with feLb := none }

def fibEntrySrcActionActivate (vft : Vft) (e : FibEntry) (source : FibSource) : FibEntry :=
  match fibEntrySrcFind e source with
  | none => e
  | some esrc =>
    let (pl, houstonWeAreGoForInstall) := (vft source).fesvActivate esrc.fesPl
    let e := e.updateSrc source fun esrc => { esrc with active := true, fesPl := pl }
    let e := { e with feParent := pl }
    if houstonWeAreGoForInstall then fibEntrySrcActionInstall e source else fibEntrySrcActionUninstall e

def fibEntrySrcActionDeactivate (vft : Vft) (e : FibEntry) (source : FibSource) : FibEntry :=
  let e := e.updateSrc source fun esrc =>
    { esrc with fesPl := (vft source).fesvDeactivate esrc.fesPl, active := false }
  { e with feParent := pathListInvalid }

def fibEntrySrcActionReactivate (e : FibEntry) (source : FibSource) : FibEntry :=
  match fibEntrySrcFind e source with
  | none => e
  | some esrc => fibEntrySrcActionInstall { e with feParent := esrc.fesPl } source

def fibEntrySrcActionAdd (vft : Vft) (e : FibEntry) (source : FibSource) : FibEntry :=
  let e := fibEntrySrcFindOrCreate e source
  e.updateSrc source fun esrc =>
    let esrc := { esrc with fesRefCount := esrc.fesRefCount + 1 }
    -- the source is only added on the 0->1 transition
    if esrc.fesRefCount ≠ 1 then esrc
    else { esrc with fesPl := (vft source).fesvAdd esrc.fesPl, added := true }

def fibEntrySrcActionUpdate (vft : Vft) (e : FibEntry) (source : FibSource) : FibEntry :=
  let e := fibEntrySrcFindOrCreate e source
  e.updateSrc source fun esrc => { esrc with fesPl := (vft source).fesvAdd esrc.fesPl, added := true }

def fibEntrySrcActionRemove (vft : Vft) (e : FibEntry) (source : FibSource) : FibEntry × Bool :=
  match fibEntrySrcFind e source with
  | none => (e, false)
  | some esrc =>
    let e := e.updateSrc source fun esrc => { esrc with fesRefCount := esrc.fesRefCount - 1 }
    if esrc.fesRefCount - 1 ≠ 0 then (e, esrc.added)
    else
      let e := if esrc.active then fibEntrySrcActionDeactivate vft e source else e
      let e := e.updateSrc source fun esrc => { esrc with fesPl := (vft source).fesvRemove esrc.fesPl }
      (fibEntrySrcActionDeinit e source, false)

def fibEntrySrcActionPathAdd (vft : Vft) (e : FibEntry) (source : FibSource) : FibEntry :=
  let e := if (fibEntrySrcFind e source).isSome then e else fibEntrySrcActionAdd vft e source
  e.updateSrc source fun esrc => { esrc with fesPl := (vft source).fesvPathAdd esrc.fesPl }

def fibEntrySrcActionPathSwap (vft : Vft) (e : FibEntry) (source : FibSource) : FibEntry :=
  let e := if (fibEntrySrcFind e source).isSome then e else fibEntrySrcActionAdd vft e source
  e.updateSrc source fun esrc => { esrc with fesPl := (vft source).fesvPathSwap esrc.fesPl }

/-- The source gives no paths after this one is removed. -/
def lastPath (vft : Vft) (e : FibEntry) (source : FibSource) : Bool :=
  match fibEntrySrcFind e source with
  | none => false
  | some esrc => (vft source).fesvPathRemove esrc.fesPl = pathListInvalid

def fibEntrySrcActionPathRemove (vft : Vft) (e : FibEntry) (source : FibSource) : FibEntry × Bool :=
  let last := lastPath vft e source
  let e := e.updateSrc source fun esrc => { esrc with fesPl := (vft source).fesvPathRemove esrc.fesPl }
  if last then ((fibEntrySrcActionRemove vft e source).1, false) else (e, true)

/-- An entry without sources, whose best source is after all others, is about to go, and nothing is changed in it. -/
def fibEntrySourceChange (vft : Vft) (e : FibEntry) (bestSource : Option FibSource) (newSource : FibSource) :
    FibEntry :=
  match bestSource with
  | none => e
  | some best =>
    if newSource < best then fibEntrySrcActionActivate vft (fibEntrySrcActionDeactivate vft e best) newSource
    else if best < newSource then e
    else fibEntrySrcActionActivate vft (fibEntrySrcActionDeactivate vft e newSource) newSource

def fibEntrySpecialAdd (vft : Vft) (e : FibEntry) (source : FibSource) : FibEntry :=
  fibEntrySourceChange vft (fibEntrySrcActionAdd vft e source) (fibEntryGetBestSource e) source

def fibEntrySpecialUpdate (vft : Vft) (e : FibEntry) (source : FibSource) : FibEntry :=
  fibEntrySourceChange vft (fibEntrySrcActionUpdate vft e source) (fibEntryGetBestSource e) source

/-- The branches are those of `fibEntrySourceChange`. -/
def fibEntryPathAdd (vft : Vft) (e : FibEntry) (source : FibSource) : FibEntry :=
  fibEntrySourceChange vft (fibEntrySrcActionPathAdd vft e source) (fibEntryGetBestSource e) source

def fibEntryUpdate (vft : Vft) (e : FibEntry) (source : FibSource) : FibEntry :=
  fibEntrySourceChange vft (fibEntrySrcActionPathSwap vft e source) (fibEntryGetBestSource e) source

/-- After the best source is gone, the next best takes over. -/
def fibEntryFallBack (vft : Vft) (e : FibEntry) : FibEntry :=
  match fibEntryGetBestSource e with
  | none => fibEntrySrcActionUninstall e
  | some best => fibEntrySrcActionActivate vft e best

def fibEntryPathRemove (vft : Vft) (e : FibEntry) (source : FibSource) : FibEntry :=
  let bestSource := fibEntryGetBestSource e
  let (e, added) := fibEntrySrcActionPathRemove vft e source
  if bestSource ≠ some source then e
  else if !added then fibEntryFallBack vft e
  else fibEntrySrcActionActivate vft (fibEntrySrcActionDeactivate vft e source) source

def fibEntrySpecialRemove (vft : Vft) (e : FibEntry) (source : FibSource) : FibEntry :=
  let bestSource := fibEntryGetBestSource e
  let (e, added) := fibEntrySrcActionRemove vft e source
  if bestSource ≠ some source then e
  else if !added then fibEntryFallBack vft e
  else fibEntrySrcActionReactivate e source

def fibEntryAlloc : FibEntry := ⟨[], 0, none⟩

def fibEntryCreateSpecial (vft : Vft) (source : FibSource) : FibEntry :=
  fibEntrySrcActionActivate vft (fibEntrySrcActionAdd vft fibEntryAlloc source) source

def fibEntryCreate (vft : Vft) (source : FibSource) : FibEntry :=
  fibEntrySrcActionActivate vft
    (fibEntrySrcActionPathSwap vft (fibEntrySrcActionAdd vft fibEntryAlloc source) source) source

end Vpp.Fib
