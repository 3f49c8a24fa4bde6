import Whiteout.Proofs.Marker.Requests

/-!
# Maps of markers

The plain account of what markers do: for every branch a map from component lists to kinds. Hiding
adds what is missing, is content with what is there and refuses the other kind; removing takes the
components out of the first branches, and the report names the branches that had them.
-/

namespace Whiteout

open Text (utf8)

/-- What is hidden in each branch, and as what. -/
abbrev MarkerMap := Nat → List Name → Option Kind

inductive MarkerRequest
  | hide (path : String) (rank : Nat) (kind : Kind)
  | unhide (path : String) (last : Option Nat)

namespace MarkerRequest

def path : MarkerRequest → String
  | .hide path _ _ => path
  | .unhide path _ => path

def toRequest : MarkerRequest → Request
  | .hide path rank kind => .hide (utf8 path) rank kind
  | .unhide path last => .unhide (utf8 path) last

end MarkerRequest

def Kind.refusal : Kind → IoError
  | .file => .system .isDirectory
  | .dir => .system .fileExists

namespace MarkerMap

def empty : MarkerMap := fun _ _ => none

def insert (markers : MarkerMap) (rank : Nat) (parts : List Name) (kind : Kind) : MarkerMap :=
  fun r p => if r = rank ∧ p = parts then some kind else markers r p

def erase (markers : MarkerMap) (ranks : List Nat) (parts : List Name) : MarkerMap :=
  fun r p => if r ∈ ranks ∧ p = parts then none else markers r p

def hide (markers : MarkerMap) (rank : Nat) (parts : List Name) (kind : Kind) :
    Except Error Unit × MarkerMap :=
  match markers rank parts with
  | none => (.ok (), markers.insert rank parts kind)
  | some there => (if there = kind then .ok () else .error (.io kind.refusal), markers)

def unhide (markers : MarkerMap) (ranks : List Nat) (parts : List Name) :
    CleanupReport × MarkerMap :=
  (⟨ranks.filter fun r => (markers r parts).isSome, []⟩, markers.erase ranks parts)

def perform (view : UnionView) (markers : MarkerMap) : MarkerRequest → Response × MarkerMap
  | .hide path rank kind =>
    match view.branch rank, unionComponents (utf8 path) with
    | .error e, _ => (.done (.error e), markers)
    | .ok _, .error e => (.done (.error e), markers)
    | .ok _, .ok parts =>
      let (outcome, next) := markers.hide rank parts kind
      (.done outcome, next)
  | .unhide path last =>
    match unionComponents (utf8 path) with
    | .error e => (.cleaned (.error e), markers)
    | .ok parts =>
      let (report, next) := markers.unhide (List.range (view.unhideCount last)) parts
      (.cleaned (.ok report), next)

def run (view : UnionView) (markers : MarkerMap) : List MarkerRequest → List Response × MarkerMap
  | [] => ([], markers)
  | r :: later =>
    let (response, next) := markers.perform view r
    let (responses, final) := run view next later
    (response :: responses, final)

theorem run_cons (view : UnionView) (markers : MarkerMap) (r : MarkerRequest)
    (later : List MarkerRequest) :
    markers.run view (r :: later) =
      ((markers.perform view r).1 :: ((markers.perform view r).2.run view later).1,
        ((markers.perform view r).2.run view later).2) := rfl

theorem insert_self (markers : MarkerMap) (rank : Nat) (parts : List Name) (kind : Kind) :
    markers.insert rank parts kind rank parts = some kind := by simp [insert]

theorem erase_nil (markers : MarkerMap) (parts : List Name) : markers.erase [] parts = markers := by
  funext r p
  simp [erase]

theorem erase_cons (markers : MarkerMap) (rank : Nat) (others : List Nat) (parts : List Name) :
    markers.erase (rank :: others) parts = (markers.erase [rank] parts).erase others parts := by
  funext r p
  simp only [erase, List.mem_cons, List.not_mem_nil, or_false]
  split <;> split <;> simp_all

theorem erase_of_none {markers : MarkerMap} {rank : Nat} {parts : List Name}
    (h : markers rank parts = none) : markers.erase [rank] parts = markers := by
  funext r p
  simp only [erase, List.mem_singleton]
  split
  · next hsame => rw [hsame.1, hsame.2, h]
  · rfl

theorem unhide_nil (markers : MarkerMap) (parts : List Name) :
    markers.unhide [] parts = (.empty, markers) := by
  rw [unhide, erase_nil]
  rfl

theorem unhide_cons_of_none {markers : MarkerMap} {rank : Nat} {parts : List Name}
    (h : markers rank parts = none) (others : List Nat) :
    markers.unhide (rank :: others) parts = markers.unhide others parts := by
  rw [unhide, unhide, erase_cons, erase_of_none h, List.filter_cons_of_neg (by simp [h])]

theorem unhide_cons_of_some {markers : MarkerMap} {rank : Nat} {parts : List Name}
    {others : List Nat} (h : (markers rank parts).isSome = true) (hnew : rank ∉ others) :
    markers.unhide (rank :: others) parts =
      (((markers.erase [rank] parts).unhide others parts).1.withRemoved rank,
        ((markers.erase [rank] parts).unhide others parts).2) := by
  have hfilter : (others.filter fun r => (markers.erase [rank] parts r parts).isSome) =
      others.filter fun r => (markers r parts).isSome := by
    refine List.filter_congr fun r hr => ?_
    have hne : r ≠ rank := by
      intro hsame
      subst hsame
      exact hnew hr
    simp [erase, hne]
  have hfirst : ((rank :: others).filter fun r => (markers r parts).isSome) =
      rank :: others.filter fun r => (markers r parts).isSome := List.filter_cons_of_pos h
  simp only [unhide, CleanupReport.withRemoved, hfilter, hfirst, ← erase_cons]

end MarkerMap

def Sample.requests : List MarkerRequest :=
  [.hide "a" 0 .file, .hide "/d//e" 1 .dir, .unhide "a" (some 3), .hide "a" 0 .dir]

end Whiteout
