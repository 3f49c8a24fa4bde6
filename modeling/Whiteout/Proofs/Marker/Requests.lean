import Whiteout.Marker.Listing
import Whiteout.Proofs.Marker.Growth

/-!
# Runs of requests

A request is one call on a union with its arguments, and a run performs a list of them on one
session, each on what the one before it left. A request that is no `unhide` grows the file system,
whether it succeeds or fails, and so does a run of such requests. So hiding a path hides everything
at or below it, however long and however its further components are written, and no later request
but an `unhide` makes any of it visible again.
-/

namespace Whiteout

open Whiteout.FileSystem (Grows)

inductive Request
  | hide (path : Bytes) (rank : Nat) (kind : Kind)
  | hideIfProvided (lookup : Lookup) (path : Bytes) (rank : Nat) (kind : Kind)
  | unhide (path : Bytes) (last : Option Nat)
  | isHidden (path : Bytes) (rank : Nat)
  | markers (rank : Nat)
  | findBranch (path : Bytes) (start : Nat)
  | setOwner (path : Bytes)

inductive Response
  | done (outcome : Except Error Unit)
  | cleaned (outcome : Except Error CleanupReport)
  | hidden (answer : Bool)
  | listed (outcome : Except Error (List Marker))
  | found (outcome : Except Error (Option Nat))

namespace Request

def unhides : Request → Bool
  | .unhide _ _ => true
  | _ => false

variable [Host]

def perform (view : UnionView) (s : Session) : Request → Response × Session
  | .hide path rank kind =>
    let (outcome, after) := view.hide s path rank kind
    (.done outcome, after)
  | .hideIfProvided lookup path rank kind =>
    let (outcome, after) := view.hideIfProvided lookup s path rank kind
    (.done outcome, after)
  | .unhide path last =>
    let (outcome, fs) := view.unhide s.fs path last
    (.cleaned outcome, { s with fs })
  | .isHidden path rank => (.hidden (view.isHidden s.fs path rank), s)
  | .markers rank => (.listed (view.markers s.fs rank), s)
  | .findBranch path start => (.found (view.findBranch s.fs path start), s)
  | .setOwner path =>
    let (outcome, after) := s.setOwner path
    (.done outcome, after)

theorem perform_grows (view : UnionView) (s : Session) {r : Request} (h : r.unhides = false) :
    Grows s.fs (r.perform view s).2.fs := by
  cases r with
  | hide path rank kind => exact view.hide_grows s path rank kind
  | hideIfProvided lookup path rank kind => exact view.hideIfProvided_grows s path rank kind lookup
  | unhide => cases h
  | isHidden => exact .refl _
  | markers => exact .refl _
  | findBranch => exact .refl _
  | setOwner path => exact s.offer_grows path

end Request

namespace UnionView

variable [Host]

def run (view : UnionView) (s : Session) : List Request → List Response × Session
  | [] => ([], s)
  | r :: later =>
    let (response, next) := r.perform view s
    let (responses, final) := view.run next later
    (response :: responses, final)

theorem run_cons (view : UnionView) (s : Session) (r : Request) (later : List Request) :
    view.run s (r :: later) =
      ((r.perform view s).1 :: (view.run (r.perform view s).2 later).1,
        (view.run (r.perform view s).2 later).2) := rfl

theorem run_grows (view : UnionView) (s : Session) {requests : List Request}
    (h : ∀ r ∈ requests, r.unhides = false) : Grows s.fs (view.run s requests).2.fs := by
  induction requests generalizing s with
  | nil => exact .refl _
  | cons r later ih =>
    have hfirst := r.perform_grows view s (h r (by simp))
    exact hfirst.trans (ih _ fun r hr => h r (by simp [hr]))

end UnionView

end Whiteout

namespace Whiteout.UnionView

open Text (utf8)
open Whiteout.Path (dot dotDot components IsStep IsComponent)

variable {view : UnionView} {fs : FileSystem} {rank : Nat}

theorem hidden_ever_after [Host] {home : Option String} {config : Config}
    (haccepted : ofConfig home config = .ok view) (hcow : view.cowEnabled = true) {s : Session}
    {path : Bytes} {kind : Kind} (hhide : (view.hide s path rank kind).1 = .ok ())
    {later : List Request} (hlater : ∀ r ∈ later, r.unhides = false) {q : Bytes}
    (hbelow : components path <+: components q) (hdots : ∀ c ∈ components q, c ≠ dot ∧ c ≠ dotDot) :
    view.isHidden (view.run (view.hide s path rank kind).2 later).2.fs q rank = true := by
  have hv := accepted_of_ofConfig haccepted
  obtain ⟨parts, hparts, hmarker⟩ := hasMarker_of_hide hv hhide
  obtain ⟨hq, hfront⟩ := unionComponents_of_below hparts hbelow hdots
  have hne : parts ≠ [] := (unionComponents_eq_ok_iff.1 hparts).2.1
  exact isHidden_of_hasMarker hv hcow hq hne hfront (hmarker.grows (view.run_grows _ hlater))

attribute [local instance] Host.plain in
theorem hidden_ever_after_sample :
    Sample.view.isHidden (Sample.view.run (Sample.view.hide Sample.session (utf8 "a") 0 .file).2
      [.hide (utf8 "b") 0 .dir, .setOwner (utf8 "low")]).2.fs (utf8 "/a/b") 0 = true :=
  hidden_ever_after Sample.ofConfig_config rfl (by decide +kernel) (by decide +kernel)
    (by decide +kernel) (by decide +kernel)

end Whiteout.UnionView
