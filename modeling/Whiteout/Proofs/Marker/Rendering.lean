import Whiteout.Proofs.Marker.Place
import Whiteout.Proofs.Marker.Respelled
import Whiteout.Proofs.Path.Stages

/-!
# The text of a marker path

With an accepted configuration and a path that may have a marker, the marker path is the root, the
name of the metadata directory, the components and the tag, or else the error of the first stage on
the way there that does not fit. So it tells the components, and it depends on nothing else of the
path.
-/

namespace Whiteout.UnionView

open Text (utf8)
open BoundedPath (joined through)
open Whiteout.Path (dot dotDot separator components withoutSeparator IsStep IsComponent)
open Whiteout.Marker (slashed)

variable {view : UnionView} {rank : Nat} {path other : Bytes} {b : Branch} {parts : List Bytes}
  {m m' : BoundedPath}

def base (view : UnionView) (b : Branch) : Bytes :=
  withoutSeparator b.root ++ separator :: view.metaDir

def rendered (view : UnionView) (b : Branch) (parts : List Bytes) : Bytes :=
  view.base b ++ slashed parts ++ view.hideTag

/-- What the marker path is built through: the metadata directory, its directories for the fronts of
the components, and the marker. -/
def stages (view : UnionView) (b : Branch) (parts : List Bytes) : List Bytes :=
  (parts.inits.map fun front => view.base b ++ slashed front) ++ [view.rendered b parts]

section

variable (hv : view.Accepted) (hb : view.branches[rank]? = some b)
include hv

theorem metaText_eq_base (b : Branch) : view.metaText b = view.base b :=
  Path.joined_eq_withoutSeparator b.root hv.metaDir

theorem markerText_eq_rendered (b : Branch) (parts : List Bytes) :
    view.markerText b parts = view.rendered b parts := by
  rw [markerText, metaText_eq_base hv, rendered]

include hb

theorem metaRoot_eq_through : view.metaRoot rank =
    through view.maxPathLen [view.base b] (view.base b) := by
  have hmem : b ∈ view.branches := List.mem_of_getElem? hb
  have hroot : (BoundedPath.new view.maxPathLen).pushSegment b.root =
      .ok ⟨b.root, view.maxPathLen⟩ :=
    BoundedPath.pushSegment_new_eq_ok_iff.2 ⟨hv.rooted b hmem, hv.rootFits b hmem, rfl⟩
  have hmeta : BoundedPath.pushSegment ⟨b.root, view.maxPathLen⟩ view.metaDir =
      through view.maxPathLen [view.base b] (view.base b) := by
    rw [← metaText_eq_base hv, metaText, ← BoundedPath.extendTo_eq_through ⟨b.root, view.maxPathLen⟩]
    simp [BoundedPath.pushSegment, hv.metaDir.1, hv.rooted b hmem]
  rw [metaRoot, (view.branch_ok_iff rank b).2 hb]
  simp only [BoundedPath.build, BoundedPath.pushSegments, hroot, hmeta]
  cases through view.maxPathLen [view.base b] (view.base b) <;> rfl

theorem pushSegments_base (hfit : (view.base b).length + 1 ≤ view.maxPathLen)
    (hcomps : ∀ c ∈ parts, IsComponent c) :
    BoundedPath.pushSegments ⟨view.base b, view.maxPathLen⟩ parts = through view.maxPathLen
      (parts.inits.map fun front => view.base b ++ slashed front)
      (view.base b ++ slashed parts) := by
  have hend := metaText_eq_base hv b ▸ endsWithSeparator_metaText hv b
  have hne : view.base b ≠ [] := metaText_eq_base hv b ▸ metaText_ne_nil hv hb
  rw [BoundedPath.pushSegments_eq_through hne hfit fun c hc => (hcomps c hc).1,
    BoundedPath.foldl_joined hcomps hend]
  refine congrArg (fun texts => through _ texts _) (List.map_congr_left fun front hfront => ?_)
  have hpre : front <+: parts := (List.mem_inits front parts).1 hfront
  exact BoundedPath.foldl_joined (fun c hc => hcomps c (hpre.subset hc)) hend

theorem markerPath_eq_through (hparts : unionComponents path = .ok parts) :
    view.markerPath path rank =
      through view.maxPathLen (view.stages b parts) (view.rendered b parts) := by
  have hcomps : ∀ c ∈ parts, IsComponent c := fun c hc =>
    ((unionComponents_eq_ok_iff.1 hparts).2.2 c hc).isComponent
  rw [markerPath, hparts, metaRoot_eq_through hv hb, stages]
  by_cases hfit : (view.base b).length + 1 ≤ view.maxPathLen
  · rw [BoundedPath.through_cons_of_fits hfit]
    simp only [through, List.find?_nil]
    rw [pushSegments_base hv hb hfit hcomps]
    cases hmirrored : through view.maxPathLen
        (parts.inits.map fun front => view.base b ++ slashed front)
        (view.base b ++ slashed parts) with
    | error e => exact (BoundedPath.through_append_of_error hmirrored _ _).symm
    | ok mirrored =>
      obtain ⟨rfl, happend⟩ := BoundedPath.through_append_of_ok hmirrored
        [view.rendered b parts] (view.rendered b parts)
      exact (BoundedPath.extendTo_eq_through _ _).trans happend.symm
  · have hlong : view.maxPathLen < (view.base b).length + 1 := Nat.lt_of_not_le hfit
    obtain ⟨fronts, hinits⟩ : ∃ fronts, parts.inits = [] :: fronts := by cases parts <;> simp
    have hfirst : view.base b ++ slashed [] = view.base b := by simp [slashed]
    rw [BoundedPath.through_cons_of_long hlong, hinits, List.map_cons, List.cons_append,
      hfirst, BoundedPath.through_cons_of_long hlong]

theorem markerPath_of_fits (hparts : unionComponents path = .ok parts)
    (hfit : (view.rendered b parts).length + 1 ≤ view.maxPathLen) :
    view.markerPath path rank = .ok ⟨view.rendered b parts, view.maxPathLen⟩ := by
  rw [← markerText_eq_rendered hv] at hfit ⊢
  exact (markerPath_eq_ok_iff hv).2 ⟨parts, b, hparts, hb, hfit, rfl⟩

theorem markerPath_of_long (hparts : unionComponents path = .ok parts)
    (hlong : view.maxPathLen < (view.rendered b parts).length + 1) :
    ∃ t, (view.stages b parts).find? (fun t => view.maxPathLen < t.length + 1) = some t ∧
      view.markerPath path rank = .error (.nameTooLong t.length view.maxPathLen) := by
  rw [markerPath_eq_through hv hb hparts, through]
  cases hfind : (view.stages b parts).find? fun t => view.maxPathLen < t.length + 1 with
  | some t => exact ⟨t, rfl, rfl⟩
  | none =>
    have hfits := List.find?_eq_none.1 hfind (view.rendered b parts) (by simp [stages])
    exact absurd hlong (by simpa using hfits)

omit hb in
theorem eq_iff_of_markerPath (h : view.markerPath path rank = .ok m)
    (h' : view.markerPath other rank = .ok m') :
    m = m' ↔ components path = components other := by
  obtain ⟨parts, b, hparts, hb, -, rfl⟩ := (markerPath_eq_ok_iff hv).1 h
  obtain ⟨parts', b', hparts', hb', -, rfl⟩ := (markerPath_eq_ok_iff hv).1 h'
  cases hb.symm.trans hb'
  obtain ⟨rfl, -, hsteps⟩ := unionComponents_eq_ok_iff.1 hparts
  obtain ⟨rfl, -, hsteps'⟩ := unionComponents_eq_ok_iff.1 hparts'
  constructor
  · intro hsame
    have htext := List.append_cancel_right (congrArg BoundedPath.text hsame)
    exact Path.slashed_injective (fun c hc => (hsteps c hc).isComponent)
      (fun c hc => (hsteps' c hc).isComponent) (List.append_cancel_left htext)
  · intro hsame
    rw [hsame]

end

variable [Host] in
theorem markerPath_closed_form {home : Option String} {config : Config}
    (haccepted : ofConfig home config = .ok view) (hb : view.branches[rank]? = some b) :
    (∀ path, components path ≠ [] → (∀ c ∈ components path, c ≠ dot ∧ c ≠ dotDot) →
      ((view.rendered b (components path)).length + 1 ≤ view.maxPathLen →
        view.markerPath path rank = .ok ⟨view.rendered b (components path), view.maxPathLen⟩) ∧
      (view.maxPathLen < (view.rendered b (components path)).length + 1 →
        ∃ t, (view.stages b (components path)).find? (fun t => view.maxPathLen < t.length + 1) =
            some t ∧
          view.markerPath path rank = .error (.nameTooLong t.length view.maxPathLen))) ∧
    (∀ path other m m', view.markerPath path rank = .ok m → view.markerPath other rank = .ok m' →
      (m = m' ↔ components path = components other)) ∧
    ∀ path other, components path = components other → ∀ r,
      (view.markerPath path r).mapError Error.unquoted =
        (view.markerPath other r).mapError Error.unquoted ∧
      (∀ fs, view.isHidden fs path r = view.isHidden fs other r) ∧
      (∀ s kind, (view.hide s path r kind).1.mapError Error.unquoted =
          (view.hide s other r kind).1.mapError Error.unquoted ∧
        (view.hide s path r kind).2 = (view.hide s other r kind).2) ∧
      ∀ fs last, (view.unhide fs path last).1.mapError Error.unquoted =
          (view.unhide fs other last).1.mapError Error.unquoted ∧
        (view.unhide fs path last).2 = (view.unhide fs other last).2 := by
  have hv := accepted_of_ofConfig haccepted
  refine ⟨fun path hne hdots => ?_, fun path other m m' h h' => eq_iff_of_markerPath hv h h',
    fun path other hsame r => ?_⟩
  · have hparts := unionComponents_of_dotFree hne hdots
    exact ⟨markerPath_of_fits hv hb hparts, markerPath_of_long hv hb hparts⟩
  · exact ⟨view.markerPath_alike hsame r, fun fs => view.isHidden_alike hsame fs r,
      fun s kind => view.hide_alike hsame s r kind, fun fs last => view.unhide_alike hsame fs last⟩

attribute [local instance] Host.plain in
/-- With room for the metadata directory alone, the directory below it is the first too long. -/
theorem markerPath_closed_form_sample :
    let view := { Sample.view with maxPathLen := 12 }
    view.markerPath (utf8 "d/a") 0 = .error (.nameTooLong (utf8 "up/.unionfs/d").length 12) ∧
    view.isHidden Sample.session.fs (utf8 "d/a") 0 =
      view.isHidden Sample.session.fs (utf8 "//d/a/") 0 := by
  intro view
  have haccepted : ofConfig none { Sample.config with maxPathLen := some 12 } = .ok view := by
    decide +kernel
  have hb : view.branches[0]? = some ⟨0, utf8 "up", .readWrite⟩ := by decide +kernel
  obtain ⟨hform, -, hspelling⟩ := markerPath_closed_form haccepted hb
  obtain ⟨-, hlong⟩ := hform (utf8 "d/a") (by decide +kernel) (by decide +kernel)
  obtain ⟨t, hfind, herror⟩ := hlong (by decide +kernel)
  have hfirst : (view.stages ⟨0, utf8 "up", .readWrite⟩ (components (utf8 "d/a"))).find?
      (fun t => view.maxPathLen < t.length + 1) = some (utf8 "up/.unionfs/d") := by
    decide +kernel
  cases hfind.symm.trans hfirst
  exact ⟨herror, (hspelling (utf8 "d/a") (utf8 "//d/a/") (by decide +kernel) 0).2.1 _⟩

end Whiteout.UnionView
