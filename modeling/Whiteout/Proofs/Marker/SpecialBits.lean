import Whiteout.Proofs.FileSystem.SpecialBits
import Whiteout.Proofs.Marker.Requests

/-!
# Special bits and hides

A hide answers and adds the same whatever special bits there are and whomever it acts as. Of the
special bits that are there it changes at most those of its own marker, and only once that is there
and given away; what it adds has the bits handed down to it. No request changes whom a session acts
as.
-/

namespace Whiteout

open Whiteout.FileSystem (Grows PassesOn SameOutcome SameTree)

variable [Host]

namespace FileSystem

variable {fs other after : FileSystem}

theorem SameTree.ensureDirWith (h : SameTree fs other) (path : Bytes) (mode : Nat) :
    SameOutcome (fun x y => y.1 = x.1 ∧ SameTree x.2 y.2) (fs.ensureDirWith path mode)
      (other.ensureDirWith path mode) := by
  have hmake := h.makeDir path mode
  unfold FileSystem.ensureDirWith
  generalize fs.makeDir path mode = made at hmake
  generalize other.makeDir path mode = made' at hmake
  cases hmake with
  | ok hmade => exact .ok ⟨rfl, hmade⟩
  | error =>
    split
    · next hmade => cases hmade
    · rw [h.probe]
      split
      · exact .ok ⟨rfl, h⟩
      · exact .error
    · exact .error

theorem SameTree.placeMarker (h : SameTree fs other) (path : Bytes) (kind : Kind) :
    SameOutcome SameTree (fs.placeMarker path kind) (other.placeMarker path kind) := by
  cases kind with
  | file => exact h.createFile path fileMarkerMode
  | dir =>
    have hensure := h.ensureDirWith path dirMarkerMode
    unfold FileSystem.placeMarker
    generalize fs.ensureDirWith path dirMarkerMode = made at hensure
    generalize other.ensureDirWith path dirMarkerMode = made' at hensure
    cases hensure with
    | ok hmade => exact .ok hmade.2
    | error => exact .error

theorem placeMarker_passesOn {path : Bytes} {kind : Kind} (h : fs.placeMarker path kind = .ok after) :
    PassesOn (fun _ => False) fs after := by
  cases kind with
  | file => exact createFile_passesOn h
  | dir =>
    simp only [placeMarker] at h
    cases hensure : fs.ensureDirWith path dirMarkerMode with
    | error e => rw [hensure] at h; cases h
    | ok done =>
      rw [hensure] at h
      cases h
      rcases ensureDirWith_ok hensure with hmade | ⟨hsame, -⟩
      · exact makeDir_passesOn hmade
      · rw [hsame]
        exact .refl fs

end FileSystem

namespace Session

variable {s t : Session}

section

variable (h : SameTree s.fs t.fs)
include h

theorem offer_congr (path : Bytes) : SameTree (s.offer path).fs (t.offer path).fs :=
  (s.offer_sameTree path).symm.trans (h.trans (t.offer_sameTree path))

theorem ensureMetaDir_congr (path : Bytes) :
    (t.ensureMetaDir path).1 = (s.ensureMetaDir path).1 ∧
      SameTree (s.ensureMetaDir path).2.fs (t.ensureMetaDir path).2.fs := by
  have hensure := h.ensureDirWith path metaDirMode
  unfold ensureMetaDir
  generalize s.fs.ensureDirWith path metaDirMode = made at hensure
  generalize t.fs.ensureDirWith path metaDirMode = made' at hensure
  cases hensure with
  | error => exact ⟨rfl, h⟩
  | @ok done done' hdone =>
    obtain ⟨flag, fs⟩ := done
    obtain ⟨flag', fs'⟩ := done'
    obtain ⟨rfl, hfs⟩ := hdone
    cases flag' with
    | true => exact ⟨rfl, offer_congr (s := { s with fs }) (t := { t with fs := fs' }) hfs path⟩
    | false => exact ⟨rfl, h⟩

theorem ensureMetaDirs_congr (dir : BoundedPath) (below : List Bytes) :
    (t.ensureMetaDirs dir below).1 = (s.ensureMetaDirs dir below).1 ∧
      SameTree (s.ensureMetaDirs dir below).2.fs (t.ensureMetaDirs dir below).2.fs := by
  induction below generalizing s t dir with
  | nil => exact ensureMetaDir_congr h dir.text
  | cons component below ih =>
    obtain ⟨hfirst, hmade⟩ := ensureMetaDir_congr h dir.text
    rw [ensureMetaDirs, ensureMetaDirs]
    generalize s.ensureMetaDir dir.text = made at hfirst hmade
    generalize t.ensureMetaDir dir.text = made' at hfirst hmade
    obtain ⟨response, made⟩ := made
    obtain ⟨response', made'⟩ := made'
    cases hfirst
    cases response with
    | error e => exact ⟨rfl, hmade⟩
    | ok =>
      dsimp only
      split
      · exact ⟨rfl, hmade⟩
      · exact ih hmade _

theorem placeMarker_congr (marker : Bytes) (kind : Kind) :
    (t.placeMarker marker kind).1 = (s.placeMarker marker kind).1 ∧
      SameTree (s.placeMarker marker kind).2.fs (t.placeMarker marker kind).2.fs := by
  have hplace := h.placeMarker marker kind
  unfold placeMarker
  generalize s.fs.placeMarker marker kind = placed at hplace
  generalize t.fs.placeMarker marker kind = placed' at hplace
  cases hplace with
  | error => exact ⟨rfl, h⟩
  | @ok fs fs' hfs =>
    exact ⟨rfl, offer_congr (s := { s with fs }) (t := { t with fs := fs' }) hfs marker⟩

end

def GivenBy (s : Session) (fs : FileSystem) (path : Bytes) (l : Location) : Prop :=
  s.Gives l ∧ ∃ e, fs.entryAt path = .ok (l, e)

theorem offer_passesOn (s : Session) (path : Bytes) :
    PassesOn (s.GivenBy s.fs path) s.fs (s.offer path).fs := by
  rcases s.offer_cases path with ⟨hoffer, hnot⟩ | ⟨place, e, hentry, hgives, hoffer⟩
  · rw [hoffer]
    refine (PassesOn.refl s.fs).congr fun l => iff_of_false ?_ not_false
    rintro ⟨hgives, e, hentry⟩
    exact hnot l e hentry hgives
  · rw [hoffer]
    refine (PassesOn.of_giveAway (FileSystem.entryAt_ok hentry)).congr fun l => ⟨?_, ?_⟩
    · rintro ⟨-, e', hentry'⟩
      cases hentry.symm.trans hentry'
      rfl
    · rintro rfl
      exact ⟨hgives, e, hentry⟩

theorem ensureMetaDir_passesOn (s : Session) (path : Bytes) :
    PassesOn (fun _ => False) s.fs (s.ensureMetaDir path).2.fs ∧
      (s.ensureMetaDir path).2.identity = s.identity := by
  rcases s.ensureMetaDir_cases path with ⟨fs, hmade, hrun⟩ | ⟨-, hrun⟩ | ⟨fault, hrun⟩
  · rw [hrun]
    exact ⟨FileSystem.makeDir_passesOn hmade, rfl⟩
  · rw [hrun]
    exact ⟨.refl _, rfl⟩
  · rw [hrun]
    exact ⟨.refl _, rfl⟩

theorem ensureMetaDirs_passesOn (s : Session) (dir : BoundedPath) (below : List Bytes) :
    PassesOn (fun _ => False) s.fs (s.ensureMetaDirs dir below).2.fs ∧
      (s.ensureMetaDirs dir below).2.identity = s.identity := by
  induction below generalizing s dir with
  | nil => exact s.ensureMetaDir_passesOn dir.text
  | cons component below ih =>
    obtain ⟨hfirst, hid⟩ := s.ensureMetaDir_passesOn dir.text
    have hgrow := s.ensureMetaDir_grows dir.text
    rw [ensureMetaDirs]
    generalize s.ensureMetaDir dir.text = made at hfirst hid hgrow
    obtain ⟨response, made⟩ := made
    cases response with
    | error e => exact ⟨hfirst, hid⟩
    | ok =>
      dsimp only
      split
      · exact ⟨hfirst, hid⟩
      · next next hpush =>
        obtain ⟨hrest, hid'⟩ := ih made next
        refine ⟨(hfirst.trans hrest hgrow (made.ensureMetaDirs_grows _ _)).congr fun l => ?_,
          hid'.trans hid⟩
        exact (or_self_iff).symm

theorem placeMarker_passesOn (s : Session) (marker : Bytes) (kind : Kind) :
    PassesOn (fun l => (s.placeMarker marker kind).1 = .ok () ∧
      s.GivenBy (s.placeMarker marker kind).2.fs marker l) s.fs (s.placeMarker marker kind).2.fs := by
  rw [placeMarker]
  split
  · refine (PassesOn.refl s.fs).congr fun l => iff_of_false ?_ not_false
    rintro ⟨hok, -⟩
    cases hok
  · next fs hplaced =>
    have hoffer := offer_passesOn { s with fs } marker
    have hentry : ({ s with fs }.offer marker).fs.entryAt marker = fs.entryAt marker :=
      (offer_sameTree { s with fs } marker).entryAt marker
    refine ((FileSystem.placeMarker_passesOn hplaced).trans hoffer
      (FileSystem.placeMarker_ok hplaced).1 (offer_grows _ _)).congr fun l => ?_
    simp only [GivenBy, hentry, false_or, true_and]
    rfl

end Session

namespace UnionView

variable {view : UnionView} {s t : Session}

theorem hide_congr (h : SameTree s.fs t.fs) (path : Bytes) (rank : Nat) (kind : Kind) :
    (view.hide t path rank kind).1 = (view.hide s path rank kind).1 ∧
      SameTree (view.hide s path rank kind).2.fs (view.hide t path rank kind).2.fs := by
  have hmirror : (view.mirrorAncestors t path rank).1 = (view.mirrorAncestors s path rank).1 ∧
      SameTree (view.mirrorAncestors s path rank).2.fs (view.mirrorAncestors t path rank).2.fs := by
    rw [mirrorAncestors, mirrorAncestors]
    split
    · exact ⟨rfl, h⟩
    · split
      · exact ⟨rfl, h⟩
      · exact Session.ensureMetaDirs_congr h _ _
  rw [hide, hide]
  split
  · exact ⟨rfl, h⟩
  · split
    · exact ⟨rfl, h⟩
    · generalize view.mirrorAncestors s path rank = made at hmirror
      generalize view.mirrorAncestors t path rank = made' at hmirror
      obtain ⟨response, made⟩ := made
      obtain ⟨response', made'⟩ := made'
      obtain ⟨hresponse, hfs⟩ := hmirror
      cases hresponse
      cases response with
      | error e => exact ⟨rfl, hfs⟩
      | ok => exact Session.placeMarker_congr hfs _ _

def GivesMarker (view : UnionView) (s : Session) (fs : FileSystem) (path : Bytes) (rank : Nat)
    (l : Location) : Prop :=
  ∃ m, view.markerPath path rank = .ok m ∧ s.GivenBy fs m.text l

theorem givesMarker_congr {fs : FileSystem} {path : Bytes} {rank : Nat} {l : Location}
    (hid : t.identity = s.identity) :
    view.GivesMarker t fs path rank l ↔ view.GivesMarker s fs path rank l := by
  simp only [GivesMarker, Session.GivenBy, Session.Gives, hid]

theorem givesMarker_sameTree {fs other : FileSystem} (h : SameTree fs other) {path : Bytes}
    {rank : Nat} {l : Location} :
    view.GivesMarker s other path rank l ↔ view.GivesMarker s fs path rank l := by
  simp only [GivesMarker, Session.GivenBy, h.entryAt]

theorem mirrorAncestors_passesOn (view : UnionView) (s : Session) (path : Bytes) (rank : Nat) :
    PassesOn (fun _ => False) s.fs (view.mirrorAncestors s path rank).2.fs ∧
      (view.mirrorAncestors s path rank).2.identity = s.identity := by
  rw [mirrorAncestors]
  split
  · exact ⟨.refl _, rfl⟩
  · split
    · exact ⟨.refl _, rfl⟩
    · exact s.ensureMetaDirs_passesOn _ _

theorem hide_passesOn (view : UnionView) (s : Session) (path : Bytes) (rank : Nat) (kind : Kind) :
    PassesOn (fun l => (view.hide s path rank kind).1 = .ok () ∧
        view.GivesMarker s (view.hide s path rank kind).2.fs path rank l) s.fs
      (view.hide s path rank kind).2.fs := by
  have hrefused {e : Error} {after : Session} (h : PassesOn (fun _ => False) s.fs after.fs) :
      PassesOn (fun l => (Except.error e : Except Error Unit) = .ok () ∧
        view.GivesMarker s after.fs path rank l) s.fs after.fs :=
    h.congr fun l => iff_of_false (fun hgiven => nomatch hgiven.1) not_false
  obtain ⟨hmirror, hid⟩ := view.mirrorAncestors_passesOn s path rank
  have hgrow := view.mirrorAncestors_grows s path rank
  rw [hide]
  split
  · exact hrefused (.refl _)
  · split
    · exact hrefused (.refl _)
    · next m hmarker =>
      generalize view.mirrorAncestors s path rank = made at hmirror hid hgrow
      obtain ⟨response, made⟩ := made
      cases response with
      | error e => exact hrefused hmirror
      | ok =>
        have hplace := made.placeMarker_passesOn m.text kind
        refine (hmirror.trans hplace hgrow (made.placeMarker_grows _ _)).congr fun l => ?_
        have hgives : made.Gives l ↔ s.Gives l := by rw [Session.Gives, Session.Gives, hid]
        simp [GivesMarker, Session.GivenBy, hmarker, hgives]

theorem hide_identity (view : UnionView) (s : Session) (path : Bytes) (rank : Nat) (kind : Kind) :
    (view.hide s path rank kind).2.identity = s.identity := by
  obtain ⟨-, hid⟩ := view.mirrorAncestors_passesOn s path rank
  rw [hide]
  split
  · rfl
  · split
    · rfl
    · generalize view.mirrorAncestors s path rank = made at hid
      obtain ⟨response, made⟩ := made
      cases response with
      | error e => exact hid
      | ok =>
        dsimp only
        rw [Session.placeMarker]
        split
        · exact hid
        · exact (Session.offer_identity _ _).trans hid

/-- A marker that was made stays where it is, and so what was given away can be told later. -/
theorem givesMarker_later (hv : view.Accepted) {path : Bytes} {rank : Nat} {kind : Kind}
    (hok : (view.hide s path rank kind).1 = .ok ()) {after : FileSystem}
    (hgrow : Grows (view.hide s path rank kind).2.fs after) (l : Location) :
    view.GivesMarker s (view.hide s path rank kind).2.fs path rank l ↔
      view.GivesMarker s after path rank l := by
  obtain ⟨parts, hparts, b, hb, hfit, hthere⟩ := hasMarker_of_hide hv hok
  obtain ⟨⟨place, e⟩, hentry⟩ := FileSystem.probe_isSome_iff.1 hthere
  have hmarker : view.markerPath path rank = .ok ⟨view.markerText b parts, view.maxPathLen⟩ :=
    (markerPath_eq_ok_iff hv).2 ⟨parts, b, hparts, hb, hfit, rfl⟩
  simp only [GivesMarker, hmarker, Except.ok.injEq, exists_eq_left', Session.GivenBy, hentry,
    hgrow.entryAt hentry]

theorem hideIfProvided_identity (view : UnionView) (s : Session) (path : Bytes) (rank : Nat)
    (kind : Kind) (lookup : Lookup) :
    (view.hideIfProvided lookup s path rank kind).2.identity = s.identity := by
  rw [hideIfProvided]
  split
  · rfl
  · rfl
  · exact view.hide_identity s path rank kind

theorem perform_identity (view : UnionView) (s : Session) (r : Request) :
    (r.perform view s).2.identity = s.identity := by
  cases r with
  | hide path rank kind => exact view.hide_identity s path rank kind
  | hideIfProvided lookup path rank kind =>
    exact view.hideIfProvided_identity s path rank kind lookup
  | unhide => rfl
  | isHidden => rfl
  | markers => rfl
  | findBranch => rfl
  | setOwner path => exact s.offer_identity path

theorem run_identity (view : UnionView) (s : Session) (requests : List Request) :
    (view.run s requests).2.identity = s.identity := by
  induction requests generalizing s with
  | nil => rfl
  | cons r later ih => exact (ih (r.perform view s).2).trans (view.perform_identity s r)

end UnionView

end Whiteout
