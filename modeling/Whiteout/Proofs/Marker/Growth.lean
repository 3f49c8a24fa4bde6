import Whiteout.Marker.Create
import Whiteout.Marker.Remove
import Whiteout.Proofs.FileSystem.SpecialBits
import Whiteout.Proofs.Marker.Place

/-!
# Markers come by growth and go by shrinking

Hiding a path only ever adds entries, also when it fails, and removing markers only ever takes
entries away. So what finds a marker before some hiding finds it afterwards too.
-/

namespace Whiteout

open Whiteout.FileSystem (Grows SameTree)
open Whiteout.Path (endsWithSeparator)

variable [Host]

namespace FileSystem

theorem ensureDirWith_cases {fs after : FileSystem} {path : Bytes} {mode : Nat} {made : Bool}
    (h : fs.ensureDirWith path mode = .ok (made, after)) :
    made = true ∧ fs.makeDir path mode = .ok after ∨
      made = false ∧ after = fs ∧ fs.probe path = some .dir := by
  rw [ensureDirWith] at h
  split at h
  · next hmade => cases h; exact .inl ⟨rfl, hmade⟩
  · split at h
    · next hdir => cases h; exact .inr ⟨rfl, rfl, hdir⟩
    · cases h
  · cases h

theorem ensureDirWith_ok {fs after : FileSystem} {path : Bytes} {mode : Nat} {made : Bool}
    (h : fs.ensureDirWith path mode = .ok (made, after)) :
    fs.makeDir path mode = .ok after ∨ after = fs ∧ fs.probe path = some .dir :=
  (ensureDirWith_cases h).imp And.right And.right

theorem ensureDirWith_grows {fs after : FileSystem} {path : Bytes} {mode : Nat} {made : Bool}
    (h : fs.ensureDirWith path mode = .ok (made, after)) : Grows fs after := by
  rcases ensureDirWith_ok h with hmade | ⟨rfl, -⟩
  · exact makeDir_grows hmade
  · exact .refl _

theorem placeMarker_ok {fs after : FileSystem} {path : Bytes} {kind : Kind}
    (h : fs.placeMarker path kind = .ok after) :
    Grows fs after ∧ (endsWithSeparator path = false → (after.probe path).isSome = true) := by
  cases kind with
  | file => exact ⟨createFile_grows h, fun _ => probe_of_createFile h⟩
  | dir =>
    simp only [placeMarker] at h
    cases hensure : fs.ensureDirWith path dirMarkerMode with
    | error e => rw [hensure] at h; cases h
    | ok done =>
      rw [hensure] at h
      cases h
      refine ⟨ensureDirWith_grows hensure, fun hend => ?_⟩
      rcases ensureDirWith_ok hensure with hmade | ⟨hsame, hdir⟩
      · exact probe_of_makeDir hmade hend
      · rw [hsame, hdir]
        rfl

end FileSystem

namespace Session

theorem offer_sameTree (s : Session) (path : Bytes) : SameTree s.fs (s.offer path).fs := by
  rcases s.offer_cases path with ⟨h, -⟩ | ⟨place, e, -, -, h⟩ <;> rw [h] <;> exact ⟨rfl, rfl⟩

theorem offer_identity (s : Session) (path : Bytes) : (s.offer path).identity = s.identity := by
  rcases s.offer_cases path with ⟨h, -⟩ | ⟨place, e, -, -, h⟩ <;> rw [h]

theorem offer_queries (s : Session) (path : Bytes) : (s.offer path).queries = s.queries + 1 := by
  rcases s.offer_cases path with ⟨h, -⟩ | ⟨place, e, -, -, h⟩ <;> rw [h]

theorem offer_grows (s : Session) (path : Bytes) : Grows s.fs (s.offer path).fs :=
  .of_sameTree (s.offer_sameTree path)

theorem offer_offer (s : Session) (path : Bytes) : (s.offer path).offer path =
    { s.offer path with queries := (s.offer path).queries + 1 } := by
  have hentry : (s.offer path).fs.entryAt path = s.fs.entryAt path :=
    (s.offer_sameTree path).entryAt path
  rcases (s.offer path).offer_cases path with ⟨hagain, -⟩ | ⟨place, e, hfound, hgives, hagain⟩
  · exact hagain
  · rw [hagain]
    rw [hentry] at hfound
    rcases s.offer_cases path with ⟨hfirst, hnot⟩ | ⟨place', e', hfound', -, hfirst⟩
    · rw [hfirst] at hgives
      exact absurd hgives (hnot place e hfound)
    · cases hfound.symm.trans hfound'
      rw [hfirst]
      simp only [FileSystem.giveAway_giveAway]

theorem offer_of_dir {s : Session} {path : Bytes}
    (h : ∀ place e, s.fs.entryAt path = .ok (place, e) → e.isDir = true) :
    s.offer path = { s with queries := s.queries + 1 } := by
  rcases s.offer_cases path with ⟨hoffer, -⟩ | ⟨place, e, hentry, -, hoffer⟩
  · exact hoffer
  · rw [hoffer, FileSystem.giveAway, FileSystem.keptBits, if_pos (h place e hentry),
      FileSystem.setSpecial_self]

theorem ensureMetaDir_cases (s : Session) (path : Bytes) :
    (∃ fs, s.fs.makeDir path metaDirMode = .ok fs ∧
        s.ensureMetaDir path = (.ok (), { s with fs, queries := s.queries + 1 })) ∨
      (s.fs.probe path = some .dir ∧ s.ensureMetaDir path = (.ok (), s)) ∨
      ∃ fault, s.ensureMetaDir path = (.error (.io fault), s) := by
  rw [ensureMetaDir]
  split
  · next fs hensure =>
    rcases FileSystem.ensureDirWith_cases hensure with ⟨-, hmade⟩ | ⟨hno, -⟩
    · exact .inl ⟨fs, hmade, by rw [offer_of_dir fun _ _ => FileSystem.isDir_of_makeDir hmade]⟩
    · cases hno
  · next fs hensure =>
    rcases FileSystem.ensureDirWith_cases hensure with ⟨hno, -⟩ | ⟨-, -, hdir⟩
    · cases hno
    · exact .inr (.inl ⟨hdir, rfl⟩)
  · next fault hfault => exact .inr (.inr ⟨fault, rfl⟩)

theorem ensureMetaDir_grows (s : Session) (path : Bytes) :
    Grows s.fs (s.ensureMetaDir path).2.fs := by
  rcases s.ensureMetaDir_cases path with ⟨fs, hmade, hrun⟩ | ⟨-, hrun⟩ | ⟨fault, hrun⟩
  · rw [hrun]
    exact FileSystem.makeDir_grows hmade
  · rw [hrun]
    exact .refl _
  · rw [hrun]
    exact .refl _

theorem ensureMetaDirs_grows (s : Session) (dir : BoundedPath) (below : List Bytes) :
    Grows s.fs (s.ensureMetaDirs dir below).2.fs := by
  induction below generalizing s dir with
  | nil => exact s.ensureMetaDir_grows dir.text
  | cons component below ih =>
    have hstep := s.ensureMetaDir_grows dir.text
    rw [ensureMetaDirs]
    split
    · next hmade => rw [hmade] at hstep; exact hstep
    · next made hmade =>
      rw [hmade] at hstep
      split
      · exact hstep
      · exact hstep.trans (ih _ _)

theorem placeMarker_grows (s : Session) (marker : Bytes) (kind : Kind) :
    Grows s.fs (s.placeMarker marker kind).2.fs := by
  rw [placeMarker]
  split
  · exact .refl _
  · next fs hplaced =>
    exact (FileSystem.placeMarker_ok hplaced).1.trans (offer_grows { s with fs } marker)

end Session

namespace UnionView

variable (view : UnionView) (s : Session) (path : Bytes) (rank : Nat) (kind : Kind)

theorem mirrorAncestors_grows : Grows s.fs (view.mirrorAncestors s path rank).2.fs := by
  rw [mirrorAncestors]
  split
  · exact .refl _
  · split
    · exact .refl _
    · exact s.ensureMetaDirs_grows _ _

theorem hide_grows : Grows s.fs (view.hide s path rank kind).2.fs := by
  have hmirror := view.mirrorAncestors_grows s path rank
  rw [hide]
  split
  · exact .refl _
  · split
    · exact .refl _
    · split
      · next hmade => rw [hmade] at hmirror; exact hmirror
      · next made hmade => rw [hmade] at hmirror; exact hmirror.trans (made.placeMarker_grows _ _)

theorem hideIfProvided_grows (lookup : Lookup) :
    Grows s.fs (view.hideIfProvided lookup s path rank kind).2.fs := by
  rw [hideIfProvided]
  split
  · exact .refl _
  · exact .refl _
  · exact view.hide_grows s path rank kind

variable {view s path rank kind}

omit [Host] in
theorem HasMarker.grows {before after : FileSystem} {parts : List Name}
    (h : view.HasMarker before parts rank) (hgrow : Grows before after) :
    view.HasMarker after parts rank := by
  obtain ⟨b, hb, hfit, hprobe⟩ := h
  exact ⟨b, hb, hfit, hgrow.probe_isSome hprobe⟩

theorem hasMarker_of_hide (hv : view.Accepted) (h : (view.hide s path rank kind).1 = .ok ()) :
    ∃ parts, unionComponents path = .ok parts ∧
      view.HasMarker (view.hide s path rank kind).2.fs parts rank := by
  rw [hide] at h ⊢
  split at h
  · cases h
  · split at h
    · cases h
    · next marker hmarker =>
      obtain ⟨parts, b, hparts, hb, hfit, rfl⟩ := (markerPath_eq_ok_iff hv).1 hmarker
      split at h
      · cases h
      · next made hmade =>
        refine ⟨parts, hparts, b, hb, hfit, ?_⟩
        rw [Session.placeMarker] at h
        split at h
        · cases h
        · next after hplaced =>
          have hthere :=
            (FileSystem.placeMarker_ok hplaced).2 (endsWithSeparator_markerText hv b parts)
          simp only [Session.placeMarker, hplaced]
          exact (Session.offer_grows _ _).probe_isSome hthere

end UnionView

end Whiteout
