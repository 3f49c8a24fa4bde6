import Whiteout.Proofs.Marker.Footprint

/-!
# Hiding once more

A request that has made a directory or a marker finds it there when it is made again, and adds
nothing. So a hide that has succeeded succeeds again and leaves everything as it is, in any tree.
The second one makes no directory, and so it asks for the acting identity once, for the marker.
-/

namespace Whiteout

open Text (utf8)
open Whiteout.FileSystem (Grows)
open Whiteout.Path (endsWithSeparator IsComponent)

section

variable [Host]

namespace FileSystem

variable {fs after later : FileSystem} {path : Bytes} {mode : Nat} {made : Bool} {kind : Kind}

theorem probe_of_ensureDirWith (hend : endsWithSeparator path = false)
    (h : fs.ensureDirWith path mode = .ok (made, after)) : after.probe path = some .dir := by
  rcases ensureDirWith_ok h with hmade | ⟨rfl, hdir⟩
  · obtain ⟨place, -, -, hentry⟩ := entryAt_of_makeDir hend hmade
    exact probe_eq_some_iff.2 ⟨place, _, hentry, rfl⟩
  · exact hdir

theorem makeDir_of_entryAt (hend : endsWithSeparator path = false) {place : Location} {e : Entry}
    (h : fs.entryAt path = .ok (place, e)) (mode : Nat) :
    fs.makeDir path mode = .error (.system .fileExists) := by
  obtain ⟨spot, hresolve, rfl, hget⟩ := entryAt_eq_ok_iff.1 h
  have hnew : fs.resolveNew path = .ok spot := by
    rw [resolve, hops_of_not_endsWithSeparator hend] at hresolve
    exact hresolve
  rw [makeDir, hnew]
  cases spot with
  | self here => rfl
  | named place =>
    rw [Spot.place] at hget
    simp only [addNew, hget]

theorem ensureDirWith_of_dir (hend : endsWithSeparator path = false)
    (h : fs.probe path = some .dir) (mode : Nat) : fs.ensureDirWith path mode = .ok (false, fs) := by
  obtain ⟨place, e, hentry, -⟩ := probe_eq_some_iff.1 h
  rw [ensureDirWith, makeDir_of_entryAt hend hentry]
  exact if_pos h

theorem createFile_again (h : fs.createFile path mode = .ok after) (hsame : SameTree after later) :
    later.createFile path mode = .ok later := by
  obtain ⟨place, hopen⟩ := createFile_ok h
  have hgrow := createFile_grows h
  obtain ⟨hresolve, hfile⟩ := openFile_ok hopen
  have hthere : ∃ m content, after.tree.get? place = some (.file m content) := by
    rcases hfile with ⟨⟨m, content, hget⟩, rfl⟩ | ⟨-, -, hget⟩
    · exact ⟨m, content, hget⟩
    · exact ⟨Host.granted mode, [], by rw [hget, if_pos rfl]⟩
  have hlinks (l : Location) (target : Bytes) (hlink : after.tree.get? l = some (.link target)) :
      fs.tree.get? l = some (.link target) := by
    rcases hfile with ⟨-, rfl⟩ | ⟨-, -, hget⟩
    · exact hlink
    · rw [hget] at hlink
      split at hlink
      · cases hlink
      · exact hlink
  obtain ⟨hadm, hwalk⟩ := resolve_eq_ok_iff.1 hresolve
  have hagain : after.resolve path .createFile = .ok (.named place) :=
    resolve_eq_ok_iff.2 ⟨hadm, hgrow.1 ▸ hwalk.grows_of_links hgrow.2 (.inr hlinks)⟩
  obtain ⟨m, content, hget⟩ := hthere
  have hagain' : later.resolve path .createFile = .ok (.named place) :=
    (hsame.resolveHops path (hops path) .createFile).trans hagain
  rw [← hsame.1] at hget
  rw [createFile, openFile, hagain']
  simp only [hget]
  rfl

theorem placeMarker_again (hend : endsWithSeparator path = false)
    (h : fs.placeMarker path kind = .ok after) (hsame : SameTree after later) :
    later.placeMarker path kind = .ok later := by
  cases kind with
  | file => exact createFile_again h hsame
  | dir =>
    obtain ⟨made, hensure⟩ := placeMarker_dir_ok h
    have hdir := probe_of_ensureDirWith hend hensure
    rw [← hsame.probe] at hdir
    rw [placeMarker, ensureDirWith_of_dir hend hdir]
    rfl

end FileSystem

namespace Session

variable {s later : Session} {kind : Kind}

theorem ensureMetaDir_dir {path : Bytes} (hend : endsWithSeparator path = false)
    (h : (s.ensureMetaDir path).1 = .ok ()) :
    (s.ensureMetaDir path).2.fs.probe path = some .dir := by
  rcases s.ensureMetaDir_cases path with ⟨fs, hmade, hrun⟩ | ⟨hdir, hrun⟩ | ⟨fault, hrun⟩
  · obtain ⟨place, -, -, hentry⟩ := FileSystem.entryAt_of_makeDir hend hmade
    rw [hrun]
    exact FileSystem.probe_eq_some_iff.2 ⟨place, _, hentry, rfl⟩
  · rw [hrun]
    exact hdir
  · rw [hrun] at h
    cases h

theorem ensureMetaDir_of_dir {path : Bytes} (hend : endsWithSeparator path = false)
    (h : s.fs.probe path = some .dir) : s.ensureMetaDir path = (.ok (), s) := by
  rw [ensureMetaDir, FileSystem.ensureDirWith_of_dir hend h]

theorem ensureMetaDirs_again {dir : BoundedPath} {below : List Bytes} (hne : dir.text ≠ [])
    (hend : endsWithSeparator dir.text = false) (hbelow : ∀ c ∈ below, IsComponent c)
    (h : (s.ensureMetaDirs dir below).1 = .ok ())
    (hgrow : Grows (s.ensureMetaDirs dir below).2.fs later.fs) :
    later.ensureMetaDirs dir below = (.ok (), later) := by
  induction below generalizing s dir with
  | nil => exact ensureMetaDir_of_dir hend (hgrow.probe (ensureMetaDir_dir hend h))
  | cons component below ih =>
    have hcomp : IsComponent component := hbelow component List.mem_cons_self
    have hbelow' := fun c hc => hbelow c (List.mem_cons_of_mem component hc)
    rw [ensureMetaDirs] at h hgrow
    split at h
    · cases h
    · next made hmade =>
      rw [hmade] at hgrow
      split at h
      · cases h
      · next next hnext =>
        rw [hnext] at hgrow
        have hdir : made.fs.probe dir.text = some .dir := by
          have hensured := ensureMetaDir_dir (s := s) hend (by rw [hmade])
          rwa [hmade] at hensured
        have hthere := hgrow.probe ((made.ensureMetaDirs_grows next below).probe hdir)
        rw [ensureMetaDirs, ensureMetaDir_of_dir hend hthere, hnext]
        rw [BoundedPath.pushSegment_of_isComponent hne hend hcomp] at hnext
        obtain ⟨-, rfl⟩ := BoundedPath.extendTo_eq_ok_iff.1 hnext
        exact ih (by simp [hne]) (Path.endsWithSeparator_slashed _ (by simp) (by simpa using hcomp))
          hbelow' h hgrow

theorem placeMarker_again {marker : Bytes} (hend : endsWithSeparator marker = false)
    (h : (s.placeMarker marker kind).1 = .ok ()) :
    (s.placeMarker marker kind).2.placeMarker marker kind =
      (.ok (), { (s.placeMarker marker kind).2 with
        queries := (s.placeMarker marker kind).2.queries + 1 }) := by
  cases hplaced : s.fs.placeMarker marker kind with
  | error e =>
    rw [placeMarker, hplaced] at h
    cases h
  | ok fs =>
    have hagain := FileSystem.placeMarker_again hend hplaced (offer_sameTree { s with fs } marker)
    simp only [placeMarker, hplaced, hagain]
    exact congrArg (Prod.mk _) (offer_offer { s with fs } marker)

end Session

namespace UnionView

variable {view : UnionView} {s : Session} {path : Bytes} {rank : Nat} {kind : Kind}

theorem mirrorAncestors_again (hv : view.Accepted)
    (h : (view.mirrorAncestors s path rank).1 = .ok ()) {later : Session}
    (hgrow : Grows (view.mirrorAncestors s path rank).2.fs later.fs) :
    view.mirrorAncestors later path rank = (.ok (), later) := by
  cases hparts : unionComponents path with
  | error e => simp [mirrorAncestors, hparts] at h
  | ok parts =>
    cases hroot : view.metaRoot rank with
    | error e => simp [mirrorAncestors, hparts, hroot] at h
    | ok root =>
      simp only [mirrorAncestors, hparts, hroot] at h hgrow ⊢
      obtain ⟨b, hb, -, rfl⟩ := (metaRoot_eq_ok_iff hv).1 hroot
      refine Session.ensureMetaDirs_again (metaText_ne_nil hv hb) (endsWithSeparator_metaText hv b)
        (fun c hc => ?_) h hgrow
      exact (isStep_of_mem_front hparts (List.dropLast_prefix _) c hc).isComponent

theorem hide_again {home : Option String} {config : Config}
    (haccepted : ofConfig home config = .ok view) (s : Session) (path : Bytes) (rank : Nat)
    (kind : Kind) (h : (view.hide s path rank kind).1 = .ok ()) :
    view.hide (view.hide s path rank kind).2 path rank kind =
      (.ok (), { (view.hide s path rank kind).2 with
        queries := (view.hide s path rank kind).2.queries + 1 }) := by
  have hv := accepted_of_ofConfig haccepted
  rw [hide] at h
  split at h
  · cases h
  · next b hb =>
    split at h
    · cases h
    · next marker hmarker =>
      split at h
      · cases h
      · next made hmade =>
        have hrun : view.hide s path rank kind = made.placeMarker marker.text kind := by
          simp only [hide, hb, hmarker, hmade]
        have hgrow := made.placeMarker_grows marker.text kind
        have hmirrored : view.mirrorAncestors (made.placeMarker marker.text kind).2 path rank =
            (.ok (), (made.placeMarker marker.text kind).2) :=
          mirrorAncestors_again hv (by rw [hmade]) (by rw [hmade]; exact hgrow)
        obtain ⟨parts, b, -, -, -, rfl⟩ := (markerPath_eq_ok_iff hv).1 hmarker
        have hagain := Session.placeMarker_again (endsWithSeparator_markerText hv b parts) h
        rw [hrun, hide, hb, hmarker]
        simp only [hmirrored, hagain]

end UnionView

end

namespace UnionView

attribute [local instance] Sample.host in
/-- The marker's place holds a link that leads nowhere; a file is made behind it and found again. -/
theorem hide_again_behind_link :
    let tree := (Sample.tree.put [utf8 "up", utf8 ".unionfs"] (.dir 0o755)).put
      [utf8 "up", utf8 ".unionfs", utf8 "a_HIDDEN~"] (.link (utf8 "../made"))
    let hidden := (Sample.view.hide (.start { tree, cwd := [] } ⟨0, 0⟩) (utf8 "a") 0 .file).2
    hidden.fs.tree.get? [utf8 "up", utf8 "made"] = some (.file fileMarkerMode []) ∧
    Sample.view.hide hidden (utf8 "a") 0 .file =
      (.ok (), { hidden with queries := hidden.queries + 1 }) := by
  intro tree hidden
  exact ⟨by decide +kernel,
    hide_again Sample.ofConfig_config (.start { tree, cwd := [] } ⟨0, 0⟩) (utf8 "a") 0 .file
      (by decide +kernel)⟩

end UnionView

end Whiteout
