import Whiteout.Marker.Create
import Whiteout.Proofs.Mirror.Mirrors

/-!
# Hiding follows the map

The directories on the way to a marker are made one below the other, each in the one made before it,
and then the marker is put into the last one. At every place either nothing stood or what belongs
there, so hiding fails only where a marker of the other kind stands.
-/

namespace Whiteout

open Whiteout.Path (IsStep IsComponent endsWithSeparator)
open Whiteout.Marker (slashed)

namespace FileSystem.Spells

variable {fs : FileSystem} {path : Bytes} {place : Location} {e : Entry}
  (hfree : fs.tree.LinkFree) (h : fs.Spells path place) (hadm : Path.isAdmissible path = true)
  (hdir : fs.tree.isDirAt place.dropLast = true) (hlen : ∀ n ∈ place, n.length ≤ Path.maxNameLength)
include hfree h hadm hdir hlen

variable [Host]

theorem ensureDirWith_of_none (hnew : fs.tree.get? place = none) (mode : Nat) :
    ∃ made, fs.ensureDirWith path mode = .ok (true, made) ∧
      fs.IsPut made place (.dir (Host.granted mode)) := by
  obtain ⟨made, hmade, hput⟩ := h.makeDir_of_none hfree hadm hdir hlen hnew mode
  exact ⟨made, by rw [ensureDirWith, hmade], hput⟩

theorem ensureDirWith_of_some (hget : fs.tree.get? place = some e) (mode : Nat) :
    fs.ensureDirWith path mode =
      if e.isDir then .ok (false, fs) else .error (.system .fileExists) := by
  have hprobe : fs.probe path = some e.kind := by rw [h.probe_eq hfree hadm, hget, Option.map_some]
  rw [ensureDirWith, h.makeDir_of_some hfree hadm hdir hlen hget]
  cases e <;> simp [hprobe, Entry.kind, Entry.isDir]

theorem placeMarker_of_none (hnew : fs.tree.get? place = none) (kind : Kind) :
    ∃ made e, fs.placeMarker path kind = .ok made ∧ fs.IsPut made place e ∧ e.kind = kind ∧
      e.isLink = false := by
  cases kind with
  | file =>
    obtain ⟨made, hmade, hput⟩ := h.createFile_of_none hfree hadm hdir hlen hnew fileMarkerMode
    exact ⟨made, _, hmade, hput, rfl, rfl⟩
  | dir =>
    obtain ⟨made, hmade, hput⟩ := h.ensureDirWith_of_none hfree hadm hdir hlen hnew dirMarkerMode
    exact ⟨made, _, by rw [placeMarker, hmade]; rfl, hput, rfl, rfl⟩

theorem placeMarker_of_some (hget : fs.tree.get? place = some e) (kind : Kind) :
    fs.placeMarker path kind = if e.kind = kind then .ok fs else .error kind.refusal := by
  cases kind with
  | file =>
    rw [placeMarker, h.createFile_of_some hfree hadm hdir hlen hget]
    cases e <;> simp [Entry.kind, Entry.isDir, Kind.refusal]
  | dir =>
    rw [placeMarker, h.ensureDirWith_of_some hfree hadm hdir hlen hget]
    cases e <;> simp [Entry.kind, Entry.isDir, Kind.refusal, Except.map]

end FileSystem.Spells

namespace UnionView.Mirrors

variable [Host] {view : UnionView} {start : FileSystem} {places : Nat → Location} {markers : MarkerMap}
  {s : Session} {rank : Nat} {b : Branch} {parts : List Name} (hv : view.Accepted)
  (hready : view.Ready start places) (hb : view.branches[rank]? = some b)
  (hparts : view.Suited parts)
include hv hready hb hparts

theorem ensureMetaDir_eq (h : view.Mirrors start places s.fs markers) {names : List Name}
    (hpre : names <+: parts.dropLast)
    (hup : s.fs.tree.isDirAt (places rank ++ view.metaDir :: names).dropLast = true) :
    ∃ made, s.ensureMetaDir (view.metaText b ++ slashed names) = (.ok (), made) ∧
      view.Mirrors start places made.fs markers ∧
        made.fs.tree.isDirAt (places rank ++ view.metaDir :: names) = true := by
  have hrank : rank < view.branches.length := (List.getElem?_eq_some_iff.1 hb).1
  have hsub : names ⊆ parts := fun n hn => List.dropLast_subset _ (hpre.subset hn)
  have hspells := (hready.spells_mirrored hv hb fun n hn => hparts.steps n (hsub hn)).grows h.kept
  have hadm := hparts.admissible_mirrored (List.mem_of_getElem? hb) (metaText_ne_nil hv hb) hpre
  have hlen : ∀ n ∈ places rank ++ view.metaDir :: names, n.length ≤ Path.maxNameLength := by
    intro n hn
    refine hready.short_markerPlace hv hb hparts n ?_
    rw [markerPlace]
    rcases List.mem_append.1 hn with hn | hn
    · exact List.mem_append_left _ hn
    · refine List.mem_append_right _ ?_
      rcases List.mem_cons.1 hn with rfl | hn
      · exact List.mem_cons_self
      · exact List.mem_cons_of_mem _ (List.mem_append_left _ (hpre.subset hn))
  cases hget : s.fs.tree.get? (places rank ++ view.metaDir :: names) with
  | none =>
    obtain ⟨made, hmade, hput⟩ :=
      hspells.ensureDirWith_of_none h.linkFree hadm hup hlen hget metaDirMode
    have hsame := Session.offer_sameTree { s with fs := made } (view.metaText b ++ slashed names)
    refine ⟨{ s with fs := made }.offer (view.metaText b ++ slashed names), ?_, ?_, ?_⟩
    · rw [Session.ensureMetaDir, hmade]
    · exact (h.put_dir hready hrank hparts hpre hget hput).sameTree hsame
    · rw [hsame.1, Tree.isDirAt, hput.2, if_pos rfl]
      rfl
  | some e =>
    have hdir := h.isDir_of_mirrored hrank hparts hsub hget
    have hensure := hspells.ensureDirWith_of_some h.linkFree hadm hup hlen hget metaDirMode
    rw [hdir, if_pos rfl] at hensure
    refine ⟨s, by rw [Session.ensureMetaDir, hensure], h, ?_⟩
    rw [Tree.isDirAt, hget]
    exact hdir

theorem ensureMetaDirs_eq (h : view.Mirrors start places s.fs markers) {done rest : List Name}
    (hsplit : done ++ rest = parts.dropLast)
    (hup : s.fs.tree.isDirAt (places rank ++ view.metaDir :: done).dropLast = true) :
    ∃ made, s.ensureMetaDirs ⟨view.metaText b ++ slashed done, view.maxPathLen⟩ rest =
      (.ok (), made) ∧ view.Mirrors start places made.fs markers ∧
        made.fs.tree.isDirAt (places rank ++ view.metaDir :: parts.dropLast) = true := by
  -- the directories for `done` are there, with the map of markers as it was
  induction rest generalizing s done with
  | nil =>
    rw [List.append_nil] at hsplit
    subst hsplit
    exact h.ensureMetaDir_eq hv hready hb hparts (List.prefix_refl _) hup
  | cons component below ih =>
    have hmem : component ∈ parts := List.dropLast_subset _ (hsplit ▸ by simp)
    have hdone : ∀ n ∈ done, IsComponent n := fun n hn =>
      (hparts.steps n (List.dropLast_subset _ (hsplit ▸ List.mem_append_left _ hn))).isComponent
    have hnext : done ++ [component] <+: parts.dropLast := ⟨below, by simp [← hsplit]⟩
    have htext : view.metaText b ++ slashed done ++ slashed [component] =
        view.metaText b ++ slashed (done ++ [component]) := by
      rw [Path.slashed_append, List.append_assoc]
    obtain ⟨first, hfirst, hmirrors, hdir⟩ := h.ensureMetaDir_eq hv hready hb hparts ⟨_, hsplit⟩ hup
    have hend : endsWithSeparator (view.metaText b ++ slashed done) = false := by
      by_cases hnil : done = []
      · simpa [hnil, slashed] using endsWithSeparator_metaText hv b
      · exact Path.endsWithSeparator_slashed _ hnil hdone
    have hpush : BoundedPath.pushSegment ⟨view.metaText b ++ slashed done, view.maxPathLen⟩
        component = .ok ⟨view.metaText b ++ slashed (done ++ [component]), view.maxPathLen⟩ := by
      rw [BoundedPath.pushSegment_of_isComponent (by simp [metaText_ne_nil hv hb]) hend
        (hparts.steps _ hmem).isComponent, BoundedPath.extendTo_eq_ok_iff]
      exact ⟨htext ▸ hparts.fits_mirrored (List.mem_of_getElem? hb) hnext, by rw [← htext]⟩
    have hsplit' : done ++ [component] ++ below = parts.dropLast := by simpa using hsplit
    have hup' : first.fs.tree.isDirAt
        (places rank ++ view.metaDir :: (done ++ [component])).dropLast = true := by
      rwa [← List.cons_append, ← List.append_assoc, List.dropLast_concat]
    obtain ⟨made, hmade, hrest⟩ := ih hmirrors hsplit' hup'
    refine ⟨made, ?_, hrest⟩
    rw [Session.ensureMetaDirs, hfirst]
    dsimp only
    rw [hpush]
    exact hmade

theorem placeMarker_eq (h : view.Mirrors start places s.fs markers) (kind : Kind)
    (hup : s.fs.tree.isDirAt (places rank ++ view.metaDir :: parts.dropLast) = true) :
    (s.placeMarker (view.markerText b parts) kind).1 = (markers.hide rank parts kind).1 ∧
      view.Mirrors start places (s.placeMarker (view.markerText b parts) kind).2.fs
        (markers.hide rank parts kind).2 := by
  have hrank : rank < view.branches.length := (List.getElem?_eq_some_iff.1 hb).1
  have hspells := (hready.spells_marker hv hb hparts.ne_nil hparts.steps).grows h.kept
  have hadm := hparts.admissible b (List.mem_of_getElem? hb)
  have hlen := hready.short_markerPlace hv hb hparts
  have hkind := h.kind_at_marker hrank hparts.ne_nil
  rw [← markerPlace_dropLast] at hup
  cases hget : s.fs.tree.get? (view.markerPlace (places rank) parts) with
  | none =>
    obtain ⟨made, e, hmade, hput, rfl, hlink⟩ :=
      hspells.placeMarker_of_none h.linkFree hadm hup hlen hget kind
    rw [hget, Option.map_none] at hkind
    simp only [Session.placeMarker, hmade, MarkerMap.hide, ← hkind]
    exact ⟨trivial, (h.put_marker hready hrank hparts hlink hkind.symm hput).sameTree
      (Session.offer_sameTree _ _)⟩
  | some e =>
    have hplaced := hspells.placeMarker_of_some h.linkFree hadm hup hlen hget kind
    rw [hget, Option.map_some] at hkind
    by_cases hsame : e.kind = kind
    · rw [if_pos hsame] at hplaced
      simp only [Session.placeMarker, hplaced, MarkerMap.hide, ← hkind, if_pos hsame]
      exact ⟨trivial, h.sameTree (s.offer_sameTree _)⟩
    · rw [if_neg hsame] at hplaced
      simp only [Session.placeMarker, hplaced, MarkerMap.hide, ← hkind, if_neg hsame]
      exact ⟨trivial, h⟩

theorem hide_eq (h : view.Mirrors start places s.fs markers) {path : Bytes}
    (hpath : unionComponents path = .ok parts) (kind : Kind) :
    (view.hide s path rank kind).1 = (markers.hide rank parts kind).1 ∧
      view.Mirrors start places (view.hide s path rank kind).2.fs
        (markers.hide rank parts kind).2 := by
  have hbranch : view.branch rank = .ok b := (view.branch_ok_iff rank b).2 hb
  have hmarker : view.markerPath path rank = .ok ⟨view.markerText b parts, view.maxPathLen⟩ :=
    (markerPath_eq_ok_iff hv).2 ⟨parts, b, hpath, hb, hparts.fits b (List.mem_of_getElem? hb), rfl⟩
  have hroot : view.metaRoot rank = .ok ⟨view.metaText b ++ slashed [], view.maxPathLen⟩ := by
    have hfit := hparts.fits_mirrored (List.mem_of_getElem? hb) List.nil_prefix
    simp only [slashed, List.flatMap_nil, List.append_nil] at hfit ⊢
    exact (metaRoot_eq_ok_iff hv).2 ⟨b, hb, hfit, rfl⟩
  obtain ⟨mode, hplace⟩ := hready.isDirAt_place hb
  have hup : s.fs.tree.isDirAt (places rank ++ view.metaDir :: []).dropLast = true := by
    rw [List.dropLast_concat]
    exact Tree.isDirAt_iff.2 ⟨mode, h.kept.2 _ _ hplace⟩
  obtain ⟨made, hmade, hmirrors, hdir⟩ :=
    h.ensureMetaDirs_eq hv hready hb hparts (List.nil_append _) hup
  have hancestors : view.mirrorAncestors s path rank = (.ok (), made) := by
    rw [mirrorAncestors, hpath, hroot]
    exact hmade
  rw [hide, hbranch, hmarker, hancestors]
  exact hmirrors.placeMarker_eq hv hready hb hparts kind hdir

end UnionView.Mirrors

end Whiteout
