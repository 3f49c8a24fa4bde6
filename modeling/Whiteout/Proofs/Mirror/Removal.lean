import Whiteout.Proofs.Marker.Cleanup
import Whiteout.Proofs.Mirror.Mirrors

/-!
# Removal follows the map

Removing the markers of a suited path never fails: in each branch the marker is there or nothing is,
and a directory marker is empty. The report names the branches that had a marker, in ascending
order.
-/

namespace Whiteout

namespace FileSystem.Spells

variable {fs : FileSystem} {path : Bytes} {place : Location}
  (hfree : fs.tree.LinkFree) (h : fs.Spells path place) (hadm : Path.isAdmissible path = true)
include hfree h hadm

theorem removeMarker_of_none (hnone : fs.tree.get? place = none) : fs.removeMarker path = none := by
  rw [removeMarker_eq_none_iff, h.probe_eq hfree hadm, hnone, Option.map_none]

theorem removeMarker_of_some {e : Entry} (hget : fs.tree.get? place = some e)
    (hempty : fs.tree.isEmptyAt place = true) :
    ∃ without, fs.removeMarker path = some (.ok without) ∧ fs.IsCut without place := by
  have hprobe : fs.probe path = some e.kind := by rw [h.probe_eq hfree hadm, hget, Option.map_some]
  cases hdir : e.isDir with
  | false =>
    obtain ⟨without, hdone, hcut⟩ := h.unlink_of_some hfree hadm hget hdir
    exact ⟨without, by simp [removeMarker, hprobe, Entry.kind, hdir, hdone], hcut⟩
  | true =>
    obtain ⟨without, hdone, hcut⟩ := h.unlinkDir_of_some hfree hadm hget hdir hempty
    exact ⟨without, by simp [removeMarker, hprobe, Entry.kind, hdir, hdone], hcut⟩

end FileSystem.Spells

namespace UnionView.Mirrors

variable {view : UnionView} {start fs : FileSystem} {places : Nat → Location} {markers : MarkerMap}
  {parts : List Name}

theorem removeMarker_cases (h : view.Mirrors start places fs markers) (hv : view.Accepted)
    (hready : view.Ready start places) {rank : Nat} {b : Branch}
    (hb : view.branches[rank]? = some b) (hparts : view.Suited parts) :
    markers rank parts = none ∧ fs.removeMarker (view.markerText b parts) = none ∨
      (markers rank parts).isSome = true ∧ ∃ without,
        fs.removeMarker (view.markerText b parts) = some (.ok without) ∧
          view.Mirrors start places without (markers.erase [rank] parts) := by
  have hrank : rank < view.branches.length := (List.getElem?_eq_some_iff.1 hb).1
  have hspells := (hready.spells_marker hv hb hparts.ne_nil hparts.steps).grows h.kept
  have hadm := hparts.admissible b (List.mem_of_getElem? hb)
  have hkind := h.kind_at_marker hrank hparts.ne_nil
  cases hget : fs.tree.get? (view.markerPlace (places rank) parts) with
  | none =>
    rw [hget, Option.map_none] at hkind
    exact .inl ⟨hkind.symm, hspells.removeMarker_of_none h.linkFree hadm hget⟩
  | some e =>
    rw [hget, Option.map_some] at hkind
    obtain ⟨without, hremoved, hcut⟩ :=
      hspells.removeMarker_of_some h.linkFree hadm hget (h.isEmptyAt_marker hrank hparts)
    exact .inr ⟨by rw [← hkind]; rfl, without, hremoved, h.cut_marker hready hrank hparts hcut⟩

theorem unhideIn_eq (h : view.Mirrors start places fs markers) (hv : view.Accepted)
    (hready : view.Ready start places) {path : Bytes} (hpath : unionComponents path = .ok parts)
    (hparts : view.Suited parts) {ranks : List Nat} (hranks : ∀ r ∈ ranks, r < view.branches.length)
    (hnodup : ranks.Nodup) :
    (view.unhideIn fs path ranks).1 = .ok (markers.unhide ranks parts).1 ∧
      view.Mirrors start places (view.unhideIn fs path ranks).2 (markers.unhide ranks parts).2 := by
  induction ranks generalizing fs markers with
  | nil =>
    rw [MarkerMap.unhide_nil]
    exact ⟨rfl, h⟩
  | cons rank others ih =>
    obtain ⟨hnew, hothers⟩ := List.nodup_cons.1 hnodup
    have hranks' : ∀ r ∈ others, r < view.branches.length := fun r hr =>
      hranks r (List.mem_cons_of_mem _ hr)
    obtain ⟨b, hb⟩ : ∃ b, view.branches[rank]? = some b :=
      ⟨_, List.getElem?_eq_getElem (hranks rank List.mem_cons_self)⟩
    have hmarker : view.markerPath path rank = .ok ⟨view.markerText b parts, view.maxPathLen⟩ :=
      (markerPath_eq_ok_iff hv).2
        ⟨parts, b, hpath, hb, hparts.fits b (List.mem_of_getElem? hb), rfl⟩
    rw [unhideIn, hmarker]
    dsimp only
    rcases h.removeMarker_cases hv hready hb hparts with ⟨hnone, hremoved⟩ |
      ⟨hsome, without, hremoved, hmirrors⟩
    · rw [hremoved, MarkerMap.unhide_cons_of_none hnone]
      exact ih h hranks' hothers
    · obtain ⟨hreport, hfinal⟩ := ih hmirrors hranks' hothers
      rw [hremoved, MarkerMap.unhide_cons_of_some hsome hnew]
      dsimp only
      rw [hreport]
      exact ⟨rfl, hfinal⟩

end UnionView.Mirrors

end Whiteout
