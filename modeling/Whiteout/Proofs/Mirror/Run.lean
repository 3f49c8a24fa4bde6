import Whiteout.Proofs.Mirror.Hiding
import Whiteout.Proofs.Mirror.Listing
import Whiteout.Proofs.Mirror.Removal

/-!
# Runs follow the map

Whatever is hidden and shown again, in whatever order, the union answers as the map of markers does
and its metadata trees mirror the map. So what it hides and what it lists at the end is what the map
says.
-/

namespace Whiteout.UnionView

open Text (utf8)
open Whiteout.Marker (slashed)

variable {view : UnionView} {start : FileSystem} {places : Nat → Location} {s : Session}
  {markers : MarkerMap}

theorem hide_of_unpathed [Host] {path : Bytes} {rank : Nat} {b : Branch} (hb : view.branch rank = .ok b)
    {e : Error} (h : unionComponents path = .error e) (kind : Kind) :
    view.hide s path rank kind = (.error e, s) := by
  simp [hide, hb, markerPath, h]

theorem unhideIn_of_unpathed {fs : FileSystem} {path : Bytes} {e : Error}
    (h : unionComponents path = .error e) {ranks : List Nat} (hne : ranks ≠ []) :
    view.unhideIn fs path ranks = (.error e, fs) := by
  obtain ⟨rank, others, rfl⟩ := List.exists_cons_of_ne_nil hne
  simp [unhideIn, markerPath, h]

theorem unhideCount_pos (hv : view.Accepted) (last : Option Nat) : 0 < view.unhideCount last := by
  have hpos : 0 < view.branches.length := List.length_pos_iff.2 hv.branched
  cases last with
  | none => exact hpos
  | some last => exact Nat.lt_min.2 ⟨Nat.succ_pos last, hpos⟩

theorem Mirrors.perform_eq [Host] (h : view.Mirrors start places s.fs markers) (hv : view.Accepted)
    (hready : view.Ready start places) (hcow : view.cowEnabled = true) {r : MarkerRequest}
    (hr : view.Orderly (utf8 r.path)) :
    (r.toRequest.perform view s).1 = (markers.perform view r).1 ∧
      view.Mirrors start places (r.toRequest.perform view s).2.fs (markers.perform view r).2 := by
  cases r with
  | hide path rank kind =>
    simp only [MarkerRequest.toRequest, Request.perform, MarkerMap.perform]
    cases hb : view.branch rank with
    | error e =>
      rw [hide_of_no_branch hb]
      exact ⟨rfl, h⟩
    | ok b =>
      cases hpath : unionComponents (utf8 path) with
      | error e =>
        rw [hide_of_unpathed hb hpath]
        exact ⟨rfl, h⟩
      | ok parts =>
        obtain ⟨hresponse, hafter⟩ :=
          h.hide_eq hv hready ((view.branch_ok_iff rank b).1 hb) (hr.suited hv hpath) hpath kind
        exact ⟨congrArg Response.done hresponse, hafter⟩
  | unhide path last =>
    have hranks : ∀ r ∈ List.range (view.unhideCount last), r < view.branches.length := fun r hr =>
      Nat.lt_of_lt_of_le (List.mem_range.1 hr) (view.unhideCount_le last)
    simp only [MarkerRequest.toRequest, Request.perform, MarkerMap.perform, unhide, hcow, if_true]
    cases hpath : unionComponents (utf8 path) with
    | error e =>
      have hne : List.range (view.unhideCount last) ≠ [] := by
        rw [ne_eq, List.range_eq_nil]
        exact Nat.ne_of_gt (unhideCount_pos hv last)
      rw [unhideIn_of_unpathed hpath hne]
      exact ⟨rfl, h⟩
    | ok parts =>
      obtain ⟨hresponse, hafter⟩ :=
        h.unhideIn_eq hv hready hpath (hr.suited hv hpath) hranks List.nodup_range
      exact ⟨congrArg Response.cleaned hresponse, hafter⟩

theorem Mirrors.run_eq [Host] (h : view.Mirrors start places s.fs markers) (hv : view.Accepted)
    (hready : view.Ready start places) (hcow : view.cowEnabled = true)
    {requests : List MarkerRequest} (hpaths : ∀ r ∈ requests, view.Orderly (utf8 r.path)) :
    (view.run s (requests.map MarkerRequest.toRequest)).1 = (markers.run view requests).1 ∧
      view.Mirrors start places (view.run s (requests.map MarkerRequest.toRequest)).2.fs
        (markers.run view requests).2 := by
  induction requests generalizing s markers with
  | nil => exact ⟨rfl, h⟩
  | cons r later ih =>
    obtain ⟨hresponse, hafter⟩ := h.perform_eq hv hready hcow (hpaths r List.mem_cons_self)
    obtain ⟨hresponses, hfinal⟩ := ih hafter fun r hr => hpaths r (List.mem_cons_of_mem _ hr)
    rw [List.map_cons, run_cons, MarkerMap.run_cons]
    exact ⟨by rw [hresponse, hresponses], hfinal⟩

theorem exists_metaRoot (hv : view.Accepted) {text : String} {parts : List Name}
    (h : view.Orderly (utf8 text)) (hparts : unionComponents (utf8 text) = .ok parts) {rank : Nat}
    (hrank : rank < view.branches.length) : ∃ root, view.metaRoot rank = .ok root := by
  have hfit := (h.suited hv hparts).fits_mirrored (List.getElem_mem hrank) List.nil_prefix
  rw [slashed, List.flatMap_nil, List.append_nil] at hfit
  exact ⟨_, (metaRoot_eq_ok_iff hv).2 ⟨_, List.getElem?_eq_getElem hrank, hfit, rfl⟩⟩

theorem run_follows_markerMap [Host] {home : Option String} {config : Config}
    (haccepted : ofConfig home config = .ok view) (hcow : view.cowEnabled = true)
    (hready : view.Ready s.fs places) {requests : List MarkerRequest}
    (hpaths : ∀ r ∈ requests, view.Orderly (utf8 r.path)) :
    ∃ responses final markers,
      view.run s (requests.map MarkerRequest.toRequest) = (responses, final) ∧
      MarkerMap.empty.run view requests = (responses, markers) ∧
      (∀ path rank, view.isHidden final.fs path rank = true ↔
        ∃ parts front, unionComponents path = .ok parts ∧ front ≠ [] ∧ front <+: parts ∧
          (markers rank front).isSome = true) ∧
      ∀ rank, rank < view.branches.length →
        ((∃ root, view.metaRoot rank = .ok root) ∨
          ∃ r ∈ requests, ∃ parts, unionComponents (utf8 r.path) = .ok parts) →
        ∃ listed, view.markers final.fs rank = .ok listed ∧ listed.Nodup ∧
          ∀ m, m ∈ listed ↔ m.rank = rank ∧
            ∃ parts, markers rank parts = some m.kind ∧ m.unionPath = slashed parts := by
  have hv := accepted_of_ofConfig haccepted
  obtain ⟨hresponses, hmirrors⟩ := hready.mirrors.run_eq hv hready hcow hpaths
  refine ⟨_, _, (MarkerMap.empty.run view requests).2, rfl, by rw [hresponses], fun path rank => ?_,
    fun rank hrank hpath => ?_⟩
  · cases hparts : unionComponents path with
    | ok parts =>
      rw [hmirrors.isHidden_eq_true_iff hv hready hcow hparts]
      constructor
      · intro hmarked
        rcases hmarked with ⟨front, hfront⟩
        exact ⟨parts, front, rfl, hfront⟩
      · intro hmarked
        rcases hmarked with ⟨parts', front, hsame, hfront⟩
        cases hsame
        exact ⟨front, hfront⟩
    | error e =>
      refine ⟨fun hhidden => ?_, fun ⟨parts, front, hsame, _⟩ => by cases hsame⟩
      obtain ⟨-, parts, hsame, -⟩ := (isHidden_iff hv).1 hhidden
      cases hparts.symm.trans hsame
  · obtain ⟨root, hroot⟩ : ∃ root, view.metaRoot rank = .ok root := by
      rcases hpath with hroot | ⟨r, hr, parts, hparts⟩
      · exact hroot
      · exact exists_metaRoot hv (hpaths r hr) hparts hrank
    exact hmirrors.markers_eq hv hready hroot

attribute [local instance] Sample.host in
theorem run_follows_markerMap_sample :
    ∃ listed, Sample.view.isHidden
      (Sample.view.run Sample.session (Sample.requests.map MarkerRequest.toRequest)).2.fs
      (utf8 "d/e/f") 1 = true ∧
      Sample.view.markers
        (Sample.view.run Sample.session (Sample.requests.map MarkerRequest.toRequest)).2.fs 0 =
          .ok listed ∧ ⟨0, utf8 "/a", .dir⟩ ∈ listed := by
  have hpaths : ∀ r ∈ Sample.requests, Sample.view.Orderly (utf8 r.path) := by decide +kernel
  obtain ⟨responses, final, markers, hrun, hmap, hhidden, hlisted⟩ :=
    run_follows_markerMap Sample.ofConfig_config rfl Sample.ready hpaths
  have hmarkers : markers = (MarkerMap.empty.run Sample.view Sample.requests).2 := by rw [hmap]
  have ha : markers 0 [utf8 "a"] = some .dir := by rw [hmarkers]; decide +kernel
  have he : markers 1 [utf8 "d", utf8 "e"] = some .dir := by rw [hmarkers]; decide +kernel
  have hpath : unionComponents (utf8 "d/e/f") = .ok [utf8 "d", utf8 "e", utf8 "f"] := by
    decide +kernel
  obtain ⟨listed, hlist, -, hmem⟩ :=
    hlisted 0 (by decide) (.inl ⟨⟨utf8 "up/.unionfs", 4096⟩, by decide +kernel⟩)
  have hfront : [utf8 "d", utf8 "e"] <+: [utf8 "d", utf8 "e", utf8 "f"] := ⟨[utf8 "f"], rfl⟩
  rw [hrun]
  refine ⟨listed, (hhidden _ _).2 ⟨_, _, hpath, List.cons_ne_nil _ _, hfront, ?_⟩, hlist, ?_⟩
  · exact Option.isSome_iff_exists.2 ⟨_, he⟩
  · exact (hmem _).2 ⟨rfl, [utf8 "a"], ha, by decide +kernel⟩

end Whiteout.UnionView
