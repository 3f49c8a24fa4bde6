import Whiteout.Marker.Listing
import Whiteout.Proofs.Mirror.Mirrors

/-!
# What is seen of the map

A path is hidden in a branch exactly when the map hides one of its fronts there, and the listing of
a branch is its part of the map, each marker once: mirrored directories have names without the tag
and are passed over, and a marker gives back the name it was made for.
-/

namespace Whiteout

open Text (utf8)
open Whiteout.Path (components IsStep IsComponent)

theorem Location.lt_of_append_lt {l a b : Location} (h : l ++ a < l ++ b) : a < b := by
  induction l with
  | nil => exact h
  | cons name l ih =>
    rw [List.cons_append, List.cons_append, List.cons_lt_cons_iff] at h
    rcases h with hlt | ⟨-, hlt⟩
    · exact absurd hlt (List.lt_irrefl name)
    · exact ih hlt

namespace Tree

theorem below_ascending (t : Tree) (l : Location) : (t.below l).Pairwise fun x y => x.1 < y.1 := by
  refine t.ascending.filterMap _ fun x y hlt x' hx y' hy => ?_
  simp only [Option.ite_none_right_eq_some, Option.some.injEq, Bool.and_eq_true, under,
    List.isPrefixOf_iff_prefix] at hx hy
  obtain ⟨⟨⟨below, hbelow⟩, -⟩, rfl⟩ := hx
  obtain ⟨⟨⟨below', hbelow'⟩, -⟩, rfl⟩ := hy
  rw [← hbelow, ← hbelow'] at hlt ⊢
  simpa only [List.drop_left] using Location.lt_of_append_lt hlt

theorem below_distinct (t : Tree) (l : Location) : (t.below l).Pairwise fun x y => x.1 ≠ y.1 := by
  refine (t.below_ascending l).imp fun {x y} hlt hsame => ?_
  rw [hsame] at hlt
  exact List.lt_irrefl _ hlt

end Tree

namespace Marker

variable {tag root : Bytes} {rank : Nat} {entries : List (Location × Entry)}

theorem walk_eq
    (h : ∀ x ∈ entries, x.2.isDir = true → (root ++ slashed x.1).length ≤ Path.maxLength) :
    walk tag rank root entries = .ok (entries.filterMap fun x => ofPlaced? tag rank x.1 x.2) := by
  induction entries with
  | nil => rfl
  | cons x rest ih =>
    have hrest : ∀ y ∈ rest, y.2.isDir = true → (root ++ slashed y.1).length ≤ Path.maxLength :=
      fun y hy => h y (List.mem_cons_of_mem _ hy)
    have hfit : ¬(x.2.isDir = true ∧ Path.maxLength < (root ++ slashed x.1).length) :=
      fun ⟨hdir, hlong⟩ => absurd (h x List.mem_cons_self hdir) (Nat.not_le_of_lt hlong)
    rw [walk, ih hrest]
    simp only [Bool.and_eq_true, decide_eq_true_eq, hfit, if_false, Except.map, List.filterMap_cons]
    cases ofPlaced? tag rank x.1 x.2 <;> rfl

theorem spelled_utf8 (s : String) : spelled (utf8 s) = utf8 s := by
  simp [spelled, Text.decode?_utf8]

theorem ofPlaced?_of_untagged {place : Location} {e : Entry} {name : Name}
    (hlast : place.getLast? = some name) (h : Tag.Untagged tag name) :
    ofPlaced? tag rank place e = none := by
  simp only [ofPlaced?, hlast, h.strip?_eq_none, Option.map_none, ite_self]

theorem ofPlaced?_of_tagged {front : List Name} {last : Name} {e : Entry}
    (htexts : ∀ c ∈ front, ∃ s, c = utf8 s) (hname : ∃ s, last ++ tag = utf8 s)
    (h : Tag.Untagged tag last) :
    ofPlaced? tag rank (front ++ [last ++ tag]) e =
      some ⟨rank, slashed (front ++ [last]), e.kind⟩ := by
  obtain ⟨s, hs⟩ := hname
  have hdecode : (Text.decode? (last ++ tag)).isNone = false := by simp [hs, Text.decode?_utf8]
  have hspelled : front.map spelled = front := by
    refine (List.map_congr_left fun c hc => ?_).trans (List.map_id front)
    obtain ⟨s, rfl⟩ := htexts c hc
    exact spelled_utf8 s
  simp [ofPlaced?, hdecode, h.strip?_tagged, hspelled]

end Marker

namespace UnionView

open Whiteout.Marker (slashed ofPlaced?)

theorem Suited.ofPlaced?_marker {view : UnionView} {front : List Name} {last : Name}
    (h : view.Suited (front ++ [last])) (hv : view.Accepted) (rank : Nat) (e : Entry) :
    ofPlaced? view.hideTag rank (front ++ [last ++ view.hideTag]) e =
      some ⟨rank, slashed (front ++ [last]), e.kind⟩ := by
  obtain ⟨tag, htag⟩ := hv.tagText
  obtain ⟨text, htext⟩ := h.texts last (by simp)
  have hname : last ++ view.hideTag = utf8 (text ++ tag) := by rw [htext, htag, Text.utf8_append]
  exact Marker.ofPlaced?_of_tagged (fun c hc => h.texts c (List.mem_append_left _ hc)) ⟨_, hname⟩
    (h.untagged last (by simp))

namespace Mirrors

variable {view : UnionView} {start fs : FileSystem} {places : Nat → Location} {markers : MarkerMap}
  {rank : Nat} (h : view.Mirrors start places fs markers) (hv : view.Accepted)
  (hready : view.Ready start places)
include h hv

section

include hready

theorem hasMarker_iff {parts : List Name} (hne : parts ≠ []) (hsteps : ∀ c ∈ parts, IsStep c) :
    view.HasMarker fs parts rank ↔ (markers rank parts).isSome = true := by
  constructor
  · intro hmarker
    rcases hmarker with ⟨b, hb, -, hprobe⟩
    have hrank : rank < view.branches.length := (List.getElem?_eq_some_iff.1 hb).1
    have hspells := (hready.spells_marker hv hb hne hsteps).grows h.kept
    obtain ⟨⟨place, e⟩, he⟩ := FileSystem.probe_isSome_iff.1 hprobe
    obtain ⟨-, -, hget⟩ := (hspells.entryAt_eq_ok_iff h.linkFree).1 he
    rw [← h.kind_at_marker hrank hne, hget]
    rfl
  · intro hsome
    obtain ⟨kind, hkind⟩ := Option.isSome_iff_exists.1 hsome
    obtain ⟨hrank, hsuited, e, hget, -⟩ := h.marked rank parts kind hkind
    have hb := List.getElem?_eq_getElem hrank
    have hspells := (hready.spells_marker hv hb hne hsteps).grows h.kept
    refine ⟨_, hb, hsuited.fits _ (List.getElem_mem hrank), ?_⟩
    rw [hspells.probe_eq h.linkFree (hsuited.admissible _ (List.getElem_mem hrank)), hget]
    rfl

theorem isHidden_eq_true_iff (hcow : view.cowEnabled = true) {path : Bytes} {parts : List Name}
    (hpath : unionComponents path = .ok parts) : view.isHidden fs path rank = true ↔
      ∃ front, front ≠ [] ∧ front <+: parts ∧ (markers rank front).isSome = true := by
  rw [isHidden_iff hv]
  constructor
  · intro hhidden
    rcases hhidden with ⟨-, parts', hparts', front, hne, hfront, hmarker⟩
    cases hpath.symm.trans hparts'
    exact ⟨front, hne, hfront,
      (h.hasMarker_iff hv hready hne (isStep_of_mem_front hpath hfront)).1 hmarker⟩
  · intro hmarked
    rcases hmarked with ⟨front, hne, hfront, hsome⟩
    exact ⟨hcow, parts, hpath, front, hne, hfront,
      (h.hasMarker_iff hv hready hne (isStep_of_mem_front hpath hfront)).2 hsome⟩

end

omit hv in
theorem below_cases (hrank : rank < view.branches.length) {place : Location} {e : Entry}
    (hmem : (place, e) ∈ fs.tree.below (places rank ++ [view.metaDir])) :
    (e.isDir = true ∧ place ≠ [] ∧ ∃ parts, view.Suited parts ∧ place <+: parts.dropLast) ∨
      ∃ front last, markers rank (front ++ [last]) = some e.kind ∧
        place = front ++ [last ++ view.hideTag] := by
  obtain ⟨hne, hget⟩ := Tree.mem_below_iff.1 hmem
  rcases h.found rank _ e hrank (List.prefix_append _ _) hget with ⟨hdir, parts, hsuited, hpre⟩ |
    ⟨parts, hmarkers, hplace⟩
  · rw [List.append_assoc, List.prefix_append_right_inj, List.singleton_append,
      List.cons_prefix_cons] at hpre
    exact .inl ⟨hdir, hne, parts, hsuited, hpre.2⟩
  · obtain ⟨front, last, rfl⟩ := Location.exists_concat (h.marked rank parts _ hmarkers).2.1.ne_nil
    rw [markerPlace_concat, List.append_assoc, List.singleton_append] at hplace
    exact .inr ⟨front, last, hmarkers, (List.cons_eq_cons.1 (List.append_cancel_left hplace)).2⟩

theorem exists_ofPlaced? {parts : List Name} {kind : Kind}
    (hmarkers : markers rank parts = some kind) :
    ∃ place e, (place, e) ∈ fs.tree.below (places rank ++ [view.metaDir]) ∧
      ofPlaced? view.hideTag rank place e = some ⟨rank, slashed parts, kind⟩ := by
  obtain ⟨-, hsuited, e, hget, rfl⟩ := h.marked rank parts kind hmarkers
  obtain ⟨front, last, rfl⟩ := Location.exists_concat hsuited.ne_nil
  refine ⟨front ++ [last ++ view.hideTag], e, Tree.mem_below_iff.2 ⟨by simp, ?_⟩,
    hsuited.ofPlaced?_marker hv rank e⟩
  rw [markerPlace_concat] at hget
  rwa [List.append_assoc, List.singleton_append]

theorem of_ofPlaced? (hrank : rank < view.branches.length) {place : Location} {e : Entry}
    {m : Marker} (hmem : (place, e) ∈ fs.tree.below (places rank ++ [view.metaDir]))
    (hm : ofPlaced? view.hideTag rank place e = some m) :
    ∃ front last, markers rank (front ++ [last]) = some m.kind ∧ m.rank = rank ∧
      m.unionPath = slashed (front ++ [last]) ∧ place = front ++ [last ++ view.hideTag] := by
  rcases h.below_cases hrank hmem with ⟨-, hne, parts, hsuited, hpre⟩ |
    ⟨front, last, hmarkers, hplace⟩
  · obtain ⟨front, last, rfl⟩ := Location.exists_concat hne
    have hlast : last ∈ parts := List.dropLast_subset _ (hpre.subset (by simp))
    rw [Marker.ofPlaced?_of_untagged (by simp) (hsuited.untagged last hlast)] at hm
    cases hm
  · have hsuited := (h.marked rank _ _ hmarkers).2.1
    subst hplace
    rw [hsuited.ofPlaced?_marker hv rank e] at hm
    cases hm
    exact ⟨front, last, hmarkers, rfl, rfl, rfl⟩

theorem length_le_of_mem_below {b : Branch} (hb : view.branches[rank]? = some b) {place : Location}
    {e : Entry} (hmem : (place, e) ∈ fs.tree.below (places rank ++ [view.metaDir])) :
    (view.metaText b ++ slashed place).length ≤ Path.maxLength := by
  have hrank : rank < view.branches.length := (List.getElem?_eq_some_iff.1 hb).1
  have hb' := List.mem_of_getElem? hb
  rcases h.below_cases hrank hmem with ⟨-, -, parts, hsuited, hpre⟩ | ⟨front, last, hmarkers, rfl⟩
  · exact (Path.isAdmissible_iff.1
      (hsuited.admissible_mirrored hb' (metaText_ne_nil hv hb) hpre)).2.2
  · rw [← markerText_concat]
    exact (Path.isAdmissible_iff.1 ((h.marked rank _ _ hmarkers).2.1.admissible b hb')).2.2

include hready in
theorem metaDir_cases {b : Branch} (hb : view.branches[rank]? = some b) :
    (∀ parts, markers rank parts = none) ∧
      (∀ place e, fs.entryAt (view.metaText b) ≠ .ok (place, e)) ∨
      ∃ mode, fs.entryAt (view.metaText b) = .ok (places rank ++ [view.metaDir], .dir mode) := by
  have hrank : rank < view.branches.length := (List.getElem?_eq_some_iff.1 hb).1
  have hspells : fs.Spells (view.metaText b) (places rank ++ [view.metaDir]) := by
    have hnone : ∀ n ∈ ([] : List Name), IsStep n := nofun
    simpa [slashed] using (hready.spells_mirrored hv hb hnone).grows h.kept
  cases hget : fs.tree.get? (places rank ++ [view.metaDir]) with
  | none =>
    refine .inl ⟨fun parts => ?_, fun place e he => ?_⟩
    · apply Option.eq_none_iff_forall_ne_some.2
      intro kind hkind
      obtain ⟨-, hsuited, e, hmarker, -⟩ := h.marked rank parts kind hkind
      have hne : places rank ++ [view.metaDir] ≠ view.markerPlace (places rank) parts := by
        simp [markerPlace]
      have hdir := Tree.isDirAt_of_above hmarker (base_prefix_markerPlace view _ parts) hne
      rw [Tree.isDirAt, hget] at hdir
      cases hdir
    · obtain ⟨-, rfl, hsome⟩ := (hspells.entryAt_eq_ok_iff h.linkFree).1 he
      rw [hget] at hsome
      cases hsome
  | some e =>
    rcases h.found rank _ e hrank (List.prefix_refl _) hget with ⟨hdir, parts, hsuited, -⟩ |
      ⟨parts, -, hplace⟩
    · cases e with
      | dir mode =>
        have hadm := hsuited.admissible_mirrored (List.mem_of_getElem? hb) (metaText_ne_nil hv hb)
          List.nil_prefix
        rw [slashed, List.flatMap_nil, List.append_nil] at hadm
        exact .inr ⟨mode, (hspells.entryAt_eq_ok_iff h.linkFree).2 ⟨hadm, rfl, hget⟩⟩
      | file => cases hdir
      | link => cases hdir
    · simp [markerPlace] at hplace

theorem nodup_listed (hrank : rank < view.branches.length) :
    ((fs.tree.below (places rank ++ [view.metaDir])).filterMap fun x =>
      ofPlaced? view.hideTag rank x.1 x.2).Nodup := by
  rw [List.Nodup, List.pairwise_filterMap]
  refine (fs.tree.below_distinct _).imp_of_mem fun {x y} hx hy hne m hm m' hm' hsame => ?_
  subst hsame
  obtain ⟨front, last, hmarkers, -, hpath, hx'⟩ := h.of_ofPlaced? hv hrank hx hm
  obtain ⟨front', last', hmarkers', -, hpath', hy'⟩ := h.of_ofPlaced? hv hrank hy hm'
  have hcomps {parts : List Name} {kind : Kind} (hp : markers rank parts = some kind) :
    components (slashed parts) = parts :=
    Path.components_slashed fun c hc => ((h.marked rank parts kind hp).2.1.steps c hc).isComponent
  have hparts : front ++ [last] = front' ++ [last'] := by
    rw [← hcomps hmarkers, ← hcomps hmarkers', ← hpath, ← hpath']
  obtain ⟨rfl, hlast⟩ := List.append_inj' hparts rfl
  rw [hx', hy', List.singleton_inj.1 hlast] at hne
  exact hne rfl

include hready in
theorem markers_eq {root : BoundedPath} (hroot : view.metaRoot rank = .ok root) :
    ∃ listed, view.markers fs rank = .ok listed ∧ listed.Nodup ∧
      ∀ m, m ∈ listed ↔ m.rank = rank ∧
        ∃ parts, markers rank parts = some m.kind ∧ m.unionPath = slashed parts := by
  obtain ⟨b, hb, -, rfl⟩ := (metaRoot_eq_ok_iff hv).1 hroot
  have hrank : rank < view.branches.length := (List.getElem?_eq_some_iff.1 hb).1
  rw [UnionView.markers, hroot]
  rcases h.metaDir_cases hv hready hb with ⟨hnone, hlost⟩ | ⟨mode, hfound⟩
  · refine ⟨[], ?_, List.nodup_nil, fun m => by simp [hnone]⟩
    dsimp only
    split
    · next place mode he => exact absurd he (hlost _ _)
    · rfl
  · have hread : ∀ x ∈ fs.tree.below (places rank ++ [view.metaDir]), x.2.isDir = true →
        (view.metaText b ++ slashed x.1).length ≤ Path.maxLength := fun x hx _ =>
          h.length_le_of_mem_below hv hb hx
    dsimp only
    rw [hfound]
    refine ⟨_, Marker.walk_eq hread, h.nodup_listed hv hrank, fun m => ?_⟩
    rw [List.mem_filterMap]
    constructor
    · intro hlisted
      rcases hlisted with ⟨⟨place, e⟩, hmem, hm⟩
      obtain ⟨front, last, hmarkers, hr, hpath, -⟩ := h.of_ofPlaced? hv hrank hmem hm
      exact ⟨hr, _, hmarkers, hpath⟩
    · intro hmarked
      rcases hmarked with ⟨rfl, parts, hmarkers, hpath⟩
      obtain ⟨place, e, hmem, hm⟩ := h.exists_ofPlaced? hv hmarkers
      exact ⟨(place, e), hmem, by rw [hm, ← hpath]⟩

end Mirrors

end UnionView

end Whiteout
