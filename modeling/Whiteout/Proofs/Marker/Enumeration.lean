import Whiteout.Proofs.FileSystem.Onward
import Whiteout.Proofs.Marker.Listed

/-!
# The markers of a branch, all of them

A metadata directory is legible if no link is in it, all its names are texts and no path in it is too
long for the host. Its listing then has every marker once and nothing else: one for each path below
the directory whose last name is a name followed by the tag, under the names before the tag. What is
listed and has a marker path is found there, and is hidden.
-/

namespace Whiteout

open Text (utf8)
open Whiteout.Path (dot dotDot IsStep IsComponent IsProper)
open Whiteout.Marker (slashed spelled ofPlaced?)

/-- If the path finds a directory, everything in it can be reached and is named by texts. -/
def FileSystem.Legible (fs : FileSystem) (root : Bytes) : Prop :=
  ∀ place mode, fs.entryAt root = .ok (place, .dir mode) → ∀ x ∈ fs.tree.below place,
    x.2.isLink = false ∧ (∀ n ∈ x.1, ∃ text, n = utf8 text) ∧
      (root ++ slashed x.1).length ≤ Path.maxLength

theorem Tree.linkFreeBelow_of_below {t : Tree} {place : Location}
    (h : ∀ x ∈ t.below place, x.2.isLink = false) : t.LinkFreeBelow place := by
  intro below target hne hlink
  cases h _ (Tree.mem_below_iff.2 ⟨hne, hlink⟩)

theorem Path.isAdmissible_slashed {base : Bytes} {names : List Bytes}
    (hbase : Path.isAdmissible base = true) (hnul : ∀ n ∈ names, 0 ∉ n)
    (hlen : (base ++ slashed names).length ≤ Path.maxLength) :
    Path.isAdmissible (base ++ slashed names) = true := by
  obtain ⟨hne, hbase, -⟩ := Path.isAdmissible_iff.1 hbase
  refine Path.isAdmissible_iff.2 ⟨by simp [hne], fun hmem => ?_, hlen⟩
  rcases List.mem_append.1 hmem with hmem | hmem
  · exact hbase hmem
  · obtain ⟨n, hn, hmem⟩ := List.mem_flatMap.1 hmem
    rcases List.mem_cons.1 hmem with hzero | hmem
    · exact absurd hzero (by decide)
    · exact hnul n hn hmem

theorem Tree.isStep_of_mem_below {t : Tree} {place below : Location} {e : Entry}
    (h : (below, e) ∈ t.below place) {n : Name} (hn : n ∈ below) : IsStep n ∧ 0 ∉ n := by
  have hname := Tree.isName_of_get? (Tree.mem_below_iff.1 h).2 n (List.mem_append_right _ hn)
  obtain ⟨hne, hdot, hdots, hsep, hnul, -⟩ := Path.isName_iff.1 hname
  exact ⟨⟨⟨hne, hdot, hdots⟩, hsep⟩, hnul⟩

namespace Marker

variable {tag : Bytes} {rank : Nat} {place : Location} {e : Entry} {m : Marker}

theorem ofPlaced?_eq_some_iff (htexts : ∀ n ∈ place, ∃ text, n = utf8 text) :
    ofPlaced? tag rank place e = some m ↔ ∃ front last, place = front ++ [last ++ tag] ∧
      Tag.Untagged tag last ∧ m = ⟨rank, slashed (front ++ [last]), e.kind⟩ := by
  constructor
  · intro hlisted
    rw [ofPlaced?] at hlisted
    split at hlisted
    · cases hlisted
    · next name hlast =>
      split at hlisted
      · cases hlisted
      · obtain ⟨hidden, hstrip, rfl⟩ := Option.map_eq_some_iff.1 hlisted
        obtain ⟨rfl, huntagged⟩ := Tag.strip?_eq_some_iff.1 hstrip
        obtain ⟨front, rfl⟩ := List.getLast?_eq_some_iff.1 hlast
        have hspelled : front.map spelled = front := by
          refine (List.map_congr_left fun n hn => ?_).trans (List.map_id front)
          obtain ⟨text, rfl⟩ := htexts n (List.mem_append_left _ hn)
          exact spelled_utf8 text
        exact ⟨front, hidden, rfl, huntagged, by rw [List.dropLast_concat, hspelled]⟩
  · intro hmarker
    obtain ⟨front, last, rfl, huntagged, rfl⟩ := hmarker
    exact ofPlaced?_of_tagged (fun n hn => htexts n (List.mem_append_left _ hn))
      (htexts _ (by simp)) huntagged

theorem isComponent_of_mem_below {t : Tree} {front : List Name} {last : Name}
    (hx : (front ++ [last ++ tag], e) ∈ t.below place) (huntagged : Tag.Untagged tag last) {c : Name}
    (hc : c ∈ front ++ [last]) : IsComponent c := by
  rcases List.mem_append.1 hc with hc | hc
  · exact (Tree.isStep_of_mem_below hx (List.mem_append_left _ hc)).1.isComponent
  · rw [List.mem_singleton.1 hc]
    have htagged : IsStep (last ++ tag) := (Tree.isStep_of_mem_below hx (by simp)).1
    exact ⟨huntagged.ne_nil, fun hsep => htagged.2 (List.mem_append_left _ hsep)⟩

end Marker

namespace UnionView

variable {view : UnionView} {fs : FileSystem} {rank : Nat} {root : BoundedPath} {m : Marker}
  {place : Location} {mode : Nat}

def Stands (view : UnionView) (fs : FileSystem) (root : Bytes) (m : Marker) : Prop :=
  ∃ front last, (∀ c ∈ front ++ [last], IsComponent c ∧ ∃ text, c = utf8 text) ∧
    (∀ c ∈ front ++ [last ++ view.hideTag], c ≠ dot ∧ c ≠ dotDot) ∧
    m.unionPath = slashed (front ++ [last]) ∧
    fs.probe (root ++ slashed (front ++ [last ++ view.hideTag])) = some m.kind ∧
    Tag.offset? (last ++ view.hideTag) view.hideTag = some last.length

theorem markerNames_of_listed {below : Location} {e : Entry} (hx : (below, e) ∈ fs.tree.below place)
    (htexts : ∀ n ∈ below, ∃ text, n = utf8 text)
    (hm : ofPlaced? view.hideTag rank below e = some m) : ∃ parts, parts ≠ [] ∧
      (∀ c ∈ parts, IsComponent c) ∧ m.unionPath = slashed parts ∧
        view.markerNames parts = below := by
  obtain ⟨front, last, rfl, huntagged, rfl⟩ := (Marker.ofPlaced?_eq_some_iff htexts).1 hm
  exact ⟨front ++ [last], by simp, fun c => Marker.isComponent_of_mem_below hx huntagged, rfl,
    markerNames_concat view front last⟩

theorem markers_of_not_dir (hroot : view.metaRoot rank = .ok root)
    (hdir : fs.probe root.text ≠ some .dir) : view.markers fs rank = .ok [] := by
  rw [markers, hroot]
  dsimp only
  split
  · next place mode hentry => exact absurd (FileSystem.probe_eq_dir_iff.2 ⟨_, _, hentry⟩) hdir
  · rfl

theorem markers_of_dir (hroot : view.metaRoot rank = .ok root)
    (hdir : fs.entryAt root.text = .ok (place, .dir mode)) :
    view.markers fs rank = Marker.walk view.hideTag rank root.text (fs.tree.below place) := by
  simp only [markers, hroot, hdir]

section

variable (hlegible : fs.Legible root.text)
  (hdir : fs.entryAt root.text = .ok (place, .dir mode))
include hlegible hdir

theorem markers_of_legible (hroot : view.metaRoot rank = .ok root) :
    view.markers fs rank = .ok ((fs.tree.below place).filterMap fun x =>
      ofPlaced? view.hideTag rank x.1 x.2) := by
  rw [markers_of_dir hroot hdir, Marker.walk_eq fun x hx _ => (hlegible _ _ hdir x hx).2.2]

theorem listed_distinct :
    (((fs.tree.below place).filterMap fun x => ofPlaced? view.hideTag rank x.1 x.2).map
      Marker.unionPath).Nodup := by
  have hbelow := fun x hx => (hlegible _ _ hdir x hx).2
  have hpaths : (fs.tree.below place).Pairwise fun x y => ∀ m m',
      ofPlaced? view.hideTag rank x.1 x.2 = some m →
        ofPlaced? view.hideTag rank y.1 y.2 = some m' → m.unionPath ≠ m'.unionPath := by
    refine (fs.tree.below_distinct place).imp_of_mem ?_
    intro x y hx hy hne m m' hm hm' hsame
    obtain ⟨parts, -, hcomps, hpath, hplace⟩ := markerNames_of_listed hx (hbelow x hx).1 hm
    obtain ⟨parts', -, hcomps', hpath', hplace'⟩ := markerNames_of_listed hy (hbelow y hy).1 hm'
    rw [hpath, hpath'] at hsame
    rw [← hplace, ← hplace', Path.slashed_injective hcomps hcomps' hsame] at hne
    exact hne rfl
  rw [List.Nodup, List.pairwise_map]
  exact hpaths.filterMap _ fun x y hxy m hm m' hm' => hxy m m' hm hm'

variable (hv : view.Accepted) (hroot : view.metaRoot rank = .ok root)
include hv hroot

theorem stands_of_mem_below {below : Location} {e : Entry} (hx : (below, e) ∈ fs.tree.below place)
    (hm : ofPlaced? view.hideTag rank below e = some m) :
    m.rank = rank ∧ view.Stands fs root.text m := by
  have hfree := Tree.linkFreeBelow_of_below fun x hx => (hlegible _ _ hdir x hx).1
  obtain ⟨-, htexts, hlen⟩ := hlegible _ _ hdir _ hx
  obtain ⟨front, last, rfl, huntagged, rfl⟩ := (Marker.ofPlaced?_eq_some_iff htexts).1 hm
  have hsteps := fun n hn => (Tree.isStep_of_mem_below (n := n) hx hn).1
  have hnul := fun n hn => (Tree.isStep_of_mem_below (n := n) hx hn).2
  obtain ⟨spot, hresolve, -⟩ := FileSystem.entryAt_eq_ok_iff.1 hdir
  have hadm := Path.isAdmissible_slashed (FileSystem.resolve_eq_ok_iff.1 hresolve).1 hnul hlen
  obtain ⟨b, -, -, rfl⟩ := (metaRoot_eq_ok_iff hv).1 hroot
  have hprobe := (FileSystem.probe_slashed_iff hdir (endsWithSeparator_metaText hv b) hfree
    (by simp) (fun c hc => (hsteps c hc).isComponent) fun c hc => (hsteps c hc).1).2
      ⟨hadm, e, (Tree.mem_below_iff.1 hx).2, rfl⟩
  refine ⟨rfl, front, last, fun c hc => ?_, fun c hc => (hsteps c hc).1.2, rfl, hprobe, huntagged⟩
  refine ⟨Marker.isComponent_of_mem_below hx huntagged hc, ?_⟩
  rcases List.mem_append.1 hc with hc | hc
  · exact htexts c (List.mem_append_left _ hc)
  · -- the hidden name is a text, because the whole name and the tag are
    rw [List.mem_singleton.1 hc]
    obtain ⟨tag, htag⟩ := hv.tagText
    obtain ⟨text, htext⟩ := htexts (last ++ view.hideTag) (by simp)
    exact Text.exists_utf8_of_append (htag ▸ htext)

theorem exists_mem_below (hrank : m.rank = rank) (hstands : view.Stands fs root.text m) :
    ∃ x ∈ fs.tree.below place, ofPlaced? view.hideTag rank x.1 x.2 = some m := by
  have hfree := Tree.linkFreeBelow_of_below fun x hx => (hlegible _ _ hdir x hx).1
  obtain ⟨front, last, hcomps, hdots, hpath, hfound, huntagged⟩ := hstands
  have hcomps' : ∀ c ∈ front ++ [last ++ view.hideTag], IsComponent c := by
    intro c hc
    rcases List.mem_append.1 hc with hmem | hmem
    · exact (hcomps c (List.mem_append_left _ hmem)).1
    · rw [List.mem_singleton.1 hmem]
      have hlast := (hcomps last (by simp)).1
      refine ⟨by simp [hlast.1], fun hsep => ?_⟩
      exact (List.mem_append.1 hsep).elim hlast.2 hv.hideTag.2
  obtain ⟨b, -, -, rfl⟩ := (metaRoot_eq_ok_iff hv).1 hroot
  obtain ⟨-, e, hget, hkind⟩ := (FileSystem.probe_slashed_iff hdir (endsWithSeparator_metaText hv b)
    hfree (by simp) hcomps' fun c hc => ⟨(hcomps' c hc).1, hdots c hc⟩).1 hfound
  have hx : (front ++ [last ++ view.hideTag], e) ∈ fs.tree.below place :=
    Tree.mem_below_iff.2 ⟨by simp, hget⟩
  have htexts := (hlegible _ _ hdir _ hx).2.1
  refine ⟨_, hx, (Marker.ofPlaced?_eq_some_iff htexts).2 ⟨front, last, rfl, huntagged, ?_⟩⟩
  rw [← hrank, ← hpath, hkind]

end

theorem Stands.isHidden (h : view.Stands fs root.text m) (hv : view.Accepted)
    (hroot : view.metaRoot rank = .ok root) (hcow : view.cowEnabled = true) {marker : BoundedPath}
    (hmarker : view.markerPath m.unionPath rank = .ok marker) :
    fs.probe marker.text = some m.kind ∧ view.isHidden fs m.unionPath rank = true := by
  obtain ⟨front, last, hcomps, -, hpath, hfound, -⟩ := h
  obtain ⟨parts, b, hparts, hb, hfit, rfl⟩ := (markerPath_eq_ok_iff hv).1 hmarker
  obtain ⟨b', hb', -, rfl⟩ := (metaRoot_eq_ok_iff hv).1 hroot
  cases hb.symm.trans hb'
  have hsame : parts = front ++ [last] := by
    rw [(unionComponents_eq_ok_iff.1 hparts).1, hpath,
      Path.components_slashed fun c hc => (hcomps c hc).1]
  subst hsame
  rw [← markerText_concat] at hfound
  refine ⟨hfound, isHidden_of_hasMarker hv hcow hparts (by simp) (List.prefix_refl _) ?_⟩
  exact ⟨b, hb, hfit, by rw [hfound]; rfl⟩

theorem markers_exactly {home : Option String} {config : Config}
    (haccepted : ofConfig home config = .ok view) (hroot : view.metaRoot rank = .ok root)
    (hlegible : fs.Legible root.text) :
    ∃ listed, view.markers fs rank = .ok listed ∧ (listed.map Marker.unionPath).Nodup ∧
      (fs.probe root.text = some .dir →
        ∀ m, m ∈ listed ↔ m.rank = rank ∧ view.Stands fs root.text m) ∧
      (fs.probe root.text ≠ some .dir → listed = []) ∧
      (view.cowEnabled = true → ∀ m ∈ listed, ∀ marker,
        view.markerPath m.unionPath rank = .ok marker →
          fs.probe marker.text = some m.kind ∧ view.isHidden fs m.unionPath rank = true) := by
  have hv := accepted_of_ofConfig haccepted
  by_cases hprobe : fs.probe root.text = some .dir
  · obtain ⟨place, mode, hdir⟩ := FileSystem.probe_eq_dir_iff.1 hprobe
    have hmem (m : Marker) : m ∈ (fs.tree.below place).filterMap (fun x =>
        ofPlaced? view.hideTag rank x.1 x.2) ↔ m.rank = rank ∧ view.Stands fs root.text m := by
      rw [List.mem_filterMap]
      constructor
      · intro hlisted
        obtain ⟨⟨below, e⟩, hx, hm⟩ := hlisted
        exact stands_of_mem_below hlegible hdir hv hroot hx hm
      · intro hstands
        exact exists_mem_below hlegible hdir hv hroot hstands.1 hstands.2
    refine ⟨_, markers_of_legible hlegible hdir hroot, listed_distinct hlegible hdir,
      fun _ => hmem, fun hnot => absurd hprobe hnot, fun hcow m hlisted marker hmarker => ?_⟩
    exact ((hmem m).1 hlisted).2.isHidden hv hroot hcow hmarker
  · exact ⟨[], markers_of_not_dir hroot hprobe, List.nodup_nil, fun hdir => absurd hdir hprobe,
      fun _ => rfl, fun _ => nofun⟩

/-- A marker that is a directory with content, and a marker in it; a link elsewhere. -/
theorem markers_exactly_sample :
    let metaDir := [utf8 "up", utf8 ".unionfs"]
    let tree := (((Sample.tree.put [utf8 "low", utf8 "x"] (.link (utf8 "up"))).put metaDir
      (.dir 0o755)).put (metaDir ++ [utf8 "d_HIDDEN~"]) (.dir 0o700)).put
        (metaDir ++ [utf8 "d_HIDDEN~", utf8 "a_HIDDEN~"]) (.file 0o600 [])
    ∃ listed, Sample.view.markers { tree, cwd := [] } 0 = .ok listed ∧
      (listed.map Marker.unionPath).Nodup ∧
      ∀ m, m ∈ listed ↔ m.rank = 0 ∧ Sample.view.Stands { tree, cwd := [] } (utf8 "up/.unionfs") m := by
  intro metaDir tree
  have hroot : Sample.view.metaRoot 0 = .ok ⟨utf8 "up/.unionfs", 4096⟩ := by decide +kernel
  have hentry : ({ tree, cwd := [] } : FileSystem).entryAt (utf8 "up/.unionfs") =
      .ok (metaDir, .dir 0o755) := by decide +kernel
  have hbelow : ∀ x ∈ tree.below metaDir, x.2.isLink = false ∧
      (∀ n ∈ x.1, n = utf8 "d_HIDDEN~" ∨ n = utf8 "a_HIDDEN~") ∧
      (utf8 "up/.unionfs" ++ slashed x.1).length ≤ Path.maxLength := by decide +kernel
  have hlegible : ({ tree, cwd := [] } : FileSystem).Legible (utf8 "up/.unionfs") := by
    intro place mode hdir x hx
    cases hentry.symm.trans hdir
    obtain ⟨hlink, hnames, hlen⟩ := hbelow x hx
    exact ⟨hlink, fun n hn => (hnames n hn).elim (fun h => ⟨_, h⟩) fun h => ⟨_, h⟩, hlen⟩
  obtain ⟨listed, hlist, hdistinct, hmem, -⟩ :=
    markers_exactly Sample.ofConfig_config hroot hlegible
  exact ⟨listed, hlist, hdistinct, hmem (FileSystem.probe_eq_dir_iff.2 ⟨_, _, hentry⟩)⟩

end UnionView

end Whiteout
