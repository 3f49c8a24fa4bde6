import Whiteout.Proofs.Marker.Footprint
import Whiteout.Proofs.Tag.Occurrence

/-!
# Branches side by side

In a file system that is `Ready` for a union the branch roots are different directories without
metadata trees, and there are no links. Then the metadata trees lie apart from each other and from
all entries. A `Suited` list of components has a marker path in every branch that the host admits,
and none of its names looks like a marker's.
-/

namespace Whiteout

open Text (utf8)

namespace UnionView

open Whiteout.FileSystem (Grows Descends startOf Spells)
open Whiteout.Path (dot dotDot components endsWithSeparator IsStep IsProper IsComponent)
open Whiteout.Marker (slashed)

/-- `places` gives the directory that each branch root leads to. -/
structure Ready (view : UnionView) (fs : FileSystem) (places : Nat → Location) : Prop where
  linkFree : fs.tree.LinkFree
  rooted : ∀ i b, view.branches[i]? = some b →
    ∃ mode, fs.targetAt b.root = .ok (places i, .dir mode)
  distinct : ∀ i j, i < view.branches.length → j < view.branches.length →
    places i = places j → i = j
  bare : ∀ i, i < view.branches.length → fs.tree.get? (places i ++ [view.metaDir]) = none
  metaName : view.metaDir ≠ dot ∧ view.metaDir ≠ dotDot

structure Suited (view : UnionView) (parts : List Name) : Prop where
  ne_nil : parts ≠ []
  steps : ∀ c ∈ parts, IsStep c
  texts : ∀ c ∈ parts, ∃ text, c = utf8 text
  untagged : ∀ c ∈ parts, Tag.Untagged view.hideTag c
  fits : ∀ b ∈ view.branches, (view.markerText b parts).length + 1 ≤ view.maxPathLen
  admissible : ∀ b ∈ view.branches, Path.isAdmissible (view.markerText b parts) = true
  short : ∀ b ∈ view.branches, ∀ c ∈ components (view.markerText b parts),
    c.length ≤ Path.maxNameLength

def HasMarkerPath (view : UnionView) (path : Bytes) (rank : Nat) : Prop :=
  ∃ marker, view.markerPath path rank = .ok marker ∧ 0 ∉ marker.text ∧
    marker.text.length ≤ Path.maxLength ∧
      ∀ c ∈ components marker.text, c.length ≤ Path.maxNameLength

/-- If the path can be hidden at all, it can be in every branch, and no component has a tag of its
own. -/
def Orderly (view : UnionView) (path : Bytes) : Prop :=
  ∀ parts, unionComponents path = .ok parts →
    (∀ c ∈ parts, Tag.Untagged view.hideTag c) ∧
      ∀ rank, rank < view.branches.length → view.HasMarkerPath path rank

instance (view : UnionView) (path : Bytes) (rank : Nat) :
    Decidable (view.HasMarkerPath path rank) :=
  match h : view.markerPath path rank with
  | .error e => isFalse fun ⟨marker, hmarker, _⟩ => by cases h.symm.trans hmarker
  | .ok marker => decidable_of_iff (0 ∉ marker.text ∧ marker.text.length ≤ Path.maxLength ∧
      ∀ c ∈ components marker.text, c.length ≤ Path.maxNameLength) (by simp [HasMarkerPath, h])

instance (view : UnionView) (path : Bytes) : Decidable (view.Orderly path) :=
  match h : unionComponents path with
  | .error e => isTrue fun parts hparts => by cases h.symm.trans hparts
  | .ok parts => decidable_of_iff ((∀ c ∈ parts, Tag.Untagged view.hideTag c) ∧
      ∀ rank, rank < view.branches.length → view.HasMarkerPath path rank) (by simp [Orderly, h])

theorem Orderly.suited {view : UnionView} (hv : view.Accepted) {text : String} {parts : List Name}
    (h : view.Orderly (utf8 text)) (hparts : unionComponents (utf8 text) = .ok parts) :
    view.Suited parts := by
  obtain ⟨huntagged, hpaths⟩ := h parts hparts
  obtain ⟨hcomps, hne, hsteps⟩ := unionComponents_eq_ok_iff.1 hparts
  have hmarker {b : Branch} (hb : b ∈ view.branches) :
      (view.markerText b parts).length + 1 ≤ view.maxPathLen ∧
        0 ∉ view.markerText b parts ∧ (view.markerText b parts).length ≤ Path.maxLength ∧
          ∀ c ∈ components (view.markerText b parts), c.length ≤ Path.maxNameLength := by
    have hb' := hv.rank_of_mem hb
    obtain ⟨marker, hpath, hrest⟩ := hpaths b.rank (List.getElem?_eq_some_iff.1 hb').1
    obtain ⟨parts', b', hparts', hb'', hfit, rfl⟩ := (markerPath_eq_ok_iff hv).1 hpath
    cases hparts.symm.trans hparts'
    cases hb'.symm.trans hb''
    exact ⟨hfit, hrest⟩
  exact {
    ne_nil := hne
    steps := hsteps
    texts := fun c hc => Text.exists_utf8_of_mem_components (hcomps ▸ hc)
    untagged := huntagged
    fits := fun b hb => (hmarker hb).1
    admissible := by
      intro b hb
      have hne : view.markerText b parts ≠ [] := by simp [markerText, hv.hideTag.1]
      exact Path.isAdmissible_iff.2 ⟨hne, (hmarker hb).2.1, (hmarker hb).2.2.1⟩
    short := fun b hb => (hmarker hb).2.2.2 }

def markerPlace (view : UnionView) (dir : Location) (parts : List Name) : Location :=
  dir ++ view.metaDir :: (parts.dropLast ++ [parts.getLastD [] ++ view.hideTag])

theorem markerPlace_eq (view : UnionView) (dir : Location) (parts : List Name) :
    view.markerPlace dir parts = dir ++ view.metaDir :: view.markerNames parts := rfl

theorem markerPlace_concat (view : UnionView) (dir : Location) (front : List Name) (last : Name) :
    view.markerPlace dir (front ++ [last]) =
      dir ++ view.metaDir :: (front ++ [last ++ view.hideTag]) := by
  rw [markerPlace_eq, markerNames_concat]

theorem markerPlace_dropLast (view : UnionView) (dir : Location) (parts : List Name) :
    (view.markerPlace dir parts).dropLast = dir ++ view.metaDir :: parts.dropLast := by
  rw [markerPlace, ← List.cons_append, ← List.append_assoc, List.dropLast_concat]

variable {view : UnionView} {start fs : FileSystem} {places : Nat → Location} {dir : Location}
  {parts other : List Name}

theorem markerPlace_injective (hne : parts ≠ []) (hne' : other ≠ [])
    (h : view.markerPlace dir parts = view.markerPlace dir other) : parts = other := by
  rw [markerPlace_eq, markerPlace_eq] at h
  exact markerNames_injective hne hne' (List.cons_eq_cons.1 (List.append_cancel_left h)).2

theorem Suited.not_marker_above (h : view.Suited other) (hne : parts ≠ []) {names : List Name}
    (hnames : names ⊆ other) : ¬view.markerPlace dir parts <+: dir ++ view.metaDir :: names := by
  obtain ⟨front, last, rfl⟩ := Location.exists_concat hne
  rw [markerPlace_concat, List.prefix_append_right_inj, List.cons_prefix_cons]
  intro habove
  rcases habove with ⟨-, hpre⟩
  have hmem : last ++ view.hideTag ∈ other := hnames (hpre.subset (by simp))
  exact (h.untagged _ hmem).ne_tagged last rfl

theorem Suited.eq_of_marker_above (h : view.Suited other) (hne : parts ≠ [])
    (hpre : view.markerPlace dir parts <+: view.markerPlace dir other) : parts = other := by
  by_cases hsame : view.markerPlace dir parts = view.markerPlace dir other
  · exact markerPlace_injective hne h.ne_nil hsame
  · have habove := Location.prefix_dropLast hpre hsame
    rw [markerPlace_dropLast] at habove
    exact absurd habove (h.not_marker_above hne (List.dropLast_subset _))

theorem base_prefix_markerPlace (view : UnionView) (dir : Location) (parts : List Name) :
    dir ++ [view.metaDir] <+: view.markerPlace dir parts :=
  ⟨view.markerNames parts, by simp [markerPlace_eq]⟩

theorem exists_markerText_eq (view : UnionView) (b : Branch) (hne : parts ≠ []) {names : List Name}
    (hpre : names <+: parts.dropLast) :
    ∃ rest, view.markerText b parts = view.metaText b ++ slashed names ++ rest := by
  obtain ⟨more, hmore⟩ := hpre
  obtain ⟨last, hlast⟩ : ∃ last, parts = names ++ (more ++ [last]) :=
    ⟨_, by rw [← List.append_assoc, hmore, List.dropLast_concat_getLast hne]⟩
  exact ⟨slashed (more ++ [last]) ++ view.hideTag, by
    rw [hlast, markerText, Path.slashed_append, List.append_assoc, List.append_assoc,
      List.append_assoc]⟩

namespace Suited

theorem fits_mirrored (h : view.Suited parts) {b : Branch} (hb : b ∈ view.branches)
    {names : List Name} (hpre : names <+: parts.dropLast) :
    (view.metaText b ++ slashed names).length + 1 ≤ view.maxPathLen := by
  obtain ⟨rest, htext⟩ := view.exists_markerText_eq b h.ne_nil hpre
  have hfit := h.fits b hb
  rw [htext, List.length_append] at hfit
  omega

theorem admissible_mirrored (h : view.Suited parts) {b : Branch} (hb : b ∈ view.branches)
    (hroot : view.metaText b ≠ []) {names : List Name} (hpre : names <+: parts.dropLast) :
    Path.isAdmissible (view.metaText b ++ slashed names) = true := by
  obtain ⟨rest, htext⟩ := view.exists_markerText_eq b h.ne_nil hpre
  have hadm := h.admissible b hb
  rw [htext] at hadm
  exact FileSystem.isAdmissible_of_append (by simp [hroot]) hadm

end Suited

namespace Ready

variable (hready : view.Ready start places)
include hready

theorem not_below {i : Nat} (hi : i < view.branches.length) {l : Location} {e : Entry}
    (hget : start.tree.get? l = some e) : ¬places i ++ [view.metaDir] <+: l := by
  intro hpre
  have hnone := hready.bare i hi
  by_cases hsame : places i ++ [view.metaDir] = l
  · rw [hsame, hget] at hnone
    cases hnone
  · have hdir := Tree.isDirAt_of_above hget hpre hsame
    rw [Tree.isDirAt, hnone] at hdir
    cases hdir

theorem isDirAt_place {i : Nat} {b : Branch} (hb : view.branches[i]? = some b) :
    ∃ mode, start.tree.get? (places i) = some (.dir mode) := by
  obtain ⟨mode, htarget⟩ := hready.rooted i b hb
  exact ⟨mode, FileSystem.targetAt_ok htarget⟩

theorem rank_unique {i j : Nat} (hi : i < view.branches.length) (hj : j < view.branches.length)
    {l : Location} (hpre : places i ++ [view.metaDir] <+: l)
    (hpre' : places j ++ [view.metaDir] <+: l) : i = j := by
  have key {i j : Nat} (hi : i < view.branches.length) (hj : j < view.branches.length)
      (h : places i ++ [view.metaDir] <+: places j ++ [view.metaDir]) : i = j := by
    rcases List.prefix_concat_iff.1 h with hsame | habove
    · exact hready.distinct i j hi hj (List.append_cancel_right hsame)
    · obtain ⟨mode, hget⟩ := hready.isDirAt_place (List.getElem?_eq_getElem hj)
      exact absurd habove (hready.not_below hi hget)
  rcases List.prefix_or_prefix_of_prefix hpre hpre' with h | h
  · exact key hi hj h
  · exact (key hj hi h).symm

theorem descends {i : Nat} {b : Branch} (hb : view.branches[i]? = some b) :
    Descends start.tree (startOf start.cwd b.root) (components b.root) (places i) := by
  obtain ⟨mode, htarget⟩ := hready.rooted i b hb
  obtain ⟨spot, hresolve, hplace, hget⟩ := FileSystem.targetAt_eq_ok_iff.1 htarget
  rw [← hplace] at hget ⊢
  have hdown := Descends.of_walks hready.linkFree (FileSystem.resolve_eq_ok_iff.1 hresolve).2 hget
  rcases FileSystem.hops_cases b.root with hhops | ⟨-, hhops⟩
  · exact hhops ▸ hdown
  · exact (hhops ▸ hdown).drop_empty

theorem isProper_metaDir (hv : view.Accepted) : IsProper view.metaDir :=
  ⟨hv.metaDir.1, hready.metaName.1, hready.metaName.2⟩

theorem spells_mirrored (hv : view.Accepted) {i : Nat} {b : Branch}
    (hb : view.branches[i]? = some b) {names : List Name} (hnames : ∀ n ∈ names, IsStep n) :
    start.Spells (view.metaText b ++ slashed names) (places i ++ view.metaDir :: names) := by
  have hcomps : ∀ n ∈ names, IsComponent n := fun n hn => (hnames n hn).isComponent
  have hroot : b.root ≠ [] := hv.rooted b (List.mem_of_getElem? hb)
  have hstart :
      startOf start.cwd (view.metaText b ++ slashed names) = startOf start.cwd b.root := by
    rw [startOf, startOf, Path.isAbsolute_append (metaText_ne_nil hv hb), metaText,
      BoundedPath.isAbsolute_joined hroot]
  refine ⟨?_, components b.root, view.metaDir :: names, places i, ?_, by simp, ?_,
    hstart ▸ hready.descends hb, rfl⟩
  · by_cases hnil : names = []
    · simpa [hnil, slashed] using endsWithSeparator_metaText hv b
    · exact Path.endsWithSeparator_slashed _ hnil hcomps
  · rw [Path.components_append_slashed hcomps, components_metaText hv, List.append_assoc,
      List.singleton_append]
  · intro n hn
    rcases List.mem_cons.1 hn with rfl | hn
    · exact hready.isProper_metaDir hv
    · exact (hnames n hn).1

theorem spells_marker (hv : view.Accepted) {i : Nat} {b : Branch} (hb : view.branches[i]? = some b)
    (hne : parts ≠ []) (hsteps : ∀ c ∈ parts, IsStep c) :
    start.Spells (view.markerText b parts) (view.markerPlace (places i) parts) := by
  obtain ⟨front, last, rfl⟩ := Location.exists_concat hne
  rw [markerText_concat, markerPlace_concat]
  refine hready.spells_mirrored hv hb fun n hn => ?_
  rcases List.mem_append.1 hn with hn | hn
  · exact hsteps n (List.mem_append_left _ hn)
  · rw [List.mem_singleton.1 hn]
    exact (hsteps last (by simp)).append hv.hideTag

theorem short_markerPlace (hv : view.Accepted) {i : Nat} {b : Branch}
    (hb : view.branches[i]? = some b) (hparts : view.Suited parts) :
    ∀ n ∈ view.markerPlace (places i) parts, n.length ≤ Path.maxNameLength := by
  intro n hn
  obtain ⟨front, last, rfl⟩ := Location.exists_concat hparts.ne_nil
  rw [markerPlace_concat] at hn
  rcases List.mem_append.1 hn with hroot | hn
  · obtain ⟨mode, hget⟩ := hready.isDirAt_place hb
    exact (Path.isName_iff.1 (Tree.isName_of_get? hget n hroot)).2.2.2.2.2
  · refine hparts.short b (List.mem_of_getElem? hb) n ?_
    rw [components_markerText hv b hparts.steps, List.append_assoc, List.append_assoc]
    exact List.mem_append_right _ (by simpa using hn)

end Ready

end UnionView

namespace Sample

def places (rank : Nat) : Location := if rank = 0 then [utf8 "up"] else [utf8 "low"]

theorem ready : view.Ready session.fs places where
  linkFree := by decide +kernel
  rooted := by
    have hroots : ∀ i, (h : i < 2) →
        session.fs.targetAt view.branches[i].root = .ok (places i, .dir 0o755) := by
      decide +kernel
    intro i b hb
    obtain ⟨hi, rfl⟩ := List.getElem?_eq_some_iff.1 hb
    exact ⟨0o755, hroots i hi⟩
  distinct := by
    have hplaces : ∀ i, i < 2 → ∀ j, j < 2 → places i = places j → i = j := by decide +kernel
    exact fun i j hi hj => hplaces i hi j hj
  bare := by decide +kernel
  metaName := by decide +kernel

end Sample

end Whiteout
