import Whiteout.Proofs.FileSystem.Spelled
import Whiteout.Proofs.Mirror.Layout
import Whiteout.Proofs.Mirror.MarkerMap

/-!
# Metadata trees that mirror a map

A file system mirrors a map of markers if every marker of the map stands at its place as an entry of
its kind, and every entry of a metadata tree is such a marker or a directory on the way to one. The
names tell the two apart. Three changes keep this up: a new directory on the way to a suited path, a
new marker, and the loss of a marker.
-/

namespace Whiteout.UnionView

open Whiteout.FileSystem (Grows SameTree)

/-- `start` is what the file system was when it had no markers. -/
structure Mirrors (view : UnionView) (start : FileSystem) (places : Nat → Location)
    (fs : FileSystem) (markers : MarkerMap) : Prop where
  kept : Grows start fs
  linkFree : fs.tree.LinkFree
  marked : ∀ rank parts kind, markers rank parts = some kind →
    rank < view.branches.length ∧ view.Suited parts ∧
      ∃ e, fs.tree.get? (view.markerPlace (places rank) parts) = some e ∧ e.kind = kind
  found : ∀ rank l e, rank < view.branches.length → places rank ++ [view.metaDir] <+: l →
    fs.tree.get? l = some e →
      (e.isDir = true ∧ ∃ parts, view.Suited parts ∧
        l <+: places rank ++ view.metaDir :: parts.dropLast) ∨
      ∃ parts, markers rank parts = some e.kind ∧ l = view.markerPlace (places rank) parts

variable {view : UnionView} {start fs after : FileSystem} {places : Nat → Location}
  {markers : MarkerMap} {rank : Nat} {parts : List Name}

theorem Ready.mirrors (hready : view.Ready start places) :
    view.Mirrors start places start .empty where
  kept := .refl _
  linkFree := hready.linkFree
  marked := nofun
  found := fun _ _ _ hrank hpre hget => absurd hpre (hready.not_below hrank hget)

namespace Mirrors

theorem sameTree (h : view.Mirrors start places fs markers) (hsame : SameTree fs after) :
    view.Mirrors start places after markers where
  kept := h.kept.trans (.of_sameTree hsame)
  linkFree := hsame.1 ▸ h.linkFree
  marked := hsame.1 ▸ h.marked
  found := hsame.1 ▸ h.found

theorem kind_at_marker (h : view.Mirrors start places fs markers)
    (hrank : rank < view.branches.length) (hne : parts ≠ []) :
    (fs.tree.get? (view.markerPlace (places rank) parts)).map Entry.kind = markers rank parts := by
  cases hmarkers : markers rank parts with
  | some kind =>
    obtain ⟨-, -, e, hget, rfl⟩ := h.marked rank parts kind hmarkers
    rw [hget, Option.map_some]
  | none =>
    cases hget : fs.tree.get? (view.markerPlace (places rank) parts) with
    | none => rfl
    | some e =>
      have hbase := base_prefix_markerPlace view (places rank) parts
      rcases h.found rank _ e hrank hbase hget with ⟨-, other, hsuited, hpre⟩ |
        ⟨other, hother, hplace⟩
      · exact absurd hpre (hsuited.not_marker_above hne (List.dropLast_subset _))
      · rw [← markerPlace_injective hne (h.marked rank other _ hother).2.1.ne_nil hplace,
          hmarkers] at hother
        cases hother

theorem get?_marker_eq_none (h : view.Mirrors start places fs markers)
    (hrank : rank < view.branches.length) (hne : parts ≠ []) (hnew : markers rank parts = none) :
    fs.tree.get? (view.markerPlace (places rank) parts) = none := by
  rw [← h.kind_at_marker hrank hne] at hnew
  exact Option.map_eq_none_iff.1 hnew

theorem isDir_of_mirrored (h : view.Mirrors start places fs markers)
    (hrank : rank < view.branches.length) (hparts : view.Suited parts) {names : List Name}
    (hnames : names ⊆ parts) {e : Entry}
    (hget : fs.tree.get? (places rank ++ view.metaDir :: names) = some e) : e.isDir = true := by
  have hpre : places rank ++ [view.metaDir] <+: places rank ++ view.metaDir :: names :=
    ⟨names, by simp⟩
  rcases h.found rank _ e hrank hpre hget with ⟨hdir, -⟩ | ⟨other, hother, hplace⟩
  · exact hdir
  · have hne := (h.marked rank other _ hother).2.1.ne_nil
    have hself : view.markerPlace (places rank) other <+: places rank ++ view.metaDir :: names :=
      ⟨[], by rw [List.append_nil, hplace]⟩
    exact absurd hself (hparts.not_marker_above hne hnames)

theorem isEmptyAt_marker (h : view.Mirrors start places fs markers)
    (hrank : rank < view.branches.length) (hparts : view.Suited parts) :
    fs.tree.isEmptyAt (view.markerPlace (places rank) parts) = true := by
  rw [Tree.isEmptyAt_iff]
  intro below hne
  cases hget : fs.tree.get? (view.markerPlace (places rank) parts ++ below) with
  | none => rfl
  | some e =>
    have habove : view.markerPlace (places rank) parts <+:
        view.markerPlace (places rank) parts ++ below := List.prefix_append ..
    have hbase := (base_prefix_markerPlace view (places rank) parts).trans habove
    rcases h.found rank _ e hrank hbase hget with ⟨-, other, hsuited, hpre⟩ |
      ⟨other, hother, hplace⟩
    · exact absurd (habove.trans hpre)
        (hsuited.not_marker_above hparts.ne_nil (List.dropLast_subset _))
    · have hsuited := (h.marked rank other _ hother).2.1
      obtain rfl := hsuited.eq_of_marker_above hparts.ne_nil (hplace ▸ habove)
      exact absurd (List.append_right_eq_self.1 hplace) hne

section Step

variable (h : view.Mirrors start places fs markers) (hready : view.Ready start places)
  (hrank : rank < view.branches.length) (hparts : view.Suited parts)
include h hready hrank hparts

theorem put_dir {names : List Name} (hpre : names <+: parts.dropLast) {mode : Nat}
    (hnew : fs.tree.get? (places rank ++ view.metaDir :: names) = none)
    (hput : fs.IsPut after (places rank ++ view.metaDir :: names) (.dir mode)) :
    view.Mirrors start places after markers where
  kept := h.kept.trans (hput.grows hnew)
  linkFree := hput.linkFree h.linkFree rfl
  marked := by
    intro r p kind hmarkers
    obtain ⟨hr, hsuited, e, hget, hkind⟩ := h.marked r p kind hmarkers
    exact ⟨hr, hsuited, e, (hput.grows hnew).2 _ _ hget, hkind⟩
  found := by
    intro r l e hr hbase hget
    rw [hput.2] at hget
    split at hget
    · next hl =>
      subst hl
      cases hget
      obtain rfl := hready.rank_unique hr hrank hbase ⟨names, by simp⟩
      have habove : places r ++ view.metaDir :: names <+:
          places r ++ view.metaDir :: parts.dropLast :=
        (List.prefix_append_right_inj _).2 (List.cons_prefix_cons.2 ⟨rfl, hpre⟩)
      exact .inl ⟨rfl, parts, hparts, habove⟩
    · exact h.found r l e hr hbase hget

theorem put_marker {e : Entry} (hlink : e.isLink = false) (hnew : markers rank parts = none)
    (hput : fs.IsPut after (view.markerPlace (places rank) parts) e) :
    view.Mirrors start places after (markers.insert rank parts e.kind) := by
  have hnone := h.get?_marker_eq_none hrank hparts.ne_nil hnew
  have hgrow := hput.grows hnone
  refine ⟨h.kept.trans hgrow, hput.linkFree h.linkFree hlink, ?_, ?_⟩
  · intro r p kind hmarkers
    rw [MarkerMap.insert] at hmarkers
    split at hmarkers
    · next hsame =>
      obtain ⟨rfl, rfl⟩ := hsame
      cases hmarkers
      exact ⟨hrank, hparts, e, by rw [hput.2, if_pos rfl], rfl⟩
    · obtain ⟨hr, hsuited, f, hget, hkind⟩ := h.marked r p kind hmarkers
      exact ⟨hr, hsuited, f, hgrow.2 _ _ hget, hkind⟩
  · intro r l f hr hbase hget
    rw [hput.2] at hget
    split at hget
    · next hl =>
      subst hl
      cases hget
      obtain rfl := hready.rank_unique hr hrank hbase (base_prefix_markerPlace view _ parts)
      exact .inr ⟨parts, markers.insert_self r parts e.kind, rfl⟩
    · rcases h.found r l f hr hbase hget with hdir | ⟨p, hmarkers, hplace⟩
      · exact .inl hdir
      · refine .inr ⟨p, ?_, hplace⟩
        have hother : ¬(r = rank ∧ p = parts) := by
          intro hsame
          rcases hsame with ⟨rfl, rfl⟩
          rw [hnew] at hmarkers
          cases hmarkers
        rw [MarkerMap.insert, if_neg hother, hmarkers]

theorem cut_marker (hcut : fs.IsCut after (view.markerPlace (places rank) parts)) :
    view.Mirrors start places after (markers.erase [rank] parts) := by
  refine ⟨⟨hcut.1.trans h.kept.1, ?_⟩, hcut.linkFree h.linkFree, ?_, ?_⟩
  · intro l e hget
    have hne : view.markerPlace (places rank) parts ≠ l := by
      intro hplace
      subst hplace
      exact hready.not_below hrank hget (base_prefix_markerPlace view _ parts)
    rw [hcut.2, if_neg hne, h.kept.2 l e hget]
  · intro r p kind hmarkers
    rw [MarkerMap.erase] at hmarkers
    split at hmarkers
    · cases hmarkers
    · next hother =>
      obtain ⟨hr, hsuited, e, hget, hkind⟩ := h.marked r p kind hmarkers
      have hne : view.markerPlace (places rank) parts ≠ view.markerPlace (places r) p := by
        intro hsame
        have hbase := hsame ▸ base_prefix_markerPlace view (places rank) parts
        obtain rfl := hready.rank_unique hrank hr hbase (base_prefix_markerPlace view _ p)
        exact hother ⟨by simp, (markerPlace_injective hparts.ne_nil hsuited.ne_nil hsame).symm⟩
      exact ⟨hr, hsuited, e, by rw [hcut.2, if_neg hne, hget], hkind⟩
  · intro r l e hr hbase hget
    rw [hcut.2] at hget
    split at hget
    · cases hget
    · next hl =>
      rcases h.found r l e hr hbase hget with hdir | ⟨p, hmarkers, hplace⟩
      · exact .inl hdir
      · refine .inr ⟨p, ?_, hplace⟩
        have hother : ¬(r ∈ [rank] ∧ p = parts) := by
          intro hsame
          rcases hsame with ⟨hr, rfl⟩
          rw [List.mem_singleton.1 hr] at hplace
          exact hl hplace.symm
        rw [MarkerMap.erase, if_neg hother, hmarkers]

end Step

end Mirrors

end Whiteout.UnionView
