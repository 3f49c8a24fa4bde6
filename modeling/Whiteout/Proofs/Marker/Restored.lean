import Whiteout.Proofs.Marker.Added
import Whiteout.Proofs.Marker.Removed

/-!
# Taking a hide back

A path without markers up to some rank is hidden there and the hide is taken back. The removal finds
the new marker, and no other one unless the directories that the hide made let a root above lead to
a marker that was out of reach. Then it reports that rank alone and leaves what was there before the
hide, with the directories on the way to the marker that were missing.
-/

namespace Whiteout.UnionView

open Text (utf8)
open Whiteout.FileSystem (AddsOnly)
open Whiteout.Path (components IsStep)

variable {view : UnionView} {fs final : FileSystem} {s after : Session} {path : Bytes}
  {rank : Nat} {kind : Kind} {b : Branch} {parts : List Name} {front back : List Nat}
  {report : CleanupReport}

def Unmarked (view : UnionView) (fs : FileSystem) (path : Bytes) (ranks : List Nat) : Prop :=
  ∀ i ∈ ranks, ∃ m, view.markerPath path i = .ok m ∧ fs.probe m.text = none

theorem unhideIn_unmarked (h : view.Unmarked fs path front) (back : List Nat) :
    view.unhideIn fs path (front ++ back) = view.unhideIn fs path back := by
  induction front with
  | nil => rfl
  | cons first front ih =>
    obtain ⟨m, hmarker, hnone⟩ := h first List.mem_cons_self
    rw [List.cons_append, unhideIn, hmarker]
    dsimp only
    rw [FileSystem.removeMarker_eq_none_iff.2 hnone]
    exact ih fun i hi => h i (List.mem_cons_of_mem _ hi)

theorem unmarked_of_unhideIn (h : view.unhideIn fs path (front ++ back) = (.ok report, final))
    (hclean : report.failures = []) (hfront : ∀ i ∈ front, i ∉ report.removed) :
    view.Unmarked fs path front := by
  induction front generalizing report with
  | nil => nofun
  | cons first front ih =>
    have hfirst : first ∉ report.removed := hfront first List.mem_cons_self
    rw [List.cons_append, unhideIn] at h
    split at h
    · cases h
    · next m hmarker =>
      split at h
      · next hnone =>
        have hlater := ih h hclean fun i hi => hfront i (List.mem_cons_of_mem _ hi)
        intro i hi
        rcases List.mem_cons.1 hi with rfl | hi
        · exact ⟨m, hmarker, FileSystem.removeMarker_eq_none_iff.1 hnone⟩
        · exact hlater i hi
      · next without _ =>
        generalize view.unhideIn without path (front ++ back) = outcome at h
        obtain ⟨e | rest, end'⟩ := outcome
        · cases h
        · cases h
          exact absurd List.mem_cons_self hfirst
      · next hremove => exact absurd hremove FileSystem.removeMarker_ne_notFound
      · generalize view.unhideIn fs path (front ++ back) = outcome at h
        obtain ⟨e | rest, end'⟩ := outcome
        · cases h
        · cases h
          cases hclean

section

variable [Host] (hv : view.Accepted) (hfree : s.fs.tree.LinkFree) (hb : view.branches[rank]? = some b)
  (hparts : unionComponents path = .ok parts)
  (hfit : (view.markerText b parts).length + 1 ≤ view.maxPathLen)
  (hbare : s.fs.probe (view.markerText b parts) = none)
  (hdone : (view.hide s path rank kind).1 = .ok ())
include hv hfree hb hparts hfit hbare hdone

theorem new_marker : ∃ e, (view.hide s path rank kind).2.fs.entryAt (view.markerText b parts) =
      .ok (view.markedPlace s.fs b parts, e) ∧
    s.fs.tree.get? (view.markedPlace s.fs b parts) = none := by
  obtain ⟨-, hne, hsteps⟩ := unionComponents_eq_ok_iff.1 hparts
  obtain ⟨hroot, -⟩ := hide_grants_all hv hfree hb hparts hfit hdone
  have hadds : AddsOnly (view.Footprint (view.metaPlace s.fs b) parts kind) s.fs
    (view.hide s path rank kind).2.fs := hide_adds hv hfree hparts hb
  have hfree' := hadds.linkFree hfree fun l e hadded => hadded.not_isLink
  obtain ⟨parts', hparts', b', hb', -, hprobe⟩ := hasMarker_of_hide hv hdone
  cases hparts.symm.trans hparts'
  cases hb.symm.trans hb'
  obtain ⟨⟨place, e⟩, hentry⟩ := FileSystem.probe_isSome_iff.1 hprobe
  obtain ⟨hadm, -, hplace, -⟩ := (entryAt_markerText_iff hv hfree' hb hne hsteps).1 hentry
  rw [markedPlace, metaPlace_of_grows hadds.grows, ← markedPlace] at hplace
  refine ⟨e, hplace ▸ hentry, ?_⟩
  cases hget : s.fs.tree.get? (view.markedPlace s.fs b parts) with
  | none => rfl
  | some old =>
    have hold := probe_markerText hv hfree hb hne hsteps hroot hadm hget
    rw [hbare] at hold
    cases hold

theorem new_marker_isEmptyAt : (view.hide s path rank kind).2.fs.tree.isEmptyAt
    (view.markedPlace s.fs b parts) = true := by
  obtain ⟨e, -, hnew⟩ := new_marker hv hfree hb hparts hfit hbare hdone
  refine Tree.isEmptyAt_iff.2 fun below hbelow => ?_
  have hother : view.markedPlace s.fs b parts ++ below ≠ view.markedPlace s.fs b parts := by
    simpa using hbelow
  rw [hide_done hv hfree hb hparts hfit hdone,
    if_neg (FileSystem.not_mem_missing (not_mem_way_of_below (List.prefix_append _ below))),
    if_neg (FileSystem.not_mem_missing (mt List.mem_singleton.1 hother))]
  cases hget : s.fs.tree.get? (view.markedPlace s.fs b parts ++ below) with
  | none => rfl
  | some old =>
    have hdir := Tree.isDirAt_of_above hget (List.prefix_append _ below) (Ne.symm hother)
    rw [Tree.isDirAt, hnew] at hdir
    cases hdir

theorem unhideIn_new_marker : ∃ final,
    view.unhideIn (view.hide s path rank kind).2.fs path [rank] = (.ok ⟨[rank], []⟩, final) ∧
      ∀ l, final.tree.get? l =
        if l ∈ s.fs.missing (view.way s.fs b parts) then some (.dir (Host.granted 0o755))
        else s.fs.tree.get? l := by
  obtain ⟨e, hentry, hnew⟩ := new_marker hv hfree hb hparts hfit hbare hdone
  have hempty := new_marker_isEmptyAt hv hfree hb hparts hfit hbare hdone
  have hmarker : view.markerPath path rank = .ok ⟨view.markerText b parts, view.maxPathLen⟩ :=
    (markerPath_eq_ok_iff hv).2 ⟨parts, b, hparts, hb, hfit, rfl⟩
  rw [unhideIn, hmarker]
  dsimp only
  rcases FileSystem.removeMarker_cases (markerPath_endsNamed hv hmarker)
    (view.hide s path rank kind).2.fs with
    ⟨habsent, -⟩ | ⟨place, e', without, hentry', -, hremove, hcut⟩ |
    ⟨place, mode, hentry', hfull, -⟩
  · exact absurd hentry (habsent _)
  · cases hentry.symm.trans hentry'
    refine ⟨without, by rw [hremove]; rfl, fun l => ?_⟩
    rw [hcut.2]
    split
    · next hplace =>
      subst hplace
      rw [if_neg (FileSystem.not_mem_missing (not_mem_way_of_below (List.prefix_refl _))), hnew]
    · next hplace =>
      have hother : l ∉ s.fs.missing [view.markedPlace s.fs b parts] :=
        FileSystem.not_mem_missing (mt List.mem_singleton.1 (Ne.symm hplace))
      rw [hide_done hv hfree hb hparts hfit hdone]
      simp only [hother, if_false]
  · cases hentry.symm.trans hentry'
    rw [hempty] at hfull
    cases hfull

end

/-- A marker of the path that a hide in another branch brings within reach was there before, unless
the root leads through what the hide has made. -/
theorem probe_before_hide [Host] (hv : view.Accepted) (hfree : s.fs.tree.LinkFree)
    (hb : view.branches[rank]? = some b) (hdown : s.fs.LeadsDown b.root)
    (hparts : unionComponents path = .ok parts) (hsep : view.Separate s.fs) {j : Nat}
    (hj : j ≠ rank) (havoids : ∀ l, s.fs.tree.get? l = none →
      ((view.hide s path rank kind).2.fs.tree.get? l).isSome = true → view.RootAvoids s.fs j l)
    {c : Branch} (hc : view.branches[j]? = some c)
    (h : ((view.hide s path rank kind).2.fs.probe (view.markerText c parts)).isSome = true) :
    (s.fs.probe (view.markerText c parts)).isSome = true := by
  obtain ⟨-, hne, hsteps⟩ := unionComponents_eq_ok_iff.1 hparts
  have hadds : AddsOnly (view.Footprint (view.metaPlace s.fs b) parts kind) s.fs
    (view.hide s path rank kind).2.fs := hide_adds hv hfree hparts hb
  have hfree' := hadds.linkFree hfree fun l e hadded => hadded.not_isLink
  obtain ⟨⟨place, e⟩, hentry⟩ := FileSystem.probe_isSome_iff.1 h
  obtain ⟨hadm, hdown', rfl, hget⟩ := (entryAt_markerText_iff hv hfree' hc hne hsteps).1 hentry
  have hroot : s.fs.LeadsDown c.root := by
    refine hdown'.of_grown hadds.grows fun front hfront hsome => ?_
    apply Option.isSome_iff_ne_none.2
    intro hnone
    exact havoids _ hnone hsome c hc front hfront rfl
  rw [markedPlace, metaPlace_of_grows hadds.grows, ← markedPlace] at hget
  rcases hadds.fresh _ e hget with hold | hnew
  · exact FileSystem.probe_isSome_iff.2
      ⟨_, (entryAt_markerText_iff hv hfree hc hne hsteps).2 ⟨hadm, hroot, rfl, hold⟩⟩
  · -- what the hide makes lies in the metadata tree of its own branch
    have hbc : b = c := hsep.eq_of_prefix (List.mem_of_getElem? hb) (List.mem_of_getElem? hc) hdown
      hroot hnew.base_prefix (metaPlace_prefix_markedPlace parts)
    subst hbc
    exact absurd ((hv.ranked j b hc).symm.trans (hv.ranked rank b hb)) hj

theorem unhide_after_hide [Host] {home : Option String} {config : Config}
    (haccepted : ofConfig home config = .ok view) (hcow : view.cowEnabled = true)
    (hfree : s.fs.tree.LinkFree) (hbare : view.Unmarked s.fs path (List.range (rank + 1)))
    (hhide : view.hide s path rank kind = (.ok (), after)) :
    ((∃ final, view.unhide after.fs path (some rank) = (.ok ⟨[rank], []⟩, final)) ↔
      view.Unmarked after.fs path (List.range rank)) ∧
    (∀ final, view.unhide after.fs path (some rank) = (.ok ⟨[rank], []⟩, final) →
      ∃ b, view.branches[rank]? = some b ∧ ∀ l, final.tree.get? l =
        if l ∈ s.fs.missing (view.way s.fs b (components path)) then
          some (.dir (Host.granted 0o755))
        else s.fs.tree.get? l) ∧
    (view.Separate s.fs → (∀ j < rank, ∀ l, s.fs.tree.get? l = none →
        (after.fs.tree.get? l).isSome = true → view.RootAvoids s.fs j l) →
      view.Unmarked after.fs path (List.range rank)) := by
  have hv := accepted_of_ofConfig haccepted
  have hdone : (view.hide s path rank kind).1 = .ok () := congrArg Prod.fst hhide
  obtain rfl : (view.hide s path rank kind).2 = after := congrArg Prod.snd hhide
  obtain ⟨m, hmarker, hnone⟩ := hbare rank (List.mem_range.2 (Nat.lt_succ_self rank))
  obtain ⟨parts, b, hparts, hb, hfit, rfl⟩ := (markerPath_eq_ok_iff hv).1 hmarker
  obtain ⟨rfl, hne, hsteps⟩ := unionComponents_eq_ok_iff.1 hparts
  have hlen : rank < view.branches.length := (List.getElem?_eq_some_iff.1 hb).1
  have hrun : view.unhide (view.hide s path rank kind).2.fs path (some rank) =
      view.unhideIn (view.hide s path rank kind).2.fs path (List.range rank ++ [rank]) := by
    rw [unhide, if_pos hcow, unhideCount, Nat.min_eq_left (Nat.succ_le_of_lt hlen),
      List.range_succ]
  obtain ⟨final, hnew, hget⟩ := unhideIn_new_marker hv hfree hb hparts hfit hnone hdone
  have hclear (hafter : view.Unmarked (view.hide s path rank kind).2.fs path (List.range rank)) :
      view.unhide (view.hide s path rank kind).2.fs path (some rank) =
        (.ok ⟨[rank], []⟩, final) := by
    rw [hrun, unhideIn_unmarked hafter, hnew]
  have hafter {other : FileSystem} (h : view.unhide (view.hide s path rank kind).2.fs path
      (some rank) = (.ok ⟨[rank], []⟩, other)) :
      view.Unmarked (view.hide s path rank kind).2.fs path (List.range rank) := by
    rw [hrun] at h
    refine unmarked_of_unhideIn h rfl fun i hi => ?_
    simpa using Nat.ne_of_lt (List.mem_range.1 hi)
  refine ⟨⟨fun h => ?_, fun h => ⟨final, hclear h⟩⟩, fun other h => ?_,
    fun hsep havoids j hj => ?_⟩
  · obtain ⟨other, h⟩ := h
    exact hafter h
  · cases (hclear (hafter h)).symm.trans h
    exact ⟨b, hb, hget⟩
  · have hjr := List.mem_range.1 hj
    obtain ⟨m, hmarker', hbefore⟩ := hbare j (List.mem_range.2 (Nat.lt_succ_of_lt hjr))
    refine ⟨m, hmarker', Option.not_isSome_iff_eq_none.1 fun hprobe => ?_⟩
    obtain ⟨parts', c, hparts', hc, -, rfl⟩ := (markerPath_eq_ok_iff hv).1 hmarker'
    cases hparts.symm.trans hparts'
    obtain ⟨hdown, -⟩ := hide_grants_all hv hfree hb hparts hfit hdone
    have hold := probe_before_hide hv hfree hb hdown hparts hsep (Nat.ne_of_lt hjr)
      (havoids j hjr) hc hprobe
    rw [hbefore] at hold
    cases hold

attribute [local instance] Sample.host

theorem unhide_after_hide_sample :
    ∃ final, Sample.view.unhide (Sample.view.hide Sample.session (utf8 "d/a") 1 .dir).2.fs
        (utf8 "d/a") (some 1) = (.ok ⟨[1], []⟩, final) ∧
      final.tree.get? [utf8 "low", utf8 ".unionfs", utf8 "d"] = some (.dir 0o755) := by
  have hsep : Sample.view.Separate Sample.session.fs := separate_of_apart (by decide +kernel)
  have hbare : Sample.view.Unmarked Sample.session.fs (utf8 "d/a") (List.range 2) := by
    intro i hi
    have hcases : i = 0 ∨ i = 1 := by
      have hlt := List.mem_range.1 hi
      omega
    rcases hcases with rfl | rfl
    · exact ⟨⟨utf8 "up/.unionfs/d/a_HIDDEN~", 4096⟩, by decide +kernel⟩
    · exact ⟨⟨utf8 "low/.unionfs/d/a_HIDDEN~", 4096⟩, by decide +kernel⟩
  have hdone : (Sample.view.hide Sample.session (utf8 "d/a") 1 .dir).1 = .ok () := by
    decide +kernel
  have hhide : Sample.view.hide Sample.session (utf8 "d/a") 1 .dir =
      (.ok (), (Sample.view.hide Sample.session (utf8 "d/a") 1 .dir).2) := by
    rw [← hdone]
  obtain ⟨hiff, htree, hafter⟩ :=
    unhide_after_hide Sample.ofConfig_config rfl Sample.ready.linkFree hbare hhide
  have hclear := hafter hsep fun j hj l hnone _ => by
    obtain rfl : j = 0 := by omega
    have hb : Sample.view.branches[0]? = some ⟨0, utf8 "up", .readWrite⟩ := rfl
    have hdown := Sample.ready.descends hb
    rw [hdown.eq_along] at hdown
    exact rootAvoids_of_leadsDown hb hdown hnone
  obtain ⟨final, hfinal⟩ := hiff.2 hclear
  obtain ⟨b, hb, hget⟩ := htree final hfinal
  cases hb
  refine ⟨final, hfinal, ?_⟩
  rw [hget, if_pos (by decide +kernel)]
  rfl

/-- The upper root leads through a directory that a hide in the lower branch may have to make. -/
def crossedConfig : Config :=
  { Config.unset with branches := [⟨"up/.unionfs/d/../../../low", .readOnly⟩, ⟨"up", .readWrite⟩] }

def crossedView : UnionView :=
  { Sample.view with branches :=
    [⟨0, utf8 "up/.unionfs/d/../../../low", .readOnly⟩, ⟨1, utf8 "up", .readWrite⟩] }

def crossedTree : Tree :=
  ((Sample.tree.put [utf8 "low", utf8 ".unionfs"] (.dir 0o755)).put
    [utf8 "low", utf8 ".unionfs", utf8 "d"] (.dir 0o755)).put
    [utf8 "low", utf8 ".unionfs", utf8 "d", utf8 "x_HIDDEN~"] (.file 0o644 [])

/-- A hide may make a marker of another branch come within reach of the removal. -/
theorem removal_reaches_uncovered_marker :
    let s := Session.start { tree := crossedTree, cwd := [] } ⟨0, 0⟩
    ofConfig none crossedConfig = .ok crossedView ∧ s.fs.tree.LinkFree ∧
    (∀ b ∈ crossedView.branches, ∀ c ∈ crossedView.branches, b ≠ c →
      ¬crossedView.metaPlace s.fs b <+: crossedView.metaPlace s.fs c) ∧
    crossedView.Unmarked s.fs (utf8 "d/x") [0, 1] ∧
    (crossedView.hide s (utf8 "d/x") 1 .file).1 = .ok () ∧
    (crossedView.unhide (crossedView.hide s (utf8 "d/x") 1 .file).2.fs (utf8 "d/x") (some 1)).1 =
      .ok ⟨[0, 1], []⟩ := by
  intro s
  refine ⟨by decide +kernel, by decide +kernel, by decide +kernel, ?_, by decide +kernel,
    by decide +kernel⟩
  intro i hi
  have hcases : i = 0 ∨ i = 1 := by simpa using hi
  rcases hcases with rfl | rfl
  · exact ⟨⟨utf8 "up/.unionfs/d/../../../low/.unionfs/d/x_HIDDEN~", 4096⟩, by decide +kernel⟩
  · exact ⟨⟨utf8 "up/.unionfs/d/x_HIDDEN~", 4096⟩, by decide +kernel⟩

end Whiteout.UnionView
