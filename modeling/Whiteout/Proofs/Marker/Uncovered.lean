import Whiteout.Proofs.Marker.Isolation
import Whiteout.Proofs.Marker.Removed

/-!
# What a removal uncovers

In a tree without links, with metadata trees that lie apart, a removal takes away no marker but the
path's own, so every other marker goes on hiding and what was hidden becomes visible at and below
the path only. The one exception is a branch whose root leads through a place that is gone: nothing
is found there any more, so nothing is hidden there.
-/

namespace Whiteout.UnionView

open Text (utf8)
open Whiteout.FileSystem (Grows startOf)
open Whiteout.Path (components IsStep)

variable {view : UnionView} {fs final : FileSystem} {path : Bytes} {removed ranks : List Nat}
  {j : Nat} {report : CleanupReport} {b : Branch} {front : List Name}

/-- The root of a branch leads through the place of a marker of the path that is taken away. -/
def RootLost (view : UnionView) (fs : FileSystem) (path : Bytes) (removed : List Nat) (j : Nat) :
    Prop :=
  ∃ i ∈ removed, ∃ place, view.Removable fs path i place ∧ ¬view.RootAvoids fs j place

theorem isHidden_of_shrunk (hv : view.Accepted) (hshrunk : Grows final fs) {u : Bytes}
    (h : view.isHidden final u j = true) : view.isHidden fs u j = true := by
  obtain ⟨hcow, parts, hparts, front, hne, hfront, hmarker⟩ := (isHidden_iff hv).1 h
  exact isHidden_of_hasMarker hv hcow hparts hne hfront (hmarker.grows hshrunk)

theorem isHidden_eq_above (hv : view.Accepted) {above : Bytes}
    (habove : components above = (components path).dropLast)
    (hvalid : ∃ parts, unionComponents path = .ok parts)
    (hnone : ¬view.HasMarker fs (components path) j) :
    view.isHidden fs path j = view.isHidden fs above j := by
  obtain ⟨parts, hparts⟩ := hvalid
  obtain ⟨rfl, hne, hsteps⟩ := unionComponents_eq_ok_iff.1 hparts
  rw [Bool.eq_iff_iff, isHidden_iff hv, isHidden_iff hv]
  constructor
  · intro hhidden
    rcases hhidden with ⟨hcow, parts, hsame, front, hfne, hfront, hmarker⟩
    cases hparts.symm.trans hsame
    have hpre : front <+: components above :=
      habove ▸ Location.prefix_dropLast hfront fun hown => hnone (hown ▸ hmarker)
    have hane : components above ≠ [] := fun hnil => hfne (List.prefix_nil.1 (hnil ▸ hpre))
    refine ⟨hcow, _, unionComponents_of_dotFree hane fun c hc => ?_, front, hfne, hpre, hmarker⟩
    exact (hsteps c (List.dropLast_subset _ (habove ▸ hc))).1.2
  · intro hhidden
    rcases hhidden with ⟨hcow, parts, hsame, front, hfne, hfront, hmarker⟩
    obtain ⟨rfl, -, -⟩ := unionComponents_eq_ok_iff.1 hsame
    exact ⟨hcow, _, hparts, front, hfne,
      (habove ▸ hfront).trans (List.dropLast_prefix _), hmarker⟩

namespace Removes

variable (h : view.Removes fs path ranks report final)
include h

theorem shrinks : Grows final fs := by
  refine ⟨h.cwd.symm, fun l e hget => ?_⟩
  by_cases hgone : ∃ i ∈ report.removed, view.Removable fs path i l
  · obtain ⟨i, hi, hplace⟩ := hgone
    rw [h.gone i hi l hplace] at hget
    cases hget
  · rw [← h.kept l fun i hi hplace => hgone ⟨i, hi, hplace⟩, hget]

theorem not_leadsDown_of_rootLost (hb : view.branches[j]? = some b)
    (hlost : view.RootLost fs path report.removed j) : ¬final.LeadsDown b.root := by
  intro hdown
  obtain ⟨i, hi, place, hplace, hthrough⟩ := hlost
  refine hthrough fun c hc front hfront hsame => ?_
  cases hb.symm.trans hc
  have hdir := hdown.isDirAt_front hfront
  rw [h.cwd, hsame, Tree.isDirAt, h.gone i hi place hplace] at hdir
  cases hdir

theorem leadsDown_of_kept (hb : view.branches[j]? = some b) (hdown : fs.LeadsDown b.root)
    (hkept : ¬view.RootLost fs path report.removed j) : final.LeadsDown b.root := by
  rw [FileSystem.LeadsDown, ← h.shrinks.placeOf_eq, h.cwd]
  refine FileSystem.Descends.of_kept hdown fun front hfront e he => ?_
  rw [h.kept _ fun i hi hplace => ?_, he]
  exact hkept ⟨i, hi, _, hplace, fun havoids => havoids b hb front hfront rfl⟩

variable (hfree : fs.tree.LinkFree)
include hfree

theorem linkFree : final.tree.LinkFree :=
  fun l target hlink => hfree l target (h.shrinks.2 l _ hlink)

variable (hv : view.Accepted)
include hv

theorem not_hasMarker_of_rootLost (hne : front ≠ []) (hsteps : ∀ c ∈ front, IsStep c)
    (hlost : view.RootLost fs path report.removed j) : ¬view.HasMarker final front j := by
  intro hmarker
  obtain ⟨b, e, hb, -, -, hdown, -⟩ := hmarker.entry hv (h.linkFree hfree) hne hsteps
  exact h.not_leadsDown_of_rootLost hb hlost hdown

theorem hasMarker_kept (hsep : view.Separate fs) (hne : front ≠ [])
    (hsteps : ∀ c ∈ front, IsStep c) (hkept : ¬view.RootLost fs path report.removed j)
    (hmarker : view.HasMarker fs front j) :
    view.HasMarker final front j ∨ (j ∈ report.removed ∧ front = components path) := by
  obtain ⟨b, e, hb, hfit, hadm, hdown, hget⟩ := hmarker.entry hv hfree hne hsteps
  by_cases hgone : ∃ i ∈ report.removed, view.Removable fs path i (view.markedPlace fs b front)
  · right
    obtain ⟨i, hi, m, e', hm, hentry, -⟩ := hgone
    obtain ⟨c, hc, hdown', hsame⟩ := entryAt_markerPath hv hfree hm hentry
    -- the place lies in one metadata tree only, so it is the path's marker in this branch
    obtain rfl : b = c := hsep.eq_of_prefix (List.mem_of_getElem? hb) (List.mem_of_getElem? hc)
      hdown hdown' (metaPlace_prefix_markedPlace front)
      (hsame ▸ metaPlace_prefix_markedPlace (components path))
    obtain rfl : i = j := (hv.ranked i b hc).symm.trans (hv.ranked j b hb)
    obtain ⟨parts, -, hparts, -⟩ := (markerPath_eq_ok_iff hv).1 hm
    obtain ⟨rfl, hpath, -⟩ := unionComponents_eq_ok_iff.1 hparts
    exact ⟨hi, markerNames_injective hne hpath (List.append_cancel_left hsame)⟩
  · left
    have hstays : final.tree.get? (view.markedPlace fs b front) = some e := by
      rw [h.kept _ fun i hi hplace => hgone ⟨i, hi, hplace⟩, markedPlace, hget]
    have hprobe := probe_markerText hv (h.linkFree hfree) hb hne hsteps
      (h.leadsDown_of_kept hb hdown hkept) hadm (by rwa [metaPlace_congr h.cwd])
    exact ⟨b, hb, hfit, by rw [hprobe]; rfl⟩

theorem not_hasMarker_of_path (hj : j ∈ ranks) (hclean : ∀ f ∈ report.failures, f.rank ≠ j)
    {m : BoundedPath} (hm : view.markerPath path j = .ok m) :
    ¬view.HasMarker final (components path) j := by
  intro hmarker
  obtain ⟨parts, b, hparts, hb, -, rfl⟩ := (markerPath_eq_ok_iff hv).1 hm
  obtain ⟨rfl, hne, hsteps⟩ := unionComponents_eq_ok_iff.1 hparts
  have hkept : view.RootKept fs path report.removed j := by
    intro i hi _ place hplace
    apply Classical.byContradiction
    intro hthrough
    exact h.not_hasMarker_of_rootLost hfree hv hne hsteps ⟨i, hi, place, hplace, hthrough⟩ hmarker
  obtain ⟨c, e, hc, -, hadm, hdown, hget⟩ := hmarker.entry hv (h.linkFree hfree) hne hsteps
  cases hb.symm.trans hc
  rw [metaPlace_congr h.cwd] at hget
  have hentry : fs.entryAt (view.markerText b (components path)) =
      .ok (view.markedPlace fs b (components path), e) :=
    (entryAt_markerText_iff hv hfree hb hne hsteps).2
      ⟨hadm, hdown.grows h.shrinks, rfl, h.shrinks.2 _ _ hget⟩
  -- it was there before and was neither taken away nor reported
  by_cases hfull : e.isDir = true ∧
      fs.tree.isEmptyAt (view.markedPlace fs b (components path)) = false
  · obtain ⟨hdir, hfull⟩ := hfull
    obtain ⟨mode, rfl⟩ := Entry.isDir_iff.1 hdir
    have hoccupied : view.Occupied fs path j (view.markerText b (components path)) :=
      ⟨_, _, mode, hm, rfl, hentry, hfull⟩
    exact hclean ⟨j, _, .system .notEmpty⟩
      ((h.mem_failures _).2 ⟨hj, ⟨hoccupied, hkept⟩, rfl⟩) rfl
  · have hremovable : view.Removable fs path j (view.markedPlace fs b (components path)) :=
      ⟨_, e, hm, hentry, fun hdir => by simpa [hdir] using hfull⟩
    have hnone := h.gone j ((h.mem_removed j).2 ⟨hj, ⟨_, hremovable⟩, hkept⟩) _ hremovable
    rw [markedPlace, hget] at hnone
    cases hnone

theorem isHidden_of_rootLost (hlost : view.RootLost fs path report.removed j) (u : Bytes) :
    view.isHidden final u j = false := by
  rw [← Bool.not_eq_true, isHidden_iff hv]
  intro hhidden
  obtain ⟨-, parts, hparts, front, hne, hfront, hmarker⟩ := hhidden
  exact h.not_hasMarker_of_rootLost hfree hv hne (isStep_of_mem_front hparts hfront) hlost hmarker

theorem isHidden_or_own (hcow : view.cowEnabled = true) (hsep : view.Separate fs)
    (hkept : ¬view.RootLost fs path report.removed j) {u : Bytes} {parts : List Bytes}
    (hparts : unionComponents u = .ok parts) (hne : front ≠ []) (hfront : front <+: parts)
    (hmarker : view.HasMarker fs front j) :
    view.isHidden final u j = true ∨ (j ∈ report.removed ∧ front = components path) := by
  rcases h.hasMarker_kept hfree hv hsep hne (isStep_of_mem_front hparts hfront) hkept hmarker with
    hstill | hown
  · exact .inl (isHidden_of_hasMarker hv hcow hparts hne hfront hstill)
  · exact .inr hown

/-- Only the path and what is below it is uncovered, where the way to the branch is not lost. -/
theorem uncovers (hcow : view.cowEnabled = true) (hsep : view.Separate fs) {u : Bytes}
    (hbefore : view.isHidden fs u j = true) (hafter : view.isHidden final u j = false) :
    (j ∈ report.removed ∧ components path <+: components u) ∨
      view.RootLost fs path report.removed j := by
  by_cases hlost : view.RootLost fs path report.removed j
  · exact .inr hlost
  · left
    obtain ⟨-, parts, hparts, front, hne, hfront, hmarker⟩ := (isHidden_iff hv).1 hbefore
    rcases h.isHidden_or_own hfree hv hcow hsep hlost hparts hne hfront hmarker with
      hstill | ⟨hj, rfl⟩
    · rw [hafter] at hstill
      cases hstill
    · exact ⟨hj, (unionComponents_eq_ok_iff.1 hparts).1 ▸ hfront⟩

end Removes

theorem removes_of_unhide (hv : view.Accepted) (hcow : view.cowEnabled = true)
    (hfree : fs.tree.LinkFree) (hsep : view.Separate fs) {last : Option Nat}
    (h : view.unhide fs path last = (.ok report, final)) :
    (∀ i < view.unhideCount last, ∃ m, view.markerPath path i = .ok m) ∧
      view.Removes fs path (List.range (view.unhideCount last)) report final := by
  rcases view.markerPaths_cases path (view.unhideCount last) with
    hpaths | ⟨i, hi, e, hfirst, hbefore⟩
  · obtain ⟨report', final', hrun, hremoves⟩ := unhideIn_removes hv hfree hsep
      List.pairwise_lt_range fun i hi => hpaths i (List.mem_range.1 hi)
    rw [unhide, if_pos hcow, hrun] at h
    cases h
    exact ⟨hpaths, hremoves⟩
  · rw [unhide_stopped hcow hi hfirst hbefore] at h
    cases h

theorem isHidden_after_unhide {home : Option String} {config : Config}
    (haccepted : ofConfig home config = .ok view) (hcow : view.cowEnabled = true)
    (hfree : fs.tree.LinkFree) (hsep : view.Separate fs) (path : Bytes) (last : Option Nat)
    (h : view.unhide fs path last = (.ok report, final)) (j : Nat) :
    (∀ u, view.isHidden final u j ≠ view.isHidden fs u j →
      view.isHidden fs u j = true ∧ view.isHidden final u j = false ∧
        ((j ∈ report.removed ∧ components path <+: components u) ∨
          view.RootLost fs path report.removed j)) ∧
    (view.RootLost fs path report.removed j → ∀ u, view.isHidden final u j = false) ∧
    (¬view.RootLost fs path report.removed j → ∀ u parts front, unionComponents u = .ok parts →
      front ≠ [] → front <+: parts → (j ∈ report.removed → front ≠ components path) →
        view.HasMarker fs front j → view.isHidden final u j = true) ∧
    (j < view.branches.length → (∀ max, last = some max → j ≤ max) →
      (∀ f ∈ report.failures, f.rank ≠ j) → ∀ above,
        components above = (components path).dropLast →
          view.isHidden final path j = view.isHidden final above j ∧
            ((components path).length = 1 → view.isHidden final path j = false)) := by
  have hv := accepted_of_ofConfig haccepted
  obtain ⟨hpaths, hremoves⟩ := removes_of_unhide hv hcow hfree hsep h
  refine ⟨fun u hdiffers => ?_, hremoves.isHidden_of_rootLost hfree hv, ?_, ?_⟩
  · have hafter : view.isHidden final u j = false := by
      rw [← Bool.not_eq_true]
      intro htrue
      exact hdiffers (htrue.trans (isHidden_of_shrunk hv hremoves.shrinks htrue).symm)
    have hbefore : view.isHidden fs u j = true := by simpa [hafter] using hdiffers
    exact ⟨hbefore, hafter, hremoves.uncovers hfree hv hcow hsep hbefore hafter⟩
  · intro hkept u parts front hparts hne hfront hother hmarker
    rcases hremoves.isHidden_or_own hfree hv hcow hsep hkept hparts hne hfront hmarker with
      hstill | ⟨hj, hown⟩
    · exact hstill
    · exact absurd hown (hother hj)
  · intro hj hmax hclean above habove
    have hcount : j < view.unhideCount last := by
      cases last with
      | none => exact hj
      | some max => exact Nat.lt_min.2 ⟨Nat.lt_succ_of_le (hmax max rfl), hj⟩
    obtain ⟨m, hm⟩ := hpaths j hcount
    obtain ⟨parts, -, hparts, -⟩ := (markerPath_eq_ok_iff hv).1 hm
    have hnone := hremoves.not_hasMarker_of_path hfree hv (List.mem_range.2 hcount) hclean hm
    have hsame := isHidden_eq_above hv habove ⟨parts, hparts⟩ hnone
    refine ⟨hsame, fun hone => ?_⟩
    rw [hsame, ← Bool.not_eq_true, isHidden_iff hv]
    intro hhidden
    obtain ⟨-, others, hothers, -⟩ := hhidden
    obtain ⟨rfl, hne, -⟩ := unionComponents_eq_ok_iff.1 hothers
    refine hne (List.eq_nil_of_length_eq_zero ?_)
    rw [habove, List.length_dropLast, hone]

theorem isHidden_after_unhide_sample :
    let fs : FileSystem := { tree := nestedTree, cwd := [] }
    let final := (nestedView.unhide fs (utf8 "a") none).2
    (∀ u, nestedView.isHidden final u 0 ≠ nestedView.isHidden fs u 0 →
      nestedView.isHidden fs u 0 = true ∧ nestedView.isHidden final u 0 = false ∧
        ((0 ∈ [0] ∧ components (utf8 "a") <+: components u) ∨
          nestedView.RootLost fs (utf8 "a") [0] 0)) ∧
    nestedView.isHidden final (utf8 "a") 0 = false := by
  intro fs final
  have haccepted : ofConfig none nestedConfig = .ok nestedView := by decide +kernel
  have hfree : fs.tree.LinkFree := by decide +kernel
  have hsep : nestedView.Separate fs := separate_of_apart (by decide +kernel)
  let report : CleanupReport := ⟨[0], [⟨2, utf8 "base/.unionfs/a_HIDDEN~", .system .notEmpty⟩]⟩
  have hreport : (nestedView.unhide fs (utf8 "a") none).1 = .ok report := by decide +kernel
  have hrun : nestedView.unhide fs (utf8 "a") none = (.ok report, final) := by rw [← hreport]
  have hafter := isHidden_after_unhide haccepted rfl hfree hsep (utf8 "a") none hrun 0
  have hclean : ∀ f ∈ report.failures, f.rank ≠ 0 := by decide +kernel
  have habove : components (utf8 "/") = (components (utf8 "a")).dropLast := by decide +kernel
  have hone : (components (utf8 "a")).length = 1 := by decide +kernel
  exact ⟨hafter.1, (hafter.2.2.2 (by decide) nofun hclean _ habove).2 hone⟩

/-- The marker of `a` in the second branch is not taken away, but its root led through the one in
the first branch, so it hides no more. -/
theorem removal_uncovers_lower_branch :
    let fs : FileSystem := { tree := nestedTree, cwd := [] }
    ofConfig none nestedConfig = .ok nestedView ∧ nestedView.cowEnabled = true ∧
    fs.tree.LinkFree ∧
    (∀ b ∈ nestedView.branches, ∀ c ∈ nestedView.branches, b ≠ c →
      ¬nestedView.metaPlace fs b <+: nestedView.metaPlace fs c) ∧
    (nestedView.unhide fs (utf8 "a") (some 0)).1 = .ok ⟨[0], []⟩ ∧
    nestedView.isHidden fs (utf8 "a") 1 = true ∧
    nestedView.isHidden (nestedView.unhide fs (utf8 "a") (some 0)).2 (utf8 "a") 1 = false := by
  intro fs
  exact ⟨by decide +kernel, rfl, by decide +kernel, by decide +kernel, by decide +kernel,
    by decide +kernel, by decide +kernel⟩

end Whiteout.UnionView
