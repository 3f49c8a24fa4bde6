import Whiteout.Marker.Create
import Whiteout.Proofs.Marker.Place

/-!
# Hidden by the marker of a front

The check for a hidden path spells the fronts of its components one after the other in one path and
stops at the first that does not fit; a marker path is spelled at once. Both find the same: a path is
hidden exactly if the marker path of some front of it, taken by itself, can be spelled and something
is there. This holds for every view, also for one whose names contain separators.
-/

namespace Whiteout.UnionView

open Text (utf8)
open Whiteout.Path (dot dotDot components IsStep IsComponent)
open Whiteout.Marker (slashed)

variable {view : UnionView} {fs : FileSystem} {q : Bytes} {rank : Nat} {front longer : List Bytes}
  {m : BoundedPath}

theorem markerPath_slashed_eq_ok_iff (hne : front ≠ []) (hsteps : ∀ c ∈ front, IsStep c) :
    view.markerPath (slashed front) rank = .ok m ↔ ∃ root mirrored, view.metaRoot rank = .ok root ∧
      root.pushSegments front = .ok mirrored ∧ view.tagged mirrored = .ok m := by
  rw [markerPath_eq_ok_iff_parts, unionComponents_slashed hne hsteps]
  simp only [Except.ok.injEq, exists_and_left, exists_eq_left']

theorem rank_lt_of_metaRoot {root : BoundedPath} (h : view.metaRoot rank = .ok root) :
    rank < view.branches.length := by
  rw [metaRoot] at h
  split at h
  · cases h
  · next b hb => exact (List.getElem?_eq_some_iff.1 ((view.branch_ok_iff rank b).1 hb)).1

theorem exists_markerPath_of_front (hne : front ≠ []) (hfront : front <+: longer)
    (hcomps : ∀ c ∈ longer, IsComponent c) (h : view.markerPath (slashed longer) rank = .ok m) :
    ∃ shorter, view.markerPath (slashed front) rank = .ok shorter := by
  obtain ⟨parts, root, mirrored, hparts, hroot, hpush, hmarker⟩ := markerPath_eq_ok_iff_parts.1 h
  obtain ⟨rfl, -, hsteps⟩ := unionComponents_eq_ok_iff.1 hparts
  rw [Path.components_slashed hcomps] at hpush hsteps
  obtain ⟨back, rfl⟩ := hfront
  rw [BoundedPath.pushSegments_append] at hpush
  cases hmiddle : root.pushSegments front with
  | error e =>
    rw [hmiddle] at hpush
    cases hpush
  | ok middle =>
    rw [hmiddle] at hpush
    obtain ⟨shorter, hshorter⟩ := exists_tagged hpush hmarker
    have hsteps' : ∀ c ∈ front, IsStep c := fun c hc => hsteps c (List.mem_append_left _ hc)
    exact ⟨shorter, (markerPath_slashed_eq_ok_iff hne hsteps').2
      ⟨root, middle, hroot, hmiddle, hshorter⟩⟩

theorem isHidden_iff_front : view.isHidden fs q rank = true ↔ view.cowEnabled = true ∧
    ∃ parts, unionComponents q = .ok parts ∧ ∃ front m, front ≠ [] ∧ front <+: parts ∧
      view.markerPath (slashed front) rank = .ok m ∧ (fs.probe m.text).isSome = true := by
  rw [isHidden, Bool.and_eq_true, and_congr_right_iff]
  intro _
  cases hparts : unionComponents q with
  | error e => simp
  | ok parts =>
    have hspelled {front : List Bytes} {m : BoundedPath} (hne : front ≠ [])
        (hpre : front <+: parts) : view.markerPath (slashed front) rank = .ok m ↔
          ∃ root mirrored, view.metaRoot rank = .ok root ∧
            root.pushSegments front = .ok mirrored ∧ view.tagged mirrored = .ok m :=
      markerPath_slashed_eq_ok_iff hne (isStep_of_mem_front hparts hpre)
    simp only [Except.ok.injEq, exists_eq_left']
    cases hroot : view.metaRoot rank with
    | error e =>
      simp only [Bool.false_eq_true, false_iff]
      rintro ⟨front, m, hne, hpre, hmarker, -⟩
      obtain ⟨root, -, hroot', -⟩ := (hspelled hne hpre).1 hmarker
      cases hroot.symm.trans hroot'
    | ok root =>
      rw [hiddenAlong_eq_true_iff]
      constructor
      · rintro ⟨front, mirrored, m, hne, hpre, hpush, hmarker, hprobe⟩
        exact ⟨front, m, hne, hpre, (hspelled hne hpre).2 ⟨root, mirrored, hroot, hpush, hmarker⟩,
          hprobe⟩
      · rintro ⟨front, m, hne, hpre, hmarker, hprobe⟩
        obtain ⟨root', mirrored, hroot', hpush, htagged⟩ := (hspelled hne hpre).1 hmarker
        cases hroot.symm.trans hroot'
        exact ⟨front, mirrored, m, hne, hpre, hpush, htagged, hprobe⟩

theorem isHidden_iff_marked_front (view : UnionView) (fs : FileSystem) (q : Bytes) (rank : Nat) :
    (view.isHidden fs q rank = true ↔ view.cowEnabled = true ∧ rank < view.branches.length ∧
      components q ≠ [] ∧ (∀ c ∈ components q, c ≠ dot ∧ c ≠ dotDot) ∧
      ∃ front m, front ≠ [] ∧ front <+: components q ∧
        view.markerPath (slashed front) rank = .ok m ∧ (fs.probe m.text).isSome = true) ∧
    (∀ front longer, front ≠ [] → front <+: longer → longer <+: components q →
      (∃ e, view.markerPath (slashed front) rank = .error e) →
        ∃ e, view.markerPath (slashed longer) rank = .error e) ∧
    ∀ q', components q <+: components q' → (∀ c ∈ components q', c ≠ dot ∧ c ≠ dotDot) →
      view.isHidden fs q rank = true → view.isHidden fs q' rank = true := by
  refine ⟨?_, fun front longer hne hfront hlonger hstopped => ?_, fun q' hbelow hdots hhidden => ?_⟩
  · rw [isHidden_iff_front, and_congr_right_iff]
    intro _
    constructor
    · rintro ⟨parts, hparts, front, m, hne, hpre, hmarker, hprobe⟩
      obtain ⟨rfl, hparts', hdots⟩ := unionComponents_ok hparts
      obtain ⟨root, -, hroot, -⟩ :=
        (markerPath_slashed_eq_ok_iff hne (isStep_of_mem_front hparts hpre)).1 hmarker
      exact ⟨rank_lt_of_metaRoot hroot, hparts', hdots, front, m, hne, hpre, hmarker, hprobe⟩
    · rintro ⟨-, hparts, hdots, hmarked⟩
      exact ⟨_, unionComponents_of_dotFree hparts hdots, hmarked⟩
  · obtain ⟨e, he⟩ := hstopped
    cases hmarker : view.markerPath (slashed longer) rank with
    | error e' => exact ⟨e', rfl⟩
    | ok m =>
      have hcomps : ∀ c ∈ longer, IsComponent c := fun c hc =>
        Path.isComponent_of_mem (hlonger.subset hc)
      obtain ⟨shorter, hshorter⟩ := exists_markerPath_of_front hne hfront hcomps hmarker
      cases he.symm.trans hshorter
  · rw [isHidden_iff_front] at hhidden ⊢
    obtain ⟨hcow, parts, hparts, front, m, hne, hpre, hmarked⟩ := hhidden
    obtain ⟨rfl, -⟩ := unionComponents_ok hparts
    obtain ⟨hparts', -⟩ := unionComponents_of_below hparts hbelow hdots
    exact ⟨hcow, _, hparts', front, m, hne, hpre.trans hbelow, hmarked⟩

attribute [local instance] Host.plain in
theorem isHidden_iff_marked_front_sample :
    let fs := (Sample.view.hide Sample.session (utf8 "a") 0 .file).2.fs
    Sample.view.isHidden fs (utf8 "a") 0 = true ∧ Sample.view.isHidden fs (utf8 "/a//b") 0 = true := by
  intro fs
  obtain ⟨hiff, -, hbelow⟩ := isHidden_iff_marked_front Sample.view fs (utf8 "a") 0
  have hhidden : Sample.view.isHidden fs (utf8 "a") 0 = true :=
    hiff.2 ⟨by decide, by decide, by decide +kernel, by decide +kernel, [utf8 "a"],
      ⟨utf8 "up/.unionfs/a_HIDDEN~", 4096⟩, by decide, by decide +kernel, by decide +kernel,
      by decide +kernel⟩
  exact ⟨hhidden, hbelow (utf8 "/a//b") (by decide +kernel) (by decide +kernel) hhidden⟩

end Whiteout.UnionView
