import Whiteout.Proofs.Marker.Footprint

/-!
# Markers inside their branch

A marker path is the branch root, the name of the metadata directory and the marker's names. The
marker's names lead down, whatever the tag is, so the marker is below a directory of its branch
exactly if the name of the metadata directory leads down as well. The checks of a configuration do
not ask for that: `.` and `..` pass as names.
-/

namespace Whiteout.UnionView

open Text (utf8)
open Whiteout.Path (dot dotDot components IsProper)

variable {view : UnionView} {rank : Nat} {path : Bytes} {m : BoundedPath}

theorem markerPath_names (hv : view.Accepted) (h : view.markerPath path rank = .ok m) :
    ∃ b names, view.branches[rank]? = some b ∧ names ≠ [] ∧ (∀ n ∈ names, IsProper n) ∧
      components m.text = components b.root ++ [view.metaDir] ++ names ∧
      ∀ fs : FileSystem, fs.placeOf m.text = view.metaPlace fs b ++ names := by
  obtain ⟨parts, b, hparts, hb, -, rfl⟩ := (markerPath_eq_ok_iff hv).1 h
  obtain ⟨-, hne, hsteps⟩ := unionComponents_eq_ok_iff.1 hparts
  refine ⟨b, view.markerNames parts, hb, by simp [markerNames], fun n hn => ?_, ?_, fun fs => ?_⟩
  · exact (isStep_of_mem_markerNames hv hne hsteps n hn).1
  · exact components_markerText_eq hv b hne hsteps
  · exact placeOf_markerText hv hb fs hne hsteps

theorem marker_inside_branch_iff {home : Option String} {config : Config}
    (haccepted : ofConfig home config = .ok view) (hmarker : view.markerPath path rank = .ok m) :
    ∃ b further, view.branches[rank]? = some b ∧
      components m.text = components b.root ++ further ∧ 2 ≤ further.length ∧
      ((∀ c ∈ further, c ≠ dot ∧ c ≠ dotDot) ↔ view.metaDir ≠ dot ∧ view.metaDir ≠ dotDot) ∧
      ((∀ c ∈ further, c ≠ dot ∧ c ≠ dotDot) →
        ∀ fs : FileSystem, fs.placeOf m.text = fs.placeOf b.root ++ further) := by
  have hv := accepted_of_ofConfig haccepted
  obtain ⟨b, names, hb, hne, hproper, hcomps, hplace⟩ := markerPath_names hv hmarker
  have hpos : 0 < names.length := List.length_pos_iff.2 hne
  refine ⟨b, view.metaDir :: names, hb, by rw [hcomps]; simp, Nat.succ_le_succ hpos,
    ⟨fun h => h _ List.mem_cons_self, fun h c hc => ?_⟩, fun h fs => ?_⟩
  · rcases List.mem_cons.1 hc with rfl | hc
    · exact h
    · exact (hproper c hc).2
  · have hmeta : ∀ n ∈ [view.metaDir], IsProper n := by
      intro n hn
      rw [List.mem_singleton.1 hn]
      exact ⟨hv.metaDir.1, h _ List.mem_cons_self⟩
    rw [hplace, metaPlace_eq hv hb, Location.along_of_proper hmeta, List.append_assoc,
      List.singleton_append]

theorem marker_inside_branch_iff_sample :
    ∃ b further, Sample.view.branches[0]? = some b ∧
      components (utf8 "up/.unionfs/a_HIDDEN~") = components b.root ++ further ∧
      2 ≤ further.length ∧ ∀ c ∈ further, c ≠ dot ∧ c ≠ dotDot := by
  have hmarker : Sample.view.markerPath (utf8 "/a/") 0 =
      .ok ⟨utf8 "up/.unionfs/a_HIDDEN~", 4096⟩ := by
    decide +kernel
  obtain ⟨b, further, hb, hcomps, hlen, hdots, -⟩ :=
    marker_inside_branch_iff Sample.ofConfig_config hmarker
  exact ⟨b, further, hb, hcomps, hlen, hdots.2 (by decide +kernel)⟩

/-- A metadata directory named `..` is accepted, and the marker stands outside the branch. -/
theorem marker_outside_branch :
    let view := { Sample.view with metaDir := utf8 ".." }
    ofConfig none { Sample.config with metaDir := some ".." } = .ok view ∧
      view.markerPath (utf8 "a") 0 = .ok ⟨utf8 "up/../a_HIDDEN~", 4096⟩ ∧
      (∀ further, components (utf8 "up/../a_HIDDEN~") = components (utf8 "up") ++ further →
        dotDot ∈ further) ∧
      Sample.session.fs.placeOf (utf8 "up") = [utf8 "up"] ∧
      Sample.session.fs.placeOf (utf8 "up/../a_HIDDEN~") = [utf8 "a_HIDDEN~"] := by
  have hcomps : components (utf8 "up/../a_HIDDEN~") =
      components (utf8 "up") ++ [dotDot, utf8 "a_HIDDEN~"] := by
    decide +kernel
  refine ⟨by decide +kernel, by decide +kernel, fun further hfurther => ?_, by decide +kernel,
    by decide +kernel⟩
  rw [hcomps] at hfurther
  rw [← List.append_cancel_left hfurther]
  exact List.mem_cons_self

end Whiteout.UnionView
