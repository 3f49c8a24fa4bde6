import Whiteout.Marker.Remove
import Whiteout.Proofs.FileSystem.Spelled
import Whiteout.Proofs.Marker.Place

/-!
# What a clean removal leaves

A removal without failures has taken away, in every branch it was asked about, whatever stood at the
marker path, and has added nothing.
-/

namespace Whiteout

open Whiteout.FileSystem (Grows IsCut)
open Whiteout.Path (EndsNamed)

namespace FileSystem

variable {fs without : FileSystem} {path : Bytes}

theorem place_ne_nil_of_entryAt (hpath : EndsNamed path) {place : Location} {e : Entry}
    (h : fs.entryAt path = .ok (place, e)) : place ≠ [] := by
  obtain ⟨hend, front, last, hpath, hlast⟩ := hpath
  obtain ⟨spot, hresolve, rfl, -⟩ := entryAt_eq_ok_iff.1 h
  have hwalk := (resolve_eq_ok_iff.1 hresolve).2
  rw [hops_of_not_endsWithSeparator hend, hpath] at hwalk
  obtain ⟨place, rfl⟩ := hwalk.named hlast.1
  exact Location.ne_nil_of_isNamed (resolve_reached hresolve).1

theorem probe_eq_none_of_removed (hgrow : Grows without fs) {place : Location} {e : Entry}
    (h : fs.entryAt path = .ok (place, e)) (hgone : without.tree.get? place = none) :
    without.probe path = none := by
  apply Option.eq_none_iff_forall_ne_some.2
  intro kind hkind
  obtain ⟨⟨place', e'⟩, he⟩ :=
    probe_isSome_iff.1 (by simp [hkind] : (without.probe path).isSome = true)
  cases h.symm.trans (hgrow.entryAt he)
  rw [entryAt_ok he] at hgone
  cases hgone

theorem removeMarker_eq_none_iff : fs.removeMarker path = none ↔ fs.probe path = none := by
  rw [removeMarker]
  split <;> simp_all

theorem removeMarker_cases (hpath : EndsNamed path) (fs : FileSystem) :
    (∀ x, fs.entryAt path ≠ .ok x) ∧ fs.removeMarker path = none ∨
    (∃ place e without, fs.entryAt path = .ok (place, e) ∧
      (e.isDir = true → fs.tree.isEmptyAt place = true) ∧
        fs.removeMarker path = some (.ok without) ∧ IsCut fs without place) ∨
    ∃ place mode, fs.entryAt path = .ok (place, .dir mode) ∧ fs.tree.isEmptyAt place = false ∧
      fs.removeMarker path = some (.error (.system .notEmpty)) := by
  cases he : fs.entryAt path with
  | error fault =>
    have hnone : fs.probe path = none := (probe_eq_none_iff fs path).2 ⟨fault, he⟩
    exact .inl ⟨nofun, removeMarker_eq_none_iff.2 hnone⟩
  | ok found =>
    obtain ⟨place, e⟩ := found
    have hprobe : fs.probe path = some e.kind := by rw [probe, he]
    cases hdir : e.isDir with
    | false =>
      have hkind : e.kind = .file := by rw [Entry.kind, hdir]; rfl
      obtain ⟨without, hgone, hcut⟩ := unlink_of_entryAt he hdir
      have hremove : fs.removeMarker path = some (.ok without) := by
        rw [removeMarker, hprobe, hkind, ← hgone]
      exact .inr (.inl ⟨place, e, without, rfl, by simp [hdir], hremove, hcut⟩)
    | true =>
      have hkind : e.kind = .dir := by rw [Entry.kind, hdir]; rfl
      have hremove : fs.removeMarker path = some (fs.unlinkDir path) := by
        rw [removeMarker, hprobe, hkind]
      cases hempty : fs.tree.isEmptyAt place with
      | true =>
        obtain ⟨without, hgone, hcut⟩ := unlinkDir_of_entryAt he hdir hempty
          (place_ne_nil_of_entryAt hpath he)
        rw [hgone] at hremove
        exact .inr (.inl ⟨place, e, without, rfl, fun _ => hempty, hremove, hcut⟩)
      | false =>
        obtain ⟨mode, rfl⟩ := Entry.isDir_iff.1 hdir
        refine .inr (.inr ⟨place, mode, rfl, hempty, ?_⟩)
        rw [hremove]
        simp [unlinkDir, he, Entry.isDir, hempty]

theorem removeMarker_ok (hpath : EndsNamed path)
    (h : fs.removeMarker path = some (.ok without)) :
    Grows without fs ∧ without.probe path = none := by
  rcases removeMarker_cases hpath fs with
    ⟨-, hnone⟩ | ⟨place, e, cut, he, -, hremove, hcut⟩ | ⟨place, mode, -, -, hfull⟩
  · rw [hnone] at h
    cases h
  · cases hremove.symm.trans h
    exact ⟨hcut.shrinks, probe_eq_none_of_removed hcut.shrinks he (by rw [hcut.2, if_pos rfl])⟩
  · rw [hfull] at h
    cases h

theorem removeMarker_ne_notFound : fs.removeMarker path ≠ some (.error (.system .notFound)) := by
  rw [removeMarker]
  split
  · simp
  · next hfile =>
    obtain ⟨⟨place, e⟩, he⟩ := probe_isSome_iff.1 (by simp [hfile] : (fs.probe path).isSome = true)
    simp only [unlink, he]
    split <;> simp
  · next hdir =>
    obtain ⟨⟨place, e⟩, he⟩ := probe_isSome_iff.1 (by simp [hdir] : (fs.probe path).isSome = true)
    simp only [unlinkDir, he]
    split
    · simp
    · split <;> simp

end FileSystem

namespace UnionView

variable {view : UnionView} {fs final : FileSystem} {path : Bytes} {report : CleanupReport}

theorem markerPath_endsNamed (hv : view.Accepted) {rank : Nat} {m : BoundedPath}
    (h : view.markerPath path rank = .ok m) : EndsNamed m.text := by
  obtain ⟨parts, b, hparts, -, -, rfl⟩ := (markerPath_eq_ok_iff hv).1 h
  obtain ⟨-, hne, hsteps⟩ := unionComponents_eq_ok_iff.1 hparts
  obtain ⟨front, last, rfl⟩ := Location.exists_concat hne
  exact ⟨endsWithSeparator_markerText hv b _, _, _, components_markerText hv b hsteps,
    (hsteps last (by simp)).append hv.hideTag⟩

theorem unhideIn_clean (hv : view.Accepted) {ranks : List Nat}
    (h : view.unhideIn fs path ranks = (.ok report, final)) (hclean : report.failures = []) :
    Grows final fs ∧ ∀ rank ∈ ranks, ∃ marker, view.markerPath path rank = .ok marker ∧
      final.probe marker.text = none := by
  induction ranks generalizing fs report with
  | nil =>
    cases h
    exact ⟨.refl _, nofun⟩
  | cons rank others ih =>
    rw [unhideIn] at h
    cases hmarker : view.markerPath path rank with
    | error e => rw [hmarker] at h; cases h
    | ok marker =>
      rw [hmarker] at h
      dsimp only at h
      -- what the rest of the cleanup leaves lacks the marker if what it starts from lacks it
      have hrest {start : FileSystem} (hgrow : Grows start fs)
          (hnone : start.probe marker.text = none) {rest : CleanupReport}
          (hothers : view.unhideIn start path others = (.ok rest, final))
          (hempty : rest.failures = []) :
          Grows final fs ∧ ∀ r ∈ rank :: others, ∃ marker,
            view.markerPath path r = .ok marker ∧ final.probe marker.text = none := by
        obtain ⟨hshrunk, hgone⟩ := ih hothers hempty
        refine ⟨hshrunk.trans hgrow, fun r hr => ?_⟩
        rcases List.mem_cons.1 hr with rfl | hr
        · refine ⟨marker, hmarker, Option.not_isSome_iff_eq_none.1 fun hsome => ?_⟩
          have hbefore := hshrunk.probe_isSome hsome
          rw [hnone] at hbefore
          cases hbefore
        · exact hgone r hr
      split at h
      · next hnone => exact hrest (.refl _) (FileSystem.removeMarker_eq_none_iff.1 hnone) h hclean
      · next without hremoved =>
        obtain ⟨hgrow, hnone⟩ :=
          FileSystem.removeMarker_ok (markerPath_endsNamed hv hmarker) hremoved
        generalize hothers : view.unhideIn without path others = outcome at h
        obtain ⟨outcome | rest, after⟩ := outcome
        · cases h
        · cases h
          exact hrest hgrow hnone hothers hclean
      · next hnotFound => exact absurd hnotFound FileSystem.removeMarker_ne_notFound
      · generalize view.unhideIn fs path others = outcome at h
        obtain ⟨outcome | rest, after⟩ := outcome
        · cases h
        · cases h
          cases hclean

end UnionView

end Whiteout
