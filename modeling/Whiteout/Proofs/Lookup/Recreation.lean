import Whiteout.Proofs.Lookup.Scan
import Whiteout.Proofs.Marker.Cleanup

/-!
# Recreated entries are visible again

A scan stops above a branch only if a path is hidden there, by a marker of its own or by one of a
directory above it. A clean removal leaves no marker of its own in the branches it was asked about,
and makes none for the directories above.
-/

namespace Whiteout.UnionView

open Text (utf8)
open Whiteout.FileSystem (Grows)
open Whiteout.Path (components)
open Whiteout.Marker (slashed)

variable {view : UnionView} {fs after : FileSystem} {path : Bytes} {rank : Nat}
  {report : CleanupReport}

theorem isHidden_eq_false_of_removed (hv : view.Accepted) (hgrow : Grows after fs)
    {marker : BoundedPath} (hmarker : view.markerPath path rank = .ok marker)
    (hnone : after.probe marker.text = none)
    (habove : ∀ front, front ≠ [] → front <+: components path → front ≠ components path →
      view.isHidden fs (slashed front) rank = false) : view.isHidden after path rank = false := by
  rw [← Bool.not_eq_true]
  intro hhidden
  obtain ⟨hcow, parts, hparts, front, hne, hfront, hstands⟩ := (isHidden_iff hv).1 hhidden
  obtain ⟨rfl, -⟩ := unionComponents_eq_ok_iff.1 hparts
  by_cases hwhole : front = components path
  · obtain ⟨parts, b, hparts', hb, -, rfl⟩ := (markerPath_eq_ok_iff hv).1 hmarker
    cases hparts.symm.trans hparts'
    obtain ⟨b', hb', -, hsome⟩ := hstands
    cases hb.symm.trans hb'
    rw [hwhole, hnone] at hsome
    cases hsome
  · have hpath := unionComponents_slashed hne (isStep_of_mem_front hparts hfront)
    have hbefore : view.isHidden fs (slashed front) rank = true :=
      isHidden_of_hasMarker hv hcow hpath hne (List.prefix_refl _) (hstands.grows hgrow)
    rw [habove front hne hfront hwhole] at hbefore
    cases hbefore

theorem isHidden_eq_false_of_unhide (hv : view.Accepted) (hrank : rank < view.branches.length)
    (hremoved : view.unhide fs path (some rank) = (.ok report, after))
    (hclean : report.failures = []) {j : Nat} (hj : j ≤ rank)
    (habove : ∀ front, front ≠ [] → front <+: components path → front ≠ components path →
      view.isHidden fs (slashed front) j = false) : view.isHidden after path j = false := by
  cases hcow : view.cowEnabled with
  | false => exact isHidden_of_disabled hcow after path j
  | true =>
    rw [unhide, hcow, if_pos rfl] at hremoved
    obtain ⟨hgrow, hgone⟩ := unhideIn_clean hv hremoved hclean
    have hmem : j ∈ List.range (view.unhideCount (some rank)) := by
      rw [List.mem_range, unhideCount]
      omega
    obtain ⟨marker, hmarker, hnone⟩ := hgone j hmem
    exact isHidden_eq_false_of_removed hv hgrow hmarker hnone habove

theorem found_after_unhide {home : Option String} {config : Config}
    (haccepted : ofConfig home config = .ok view)
    (hremoved : view.unhide fs path (some rank) = (.ok report, after))
    (hclean : report.failures = []) (hentry : view.Provides after path rank)
    (habove : ∀ j, j < rank → ∀ front, front ≠ [] → front <+: components path →
      front ≠ components path → view.isHidden fs (slashed front) j = false) :
    view.findBranch after path 0 ≠ .ok none ∧
      ∀ found, view.findBranch after path 0 = .ok (some found) → found ≤ rank := by
  have hv := accepted_of_ofConfig haccepted
  have hrank : rank < view.branches.length := by
    obtain ⟨b, -, hb, -⟩ := hentry
    exact (List.getElem?_eq_some_iff.1 hb).1
  constructor
  · intro hnone
    obtain ⟨stop, hpassed, hstop⟩ := findBranch_eq_none hv hnone
    rcases Nat.lt_or_ge rank stop with hlate | hearly
    · exact hentry.not_lacks (hpassed rank (Nat.zero_le _) hlate).1
    · obtain ⟨hlacks, hhidden⟩ := hstop.resolve_left (by omega)
      by_cases hsame : stop = rank
      · exact hentry.not_lacks (hsame ▸ hlacks)
      · have hvisible :=
          isHidden_eq_false_of_unhide hv hrank hremoved hclean hearly (habove stop (by omega))
        rw [hhidden] at hvisible
        cases hvisible
  · intro found hfound
    apply Nat.le_of_not_lt
    intro hlate
    exact hentry.not_lacks ((findBranch_eq_some hv hfound).2.2 rank (Nat.zero_le _) hlate).1

attribute [local instance] Host.plain in
theorem found_after_unhide_sample :
    Sample.view.findBranch
      (Sample.view.unhide (Sample.view.hide Sample.session (utf8 "/a") 0 .dir).2.fs
        (utf8 "a") (some 1)).2 (utf8 "a") 0 ≠ .ok none := by
  generalize hremoved : Sample.view.unhide
    (Sample.view.hide Sample.session (utf8 "/a") 0 .dir).2.fs (utf8 "a") (some 1) = outcome
  have hdone : outcome = (.ok ⟨[0], []⟩, outcome.2) :=
    Prod.ext (by rw [← hremoved]; decide +kernel) rfl
  have hentry : outcome.2.probe (utf8 "low/a") = some .file := by rw [← hremoved]; decide +kernel
  have hplace : Sample.view.entryPath ⟨1, utf8 "low", .readOnly⟩ (utf8 "a") =
      .ok ⟨utf8 "low/a", 4096⟩ := by
    decide +kernel
  refine (found_after_unhide Sample.ofConfig_config (hremoved.trans hdone) rfl
    ⟨_, _, rfl, hplace, by simp [hentry]⟩ ?_).1
  intro j hj front hne hfront hproper
  have hone : components (utf8 "a") = [utf8 "a"] := by decide +kernel
  rw [hone] at hfront hproper
  obtain ⟨first, more, rfl⟩ := List.exists_cons_of_ne_nil hne
  obtain ⟨rfl, hmore⟩ := List.cons_prefix_cons.1 hfront
  rw [List.prefix_nil.1 hmore] at hproper
  exact absurd rfl hproper

end Whiteout.UnionView
