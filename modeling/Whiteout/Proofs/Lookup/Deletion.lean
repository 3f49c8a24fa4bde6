import Whiteout.Proofs.FileSystem.Probe
import Whiteout.Proofs.Lookup.Scan
import Whiteout.Proofs.Marker.Growth

/-!
# Deleted paths stay deleted

After a deletion the path is hidden if a lower branch provides it. What a lower branch holds below
the path needs no marker of its own: a branch that lacks the path holds nothing below it, and a
marker that ends the scan for the path ends the scan for everything below.
-/

namespace Whiteout.UnionView

open Text (utf8)
open Whiteout.Path (separator dot dotDot components)

variable {view : UnionView} {fs : FileSystem} {path q : Bytes} {rank : Nat}

/-- The path itself, or one written below it whose further components lead strictly down. -/
def Covers (path q : Bytes) : Prop :=
  q = path ∨ ∃ rest, q = path ++ separator :: rest ∧ ∀ c ∈ components rest, c ≠ dot ∧ c ≠ dotDot

theorem Covers.components_prefix (h : Covers path q) : components path <+: components q := by
  rcases h with rfl | ⟨rest, rfl, -⟩
  · exact List.prefix_refl _
  · exact ⟨components rest, (Path.components_append_separator path rest).symm⟩

theorem Covers.no_dots (h : Covers path q) (hpath : ∀ c ∈ components path, c ≠ dot ∧ c ≠ dotDot) :
    ∀ c ∈ components q, c ≠ dot ∧ c ≠ dotDot := by
  rcases h with rfl | ⟨rest, rfl, hrest⟩
  · exact hpath
  · intro c hc
    rw [Path.components_append_separator] at hc
    exact (List.mem_append.1 hc).elim (hpath c) (hrest c)

theorem isHidden_of_covers (hv : view.Accepted) (h : Covers path q)
    (hhidden : view.isHidden fs path rank = true) : view.isHidden fs q rank = true := by
  obtain ⟨hcow, parts, hparts, front, hne, hfront, hmarker⟩ := (isHidden_iff hv).1 hhidden
  have hsteps := unionComponents_eq_ok_iff.1 hparts
  have hdots := h.no_dots fun c hc => (hsteps.2.2 c (hsteps.1 ▸ hc)).1.2
  obtain ⟨hq, hbelow⟩ := unionComponents_of_below hparts h.components_prefix hdots
  exact isHidden_of_hasMarker hv hcow hq hne (hfront.trans hbelow) hmarker

theorem Lacks.path_ne_nil (hv : view.Accepted) (h : view.Lacks fs path rank) : path ≠ [] := by
  obtain ⟨b, full, hb, hfull, -⟩ := h
  exact ((entryPath_eq_ok_iff (hv.rooted b (List.mem_of_getElem? hb))).1 hfull).1

theorem Lacks.not_provides (hv : view.Accepted) (h : Covers path q)
    (hlacks : view.Lacks fs path rank) : ¬view.Provides fs q rank := by
  intro hprovides
  rcases h with rfl | ⟨rest, rfl, -⟩
  · exact hprovides.not_lacks hlacks
  · have hne := hlacks.path_ne_nil hv
    obtain ⟨b, full, hb, hfull, hnone⟩ := hlacks
    obtain ⟨b', below, hb', hbelow, hsome⟩ := hprovides
    cases hb.symm.trans hb'
    have hroot : b.root ≠ [] := hv.rooted b (List.mem_of_getElem? hb)
    obtain ⟨-, -, rfl⟩ := (entryPath_eq_ok_iff hroot).1 hfull
    obtain ⟨-, -, rfl⟩ := (entryPath_eq_ok_iff hroot).1 hbelow
    rw [BoundedPath.joined_append_separator _ hne] at hsome
    have hfound := FileSystem.probe_of_below (BoundedPath.joined_ne_nil hroot) hsome
    rw [hnone] at hfound
    cases hfound

theorem findBranch_lt_of_covers (hv : view.Accepted) (h : Covers path q) {start : Nat}
    (hnone : view.findBranch fs path start = .ok none) {found : Nat}
    (hfound : view.findBranch fs q 0 = .ok (some found)) : found < start := by
  obtain ⟨-, hprovides, hbefore⟩ := findBranch_eq_some hv hfound
  obtain ⟨stop, hpassed, hstop⟩ := findBranch_eq_none hv hnone
  have hlt : found < view.branches.length := by
    obtain ⟨b, -, hb, -⟩ := hprovides
    exact (List.getElem?_eq_some_iff.1 hb).1
  apply Nat.lt_of_not_le
  intro hle
  rcases Nat.lt_or_ge found stop with hearly | hlate
  · exact (hpassed found hle hearly).1.not_provides hv h hprovides
  · obtain ⟨hlacks, hhidden⟩ := hstop.resolve_left (by omega)
    by_cases hsame : stop = found
    · exact (hsame ▸ hlacks).not_provides hv h hprovides
    · have hvisible := (hbefore stop (Nat.zero_le _) (by omega)).2
      rw [isHidden_of_covers hv h hhidden] at hvisible
      cases hvisible

theorem nextRank_le (rank : Nat) : nextRank rank ≤ rank + 1 := Nat.mod_le _ _

theorem not_found_after_hideIfProvided [Host] {home : Option String} {config : Config}
    (haccepted : ofConfig home config = .ok view) (hcow : view.cowEnabled = true)
    {s after : Session} {kind : Kind}
    (hdeleted : view.hideIfProvided view.findBelow s path rank kind = (.ok (), after))
    (hq : Covers path q) (hgone : ∀ j, j ≤ rank → ¬view.Provides after.fs q j) (found : Nat) :
    view.findBranch after.fs q 0 ≠ .ok (some found) := by
  intro hfound
  have hv := accepted_of_ofConfig haccepted
  obtain ⟨-, hprovides, hbefore⟩ := findBranch_eq_some hv hfound
  have hlow : rank < found := Nat.lt_of_not_le fun hle => hgone found hle hprovides
  rw [hideIfProvided] at hdeleted
  split at hdeleted
  · cases hdeleted
  · next hnone =>
    cases hdeleted
    have hhigh := findBranch_lt_of_covers hv hq hnone hfound
    have hnext := nextRank_le rank
    omega
  · have hhidden : view.isHidden after.fs path rank = true := by
      have hhide : (view.hide s path rank kind).1 = .ok () := by rw [hdeleted]
      obtain ⟨parts, hparts, hmarker⟩ := hasMarker_of_hide hv hhide
      rw [hdeleted] at hmarker
      exact isHidden_of_hasMarker hv hcow hparts (unionComponents_eq_ok_iff.1 hparts).2.1
        (List.prefix_refl _) hmarker
    have hvisible := (hbefore rank (Nat.zero_le _) hlow).2
    rw [isHidden_of_covers hv hq hhidden] at hvisible
    cases hvisible

attribute [local instance] Host.plain in
theorem not_found_after_hideIfProvided_sample :
    Sample.view.findBranch
      (Sample.view.hideIfProvided Sample.view.findBelow Sample.session (utf8 "a") 0 .file).2.fs
      (utf8 "a//b") 0 ≠ .ok (some 1) := by
  generalize hrun :
    Sample.view.hideIfProvided Sample.view.findBelow Sample.session (utf8 "a") 0 .file = outcome
  have hdone : outcome = (.ok (), outcome.2) := Prod.ext (by rw [← hrun]; decide +kernel) rfl
  have hgone : outcome.2.fs.probe (utf8 "up/a//b") = none := by rw [← hrun]; decide +kernel
  refine not_found_after_hideIfProvided Sample.ofConfig_config rfl (hrun.trans hdone) ?_ ?_ 1
  · exact .inr ⟨utf8 "/b", by decide +kernel, by decide +kernel⟩
  · intro j hj hprovides
    rcases hprovides with ⟨b, full, hb, hfull, hsome⟩
    obtain rfl : j = 0 := by omega
    cases hb
    have hplace : Sample.view.entryPath ⟨0, utf8 "up", .readWrite⟩ (utf8 "a//b") =
        .ok ⟨utf8 "up/a//b", 4096⟩ := by
      decide +kernel
    cases hplace.symm.trans hfull
    rw [hgone] at hsome
    cases hsome

end Whiteout.UnionView
