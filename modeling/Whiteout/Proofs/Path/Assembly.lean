import Mathlib.Data.List.Chain
import Mathlib.Data.List.Forall2
import Whiteout.Proofs.Path.Build

/-!
# Paths put together from segments

What is told of a build by its segments alone. A built path has the components of its segments and
no doubled separator that is not in one of them. It is the same if the segments are built in groups
first, and the names of a path one by one build what the path that they make up does.
-/

namespace Whiteout

namespace Path

variable {first second text : Bytes} {segments : List Bytes}

def HasDoubled (text : Bytes) : Prop := [separator, separator] <:+: text

instance : DecidablePred HasDoubled := fun _ => inferInstanceAs (Decidable (_ <:+: _))

theorem not_hasDoubled_iff :
    ¬HasDoubled text ↔ text.IsChain fun x y => ¬(x = separator ∧ y = separator) := by
  rw [List.isChain_iff_forall_rel_of_append_cons_cons]
  constructor
  · rintro h x y before after rfl ⟨rfl, rfl⟩
    exact h ⟨before, after, by simp⟩
  · rintro h ⟨before, after, rfl⟩
    exact h (List.append_assoc before _ after) ⟨rfl, rfl⟩

theorem endsWithSeparator_withoutSeparator (h : ¬HasDoubled text) :
    endsWithSeparator (withoutSeparator text) = false := by
  cases hend : endsWithSeparator text with
  | false => simp [withoutSeparator, hend]
  | true =>
    obtain ⟨front, rfl⟩ := endsWithSeparator_iff.1 hend
    rw [withoutSeparator_concat, ← Bool.not_eq_true, endsWithSeparator_iff]
    rintro ⟨before, rfl⟩
    exact h ⟨before, [], by simp⟩

theorem isAbsolute_behindSeparator (h : ¬HasDoubled text) :
    isAbsolute (behindSeparator text) = false := by
  cases habs : isAbsolute text with
  | false => simp [behindSeparator, habs]
  | true =>
    obtain ⟨rest, rfl⟩ := isAbsolute_iff.1 habs
    rw [behindSeparator_cons, ← Bool.not_eq_true, isAbsolute_iff]
    rintro ⟨after, rfl⟩
    exact h ⟨[], after, by simp⟩

theorem prefix_withoutSeparator (text : Bytes) : withoutSeparator text <+: text := by
  rw [withoutSeparator]
  split
  · exact List.dropLast_prefix text
  · exact List.prefix_refl text

theorem suffix_behindSeparator (text : Bytes) : behindSeparator text <:+ text := by
  rw [behindSeparator]
  split
  · exact List.tail_suffix text
  · exact List.suffix_refl text

theorem not_hasDoubled_splice (hfront : ¬HasDoubled first) (hback : ¬HasDoubled second) :
    ¬HasDoubled (splice first second) := by
  have hend : (withoutSeparator first).getLast? ≠ some separator := by
    simpa [endsWithSeparator] using endsWithSeparator_withoutSeparator hfront
  have hstart : (behindSeparator second).head? ≠ some separator := by
    simpa [isAbsolute] using isAbsolute_behindSeparator hback
  rw [not_hasDoubled_iff] at hfront hback ⊢
  have hleft := List.IsChain.prefix hfront (prefix_withoutSeparator first)
  have hright := List.IsChain.suffix hback (suffix_behindSeparator second)
  rw [splice, List.isChain_append, List.isChain_cons]
  refine ⟨hleft, ⟨fun y hy hboth => ?_, hright⟩, fun x hx y _ hboth => ?_⟩
  · exact hstart (hboth.2 ▸ hy)
  · exact hend (hboth.1 ▸ hx)

theorem not_hasDoubled_spliceAll (h : ∀ s ∈ segments, ¬HasDoubled s) :
    ¬HasDoubled (spliceAll segments) := by
  induction segments with
  | nil => simp [spliceAll, HasDoubled]
  | cons first others ih =>
    have hothers := ih fun s hs => h s (List.mem_cons_of_mem _ hs)
    by_cases hlast : others = []
    · rw [hlast]
      exact h first List.mem_cons_self
    · rw [spliceAll_cons first hlast]
      exact not_hasDoubled_splice (h first List.mem_cons_self) hothers

end Path

namespace BoundedPath

open Text (utf8)
open Whiteout.Path (IsComponent HasDoubled components spliceAll)
open Whiteout.Marker (slashed)

/-- A path is the splice of its segments, if none is empty and the whole fits; otherwise the first
segment that is empty or that the path has no room for is the error. -/
theorem build_exactly (limit : Nat) (segments : List Bytes) :
    (segments ≠ [] → (∀ s ∈ segments, s ≠ []) → (spliceAll segments).length + 1 ≤ limit →
      build limit segments = .ok ⟨spliceAll segments, limit⟩) ∧
    (segments = [] → build limit segments = .error (.argument .noSegment)) ∧
    (segments ≠ [] → ¬((∀ s ∈ segments, s ≠ []) ∧ (spliceAll segments).length + 1 ≤ limit) →
      ∃ i < segments.length, Offends limit segments i ∧ (∀ j < i, ¬Offends limit segments j) ∧
        build limit segments = .error (fault limit segments i)) ∧
    ∀ path, build limit segments = .ok path →
      components path.text = segments.flatMap components ∧
      ((∀ s ∈ segments, ¬HasDoubled s) → ¬HasDoubled path.text) := by
  refine ⟨fun hne hfull hroom => ?_, fun hnil => ?_, fun hne hnot => ?_, fun path hpath => ?_⟩
  · exact build_eq_ok_iff.2 ⟨hne, ⟨hfull, fun _ => hroom⟩, rfl⟩
  · rw [hnil, build]
  · exact build_of_not_fits hne fun h => hnot ⟨h.1, h.2 hne⟩
  · obtain ⟨-, -, rfl⟩ := build_eq_ok_iff.1 hpath
    exact ⟨Path.components_spliceAll segments, Path.not_hasDoubled_spliceAll⟩

/-- A lone separator joins on both sides, and a segment that comes too late is not asked about. -/
theorem build_exactly_sample :
    build 20 [utf8 "/mnt/", utf8 "/", utf8 "/foo"] = .ok ⟨utf8 "/mnt/foo", 20⟩ ∧
    ¬HasDoubled (utf8 "/mnt/foo") ∧
    build 8 [utf8 "/mnt", utf8 "foo", []] = .error (.nameTooLong 8 8) := by
  obtain ⟨hbuilt, -, -, hreading⟩ := build_exactly 20 [utf8 "/mnt/", utf8 "/", utf8 "/foo"]
  have hok : build 20 [utf8 "/mnt/", utf8 "/", utf8 "/foo"] = .ok ⟨utf8 "/mnt/foo", 20⟩ :=
    hbuilt (by decide) (by decide +kernel) (by decide +kernel)
  obtain ⟨-, -, hstopped, -⟩ := build_exactly 8 [utf8 "/mnt", utf8 "foo", []]
  obtain ⟨i, -, hoff, hfirst, herror⟩ := hstopped (by decide) (by decide +kernel)
  have hsecond : Offends 8 [utf8 "/mnt", utf8 "foo", []] 1 := by decide +kernel
  have hi : i = 1 := by
    rcases Nat.lt_trichotomy i 1 with hlt | heq | hgt
    · rw [Nat.lt_one_iff.1 hlt] at hoff
      exact absurd hoff (by decide +kernel)
    · exact heq
    · exact absurd hsecond (hfirst 1 hgt)
  rw [hi] at herror
  exact ⟨hok, (hreading _ hok).2 (by decide +kernel), herror⟩

theorem map_text_of_built {groups : List (List Bytes)} {paths : List BoundedPath}
    (h : List.Forall₂ (fun g p => ∃ capacity, build capacity g = .ok p) groups paths) :
    paths.map text = groups.map spliceAll := by
  induction h with
  | nil => rfl
  | cons hbuilt _ ih =>
    obtain ⟨capacity, hok⟩ := hbuilt
    obtain ⟨-, -, rfl⟩ := build_eq_ok_iff.1 hok
    rw [List.map_cons, ih, List.map_cons]

/-- Segments that are built in groups first make the same path. In particular the names of a path
below a root make the same path one by one as all at once, or an error of the same number. -/
theorem build_grouped (limit : Nat) (groups : List (List Bytes)) (hgroups : ∀ g ∈ groups, g ≠ [])
    (hfull : ∀ g ∈ groups, ∀ s ∈ g, s ≠ []) :
    (∀ g ∈ groups, ∀ capacity, (∃ p, build capacity g = .ok p) ↔
      (spliceAll g).length + 1 ≤ capacity) ∧
    (∀ paths, List.Forall₂ (fun g p => ∃ capacity, build capacity g = .ok p) groups paths →
      ∀ path, build limit (paths.map text) = .ok path ↔ build limit groups.flatten = .ok path) ∧
    ∀ root names, names ≠ [] → (∀ n ∈ names, IsComponent n) →
      (build limit [root, slashed names]).mapError Error.errno =
        (build limit (root :: names)).mapError Error.errno := by
  refine ⟨fun g hg capacity => exists_build_iff (hgroups g hg) (hfull g hg),
    fun paths hpaths path => ?_, fun root names hne hnames => ?_⟩
  · rw [map_text_of_built hpaths]
    exact build_map_spliceAll hgroups hfull
  · by_cases hroot : root = []
    · rw [hroot]
      rfl
    · have hslashed : slashed names ≠ [] := by
        obtain ⟨first, others, rfl⟩ := List.exists_cons_of_ne_nil hne
        simp [slashed]
      have hpair : spliceAll [root, slashed names] = spliceAll (root :: names) :=
        Path.splice_slashed root hne hnames
      rw [errno_build (List.cons_ne_nil _ _) (by simp [hroot, hslashed]),
        errno_build (List.cons_ne_nil _ _) (by simpa [hroot] using fun n hn => (hnames n hn).1),
        hpair]

/-- One byte of room less, and the names fail one by one as they fail at once. -/
theorem build_grouped_sample :
    build 9 [utf8 "/mnt/", utf8 "/", utf8 "/", utf8 "foo"] = .ok ⟨utf8 "/mnt/foo", 9⟩ ∧
    (build 8 [utf8 "/mnt", slashed [utf8 "a", utf8 "bc"]]).mapError Error.errno =
      (build 8 [utf8 "/mnt", utf8 "a", utf8 "bc"]).mapError Error.errno := by
  obtain ⟨-, hgrouped, -⟩ := build_grouped 9
    [[utf8 "/mnt/", utf8 "/"], [utf8 "/", utf8 "foo"]] (by decide) (by decide +kernel)
  obtain ⟨-, -, hnames⟩ := build_grouped 8 [] (by simp) (by simp)
  have hbuilt : List.Forall₂ (fun g p => ∃ capacity, build capacity g = .ok p)
      [[utf8 "/mnt/", utf8 "/"], [utf8 "/", utf8 "foo"]]
      [⟨utf8 "/mnt/", 6⟩, ⟨utf8 "/foo", 5⟩] :=
    .cons ⟨6, by decide +kernel⟩ (.cons ⟨5, by decide +kernel⟩ .nil)
  have hcomponents : ∀ n ∈ [utf8 "a", utf8 "bc"], n ≠ [] ∧ Path.separator ∉ n := by decide +kernel
  exact ⟨(hgrouped _ hbuilt _).1 (by decide +kernel), hnames _ _ (by decide) hcomponents⟩

end BoundedPath

end Whiteout
