import Whiteout.Proofs.Path.Joining

/-!
# Splicing texts

Two texts are spliced with one separator between them, in place of the one that either may have
there. Splicing is associative, also where a text is a lone separator and gives up both of its ends
at once, so the splice of many texts does not depend on how they are grouped. It adds up the
components.
-/

namespace Whiteout.Path

open Whiteout.Marker (slashed)

variable {first second text : Bytes} {front back segments names : List Bytes}

def behindSeparator (path : Bytes) : Bytes := if isAbsolute path then path.tail else path

def splice (front back : Bytes) : Bytes := withoutSeparator front ++ separator :: behindSeparator back

theorem withoutSeparator_concat (text : Bytes) : withoutSeparator (text ++ [separator]) = text := by
  simp [withoutSeparator, endsWithSeparator]

theorem withoutSeparator_append (text : Bytes) {rest : Bytes} (h : rest ≠ []) :
    withoutSeparator (text ++ rest) = text ++ withoutSeparator rest := by
  rw [withoutSeparator, endsWithSeparator_append text h, withoutSeparator,
    List.dropLast_append_of_ne_nil h]
  split <;> rfl

theorem behindSeparator_cons (rest : Bytes) : behindSeparator (separator :: rest) = rest := rfl

theorem behindSeparator_append {text : Bytes} (h : text ≠ []) (rest : Bytes) :
    behindSeparator (text ++ rest) = behindSeparator text ++ rest := by
  rw [behindSeparator, isAbsolute_append h, behindSeparator, List.tail_append_of_ne_nil h]
  split <;> rfl

theorem withoutSeparator_behindSeparator (h : behindSeparator text ≠ []) :
    withoutSeparator text ≠ [] ∧
      withoutSeparator (behindSeparator text) = behindSeparator (withoutSeparator text) := by
  cases habs : isAbsolute text with
  | true =>
    obtain ⟨rest, rfl⟩ := isAbsolute_iff.1 habs
    rw [behindSeparator_cons] at h ⊢
    have hkept : withoutSeparator (separator :: rest) = separator :: withoutSeparator rest :=
      withoutSeparator_append [separator] h
    rw [hkept]
    exact ⟨List.cons_ne_nil _ _, rfl⟩
  | false =>
    have hstart : behindSeparator text = text := by simp [behindSeparator, habs]
    rw [hstart] at h ⊢
    cases hend : endsWithSeparator text with
    | true =>
      obtain ⟨front, rfl⟩ := endsWithSeparator_iff.1 hend
      have hfront : front ≠ [] := by
        intro hnil
        simp [hnil, isAbsolute] at habs
      rw [isAbsolute_append hfront] at habs
      rw [withoutSeparator_concat, behindSeparator, habs]
      exact ⟨hfront, rfl⟩
    | false =>
      have hwhole : withoutSeparator text = text := by simp [withoutSeparator, hend]
      rw [hwhole, hstart]
      exact ⟨h, rfl⟩

theorem withoutSeparator_of_lone (h : behindSeparator text = []) : withoutSeparator text = [] := by
  cases habs : isAbsolute text with
  | true =>
    obtain ⟨rest, rfl⟩ := isAbsolute_iff.1 habs
    rw [behindSeparator_cons] at h
    rw [h]
    rfl
  | false =>
    have hnil : text = [] := by simpa [behindSeparator, habs] using h
    rw [hnil]
    rfl

theorem splice_assoc (first second third : Bytes) :
    splice (splice first second) third = splice first (splice second third) := by
  by_cases hsecond : behindSeparator second = []
  · -- the middle text is one separator at most, and both joins take it
    have hgone := withoutSeparator_of_lone hsecond
    rw [splice, splice, hsecond, withoutSeparator_concat, splice, splice, hgone]
    rfl
  · obtain ⟨hkept, hends⟩ := withoutSeparator_behindSeparator hsecond
    have hlast : withoutSeparator (withoutSeparator first ++ separator :: behindSeparator second) =
        withoutSeparator first ++ separator :: withoutSeparator (behindSeparator second) := by
      rw [List.append_cons, withoutSeparator_append _ hsecond, ← List.append_cons]
    calc splice (splice first second) third
        = withoutSeparator first ++ separator ::
            (withoutSeparator (behindSeparator second) ++ separator :: behindSeparator third) := by
          rw [splice, splice, hlast, List.append_assoc, List.cons_append]
      _ = withoutSeparator first ++ separator ::
            (behindSeparator (withoutSeparator second) ++ separator :: behindSeparator third) := by
          rw [hends]
      _ = splice first (splice second third) := by
          rw [splice, splice, behindSeparator_append hkept]

instance : Std.Associative splice := ⟨splice_assoc⟩

theorem length_le_splice (front back : Bytes) : front.length ≤ (splice front back).length := by
  rw [splice, withoutSeparator, List.length_append, List.length_cons]
  split
  · rw [List.length_dropLast]
    omega
  · omega

theorem splice_ne_nil (front back : Bytes) : splice front back ≠ [] := by
  simp [splice]

def spliceAll : List Bytes → Bytes
  | [] => []
  | first :: others => others.foldl splice first

theorem spliceAll_cons (first : Bytes) {others : List Bytes} (h : others ≠ []) :
    spliceAll (first :: others) = splice first (spliceAll others) := by
  obtain ⟨second, rest, rfl⟩ := List.exists_cons_of_ne_nil h
  exact List.foldl_assoc

theorem spliceAll_append (hfront : front ≠ []) (hback : back ≠ []) :
    spliceAll (front ++ back) = splice (spliceAll front) (spliceAll back) := by
  obtain ⟨first, others, rfl⟩ := List.exists_cons_of_ne_nil hfront
  obtain ⟨second, rest, rfl⟩ := List.exists_cons_of_ne_nil hback
  rw [List.cons_append, spliceAll, List.foldl_append, List.foldl_cons, List.foldl_assoc]
  rfl

theorem spliceAll_flatten {groups : List (List Bytes)} (h : ∀ g ∈ groups, g ≠ []) :
    spliceAll groups.flatten = spliceAll (groups.map spliceAll) := by
  induction groups with
  | nil => rfl
  | cons g others ih =>
    have hothers : ∀ g ∈ others, g ≠ [] := fun g hg => h g (List.mem_cons_of_mem _ hg)
    by_cases hlast : others = []
    · simp [hlast, spliceAll]
    · have hmore : others.flatten ≠ [] := by
        obtain ⟨next, rest, rfl⟩ := List.exists_cons_of_ne_nil hlast
        simp [hothers next List.mem_cons_self]
      rw [List.flatten_cons, spliceAll_append (h g List.mem_cons_self) hmore, ih hothers,
        List.map_cons, spliceAll_cons _ (by simpa using hlast)]

theorem spliceAll_ne_nil (hne : segments ≠ []) (h : ∀ s ∈ segments, s ≠ []) :
    spliceAll segments ≠ [] := by
  obtain ⟨first, others, rfl⟩ := List.exists_cons_of_ne_nil hne
  by_cases hlast : others = []
  · rw [hlast]
    exact h first List.mem_cons_self
  · rw [spliceAll_cons first hlast]
    exact splice_ne_nil _ _

theorem length_spliceAll_le (h : front <+: segments) :
    (spliceAll front).length ≤ (spliceAll segments).length := by
  obtain ⟨back, rfl⟩ := h
  by_cases hfront : front = []
  · rw [hfront]
    exact Nat.zero_le _
  · by_cases hback : back = []
    · simp [hback]
    · rw [spliceAll_append hfront hback]
      exact length_le_splice _ _

theorem joined_eq_splice : BoundedPath.joined = splice := by
  funext text segment
  rw [BoundedPath.joined, splice, withoutSeparator, behindSeparator]
  cases hend : endsWithSeparator text with
  | true =>
    obtain ⟨front, rfl⟩ := endsWithSeparator_iff.1 hend
    cases habs : isAbsolute segment with
    | true => simp
    | false => simp
  | false =>
    cases habs : isAbsolute segment with
    | true =>
      obtain ⟨rest, rfl⟩ := isAbsolute_iff.1 habs
      simp
    | false => simp

theorem joined_eq_withoutSeparator (text : Bytes) {name : Bytes} (h : IsComponent name) :
    BoundedPath.joined text name = withoutSeparator text ++ separator :: name := by
  have hname : behindSeparator name = name := by
    simp [behindSeparator, isAbsolute_of_not_mem h.2]
  rw [joined_eq_splice, splice, hname]

theorem components_splice (front back : Bytes) :
    components (splice front back) = components front ++ components back := by
  rw [← joined_eq_splice, BoundedPath.components_joined]

theorem components_spliceAll (segments : List Bytes) :
    components (spliceAll segments) = segments.flatMap components := by
  induction segments with
  | nil => rfl
  | cons first others ih =>
    by_cases hlast : others = []
    · simp [hlast, spliceAll]
    · rw [spliceAll_cons first hlast, components_splice, ih, List.flatMap_cons]

theorem splice_slashed (text : Bytes) (hne : names ≠ []) (hnames : ∀ n ∈ names, IsComponent n) :
    splice text (slashed names) = spliceAll (text :: names) := by
  have hslashed : slashed names = splice [] (spliceAll names) := by
    have hjoined : names.foldl splice [] = [] ++ slashed names :=
      joined_eq_splice ▸ BoundedPath.foldl_joined hnames rfl
    rw [← spliceAll_cons [] hne, spliceAll, hjoined, List.nil_append]
  have hlone (rest : Bytes) : splice (splice text []) rest = splice text rest := by
    rw [splice, splice, splice]
    exact congrArg (· ++ _) (withoutSeparator_concat _)
  rw [hslashed, ← splice_assoc, hlone, spliceAll_cons text hne]

end Whiteout.Path
