import Whiteout.Proofs.Path.Splice

/-!
# Built paths

A path is built by segments one after the other, and each step asks for room. The result is the
splice of all the segments, and the steps succeed exactly if no segment is empty and the whole
fits, since a splice is never shorter than what it begins with. Otherwise the first segment that is
empty or no longer fits is the error.
-/

namespace Whiteout.BoundedPath

open Whiteout.Path (splice spliceAll)

variable {limit i : Nat} {path : BoundedPath} {front back segments : List Bytes} {segment : Bytes}

def grown (text segment : Bytes) : Bytes := if text = [] then segment else splice text segment

theorem pushSegment_eq (path : BoundedPath) (segment : Bytes) : path.pushSegment segment =
    if segment = [] then .error (.argument .emptySegment)
    else path.extendTo (grown path.text segment) := by
  rw [pushSegment, Path.joined_eq_splice]
  by_cases hsegment : segment = []
  · simp [hsegment]
  · by_cases htext : path.text = []
    · simp [hsegment, htext, grown, pushRaw]
    · simp [hsegment, htext, grown]

theorem spliceAll_concat (h : ∀ s ∈ front, s ≠ []) (segment : Bytes) :
    spliceAll (front ++ [segment]) = grown (spliceAll front) segment := by
  by_cases hfront : front = []
  · rw [hfront]
    rfl
  · rw [Path.spliceAll_append hfront (List.cons_ne_nil _ _), grown,
      if_neg (Path.spliceAll_ne_nil hfront h)]
    rfl

/-- The segment at `i` is empty, or the segments up to it do not fit. -/
def Offends (limit : Nat) (segments : List Bytes) (i : Nat) : Prop :=
  segments[i]? = some [] ∨ limit < (spliceAll (segments.take (i + 1))).length + 1

instance (limit : Nat) (segments : List Bytes) : DecidablePred (Offends limit segments) :=
  fun _ => inferInstanceAs (Decidable (_ ∨ _))

def Fits (limit : Nat) (segments : List Bytes) : Prop :=
  (∀ s ∈ segments, s ≠ []) ∧ (segments ≠ [] → (spliceAll segments).length + 1 ≤ limit)

theorem Fits.of_prefix (h : Fits limit segments) (hfront : front <+: segments) :
    Fits limit front := by
  refine ⟨fun s hs => h.1 s (hfront.subset hs), fun hne => ?_⟩
  have hlonger := Path.length_spliceAll_le hfront
  have hfit := h.2 fun hnil => hne (List.prefix_nil.1 (hnil ▸ hfront))
  omega

theorem offends_append (hi : i < front.length) (back : List Bytes) :
    Offends limit (front ++ back) i ↔ Offends limit front i := by
  rw [Offends, Offends, List.getElem?_append_left hi, List.take_append_of_le_length hi]

theorem fits_iff : Fits limit segments ↔ ∀ i < segments.length, ¬Offends limit segments i := by
  constructor
  · rintro h i hi (hempty | hlong)
    · exact h.1 [] (List.mem_of_getElem? hempty) rfl
    · have hfront := h.of_prefix (List.take_prefix (i + 1) segments)
      have hne : segments.take (i + 1) ≠ [] := by
        apply List.ne_nil_of_length_pos
        simp
        omega
      exact Nat.not_lt_of_le (hfront.2 hne) hlong
  · intro h
    refine ⟨fun s hs hempty => ?_, fun hne => ?_⟩
    · obtain ⟨i, hi⟩ := List.mem_iff_getElem?.1 hs
      obtain ⟨hlt, -⟩ := List.getElem?_eq_some_iff.1 hi
      exact h i hlt (.inl (hempty ▸ hi))
    · have hpos := List.length_pos_iff.2 hne
      have hlast := h (segments.length - 1) (by omega)
      rw [Offends, not_or, Nat.sub_add_cancel hpos, List.take_length, Nat.not_lt] at hlast
      exact hlast.2

theorem pushSegments_spliceAll (h : Fits limit (front ++ back)) :
    pushSegments ⟨spliceAll front, limit⟩ back = .ok ⟨spliceAll (front ++ back), limit⟩ := by
  -- what is built so far is the splice of the segments in front, which grow with each step
  induction back generalizing front with
  | nil =>
    rw [List.append_nil]
    rfl
  | cons segment others ih =>
    have hsegment : segment ≠ [] := h.1 segment (by simp)
    have hfront : ∀ s ∈ front, s ≠ [] := fun s hs => h.1 s (List.mem_append_left _ hs)
    rw [List.append_cons] at h ⊢
    have hnext := h.of_prefix (List.prefix_append (front ++ [segment]) others)
    have hroom : ¬limit < (spliceAll (front ++ [segment])).length + 1 :=
      Nat.not_lt_of_le (hnext.2 (by simp))
    have hpush : pushSegment ⟨spliceAll front, limit⟩ segment =
        .ok ⟨spliceAll (front ++ [segment]), limit⟩ := by
      rw [pushSegment_eq, if_neg hsegment, ← spliceAll_concat hfront, extendTo, if_neg hroom]
    rw [pushSegments, hpush]
    exact ih h

theorem pushSegments_of_fits (h : Fits limit segments) :
    (new limit).pushSegments segments = .ok ⟨spliceAll segments, limit⟩ := by
  have hstart : Fits limit ([] ++ segments) := h
  exact pushSegments_spliceAll hstart

def fault (limit : Nat) (segments : List Bytes) (i : Nat) : Error :=
  if segments[i]? = some [] then .argument .emptySegment
  else .nameTooLong (spliceAll (segments.take (i + 1))).length limit

theorem pushSegments_of_offends (hi : i < segments.length) (hoff : Offends limit segments i)
    (hfirst : ∀ j < i, ¬Offends limit segments j) :
    (new limit).pushSegments segments = .error (fault limit segments i) := by
  obtain ⟨front, segment, back, rfl, rfl⟩ : ∃ front segment back,
      segments = front ++ segment :: back ∧ front.length = i :=
    ⟨segments.take i, segments[i], segments.drop (i + 1), by simp, by simp; omega⟩
  have hfront : Fits limit front :=
    fits_iff.2 fun j hj hj' => hfirst j hj ((offends_append hj _).2 hj')
  have hget : (front ++ segment :: back)[front.length]? = some segment := by simp
  have htake : (front ++ segment :: back).take (front.length + 1) = front ++ [segment] := by
    rw [List.append_cons, List.take_append_of_le_length (by simp), List.take_of_length_le (by simp)]
  have hpush : pushSegment ⟨spliceAll front, limit⟩ segment =
      .error (fault limit (front ++ segment :: back) front.length) := by
    rw [Offends, hget, htake, Option.some_inj] at hoff
    rw [pushSegment_eq, fault, hget, htake]
    by_cases hsegment : segment = []
    · rw [if_pos hsegment, if_pos (congrArg some hsegment)]
    · rw [if_neg hsegment, if_neg fun h => hsegment (Option.some_inj.1 h),
        ← spliceAll_concat hfront.1, extendTo, if_pos (hoff.resolve_left hsegment)]
  rw [pushSegments_append, pushSegments_of_fits hfront]
  simp only [Except.bind, pushSegments, hpush]

theorem build_eq (h : segments ≠ []) : build limit segments = (new limit).pushSegments segments := by
  obtain ⟨first, others, rfl⟩ := List.exists_cons_of_ne_nil h
  rfl

theorem build_of_not_fits (hne : segments ≠ []) (h : ¬Fits limit segments) :
    ∃ i < segments.length, Offends limit segments i ∧ (∀ j < i, ¬Offends limit segments j) ∧
      build limit segments = .error (fault limit segments i) := by
  cases hfind : (List.range segments.length).find? fun i => decide (Offends limit segments i) with
  | none =>
    have hnone : ∀ i < segments.length, ¬Offends limit segments i := by
      simpa [List.find?_range_eq_none] using hfind
    exact absurd (fits_iff.2 hnone) h
  | some i =>
    have hfirst : Offends limit segments i ∧ i < segments.length ∧
        ∀ j < i, ¬Offends limit segments j := by
      simpa [List.find?_range_eq_some] using hfind
    obtain ⟨hoff, hi, hfirst⟩ := hfirst
    refine ⟨i, hi, hoff, hfirst, ?_⟩
    rw [build_eq hne]
    exact pushSegments_of_offends hi hoff hfirst

theorem build_eq_ok_iff : build limit segments = .ok path ↔
    segments ≠ [] ∧ Fits limit segments ∧ path = ⟨spliceAll segments, limit⟩ := by
  by_cases hne : segments = []
  · simp [hne, build]
  · by_cases hfits : Fits limit segments
    · rw [build_eq hne, pushSegments_of_fits hfits]
      simp [hne, hfits, eq_comm]
    · obtain ⟨i, -, -, -, herror⟩ := build_of_not_fits hne hfits
      rw [herror]
      simp [hfits]

theorem build_pair_eq_ok_iff {first second : Bytes} : build limit [first, second] = .ok path ↔
    first ≠ [] ∧ second ≠ [] ∧ (joined first second).length + 1 ≤ limit ∧
      path = ⟨joined first second, limit⟩ := by
  rw [build_eq_ok_iff, Path.joined_eq_splice]
  simp [Fits, spliceAll, and_assoc]

theorem tooLong_of_build {e : Error} (hfull : ∀ s ∈ segments, s ≠ []) (hne : segments ≠ [])
    (h : build limit segments = .error e) : ∃ length, e = .nameTooLong length limit := by
  by_cases hfits : Fits limit segments
  · rw [build_eq_ok_iff.2 ⟨hne, hfits, rfl⟩] at h
    cases h
  · obtain ⟨i, -, -, -, herror⟩ := build_of_not_fits hne hfits
    rw [herror, fault, if_neg fun hget => hfull [] (List.mem_of_getElem? hget) rfl] at h
    exact ⟨_, (Except.error.inj h).symm⟩

theorem exists_build_iff (hne : segments ≠ []) (hfull : ∀ s ∈ segments, s ≠ []) :
    (∃ path, build limit segments = .ok path) ↔ (spliceAll segments).length + 1 ≤ limit := by
  simp only [build_eq_ok_iff, Fits]
  constructor
  · rintro ⟨path, -, hfits, -⟩
    exact hfits.2 hne
  · intro hroom
    exact ⟨_, hne, ⟨hfull, fun _ => hroom⟩, rfl⟩

theorem build_map_spliceAll {groups : List (List Bytes)} (hgroups : ∀ g ∈ groups, g ≠ [])
    (hfull : ∀ g ∈ groups, ∀ s ∈ g, s ≠ []) :
    build limit (groups.map spliceAll) = .ok path ↔ build limit groups.flatten = .ok path := by
  have hnil : groups.map spliceAll = [] ↔ groups.flatten = [] := by
    rw [List.map_eq_nil_iff, List.flatten_eq_nil_iff]
    constructor
    · rintro rfl
      simp
    · intro h
      apply List.eq_nil_iff_forall_not_mem.2
      exact fun g hg => hgroups g hg (h g hg)
  have hspliced : ∀ s ∈ groups.map spliceAll, s ≠ [] := by
    intro s hs
    obtain ⟨g, hg, rfl⟩ := List.mem_map.1 hs
    exact Path.spliceAll_ne_nil (hgroups g hg) (hfull g hg)
  have hflat : ∀ s ∈ groups.flatten, s ≠ [] := by
    intro s hs
    obtain ⟨g, hg, hmem⟩ := List.mem_flatten.1 hs
    exact hfull g hg s hmem
  rw [build_eq_ok_iff, build_eq_ok_iff, Fits, Fits, ne_eq, hnil, ← Path.spliceAll_flatten hgroups]
  exact and_congr_right fun _ => and_congr_left fun _ => and_congr_left fun _ =>
    iff_of_true hspliced hflat

theorem errno_build (hne : segments ≠ []) (hfull : ∀ s ∈ segments, s ≠ []) :
    (build limit segments).mapError Error.errno =
      if (spliceAll segments).length + 1 ≤ limit then .ok ⟨spliceAll segments, limit⟩
      else .error Errno.nameTooLong.number := by
  by_cases hroom : (spliceAll segments).length + 1 ≤ limit
  · rw [if_pos hroom, build_eq_ok_iff.2 ⟨hne, ⟨hfull, fun _ => hroom⟩, rfl⟩]
    rfl
  · rw [if_neg hroom]
    cases hbuilt : build limit segments with
    | ok path => exact absurd ((build_eq_ok_iff.1 hbuilt).2.1.2 hne) hroom
    | error e =>
      obtain ⟨length, rfl⟩ := tooLong_of_build hfull hne hbuilt
      rfl

end Whiteout.BoundedPath
