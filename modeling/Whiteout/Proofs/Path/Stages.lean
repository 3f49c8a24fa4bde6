import Mathlib.Data.List.Infix
import Whiteout.Proofs.Path.Joining

/-!
# The stages of a path that is built

A path that grows by segments passes through the texts of their fronts. Growth stops at the first of
these that does not fit, and this is the text whose length the error tells.
-/

namespace Whiteout

namespace BoundedPath

variable {limit : Nat} {stages : List Bytes} {text other : Bytes} {path next : BoundedPath}
  {segments : List Bytes} {e : Error}

def through (limit : Nat) (stages : List Bytes) (text : Bytes) : Except Error BoundedPath :=
  match stages.find? fun t => limit < t.length + 1 with
  | some t => .error (.nameTooLong t.length limit)
  | none => .ok ⟨text, limit⟩

theorem extendTo_eq_through (path : BoundedPath) (text : Bytes) :
    path.extendTo text = through path.limit [text] text := by
  rw [extendTo, through, List.find?_singleton]
  by_cases hlong : path.limit < text.length + 1
  · simp [hlong]
  · simp [hlong]

theorem through_cons_of_fits (hfit : text.length + 1 ≤ limit) :
    through limit (text :: stages) other = through limit stages other := by
  rw [through, List.find?_cons_of_neg (by simp [Nat.not_lt_of_le hfit]), through]

theorem through_cons_of_long (hlong : limit < text.length + 1) :
    through limit (text :: stages) other = .error (.nameTooLong text.length limit) := by
  rw [through, List.find?_cons_of_pos (by simp [hlong])]

theorem through_append_of_ok (h : through limit stages text = .ok next) (more : List Bytes)
    (other : Bytes) :
    next = ⟨text, limit⟩ ∧ through limit (stages ++ more) other = through limit more other := by
  rw [through] at h
  split at h
  · cases h
  · next hnone =>
    cases h
    rw [through, List.find?_append, hnone, Option.none_or, through]
    exact ⟨rfl, rfl⟩

theorem through_append_of_error (h : through limit stages text = .error e) (more : List Bytes)
    (other : Bytes) : through limit (stages ++ more) other = .error e := by
  rw [through] at h
  split at h
  · next t hsome =>
    cases h
    rw [through, List.find?_append, hsome, Option.some_or]
  · cases h

theorem pushSegments_eq_through (hne : path.text ≠ []) (hfit : path.text.length + 1 ≤ path.limit)
    (hsegments : ∀ s ∈ segments, s ≠ []) :
    path.pushSegments segments = through path.limit
      (segments.inits.map fun front => front.foldl joined path.text)
      (segments.foldl joined path.text) := by
  induction segments generalizing path with
  | nil =>
    rw [pushSegments, List.inits, List.map_singleton, List.foldl_nil, through_cons_of_fits hfit]
    rfl
  | cons segment rest ih =>
    have hsegment : segment.isEmpty = false := by simpa using hsegments segment (by simp)
    have hrest : ∀ s ∈ rest, s ≠ [] := fun s hs => hsegments s (List.mem_cons_of_mem _ hs)
    have hpush : path.pushSegment segment = path.extendTo (joined path.text segment) := by
      simp [pushSegment, hsegment, hne]
    have hstages : ((segment :: rest).inits.map fun front => front.foldl joined path.text) =
        path.text :: rest.inits.map fun front => front.foldl joined (joined path.text segment) := by
      simp [Function.comp_def]
    rw [pushSegments, hpush, hstages, through_cons_of_fits hfit, List.foldl_cons, extendTo]
    by_cases hlong : path.limit < (joined path.text segment).length + 1
    · -- the front of no further segment is the next stage
      obtain ⟨stages, hinits⟩ : ∃ stages, rest.inits = [] :: stages := by cases rest <;> simp
      rw [if_pos hlong, hinits, List.map_cons, List.foldl_nil, through_cons_of_long hlong]
    · rw [if_neg hlong]
      exact ih (joined_ne_nil hne) (Nat.le_of_not_lt hlong) hrest

end BoundedPath

end Whiteout
