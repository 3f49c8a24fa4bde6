import Whiteout.Marker.Listing
import Whiteout.Path.Basic
import Whiteout.Proofs.Text.RoundTrip

/-!
# Components of joined paths

Joining adds up components whatever separators stand at the join, and a path built from plain names
has exactly these names as its components. Pushing names one by one onto a path that does not end in
a separator succeeds exactly when the whole text fits.
-/

namespace Whiteout

open Whiteout.Path (separator dot dotDot components isAbsolute endsWithSeparator)
open Whiteout.Marker (slashed)

theorem Location.exists_concat {names : Location} (h : names ≠ []) :
    ∃ front last, names = front ++ [last] :=
  ⟨_, _, (List.dropLast_concat_getLast h).symm⟩

namespace Path

def withoutSeparator (path : Bytes) : Bytes :=
  if endsWithSeparator path then path.dropLast else path

def IsComponent (name : Bytes) : Prop := name ≠ [] ∧ separator ∉ name

def IsProper (name : Bytes) : Prop := name ≠ [] ∧ name ≠ dot ∧ name ≠ dotDot

/-- What a union path may name: a component that leads strictly down. -/
def IsStep (name : Bytes) : Prop := IsProper name ∧ separator ∉ name

def EndsNamed (path : Bytes) : Prop :=
  endsWithSeparator path = false ∧ ∃ front last, components path = front ++ [last] ∧ IsStep last

theorem IsStep.isComponent {name : Bytes} (h : IsStep name) : IsComponent name := ⟨h.1.1, h.2⟩

theorem IsStep.append {name tag : Bytes} (h : IsStep name) (htag : IsComponent tag) :
    IsStep (name ++ tag) := by
  obtain ⟨⟨hne, hdot, -⟩, hslash⟩ := h
  obtain ⟨b, rest, rfl⟩ := List.exists_cons_of_ne_nil hne
  obtain ⟨c, more, rfl⟩ := List.exists_cons_of_ne_nil htag.1
  refine ⟨⟨by simp, by simp [dot], fun he => ?_⟩, ?_⟩
  · -- only `.` and a tag `.` make up `..`
    cases rest with
    | nil => simp_all [dot, dotDot]
    | cons a rest => simp [dotDot] at he
  · rw [List.mem_append]
    exact fun hm => hm.elim hslash htag.2

theorem isComponent_of_mem {path name : Bytes} (h : name ∈ components path) : IsComponent name := by
  refine ⟨?_, separator_not_mem_component h⟩
  have hne := (List.mem_filter.1 h).2
  simpa using hne

theorem isComponent_of_isName {name : Bytes} (h : isName name = true) : IsComponent name :=
  ⟨(isName_iff.1 h).1, (isName_iff.1 h).2.2.2.1⟩

theorem components_nil : components [] = [] := rfl

theorem components_concat_separator (path : Bytes) :
    components (path ++ [separator]) = components path := by
  rw [components_append_separator, components_nil, List.append_nil]

theorem components_cons_separator (path : Bytes) :
    components (separator :: path) = components path := components_append_separator [] path

theorem ne_nil_of_components {path : Bytes} (h : components path ≠ []) : path ≠ [] := by
  rintro rfl
  exact h components_nil

theorem components_of_isComponent {name : Bytes} (h : IsComponent name) :
    components name = [name] := by
  simp [components, Text.pieces_of_not_mem h.2, h.1]

theorem exists_component_of_mem {text : Bytes} {b : UInt8} (hb : b ∈ text) (hne : b ≠ separator) :
    ∃ name ∈ components text, b ∈ name := by
  suffices ∃ piece ∈ Text.pieces separator text, b ∈ piece by
    obtain ⟨piece, hpiece, hmem⟩ := this
    exact ⟨piece, List.mem_filter.2 ⟨hpiece, by simpa using List.ne_nil_of_mem hmem⟩, hmem⟩
  induction text with
  | nil => cases hb
  | cons a rest ih =>
    obtain ⟨first, others, hrest⟩ := List.exists_cons_of_ne_nil (Text.pieces_ne_nil separator rest)
    by_cases ha : a = separator
    · rw [Text.pieces, if_pos ha]
      have hb' : b ∈ rest := (List.mem_cons.1 hb).resolve_left fun he => hne (he.trans ha)
      obtain ⟨piece, hpiece, hmem⟩ := ih hb'
      exact ⟨piece, List.mem_cons_of_mem _ hpiece, hmem⟩
    · rw [Text.pieces, if_neg ha, hrest]
      rcases List.mem_cons.1 hb with rfl | hb'
      · exact ⟨b :: first, by simp, by simp⟩
      · obtain ⟨piece, hpiece, hmem⟩ := ih hb'
        rw [hrest] at hpiece
        rcases List.mem_cons.1 hpiece with rfl | hpiece
        · exact ⟨a :: piece, by simp, by simp [hmem]⟩
        · exact ⟨piece, by simp [hpiece], hmem⟩

theorem slashed_append (front back : List Bytes) :
    slashed (front ++ back) = slashed front ++ slashed back := by
  simp [slashed]

theorem slashed_cons (name : Bytes) (names : List Bytes) :
    slashed (name :: names) = separator :: (name ++ slashed names) := by
  simp [slashed]

theorem components_append_slashed {names : List Bytes} (h : ∀ n ∈ names, IsComponent n)
    (text : Bytes) : components (text ++ slashed names) = components text ++ names := by
  induction names generalizing text with
  | nil => simp [slashed]
  | cons name rest ih =>
    have hname : IsComponent name := h name (by simp)
    have hrest : ∀ n ∈ rest, IsComponent n := fun n hn => h n (by simp [hn])
    rw [slashed_cons, components_append_separator, ih hrest, components_of_isComponent hname]
    simp

theorem components_slashed {names : List Bytes} (h : ∀ n ∈ names, IsComponent n) :
    components (slashed names) = names := by
  simpa [components_nil] using components_append_slashed h []

theorem slashed_injective {names others : List Bytes} (h : ∀ n ∈ names, IsComponent n)
    (h' : ∀ n ∈ others, IsComponent n) (hsame : slashed names = slashed others) :
    names = others := by
  rw [← components_slashed h, hsame, components_slashed h']

theorem endsWithSeparator_iff {text : Bytes} :
    endsWithSeparator text = true ↔ ∃ front, text = front ++ [separator] := by
  simp only [endsWithSeparator, beq_iff_eq]
  exact List.getLast?_eq_some_iff

theorem isAbsolute_iff {text : Bytes} :
    isAbsolute text = true ↔ ∃ rest, text = separator :: rest := by
  cases text with
  | nil => simp [isAbsolute]
  | cons b rest => simp [isAbsolute]

theorem isAbsolute_append {text : Bytes} (h : text ≠ []) (rest : Bytes) :
    isAbsolute (text ++ rest) = isAbsolute text := by
  obtain ⟨b, front, rfl⟩ := List.exists_cons_of_ne_nil h
  simp [isAbsolute]

theorem endsWithSeparator_append (text : Bytes) {rest : Bytes} (h : rest ≠ []) :
    endsWithSeparator (text ++ rest) = endsWithSeparator rest := by
  obtain ⟨front, last, rfl⟩ := List.eq_nil_or_concat rest |>.resolve_left h
  simp [endsWithSeparator]

theorem endsWithSeparator_of_not_mem {text : Bytes} (h : separator ∉ text) :
    endsWithSeparator text = false := by
  rw [← Bool.not_eq_true, endsWithSeparator_iff]
  intro hend
  rcases hend with ⟨front, rfl⟩
  simp at h

theorem isAbsolute_of_not_mem {text : Bytes} (h : separator ∉ text) : isAbsolute text = false := by
  rw [← Bool.not_eq_true, isAbsolute_iff]
  intro hstart
  rcases hstart with ⟨rest, rfl⟩
  simp at h

theorem endsWithSeparator_of_components_nil {rest : Bytes} (h : components rest = [])
    (text : Bytes) : endsWithSeparator (text ++ separator :: rest) = true := by
  rcases List.eq_nil_or_concat rest with rfl | ⟨front, b, rfl⟩
  · exact endsWithSeparator_iff.2 ⟨text, rfl⟩
  · have hb : b = separator := by
      apply Classical.byContradiction
      intro hne
      have hmem : b ∈ front.concat b := by simp
      obtain ⟨name, hname, -⟩ := exists_component_of_mem hmem hne
      rw [h] at hname
      cases hname
    subst hb
    exact endsWithSeparator_iff.2 ⟨text ++ separator :: front, by simp⟩

theorem endsWithSeparator_slashed (text : Bytes) {names : List Bytes} (hne : names ≠ [])
    (h : ∀ n ∈ names, IsComponent n) : endsWithSeparator (text ++ slashed names) = false := by
  obtain ⟨front, last, rfl⟩ := Location.exists_concat hne
  have hlast : IsComponent last := h last (by simp)
  have hsplit : text ++ slashed (front ++ [last]) =
      (text ++ slashed front ++ [separator]) ++ last := by
    simp [slashed]
  rw [hsplit, endsWithSeparator_append _ hlast.1]
  exact endsWithSeparator_of_not_mem hlast.2

end Path

namespace BoundedPath

open Whiteout.Path

theorem components_joined (text segment : Bytes) :
    components (joined text segment) = components text ++ components segment := by
  rw [joined]
  split
  · next htext hseg =>
    obtain ⟨front, rfl⟩ := endsWithSeparator_iff.1 htext
    obtain ⟨rest, rfl⟩ := isAbsolute_iff.1 hseg
    rw [components_concat_separator, components_cons_separator, List.tail_cons, List.append_assoc,
      List.singleton_append, components_append_separator]
  · exact components_append_separator text segment
  · next hboth hneither =>
    cases htext : endsWithSeparator text with
    | true =>
      obtain ⟨front, rfl⟩ := endsWithSeparator_iff.1 htext
      rw [components_concat_separator, List.append_assoc, List.singleton_append,
        components_append_separator]
    | false =>
      cases hseg : isAbsolute segment with
      | true =>
        obtain ⟨rest, rfl⟩ := isAbsolute_iff.1 hseg
        rw [components_append_separator, components_cons_separator]
      | false => exact absurd hseg (hneither htext)

theorem joined_of_isComponent (text : Bytes) {name : Bytes} (h : IsComponent name) :
    joined text name = if endsWithSeparator text then text ++ name else text ++ slashed [name] := by
  cases htext : endsWithSeparator text <;> simp [joined, htext, isAbsolute_of_not_mem h.2, slashed]

theorem joined_append_separator (text : Bytes) {segment : Bytes} (h : segment ≠ []) (rest : Bytes) :
    joined text (segment ++ separator :: rest) = joined text segment ++ separator :: rest := by
  rw [joined, joined, isAbsolute_append h]
  obtain ⟨b, tail, rfl⟩ := List.exists_cons_of_ne_nil h
  split <;> simp

theorem joined_ne_nil {text segment : Bytes} (h : text ≠ []) : joined text segment ≠ [] := by
  rw [joined]
  split <;> simp [h]

theorem isAbsolute_joined {text segment : Bytes} (h : text ≠ []) :
    isAbsolute (joined text segment) = isAbsolute text := by
  rw [joined]
  split <;> exact isAbsolute_append h _

theorem length_le_joined (text segment : Bytes) : text.length ≤ (joined text segment).length := by
  rw [joined]
  split <;> simp

theorem foldl_joined {names : List Bytes} (hnames : ∀ n ∈ names, IsComponent n) {text : Bytes}
    (hend : endsWithSeparator text = false) : names.foldl joined text = text ++ slashed names := by
  induction names generalizing text with
  | nil => simp [slashed]
  | cons name rest ih =>
    have hname : IsComponent name := hnames name (by simp)
    have hrest : ∀ n ∈ rest, IsComponent n := fun n hn => hnames n (List.mem_cons_of_mem _ hn)
    have hend' : endsWithSeparator (text ++ slashed [name]) = false :=
      endsWithSeparator_slashed _ (by simp) (by simpa using hname)
    have hjoined : joined text name = text ++ slashed [name] := by
      simp [joined_of_isComponent _ hname, hend]
    rw [List.foldl_cons, hjoined, ih hrest hend', List.append_assoc, ← slashed_append,
      List.singleton_append]

theorem extendTo_eq_ok_iff {path next : BoundedPath} {text : Bytes} :
    path.extendTo text = .ok next ↔ text.length + 1 ≤ path.limit ∧ next = { path with text } := by
  rw [extendTo]
  split
  · simp; omega
  · simp [eq_comm]; omega

theorem pushSegment_ok {path next : BoundedPath} {segment : Bytes}
    (h : path.pushSegment segment = .ok next) :
    next.limit = path.limit ∧ path.text.length ≤ next.text.length := by
  rw [pushSegment] at h
  split at h
  · cases h
  · split at h
    · obtain ⟨-, rfl⟩ := extendTo_eq_ok_iff.1 h
      simp
    · obtain ⟨-, rfl⟩ := extendTo_eq_ok_iff.1 h
      exact ⟨rfl, length_le_joined _ _⟩

theorem pushSegments_ok {path next : BoundedPath} {segments : List Bytes}
    (h : path.pushSegments segments = .ok next) :
    next.limit = path.limit ∧ path.text.length ≤ next.text.length := by
  induction segments generalizing path with
  | nil =>
    cases h
    exact ⟨rfl, Nat.le_refl _⟩
  | cons segment others ih =>
    rw [pushSegments] at h
    split at h
    · next middle hpush =>
      obtain ⟨hlimit, hlonger⟩ := pushSegment_ok hpush
      obtain ⟨hlimit', hlonger'⟩ := ih h
      exact ⟨hlimit'.trans hlimit, Nat.le_trans hlonger hlonger'⟩
    · cases h

theorem pushSegments_append (path : BoundedPath) (front back : List Bytes) :
    path.pushSegments (front ++ back) = (path.pushSegments front).bind (·.pushSegments back) := by
  induction front generalizing path with
  | nil => rfl
  | cons segment others ih =>
    rw [List.cons_append, pushSegments, pushSegments]
    cases path.pushSegment segment with
    | error e => rfl
    | ok next => exact ih next

theorem pushSegment_new_eq_ok_iff {limit : Nat} {segment : Bytes} {next : BoundedPath} :
    (new limit).pushSegment segment = .ok next ↔ segment ≠ [] ∧ segment.length + 1 ≤ limit ∧
      next = ⟨segment, limit⟩ := by
  by_cases hsegment : segment = []
  · simp [pushSegment, hsegment]
  · simp [pushSegment, pushRaw, new, hsegment, extendTo_eq_ok_iff]

theorem pushSegment_of_isComponent {path : BoundedPath} {name : Bytes} (hne : path.text ≠ [])
    (hend : endsWithSeparator path.text = false) (hname : IsComponent name) :
    path.pushSegment name = path.extendTo (path.text ++ slashed [name]) := by
  simp [pushSegment, hne, hname.1, joined_of_isComponent _ hname, hend]

theorem pushSegments_eq_ok_iff {names : List Bytes} (hnames : ∀ n ∈ names, IsComponent n)
    (path next : BoundedPath) (hne : path.text ≠ []) (hend : endsWithSeparator path.text = false)
    (hfit : path.text.length + 1 ≤ path.limit) :
    path.pushSegments names = .ok next ↔ (path.text ++ slashed names).length + 1 ≤ path.limit ∧
      next = { path with text := path.text ++ slashed names } := by
  induction names generalizing path with
  | nil => simp [pushSegments, slashed, hfit, eq_comm]
  | cons name rest ih =>
    have hname : IsComponent name := hnames name (by simp)
    have hrest : ∀ n ∈ rest, IsComponent n := fun n hn => hnames n (by simp [hn])
    have htext : path.text ++ slashed (name :: rest) =
        path.text ++ slashed [name] ++ slashed rest := by
      simp [slashed]
    rw [pushSegments, pushSegment_of_isComponent hne hend hname, htext]
    by_cases hstep : (path.text ++ slashed [name]).length + 1 ≤ path.limit
    · rw [extendTo_eq_ok_iff.2 ⟨hstep, rfl⟩]
      exact ih hrest _ (by simp [hne])
        (endsWithSeparator_slashed _ (by simp) (by simpa using hname)) hstep
    · have hlong : ¬((path.text ++ slashed [name] ++ slashed rest).length + 1 ≤ path.limit) := by
        simp only [List.length_append] at hstep ⊢
        omega
      rw [extendTo, if_pos (by omega)]
      exact ⟨nofun, fun ⟨hfits, _⟩ => absurd hfits hlong⟩

end BoundedPath

end Whiteout
