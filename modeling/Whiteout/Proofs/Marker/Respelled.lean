import Whiteout.Marker.Create
import Whiteout.Marker.Remove

/-!
# Markers of a path in another spelling

Repeated separators and separators at either end do not count for markers: where a path has a marker,
a path with the same components has the same one. Whatever is asked of the two then does and answers
the same, and where the path has no marker at all, the two errors differ in the path that they quote.
-/

namespace Whiteout

open Whiteout.Path (components)

/-- The error without the path that its sentence quotes. -/
def Error.unquoted : Error → Error
  | .argument (.unionRoot _) => .argument (.unionRoot [])
  | .argument (.dotComponent _ component) => .argument (.dotComponent [] component)
  | e => e

variable {path other : Bytes} (hsame : components path = components other)
include hsame

theorem unionComponents_alike :
    (∃ parts, unionComponents path = .ok parts ∧ unionComponents other = .ok parts) ∨
      ∃ e e', unionComponents path = .error e ∧ unionComponents other = .error e' ∧
        e.unquoted = e'.unquoted := by
  rw [unionComponents, unionComponents, ← hsame]
  split
  · exact .inr ⟨_, _, rfl, rfl, rfl⟩
  · split
    · exact .inr ⟨_, _, rfl, rfl, rfl⟩
    · exact .inl ⟨_, rfl, rfl⟩

namespace UnionView

variable (view : UnionView) (fs : FileSystem) (s : Session) (rank : Nat)

theorem markerPath_alike : (view.markerPath path rank).mapError Error.unquoted =
    (view.markerPath other rank).mapError Error.unquoted := by
  rcases unionComponents_alike hsame with ⟨parts, h, h'⟩ | ⟨e, e', h, h', hquote⟩
  · rw [markerPath, markerPath, h, h']
  · rw [markerPath, markerPath, h, h']
    exact congrArg Except.error hquote

omit hsame in
theorem isHidden_of_same_parts (h : unionComponents path = unionComponents other) :
    view.isHidden fs path rank = view.isHidden fs other rank := by
  rw [isHidden, isHidden, h]

theorem isHidden_alike : view.isHidden fs path rank = view.isHidden fs other rank := by
  rcases unionComponents_alike hsame with ⟨parts, h, h'⟩ | ⟨e, e', h, h', -⟩
  · exact view.isHidden_of_same_parts fs rank (h.trans h'.symm)
  · rw [isHidden, isHidden, h, h']

omit hsame in
theorem unhideIn_of_same_parts (h : unionComponents path = unionComponents other)
    (ranks : List Nat) : view.unhideIn fs path ranks = view.unhideIn fs other ranks := by
  induction ranks generalizing fs with
  | nil => rfl
  | cons rank others ih => simp only [unhideIn, markerPath, h, ih]

theorem unhideIn_alike (ranks : List Nat) :
    (view.unhideIn fs path ranks).1.mapError Error.unquoted =
        (view.unhideIn fs other ranks).1.mapError Error.unquoted ∧
      (view.unhideIn fs path ranks).2 = (view.unhideIn fs other ranks).2 := by
  rcases unionComponents_alike hsame with ⟨parts, h, h'⟩ | ⟨e, e', h, h', hquote⟩
  · rw [view.unhideIn_of_same_parts fs (h.trans h'.symm)]
    exact ⟨rfl, rfl⟩
  · cases ranks with
    | nil => exact ⟨rfl, rfl⟩
    | cons rank others =>
      simp only [unhideIn, markerPath, h, h']
      exact ⟨congrArg Except.error hquote, trivial⟩

theorem unhide_alike (last : Option Nat) :
    (view.unhide fs path last).1.mapError Error.unquoted =
        (view.unhide fs other last).1.mapError Error.unquoted ∧
      (view.unhide fs path last).2 = (view.unhide fs other last).2 := by
  rw [unhide, unhide]
  split
  · exact view.unhideIn_alike hsame fs _
  · exact ⟨rfl, rfl⟩

variable [Host]

omit hsame in
theorem hide_of_same_parts (h : unionComponents path = unionComponents other) (kind : Kind) :
    view.hide s path rank kind = view.hide s other rank kind := by
  simp only [hide, markerPath, mirrorAncestors, h]

theorem hide_alike (kind : Kind) :
    (view.hide s path rank kind).1.mapError Error.unquoted =
        (view.hide s other rank kind).1.mapError Error.unquoted ∧
      (view.hide s path rank kind).2 = (view.hide s other rank kind).2 := by
  rcases unionComponents_alike hsame with ⟨parts, h, h'⟩ | ⟨e, e', h, h', hquote⟩
  · rw [view.hide_of_same_parts s rank (h.trans h'.symm) kind]
    exact ⟨rfl, rfl⟩
  · simp only [hide, markerPath, h, h']
    split
    · exact ⟨rfl, rfl⟩
    · exact ⟨congrArg Except.error hquote, rfl⟩

end UnionView

end Whiteout
