import Whiteout.Proofs.FileSystem.Along
import Whiteout.Proofs.FileSystem.Spelled

/-!
# What a request adds

`AddsOnly` bounds the growth of a file system: what is there afterwards was there before or is one
of the entries named. Making a directory and creating a file add the one entry at the place that
the path reads.
-/

namespace Whiteout.FileSystem

open Whiteout.Path (components endsWithSeparator)

/-- The file system grew, and by nothing but the entries named. -/
structure AddsOnly (added : Location → Entry → Prop) (before after : FileSystem) : Prop where
  grows : Grows before after
  fresh : ∀ l e, after.tree.get? l = some e → before.tree.get? l = some e ∨ added l e

namespace AddsOnly

variable {added more : Location → Entry → Prop} {before middle after : FileSystem}

theorem refl (fs : FileSystem) : AddsOnly added fs fs := ⟨.refl fs, fun _ _ h => .inl h⟩

theorem weaken (h : AddsOnly added before after) (hmore : ∀ l e, added l e → more l e) :
    AddsOnly more before after :=
  ⟨h.grows, fun l e he => (h.fresh l e he).imp_right (hmore l e)⟩

theorem trans (h : AddsOnly added before middle) (h' : AddsOnly added middle after) :
    AddsOnly added before after := by
  refine ⟨h.grows.trans h'.grows, fun l e he => ?_⟩
  rcases h'.fresh l e he with hold | hadded
  · exact h.fresh l e hold
  · exact .inr hadded

theorem sameTree {other : FileSystem} (h : AddsOnly added before after) (hsame : SameTree after other) :
    AddsOnly added before other :=
  ⟨h.grows.trans (.of_sameTree hsame), fun l e he => h.fresh l e (hsame.1 ▸ he)⟩

theorem linkFree (h : AddsOnly added before after) (hfree : before.tree.LinkFree)
    (hadded : ∀ l e, added l e → e.isLink = false) : after.tree.LinkFree := by
  intro l target hlink
  rcases h.fresh l _ hlink with hold | hnew
  · exact hfree l target hold
  · exact absurd (hadded l _ hnew) (by simp [Entry.isLink])

theorem get?_cases (h : AddsOnly added before after) (l : Location) :
    after.tree.get? l = before.tree.get? l ∨
      before.tree.get? l = none ∧ ∃ e, after.tree.get? l = some e ∧ added l e := by
  cases hbefore : before.tree.get? l with
  | some e => exact .inl (h.grows.2 l e hbefore)
  | none =>
    cases hafter : after.tree.get? l with
    | none => exact .inl rfl
    | some e =>
      have hadded : added l e := (h.fresh l e hafter).resolve_left (by simp [hbefore])
      exact .inr ⟨rfl, e, rfl, hadded⟩

theorem sameTree_of_nothing (h : AddsOnly added before after) (hnothing : ∀ l e, ¬added l e) :
    SameTree before after := by
  refine ⟨Tree.ext_get? fun l => (h.get?_cases l).resolve_right ?_, h.grows.1⟩
  rintro ⟨-, e, -, hadded⟩
  exact hnothing l e hadded

end AddsOnly

theorem IsPut.adds {before after : FileSystem} {place : Location} {e : Entry}
    (h : before.IsPut after place e) (hnew : before.tree.get? place = none) :
    AddsOnly (fun l f => l = place ∧ f = e) before after := by
  refine ⟨h.grows hnew, fun l f hf => ?_⟩
  rw [h.2] at hf
  split at hf
  · next hplace => exact .inr ⟨hplace.symm, (Option.some.inj hf).symm⟩
  · exact .inl hf

theorem Grows.placeOf_eq {before after : FileSystem} (h : Grows before after) (path : Bytes) :
    after.placeOf path = before.placeOf path := by
  rw [placeOf, placeOf, h.1]

theorem LeadsDown.grows {before after : FileSystem} {path : Bytes} (h : before.LeadsDown path)
    (hgrow : Grows before after) : after.LeadsDown path := by
  rw [LeadsDown, hgrow.placeOf_eq, hgrow.1]
  exact Descends.grows hgrow.2 h

theorem LeadsDown.of_grown {before after : FileSystem} {path : Bytes} (h : after.LeadsDown path)
    (hgrow : Grows before after) (hthere : ∀ front, front <+: components path →
      (after.tree.get? ((startOf before.cwd path).along front)).isSome = true →
        (before.tree.get? ((startOf before.cwd path).along front)).isSome = true) :
    before.LeadsDown path := by
  rw [LeadsDown, hgrow.placeOf_eq, hgrow.1] at h
  refine h.of_kept fun front hfront e he => ?_
  obtain ⟨old, hold⟩ := Option.isSome_iff_exists.1 (hthere front hfront (by rw [he]; rfl))
  rw [hgrow.2 _ old hold] at he
  rwa [← Option.some.inj he]

variable [Host] {fs made : FileSystem} {path : Bytes} {mode : Nat}

theorem makeDir_adds (hfree : fs.tree.LinkFree) (h : fs.makeDir path mode = .ok made) :
    AddsOnly (fun l e => l = fs.placeOf path ∧ e = .dir (Host.granted mode)) fs made := by
  obtain ⟨place, hresolve, hnew, hcwd, hget⟩ := makeDir_ok h
  have hplace : place = fs.placeOf path := resolveNew_place hfree hresolve
  exact hplace ▸ IsPut.adds ⟨hcwd, hget⟩ hnew

theorem entryAt_of_makeDir (hend : endsWithSeparator path = false)
    (h : fs.makeDir path mode = .ok made) : ∃ place, fs.tree.get? place = none ∧
      fs.IsPut made place (.dir (Host.granted mode)) ∧
        made.entryAt path = .ok (place, .dir (Host.granted mode)) := by
  obtain ⟨place, hresolve, hnew, hcwd, hget⟩ := makeDir_ok h
  have hspot : fs.resolve path .keepLink = .ok (.named place) := by
    rw [resolve, hops_of_not_endsWithSeparator hend]
    exact hresolve
  exact ⟨place, hnew, ⟨hcwd, hget⟩, entryAt_eq_ok_iff.2
    ⟨_, (makeDir_grows h).resolve hspot, rfl, by rw [hget, if_pos rfl]⟩⟩

theorem createFile_adds (hfree : fs.tree.LinkFree) (h : fs.createFile path mode = .ok made) :
    AddsOnly (fun l e => l = fs.placeOf path ∧ e = .file (Host.granted mode) []) fs made := by
  obtain ⟨place, hopen⟩ := createFile_ok h
  obtain ⟨hresolve, ⟨-, rfl⟩ | ⟨hnew, hcwd, hget⟩⟩ := openFile_ok hopen
  · exact .refl _
  · have hplace : place = fs.placeOf path := resolve_place hfree hresolve
    exact hplace ▸ IsPut.adds ⟨hcwd, hget⟩ hnew

end Whiteout.FileSystem
