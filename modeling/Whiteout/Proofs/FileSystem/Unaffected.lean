import Whiteout.Proofs.FileSystem.Along

/-!
# Reading past changes elsewhere

Without links a path is resolved through the places that the fronts of its names lead to. As long
as these places keep their entries, whatever changes elsewhere, the path resolves as before and the
same is read there.
-/

namespace Whiteout.FileSystem

open Whiteout.Path (dot dotDot components IsProper)

/-- The places that a path leads through hold the same entries. -/
structure SameAlong (fs other : FileSystem) (path : Bytes) : Prop where
  cwd : other.cwd = fs.cwd
  same : ∀ front, front <+: components path →
    other.tree.get? ((startOf fs.cwd path).along front) =
      fs.tree.get? ((startOf fs.cwd path).along front)

theorem walkWith_congr {t u : Tree} (hfree : t.LinkFree) {purpose : Purpose}
    {follow follow' : Location → List Name → Except Errno Spot} {here : Location}
    {names : List Name}
    (hsame : ∀ front, front <+: names → u.get? (here.along front) = t.get? (here.along front)) :
    walkWith u purpose follow' here names = walkWith t purpose follow here names := by
  induction names generalizing here with
  | nil => rfl
  | cons name rest ih =>
    have hhere : u.get? here = t.get? here := hsame [] List.nil_prefix
    have hbelow {front : List Name} (hfront : front <+: rest) : name :: front <+: name :: rest :=
      List.cons_prefix_cons.2 ⟨rfl, hfront⟩
    rw [walkWith, walkWith, hhere]
    split
    · rfl
    · rfl
    · rfl
    · by_cases hstay : name = [] ∨ name = dot
      · rw [if_pos hstay, if_pos hstay]
        refine ih fun front hfront => ?_
        have hread := hsame _ (hbelow hfront)
        rwa [Location.along_stay here hstay] at hread
      · rw [if_neg hstay, if_neg hstay]
        by_cases hup : name = dotDot
        · rw [if_pos hup, if_pos hup]
          refine ih fun front hfront => ?_
          have hread := hsame _ (hbelow hfront)
          rwa [hup, Location.along_up] at hread
        · rw [if_neg hup, if_neg hup]
          have hname : IsProper name := ⟨fun he => hstay (.inl he), fun he => hstay (.inr he), hup⟩
          have hnext : u.get? (here ++ [name]) = t.get? (here ++ [name]) := by
            have hread := hsame _ (hbelow List.nil_prefix)
            rwa [Location.along_down here hname] at hread
          have hrest := ih fun front hfront => by
            have hread := hsame _ (hbelow hfront)
            rwa [Location.along_down here hname] at hread
          rw [hnext, hrest]
          split
          · rfl
          · split
            · rfl
            · split
              · next target hlink => exact absurd hlink (hfree _ target)
              · rfl
              · rfl

variable {fs other : FileSystem} {path : Bytes} (hfree : fs.tree.LinkFree)
  (h : SameAlong fs other path)
include hfree h

theorem SameAlong.resolve_eq (purpose : Purpose) :
    other.resolve path purpose = fs.resolve path purpose := by
  obtain ⟨follow, hwalk⟩ := exists_walkWith fs.tree purpose maxLinks
  obtain ⟨follow', hwalk'⟩ := exists_walkWith other.tree purpose maxLinks
  have hsame : walkWith other.tree purpose follow' (startOf fs.cwd path) (hops path) =
      walkWith fs.tree purpose follow (startOf fs.cwd path) (hops path) := by
    refine walkWith_congr hfree fun front hfront => ?_
    rcases hops_cases path with hplain | ⟨-, hslash⟩
    · exact h.same front (hplain ▸ hfront)
    · rw [hslash] at hfront
      rcases List.prefix_concat_iff.1 hfront with rfl | hfront
      · have hread := h.same _ (List.prefix_refl _)
        rwa [Location.along_append, Location.along_stay _ (.inl rfl)]
      · exact h.same front hfront
  rw [resolve, resolve, resolveHops, resolveHops, h.cwd, hwalk, hwalk', hsame]

theorem SameAlong.targetAt_eq : other.targetAt path = fs.targetAt path := by
  rw [targetAt, targetAt, h.resolve_eq hfree]
  split
  · next spot hresolve =>
    have hplace : spot.place = (startOf fs.cwd path).along (components path) :=
      resolve_place hfree hresolve
    rw [existing, existing, hplace, h.same _ (List.prefix_refl _)]
  · rfl

theorem SameAlong.exists?_eq : other.exists? path = fs.exists? path := by
  rw [exists?, exists?, h.targetAt_eq hfree]

theorem SameAlong.textAt_eq : other.textAt path = fs.textAt path := by
  rw [textAt, textAt, contentAt, contentAt, h.targetAt_eq hfree]

end Whiteout.FileSystem
