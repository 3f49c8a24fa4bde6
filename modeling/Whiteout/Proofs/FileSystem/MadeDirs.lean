import Whiteout.Proofs.FileSystem.Additions
import Whiteout.Proofs.FileSystem.SpecialBits
import Whiteout.Proofs.Path.Parents

/-!
# Directories made with those above them

Making a directory with the missing ones above it asks for one directory at a time, each named by a
front of the path, and goes up only where something on the way is missing. Whether it succeeds or
stops half-way, nothing is taken away and only such directories are new.
-/

namespace Whiteout.FileSystem

open Whiteout.Path (components endsWithSeparator parent? IsFront)

variable [Host] {fs made : FileSystem} {path parent : Bytes} {mode depth : Nat}

def NamedDir (made : FileSystem) (path : Bytes) (l : Location) (e : Entry) : Prop :=
  e = .dir (Host.granted newDirMode) ∧ ∃ front, IsFront front path ∧ made.entryAt front = .ok (l, e)

theorem NamedDir.onward {later : FileSystem} {l : Location} {e : Entry}
    (h : NamedDir made parent l e) (hgrow : Grows made later) (htext : parent <+: path)
    (hnames : components parent <+: components path) : NamedDir later path l e := by
  obtain ⟨hdir, front, hfront, hentry⟩ := h
  exact ⟨hdir, front, hfront.trans htext hnames, hgrow.entryAt hentry⟩

theorem components_ne_nil_of_makeDir (h : fs.makeDir path mode = .ok made) :
    components path ≠ [] := by
  intro hnone
  obtain ⟨place, hresolve, -⟩ := makeDir_ok h
  obtain ⟨-, hwalk⟩ := resolveHops_eq_ok_iff.1 hresolve
  rw [hnone] at hwalk
  cases hwalk

theorem makeDir_addsNamed (hend : components path ≠ [] → endsWithSeparator path = false)
    (h : fs.makeDir path newDirMode = .ok made) : AddsOnly (NamedDir made path) fs made := by
  have hne := components_ne_nil_of_makeDir h
  obtain ⟨place, hnew, hput, hentry⟩ := entryAt_of_makeDir (hend hne) h
  refine (hput.adds hnew).weaken fun l e hadded => ?_
  obtain ⟨rfl, rfl⟩ := hadded
  exact ⟨rfl, path, .refl hne, hentry⟩

theorem makeDirs_adds (hend : components path ≠ [] → endsWithSeparator path = false) :
    AddsOnly (NamedDir (fs.makeDirs depth path).2 path) fs (fs.makeDirs depth path).2 := by
  induction depth generalizing path with
  | zero => exact .refl fs
  | succ depth ih =>
    rw [makeDirs]
    split
    · exact .refl fs
    · split
      · next made hmade => exact makeDir_addsNamed hend hmade
      · split
        · exact .refl fs
        · next parent hparent =>
          have habove := ih (Path.endsWithSeparator_of_parent hparent)
          obtain ⟨htext, hnames⟩ := Path.prefix_of_parent hparent
          split
          · next e made hstopped =>
            rw [hstopped] at habove
            exact habove.weaken fun l e hnamed => hnamed.onward (.refl made) htext hnames
          · next made habovemade =>
            rw [habovemade] at habove
            split
            · next final hfinal =>
              have hlast := makeDir_addsNamed hend hfinal
              exact (habove.weaken fun l e hnamed =>
                hnamed.onward hlast.grows htext hnames).trans hlast
            · exact habove.weaken fun l e hnamed => hnamed.onward (.refl made) htext hnames
      · exact .refl fs

theorem makeDirs_passesOn (fs : FileSystem) (depth : Nat) (path : Bytes) :
    Grows fs (fs.makeDirs depth path).2 ∧ PassesOn (fun _ => False) fs (fs.makeDirs depth path).2 := by
  have hnothing : Grows fs fs ∧ PassesOn (fun _ => False) fs fs := ⟨.refl fs, .refl fs⟩
  induction depth generalizing path with
  | zero => exact hnothing
  | succ depth ih =>
    rw [makeDirs]
    split
    · exact hnothing
    · split
      · next made hmade => exact ⟨makeDir_grows hmade, makeDir_passesOn hmade⟩
      · split
        · exact hnothing
        · next parent hparent =>
          obtain ⟨hgrow, hpass⟩ := ih parent
          split
          · next e made hstopped => exact hstopped ▸ ⟨hgrow, hpass⟩
          · next made habove =>
            rw [habove] at hgrow hpass
            split
            · next final hfinal =>
              have hlast := makeDir_grows hfinal
              refine ⟨hgrow.trans hlast, ?_⟩
              exact (hpass.trans (makeDir_passesOn hfinal) hgrow hlast).congr fun _ => or_self_iff.symm
            · exact ⟨hgrow, hpass⟩
      · exact hnothing

end Whiteout.FileSystem
