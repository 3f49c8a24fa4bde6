import Whiteout.Proofs.FileSystem.Probe

/-!
# A separator at the end

Two paths with the same names, both absolute or both relative, lead the same way but for a separator
at the end. Such a separator asks for a directory and follows a link at the end, so the path with it
finds an entry exactly where the path without it leads, through links, to a directory.
-/

namespace Whiteout.FileSystem

open Whiteout.Path (separator components endsWithSeparator isAbsolute)

variable {t : Tree} {links mode : Nat} {here : Location} {names : List Name} {spot : Spot}

namespace Walks

theorem trailing (h : Walks t .followLink links here names spot)
    (hdir : t.get? spot.place = some (.dir mode)) :
    ∃ slashed, Walks t .keepLink links here (names ++ [[]]) slashed ∧
      slashed.place = spot.place := by
  induction h with
  | @stay _ here => exact ⟨.self here, .pass hdir (.inl rfl) .stay, rfl⟩
  | pass hhere hname _ ih =>
    obtain ⟨slashed, hwalk, hplace⟩ := ih hdir
    exact ⟨slashed, .pass hhere hname hwalk, hplace⟩
  | up hhere _ ih =>
    obtain ⟨slashed, hwalk, hplace⟩ := ih hdir
    exact ⟨slashed, .up hhere hwalk, hplace⟩
  | @arrive _ _ here name hhere hname hlen _ =>
    exact ⟨.self (here ++ [name]), .enter hhere hname hlen (by simp) (by simp) hdir
      (.pass hdir (.inl rfl) .stay), rfl⟩
  | enter hhere hname hlen _ _ hbelow _ ih =>
    obtain ⟨slashed, hwalk, hplace⟩ := ih hdir
    exact ⟨slashed, .enter hhere hname hlen (by simp) (by simp) hbelow hwalk, hplace⟩
  | follow hhere hname hlen _ _ hlink _ ih =>
    obtain ⟨slashed, hwalk, hplace⟩ := ih hdir
    rw [List.append_assoc] at hwalk
    exact ⟨slashed, .follow hhere hname hlen (by simp) (by simp) hlink hwalk, hplace⟩

theorem of_trailing (h : Walks t .keepLink links here (names ++ [[]]) spot) :
    ∃ target mode, Walks t .followLink links here names target ∧ target.place = spot.place ∧
      t.get? spot.place = some (.dir mode) := by
  generalize hnames : names ++ [[]] = all at h
  induction h generalizing names with
  | stay => simp at hnames
  | pass hhere hname hrest ih =>
    cases names with
    | nil =>
      obtain ⟨-, rfl⟩ := List.cons_eq_cons.1 hnames
      cases hrest
      exact ⟨_, _, .stay, rfl, hhere⟩
    | cons first names =>
      obtain ⟨rfl, hback⟩ := List.cons_eq_cons.1 hnames
      obtain ⟨target, mode, hwalk, hplace, hdir⟩ := ih hback
      exact ⟨target, mode, .pass hhere hname hwalk, hplace, hdir⟩
  | up hhere hrest ih =>
    cases names with
    | nil => simp [Path.dotDot] at hnames
    | cons first names =>
      obtain ⟨rfl, hback⟩ := List.cons_eq_cons.1 hnames
      obtain ⟨target, mode, hwalk, hplace, hdir⟩ := ih hback
      exact ⟨target, mode, .up hhere hwalk, hplace, hdir⟩
  | arrive hhere hname _ _ =>
    cases names with
    | nil => exact absurd (List.cons_eq_cons.1 hnames).1.symm hname.1
    | cons first names => simp at hnames
  | @enter _ _ _ here name rest _ hhere hname hlen hgo _ hbelow hrest ih =>
    cases names with
    | nil => exact absurd (List.cons_eq_cons.1 hnames).1.symm hname.1
    | cons first names =>
      obtain ⟨rfl, hback⟩ := List.cons_eq_cons.1 hnames
      obtain ⟨target, mode, hwalk, hplace, hdir⟩ := ih hback
      by_cases hlast : names = []
      · subst hlast
        cases hwalk
        exact ⟨_, mode, .arrive hhere hname hlen (by simp [hbelow]), hplace, hdir⟩
      · exact ⟨target, mode, .enter hhere hname hlen hlast (by simp) hbelow hwalk, hplace, hdir⟩
  | follow hhere hname hlen _ _ hlink hrest ih =>
    cases names with
    | nil => exact absurd (List.cons_eq_cons.1 hnames).1.symm hname.1
    | cons first names =>
      obtain ⟨rfl, rfl⟩ := List.cons_eq_cons.1 hnames
      obtain ⟨target, mode, hwalk, hplace, hdir⟩ := ih (List.append_assoc ..)
      exact ⟨target, mode, .follow hhere hname hlen (by simp) (by simp) hlink hwalk, hplace, hdir⟩

end Walks

variable {fs : FileSystem} {path other : Bytes}

theorem isDirectory_iff : fs.isDirectory path = true ↔
    Path.isAdmissible path = true ∧ ∃ target mode,
      Walks fs.tree .followLink maxLinks (startOf fs.cwd path) (hops path) target ∧
        fs.tree.get? target.place = some (.dir mode) := by
  constructor
  · intro h
    rw [isDirectory] at h
    split at h
    · next place e he =>
      obtain ⟨target, hresolve, rfl, hget⟩ := targetAt_eq_ok_iff.1 he
      obtain ⟨hadm, hwalk⟩ := resolve_eq_ok_iff.1 hresolve
      cases e with
      | dir mode => exact ⟨hadm, target, mode, hwalk, hget⟩
      | file => cases h
      | link => cases h
    · cases h
  · intro h
    rcases h with ⟨hadm, target, mode, hwalk, hget⟩
    have htarget : fs.targetAt path = .ok (target.place, .dir mode) :=
      targetAt_eq_ok_iff.2 ⟨target, resolve_eq_ok_iff.2 ⟨hadm, hwalk⟩, rfl, hget⟩
    rw [isDirectory, htarget]
    rfl

theorem probe_isSome_iff_walks : (fs.probe path).isSome = true ↔
    Path.isAdmissible path = true ∧ ∃ spot,
      Walks fs.tree .keepLink maxLinks (startOf fs.cwd path) (hops path) spot ∧
        (fs.tree.get? spot.place).isSome = true := by
  constructor
  · intro h
    obtain ⟨⟨place, e⟩, he⟩ := probe_isSome_iff.1 h
    obtain ⟨spot, hresolve, rfl, hget⟩ := entryAt_eq_ok_iff.1 he
    obtain ⟨hadm, hwalk⟩ := resolve_eq_ok_iff.1 hresolve
    exact ⟨hadm, spot, hwalk, by rw [hget]; rfl⟩
  · intro h
    rcases h with ⟨hadm, spot, hwalk, hfound⟩
    exact probe_isSome_of_resolve (resolve_eq_ok_iff.2 ⟨hadm, hwalk⟩) hfound

section

variable (hsame : components path = components other) (hne : components path ≠ [])
  (habs : isAbsolute path = isAbsolute other)
include hsame hne

theorem isAdmissible_respelled (hadm : Path.isAdmissible path = true) :
    Path.isAdmissible other = true ↔ other.length ≤ Path.maxLength := by
  rw [Path.isAdmissible_iff]
  refine ⟨fun h => h.2.2, fun hlen =>
    ⟨Path.ne_nil_of_components (hsame ▸ hne), fun hnul => ?_, hlen⟩⟩
  obtain ⟨name, hname, hmem⟩ := Path.exists_component_of_mem hnul (by decide)
  exact (Path.isAdmissible_iff.1 hadm).2.1 (Path.mem_of_mem_component (hsame ▸ hname) hmem)

include habs

/-- Where a path finds an entry, another spelling of it does so unless it is too long or, with a
separator at the end, asks for a directory and there is none. -/
theorem probe_respelled (hfound : (fs.probe path).isSome = true) :
    (fs.probe other).isSome = true ↔ other.length ≤ Path.maxLength ∧
      (endsWithSeparator other = true →
        endsWithSeparator path = true ∨ fs.isDirectory path = true) := by
  obtain ⟨hadm, spot, hwalk, hspot⟩ := probe_isSome_iff_walks.1 hfound
  have hne' : components other ≠ [] := hsame ▸ hne
  have hstart : startOf fs.cwd other = startOf fs.cwd path := by rw [startOf, startOf, habs]
  rw [probe_isSome_iff_walks, isAdmissible_respelled hsame hne hadm, and_congr_right_iff, hstart]
  intro _
  cases hother : endsWithSeparator other with
  | false =>
    rw [hops_of_not_endsWithSeparator hother, ← hsame]
    refine ⟨fun _ hend => absurd hend Bool.false_ne_true, fun _ => ?_⟩
    rcases hops_cases path with hpath | ⟨-, hpath⟩
    · exact ⟨spot, hpath ▸ hwalk, hspot⟩
    · rw [hpath] at hwalk
      exact hwalk.front hspot
  | true =>
    rw [hops_of_endsWithSeparator hother hne', ← hsame]
    cases hpath : endsWithSeparator path with
    | true =>
      rw [hops_of_endsWithSeparator hpath hne] at hwalk
      exact ⟨fun _ _ => .inl rfl, fun _ => ⟨spot, hwalk, hspot⟩⟩
    | false =>
      have hhops := hops_of_not_endsWithSeparator hpath
      constructor
      · intro h _
        rcases h with ⟨slashed, htrailing, -⟩
        obtain ⟨target, mode, htarget, hplace, hdir⟩ := htrailing.of_trailing
        rw [← hplace] at hdir
        exact .inr (isDirectory_iff.2 ⟨hadm, target, mode, hhops ▸ htarget, hdir⟩)
      · intro h
        obtain ⟨-, target, mode, htarget, hdir⟩ :=
          isDirectory_iff.1 ((h rfl).resolve_left Bool.false_ne_true)
        obtain ⟨slashed, htrailing, hplace⟩ := (hhops ▸ htarget).trailing hdir
        exact ⟨slashed, htrailing, by rw [hplace, hdir]; rfl⟩

end

end Whiteout.FileSystem
