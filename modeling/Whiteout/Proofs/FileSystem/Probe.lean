import Whiteout.FileSystem.Operations
import Whiteout.Proofs.FileSystem.Walks

/-!
# What a probe finds

A path resolves to a spot exactly when the host admits it and a walk along its names leads there,
and a probe finds something exactly when there is an entry at that spot. Nothing is found below a
path that finds nothing, through links as well.
-/

namespace Whiteout.FileSystem

open Whiteout.Path (separator components endsWithSeparator isAbsolute)

theorem resolveHops_eq_ok_iff {fs : FileSystem} {path : Bytes} {names : List Name}
    {purpose : Purpose} {spot : Spot} :
    fs.resolveHops path names purpose = .ok spot ↔ Path.isAdmissible path = true ∧
      Walks fs.tree purpose maxLinks (startOf fs.cwd path) names spot := by
  rw [← pathFault?_eq_none_iff, ← walk_eq_ok_iff, resolveHops]
  cases pathFault? path with
  | some fault => simp
  | none =>
    cases walk fs.tree purpose maxLinks (startOf fs.cwd path) names with
    | error e => exact ⟨nofun, nofun⟩
    | ok found =>
      constructor
      · intro h
        cases h
        exact ⟨rfl, rfl⟩
      · intro h
        cases h.2
        rfl

theorem resolve_eq_ok_iff {fs : FileSystem} {path : Bytes} {purpose : Purpose} {spot : Spot} :
    fs.resolve path purpose = .ok spot ↔ Path.isAdmissible path = true ∧
      Walks fs.tree purpose maxLinks (startOf fs.cwd path) (hops path) spot :=
  resolveHops_eq_ok_iff

theorem existing_eq_ok_iff {fs : FileSystem} {spot : Spot} {place : Location} {e : Entry} :
    fs.existing spot = .ok (place, e) ↔ spot.place = place ∧ fs.tree.get? place = some e := by
  rw [existing]
  cases hget : fs.tree.get? spot.place with
  | none =>
    refine ⟨nofun, ?_⟩
    intro hfound
    rcases hfound with ⟨rfl, he⟩
    rw [hget] at he
    cases he
  | some found =>
    simp only [Except.ok.injEq, Prod.mk.injEq]
    constructor
    · intro hfound
      rcases hfound with ⟨rfl, rfl⟩
      exact ⟨rfl, hget⟩
    · intro hfound
      rcases hfound with ⟨rfl, he⟩
      exact ⟨rfl, Option.some.inj (hget.symm.trans he)⟩

theorem entryAt_eq_ok_iff {fs : FileSystem} {path : Bytes} {place : Location} {e : Entry} :
    fs.entryAt path = .ok (place, e) ↔ ∃ spot, fs.resolve path .keepLink = .ok spot ∧
      spot.place = place ∧ fs.tree.get? place = some e := by
  rw [entryAt]
  cases fs.resolve path .keepLink with
  | error e => simp
  | ok spot => simp [existing_eq_ok_iff]

theorem get?_of_entryAt {fs : FileSystem} {path : Bytes} {place : Location} {e : Entry}
    (h : fs.entryAt path = .ok (place, e)) : fs.tree.get? place = some e := by
  obtain ⟨spot, -, rfl, hget⟩ := entryAt_eq_ok_iff.1 h
  exact hget

theorem targetAt_eq_ok_iff {fs : FileSystem} {path : Bytes} {place : Location} {e : Entry} :
    fs.targetAt path = .ok (place, e) ↔ ∃ spot, fs.resolve path .followLink = .ok spot ∧
      spot.place = place ∧ fs.tree.get? place = some e := by
  rw [targetAt]
  cases fs.resolve path .followLink with
  | error e => simp
  | ok spot => simp [existing_eq_ok_iff]

theorem probe_isSome_iff {fs : FileSystem} {path : Bytes} :
    (fs.probe path).isSome = true ↔ ∃ x, fs.entryAt path = .ok x := by
  rw [probe]
  split
  · next place e he => simp [he]
  · next e he => simp [he]

theorem probe_eq_some_iff {fs : FileSystem} {path : Bytes} {kind : Kind} :
    fs.probe path = some kind ↔ ∃ place e, fs.entryAt path = .ok (place, e) ∧ e.kind = kind := by
  rw [probe]
  split
  · next place e he =>
    rw [he, Option.some.injEq]
    constructor
    · exact fun hkind => ⟨place, e, rfl, hkind⟩
    · intro hfound
      obtain ⟨other, found, hsame, hkind⟩ := hfound
      cases hsame
      exact hkind
  · next e he => simp [he]

theorem probe_eq_dir_iff {fs : FileSystem} {path : Bytes} :
    fs.probe path = some .dir ↔ ∃ place mode, fs.entryAt path = .ok (place, .dir mode) := by
  rw [probe_eq_some_iff]
  constructor
  · intro hfound
    obtain ⟨place, e, he, hkind⟩ := hfound
    obtain ⟨mode, rfl⟩ := Entry.kind_eq_dir_iff.1 hkind
    exact ⟨place, mode, he⟩
  · intro hfound
    obtain ⟨place, mode, he⟩ := hfound
    exact ⟨place, .dir mode, he, rfl⟩

theorem probe_isSome_of_resolve {fs : FileSystem} {path : Bytes} {spot : Spot}
    (h : fs.resolve path .keepLink = .ok spot) (hfound : (fs.tree.get? spot.place).isSome = true) :
    (fs.probe path).isSome = true := by
  obtain ⟨e, he⟩ := Option.isSome_iff_exists.1 hfound
  exact probe_isSome_iff.2 ⟨(spot.place, e), entryAt_eq_ok_iff.2 ⟨spot, h, rfl, he⟩⟩

theorem hops_of_not_endsWithSeparator {path : Bytes} (h : endsWithSeparator path = false) :
    hops path = components path := by
  simp [hops, h]

theorem isAdmissible_of_append {text rest : Bytes} (hne : text ≠ [])
    (h : Path.isAdmissible (text ++ rest) = true) : Path.isAdmissible text = true := by
  obtain ⟨-, hnul, hlen⟩ := Path.isAdmissible_iff.1 h
  rw [List.length_append] at hlen
  exact Path.isAdmissible_iff.2 ⟨hne, fun hm => hnul (List.mem_append_left _ hm), by omega⟩

theorem hops_of_endsWithSeparator {path : Bytes} (h : endsWithSeparator path = true)
    (hne : components path ≠ []) : hops path = components path ++ [[]] := by
  simp [hops, h, hne]

theorem hops_cases (path : Bytes) :
    hops path = components path ∨ components path ≠ [] ∧ hops path = components path ++ [[]] := by
  by_cases hne : components path = []
  · exact .inl (by simp [hops, hne])
  · cases hend : endsWithSeparator path with
    | false => exact .inl (hops_of_not_endsWithSeparator hend)
    | true => exact .inr ⟨hne, hops_of_endsWithSeparator hend hne⟩

theorem exists_hops_below (path rest : Bytes) :
    ∃ back, hops (path ++ separator :: rest) = components path ++ back ∧
      (hops path = components path ∨ hops path = components path ++ [[]] ∧ back ≠ []) := by
  have hcomps : components (path ++ separator :: rest) = components path ++ components rest :=
    Path.components_append_separator path rest
  rcases hops_cases path with hpath | ⟨hne, hpath⟩
  · rcases hops_cases (path ++ separator :: rest) with hbelow | ⟨-, hbelow⟩
    · exact ⟨components rest, hbelow.trans hcomps, .inl hpath⟩
    · exact ⟨components rest ++ [[]], by rw [hbelow, hcomps, List.append_assoc], .inl hpath⟩
  · have hne' : components (path ++ separator :: rest) ≠ [] := by simp [hcomps, hne]
    by_cases hrest : components rest = []
    · have hend := Path.endsWithSeparator_of_components_nil hrest path
      exact ⟨[[]], by rw [hops_of_endsWithSeparator hend hne', hcomps, hrest, List.append_nil],
        .inr ⟨hpath, by simp⟩⟩
    · rcases hops_cases (path ++ separator :: rest) with hbelow | ⟨-, hbelow⟩
      · exact ⟨components rest, hbelow.trans hcomps, .inr ⟨hpath, hrest⟩⟩
      · exact ⟨components rest ++ [[]], by rw [hbelow, hcomps, List.append_assoc],
          .inr ⟨hpath, by simp⟩⟩

theorem probe_of_below {fs : FileSystem} {path rest : Bytes} (hne : path ≠ [])
    (h : (fs.probe (path ++ separator :: rest)).isSome = true) : (fs.probe path).isSome = true := by
  obtain ⟨⟨place, e⟩, he⟩ := probe_isSome_iff.1 h
  obtain ⟨spot, hresolve, rfl, hget⟩ := entryAt_eq_ok_iff.1 he
  obtain ⟨hadm, hwalk⟩ := resolve_eq_ok_iff.1 hresolve
  have hstart : startOf fs.cwd (path ++ separator :: rest) = startOf fs.cwd path := by
    simp [startOf, Path.isAbsolute_append hne]
  rw [hstart] at hwalk
  have hfound : (fs.tree.get? spot.place).isSome = true := by simp [hget]
  obtain ⟨back, hbelow, hpath⟩ := exists_hops_below path rest
  rw [hbelow] at hwalk
  -- the walk along the longer path comes by where the shorter one leads
  have hhalfway : ∃ half, Walks fs.tree .keepLink maxLinks (startOf fs.cwd path) (hops path) half ∧
      (fs.tree.get? half.place).isSome = true := by
    rcases hpath with hpath | ⟨hpath, hback⟩
    · exact hpath ▸ hwalk.front hfound
    · by_cases hslash : back = [[]]
      · exact ⟨spot, by rw [hpath, ← hslash]; exact hwalk, hfound⟩
      · rw [← walk_eq_ok_iff, ← walk_skip_empty hback hslash, walk_eq_ok_iff] at hwalk
        rw [← List.singleton_append, ← List.append_assoc, ← hpath] at hwalk
        exact hwalk.front hfound
  obtain ⟨half, hhalf, hsome⟩ := hhalfway
  exact probe_isSome_of_resolve (resolve_eq_ok_iff.2 ⟨isAdmissible_of_append hne hadm, hhalf⟩) hsome

end Whiteout.FileSystem
