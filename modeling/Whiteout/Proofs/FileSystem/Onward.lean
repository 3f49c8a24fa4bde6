import Whiteout.Proofs.FileSystem.Descent

/-!
# Going on from a directory

A walk that has come to a directory, through whatever links, goes on from there with the links it
has left. So where a path finds a directory with no link below it, a longer path finds exactly what
stands in the tree below that directory.
-/

namespace Whiteout.FileSystem

open Whiteout.Path (components endsWithSeparator IsProper IsComponent)
open Whiteout.Marker (slashed)

theorem Walks.walk_append {t : Tree} {links : Nat} {here : Location} {front back : List Name}
    {spot : Spot} (h : Walks t .keepLink links here front spot)
    (hdir : t.isDirAt spot.place = true) (hback : back ≠ []) :
    ∃ fewer, walk t .keepLink links here (front ++ back) =
      walk t .keepLink fewer spot.place back := by
  have hlonger (rest : List Name) : rest ++ back ≠ [] := by simp [hback]
  induction h with
  | @stay links here => exact ⟨links, rfl⟩
  | pass hhere hname _ ih =>
    rw [List.cons_append, walk_pass hhere hname]
    exact ih hdir
  | up hhere _ ih =>
    rw [List.cons_append, walk_up hhere]
    exact ih hdir
  | @arrive links _ here name hhere hname hlen _ =>
    obtain ⟨mode, hbelow⟩ := Tree.isDirAt_iff.1 hdir
    exact ⟨links, walk_enter hhere hname hlen hback (by simp) hbelow⟩
  | enter hhere hname hlen _ _ hbelow _ ih =>
    rw [List.cons_append, walk_enter hhere hname hlen (hlonger _) (by simp) hbelow]
    exact ih hdir
  | follow hhere hname hlen _ _ hlink _ ih =>
    rw [List.cons_append, walk_follow hhere hname hlen (by simp [hback]) (by simp) hlink,
      ← List.append_assoc]
    exact ih hdir

theorem walk_to_entry {t : Tree} {links : Nat} {place : Location} {names : List Name} {e : Entry}
    (hne : names ≠ []) (hget : t.get? (place ++ names) = some e) :
    walk t .keepLink links place names = .ok (.named (place ++ names)) := by
  obtain ⟨init, last, rfl⟩ := Location.exists_concat hne
  have hlast := Path.isName_iff.1 (Tree.isName_of_get? hget last (by simp))
  have hinit : t.isDirAt (place ++ init) = true := by
    have habove := Tree.isDirAt_dropLast hget
    rwa [← List.append_assoc, List.dropLast_concat] at habove
  obtain ⟨mode, hdir⟩ := Tree.isDirAt_iff.1 hinit
  rw [(Descends.to_dir hinit).walk_append (by simp) (by simpa using hlast.1), ← List.append_assoc]
  exact walk_of_walks (.arrive hdir ⟨hlast.1, hlast.2.1, hlast.2.2.1⟩ hlast.2.2.2.2.2
    fun _ _ => rfl)

section

variable {fs : FileSystem} {base : Bytes} {place : Location} {mode : Nat} {names : List Name}
  (hbase : fs.entryAt base = .ok (place, .dir mode)) (hend : endsWithSeparator base = false)
  (hfree : fs.tree.LinkFreeBelow place) (hne : names ≠ []) (hcomps : ∀ n ∈ names, IsComponent n)
  (hproper : ∀ n ∈ names, IsProper n)
include hbase hend hfree hne hcomps hproper

theorem entryAt_slashed_iff {found : Location} {e : Entry} :
    fs.entryAt (base ++ slashed names) = .ok (found, e) ↔
      Path.isAdmissible (base ++ slashed names) = true ∧ found = place ++ names ∧
        fs.tree.get? (place ++ names) = some e := by
  obtain ⟨spot, hresolve, rfl, hget⟩ := entryAt_eq_ok_iff.1 hbase
  obtain ⟨hadm, hwalk⟩ := resolve_eq_ok_iff.1 hresolve
  rw [hops_of_not_endsWithSeparator hend] at hwalk
  obtain ⟨fewer, hon⟩ := hwalk.walk_append (Tree.isDirAt_iff.2 ⟨mode, hget⟩) hne
  have hnil : base ≠ [] := (Path.isAdmissible_iff.1 hadm).1
  have hstart : startOf fs.cwd (base ++ slashed names) = startOf fs.cwd base := by
    rw [startOf, startOf, Path.isAbsolute_append hnil]
  have hhops : hops (base ++ slashed names) = components base ++ names := by
    rw [hops_of_not_endsWithSeparator (Path.endsWithSeparator_slashed base hne hcomps),
      Path.components_append_slashed hcomps]
  rw [entryAt_eq_ok_iff]
  simp only [resolve_eq_ok_iff, hstart, hhops, ← walk_eq_ok_iff, hon]
  constructor
  · intro hfound
    obtain ⟨other, ⟨hlonger, hbelow⟩, rfl, he⟩ := hfound
    obtain rfl := (walks_of_walk hbelow).straight_below hfree hne hproper
    exact ⟨hlonger, rfl, he⟩
  · intro hfound
    obtain ⟨hlonger, rfl, he⟩ := hfound
    exact ⟨_, ⟨hlonger, walk_to_entry hne he⟩, rfl, he⟩

theorem probe_slashed_iff {kind : Kind} :
    fs.probe (base ++ slashed names) = some kind ↔
      Path.isAdmissible (base ++ slashed names) = true ∧
        ∃ e, fs.tree.get? (place ++ names) = some e ∧ e.kind = kind := by
  rw [probe_eq_some_iff]
  simp only [entryAt_slashed_iff hbase hend hfree hne hcomps hproper]
  constructor
  · intro hfound
    obtain ⟨found, e, ⟨hadm, -, he⟩, hkind⟩ := hfound
    exact ⟨hadm, e, he, hkind⟩
  · intro hfound
    obtain ⟨hadm, e, he, hkind⟩ := hfound
    exact ⟨_, e, ⟨hadm, rfl, he⟩, hkind⟩

end

end Whiteout.FileSystem
