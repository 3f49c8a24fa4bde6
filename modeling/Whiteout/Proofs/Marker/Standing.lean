import Whiteout.Proofs.Marker.Footprint

/-!
# What stands at a marker's path

Without links a marker's path finds an entry exactly if the host admits the path, the branch root is
there, and the entry stands at the marker's place below the metadata directory.
-/

namespace Whiteout.UnionView

open Whiteout.FileSystem (startOf)
open Whiteout.Path (components IsStep)

variable {view : UnionView} {fs : FileSystem} {b : Branch} {rank : Nat} {parts : List Name}
  {place : Location} {e : Entry}

def markedPlace (view : UnionView) (fs : FileSystem) (b : Branch) (parts : List Name) : Location :=
  view.metaPlace fs b ++ view.markerNames parts

theorem metaPlace_prefix_markedPlace (parts : List Name) :
    view.metaPlace fs b <+: view.markedPlace fs b parts :=
  List.prefix_append _ _

theorem eq_of_metaPlace_prefix {c : Branch} (h : b ≠ c →
      ¬view.metaPlace fs b <+: view.metaPlace fs c ∧ ¬view.metaPlace fs c <+: view.metaPlace fs b)
    (hpre : view.metaPlace fs b <+: place) (hpre' : view.metaPlace fs c <+: place) : b = c := by
  apply Classical.byContradiction
  intro hne
  rcases List.prefix_or_prefix_of_prefix hpre hpre' with hbelow | hbelow
  · exact (h hne).1 hbelow
  · exact (h hne).2 hbelow

theorem markerNames_ne_nil : view.markerNames parts ≠ [] := by simp [markerNames]

section

variable (hv : view.Accepted) (hfree : fs.tree.LinkFree) (hb : view.branches[rank]? = some b)
  (hne : parts ≠ []) (hsteps : ∀ c ∈ parts, IsStep c)
include hv hb hne hsteps

omit hsteps in
theorem startOf_markerText (here : Location) :
    startOf here (view.markerText b parts) = startOf here b.root := by
  rw [markerText_eq view b hne, startOf_metaText hv hb]

theorem spells_markerText (hroot : fs.LeadsDown b.root)
    (hdir : fs.tree.isDirAt (view.metaPlace fs b) = true) :
    fs.Spells (view.markerText b parts) (view.markedPlace fs b parts) := by
  rw [markedPlace, metaPlace_eq hv hb] at *
  exact ⟨endsWithSeparator_markerText hv b parts, _, _, _,
    components_markerText_eq hv b hne hsteps, markerNames_ne_nil,
    fun n hn => (isStep_of_mem_markerNames hv hne hsteps n hn).1,
    startOf_markerText hv hb hne fs.cwd ▸ hroot.concat hdir, rfl⟩

include hfree

theorem entryAt_markerText_iff : fs.entryAt (view.markerText b parts) = .ok (place, e) ↔
    Path.isAdmissible (view.markerText b parts) = true ∧ fs.LeadsDown b.root ∧
      place = view.markedPlace fs b parts ∧ fs.tree.get? place = some e := by
  constructor
  · intro h
    obtain ⟨rfl, hget⟩ := FileSystem.entryAt_place hfree h
    obtain ⟨spot, hresolve, -⟩ := FileSystem.entryAt_eq_ok_iff.1 h
    obtain ⟨hadm, hwalk⟩ := FileSystem.resolve_eq_ok_iff.1 hresolve
    rw [FileSystem.hops_of_not_endsWithSeparator (endsWithSeparator_markerText hv b parts),
      components_markerText_eq hv b hne hsteps, List.append_assoc,
      startOf_markerText hv hb hne] at hwalk
    have hplace := placeOf_markerText hv hb fs hne hsteps
    exact ⟨hadm, .of_walks_front hfree (by simp) hwalk, hplace, hget⟩
  · intro h
    rcases h with ⟨hadm, hroot, rfl, hget⟩
    have hdir : fs.tree.isDirAt (view.metaPlace fs b) = true :=
      Tree.isDirAt_of_above hget (metaPlace_prefix_markedPlace parts)
        (by simpa [markedPlace] using markerNames_ne_nil)
    exact ((spells_markerText hv hb hne hsteps hroot hdir).entryAt_eq_ok_iff hfree).2
      ⟨hadm, rfl, hget⟩

theorem probe_markerText (hroot : fs.LeadsDown b.root)
    (hadm : Path.isAdmissible (view.markerText b parts) = true)
    (hget : fs.tree.get? (view.metaPlace fs b ++ view.markerNames parts) = some e) :
    fs.probe (view.markerText b parts) = some e.kind := by
  rw [FileSystem.probe, (entryAt_markerText_iff hv hfree hb hne hsteps).2 ⟨hadm, hroot, rfl, hget⟩]

end

end Whiteout.UnionView
