import Whiteout.Proofs.FileSystem.Spelled
import Whiteout.Proofs.Marker.Standing

/-!
# What a removed marker leaves of the others

Where the metadata trees lie apart, taking away the marker of a path in one branch leaves its
markers in the other branches as they are. They are also found as before, except where a branch root
leads through the place of the marker that is gone.
-/

namespace Whiteout

open Whiteout.FileSystem (Grows IsCut startOf)
open Whiteout.Path (components)

theorem FileSystem.IsCut.leadsDown_iff {fs without : FileSystem} {place : Location} {path : Bytes}
    (h : IsCut fs without place) : without.LeadsDown path ↔ fs.LeadsDown path ∧
      ∀ front, front <+: components path → (startOf fs.cwd path).along front ≠ place := by
  constructor
  · intro hdown
    refine ⟨hdown.grows h.shrinks, fun front hfront hplace => ?_⟩
    have hdir := hdown.isDirAt_front hfront
    rw [h.1, hplace, Tree.isDirAt, h.2, if_pos rfl] at hdir
    cases hdir
  · intro hdown
    obtain ⟨hdown, havoids⟩ := hdown
    rw [LeadsDown, ← h.shrinks.placeOf_eq, h.1]
    refine Descends.of_kept hdown fun front hfront e he => ?_
    rw [h.2, if_neg (Ne.symm (havoids front hfront)), he]

namespace UnionView

variable {view : UnionView} {fs without : FileSystem} {path marker : Bytes} {rank i j : Nat}
  {place : Location} {ranks : List Nat} {b c : Branch}

/-- The path's marker in a branch stands at the place, and it is no directory or an empty one. -/
def Removable (view : UnionView) (fs : FileSystem) (path : Bytes) (rank : Nat) (place : Location) :
    Prop :=
  ∃ m e, view.markerPath path rank = .ok m ∧ fs.entryAt m.text = .ok (place, e) ∧
    (e.isDir = true → fs.tree.isEmptyAt place = true)

def Occupied (view : UnionView) (fs : FileSystem) (path : Bytes) (rank : Nat) (marker : Bytes) :
    Prop :=
  ∃ m place mode, view.markerPath path rank = .ok m ∧ m.text = marker ∧
    fs.entryAt m.text = .ok (place, .dir mode) ∧ fs.tree.isEmptyAt place = false

/-- The metadata trees of the branches whose roots are there lie apart. -/
def Separate (view : UnionView) (fs : FileSystem) : Prop :=
  ∀ b ∈ view.branches, ∀ c ∈ view.branches, b ≠ c → fs.LeadsDown b.root → fs.LeadsDown c.root →
    ¬view.metaPlace fs b <+: view.metaPlace fs c

def RootAvoids (view : UnionView) (fs : FileSystem) (rank : Nat) (place : Location) : Prop :=
  ∀ b, view.branches[rank]? = some b → ∀ front, front <+: components b.root →
    (startOf fs.cwd b.root).along front ≠ place

/-- The root of a branch leads through no marker of the path that a branch above has lost. -/
def RootKept (view : UnionView) (fs : FileSystem) (path : Bytes) (removed : List Nat) (rank : Nat) :
    Prop :=
  ∀ i ∈ removed, i < rank → ∀ place, view.Removable fs path i place →
    view.RootAvoids fs rank place

theorem separate_of_apart (h : ∀ b ∈ view.branches, ∀ c ∈ view.branches, b ≠ c →
    ¬view.metaPlace fs b <+: view.metaPlace fs c) : view.Separate fs :=
  fun b hb c hc hne _ _ => h b hb c hc hne

theorem Separate.eq_of_prefix (h : view.Separate fs) (hb : b ∈ view.branches)
    (hc : c ∈ view.branches) (hdown : fs.LeadsDown b.root) (hdown' : fs.LeadsDown c.root)
    {l : Location} (hpre : view.metaPlace fs b <+: l) (hpre' : view.metaPlace fs c <+: l) :
    b = c :=
  eq_of_metaPlace_prefix (fun hne =>
    ⟨h b hb c hc hne hdown hdown', h c hc b hb (Ne.symm hne) hdown' hdown⟩) hpre hpre'

theorem Separate.shrinks (h : view.Separate fs) (hshrunk : Grows without fs) :
    view.Separate without := by
  intro b hb c hc hne hdown hdown'
  rw [metaPlace_congr hshrunk.1.symm, metaPlace_congr hshrunk.1.symm]
  exact h b hb c hc hne (hdown.grows hshrunk) (hdown'.grows hshrunk)

theorem Removable.unique {other : Location} (h : view.Removable fs path rank place)
    (h' : view.Removable fs path rank other) : place = other := by
  obtain ⟨m, e, hmarker, hentry, -⟩ := h
  obtain ⟨m', e', hmarker', hentry', -⟩ := h'
  cases hmarker.symm.trans hmarker'
  cases hentry.symm.trans hentry'
  rfl

theorem Occupied.unique {other : Bytes} (h : view.Occupied fs path rank marker)
    (h' : view.Occupied fs path rank other) : marker = other := by
  obtain ⟨m, -, -, hmarker, rfl, -⟩ := h
  obtain ⟨m', -, -, hmarker', rfl, -⟩ := h'
  cases hmarker.symm.trans hmarker'
  rfl

theorem Removable.not_occupied (h : view.Removable fs path rank place) :
    ¬view.Occupied fs path rank marker := by
  intro hfull
  obtain ⟨m, e, hmarker, hentry, hempty⟩ := h
  obtain ⟨m', other, mode, hmarker', -, hentry', hfull⟩ := hfull
  cases hmarker.symm.trans hmarker'
  cases hentry.symm.trans hentry'
  rw [hempty rfl] at hfull
  cases hfull

theorem rootAvoids_of_leadsDown (hb : view.branches[rank]? = some b) (hdown : fs.LeadsDown b.root)
    (hnone : fs.tree.get? place = none) : view.RootAvoids fs rank place := by
  intro c hc front hfront hplace
  cases hb.symm.trans hc
  have hdir := hdown.isDirAt_front hfront
  rw [hplace, Tree.isDirAt, hnone] at hdir
  cases hdir

theorem rootAvoids_of_cut (hcut : IsCut fs without place) {l : Location} :
    view.RootAvoids without j l ↔ view.RootAvoids fs j l := by
  rw [RootAvoids, RootAvoids, hcut.1]

theorem rootKept_of_later {removed : List Nat} (h : ∀ i ∈ removed, rank ≤ i) :
    view.RootKept fs path removed rank :=
  fun i hi hlt => absurd hlt (Nat.not_lt_of_le (h i hi))

theorem rootKept_cons_iff {removed : List Nat} (hi : view.Removable fs path i place)
    (hcut : IsCut fs without place) (hij : i < j) (hsame : ∀ k ∈ removed, ∀ l,
      view.Removable without path k l ↔ view.Removable fs path k l) :
    view.RootKept fs path (i :: removed) j ↔
      view.RootAvoids fs j place ∧ view.RootKept without path removed j := by
  constructor
  · intro h
    refine ⟨h i List.mem_cons_self hij place hi, fun k hk hkj l hl => ?_⟩
    exact (rootAvoids_of_cut hcut).2 (h k (List.mem_cons_of_mem _ hk) hkj l ((hsame k hk l).1 hl))
  · intro h k hk hkj l hl
    rcases List.mem_cons.1 hk with rfl | hk
    · rw [hl.unique hi]
      exact h.1
    · exact (rootAvoids_of_cut hcut).1 (h.2 k hk hkj l ((hsame k hk l).2 hl))

section

variable (hv : view.Accepted) (hfree : fs.tree.LinkFree)
include hv hfree

theorem entryAt_markerPath {m : BoundedPath} {e : Entry}
    (hmarker : view.markerPath path rank = .ok m) (h : fs.entryAt m.text = .ok (place, e)) :
    ∃ b, view.branches[rank]? = some b ∧ fs.LeadsDown b.root ∧
      place = view.markedPlace fs b (components path) := by
  obtain ⟨parts, b, hparts, hb, -, rfl⟩ := (markerPath_eq_ok_iff hv).1 hmarker
  obtain ⟨rfl, hne, hsteps⟩ := unionComponents_eq_ok_iff.1 hparts
  obtain ⟨-, hroot, hplace, -⟩ := (entryAt_markerText_iff hv hfree hb hne hsteps).1 h
  exact ⟨b, hb, hroot, hplace⟩

variable (hsep : view.Separate fs) (hij : i ≠ j) (hi : view.Removable fs path i place)
  (hcut : IsCut fs without place)
include hsep hij hi hcut

theorem get?_of_cut (hc : view.branches[j]? = some c) (hdown : fs.LeadsDown c.root) {l : Location}
    (hl : view.metaPlace fs c <+: l) : without.tree.get? l = fs.tree.get? l := by
  obtain ⟨m, e, hmarker, hentry, -⟩ := hi
  obtain ⟨b, hb, hdown', rfl⟩ := entryAt_markerPath hv hfree hmarker hentry
  rw [hcut.2]
  split
  · next hsame =>
    have hbc : b = c := hsep.eq_of_prefix (List.mem_of_getElem? hb) (List.mem_of_getElem? hc) hdown'
      hdown (hsame ▸ metaPlace_prefix_markedPlace _) hl
    subst hbc
    exact absurd ((hv.ranked i b hb).symm.trans (hv.ranked j b hc)) hij
  · rfl

theorem entryAt_of_cut {m : BoundedPath} (hmarker : view.markerPath path j = .ok m)
    {found : Location} {e : Entry} : without.entryAt m.text = .ok (found, e) ↔
      fs.entryAt m.text = .ok (found, e) ∧ view.RootAvoids fs j place := by
  obtain ⟨parts, c, hparts, hc, -, rfl⟩ := (markerPath_eq_ok_iff hv).1 hmarker
  obtain ⟨rfl, hne, hsteps⟩ := unionComponents_eq_ok_iff.1 hparts
  have hmarked : view.markedPlace without c (components path) =
      view.markedPlace fs c (components path) := by
    rw [markedPlace, markedPlace, metaPlace_congr hcut.1]
  rw [entryAt_markerText_iff hv (hcut.linkFree hfree) hc hne hsteps,
    entryAt_markerText_iff hv hfree hc hne hsteps, hcut.leadsDown_iff, hmarked]
  constructor
  · intro h
    obtain ⟨hadm, ⟨hdown, havoids⟩, hplace, hget⟩ := h
    refine ⟨⟨hadm, hdown, hplace, hcut.shrinks.2 _ _ hget⟩, fun b hb => ?_⟩
    cases hc.symm.trans hb
    exact havoids
  · intro h
    obtain ⟨⟨hadm, hdown, rfl, hget⟩, havoids⟩ := h
    have hkept := get?_of_cut hv hfree hsep hij hi hcut hc hdown
      (metaPlace_prefix_markedPlace (components path))
    exact ⟨hadm, ⟨hdown, havoids c hc⟩, rfl, hkept.trans hget⟩

theorem isEmptyAt_of_cut {m : BoundedPath} (hmarker : view.markerPath path j = .ok m)
    {found : Location} {e : Entry} (h : fs.entryAt m.text = .ok (found, e)) :
    without.tree.isEmptyAt found = fs.tree.isEmptyAt found := by
  obtain ⟨c, hc, hdown, rfl⟩ := entryAt_markerPath hv hfree hmarker h
  rw [Bool.eq_iff_iff, Tree.isEmptyAt_iff, Tree.isEmptyAt_iff]
  refine forall_congr' fun below => ?_
  rw [get?_of_cut hv hfree hsep hij hi hcut hc hdown
    ((metaPlace_prefix_markedPlace _).trans (List.prefix_append _ below))]

theorem found_of_cut {m : BoundedPath} (hmarker : view.markerPath path j = .ok m)
    {found : Location} {e : Entry} {p : Bool → Prop} :
    without.entryAt m.text = .ok (found, e) ∧ p (without.tree.isEmptyAt found) ↔
      (fs.entryAt m.text = .ok (found, e) ∧ p (fs.tree.isEmptyAt found)) ∧
        view.RootAvoids fs j place := by
  rw [entryAt_of_cut hv hfree hsep hij hi hcut hmarker, and_right_comm]
  refine and_congr_left fun _ => and_congr_right fun hentry => ?_
  rw [isEmptyAt_of_cut hv hfree hsep hij hi hcut hmarker hentry]

theorem removable_of_cut {l : Location} : view.Removable without path j l ↔
    view.Removable fs path j l ∧ view.RootAvoids fs j place := by
  simp only [Removable, ← exists_and_right]
  refine exists_congr fun m => exists_congr fun e => ?_
  rw [and_assoc]
  exact and_congr_right fun hmarker =>
    found_of_cut (p := fun empty => e.isDir = true → empty = true) hv hfree hsep hij hi hcut hmarker

theorem occupied_of_cut : view.Occupied without path j marker ↔
    view.Occupied fs path j marker ∧ view.RootAvoids fs j place := by
  simp only [Occupied, ← exists_and_right]
  refine exists_congr fun m => exists_congr fun found => exists_congr fun mode => ?_
  rw [and_assoc, and_assoc]
  exact and_congr_right fun hmarker => and_congr_right fun _ =>
    found_of_cut (p := (· = false)) hv hfree hsep hij hi hcut hmarker

end

end UnionView

end Whiteout
