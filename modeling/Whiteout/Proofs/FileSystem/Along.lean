import Whiteout.Proofs.FileSystem.Descent

/-!
# Places read off names

Without links the place at the end of a walk can be read off the names walked: an empty name and `.`
stay, `..` goes up and any other name goes down. So a request that adds an entry adds it at the
place its path reads, and the way to a place depends on the directories on that way alone.
-/

namespace Whiteout

open Whiteout.Path (dot dotDot components IsProper)

def Location.along (here : Location) : List Name → Location
  | [] => here
  | name :: rest =>
    if name = [] ∨ name = dot then along here rest
    else if name = dotDot then along here.dropLast rest
    else along (here ++ [name]) rest

namespace Location

theorem along_stay (here : Location) {name : Name} (h : name = [] ∨ name = dot)
    (rest : List Name) : here.along (name :: rest) = here.along rest := by
  rw [along, if_pos h]

theorem along_up (here : Location) (rest : List Name) :
    here.along (dotDot :: rest) = along here.dropLast rest := by
  rw [along, if_neg (by simp [dot, dotDot]), if_pos rfl]

theorem along_down (here : Location) {name : Name} (h : IsProper name) (rest : List Name) :
    here.along (name :: rest) = (here ++ [name]).along rest := by
  rw [along, if_neg (by simp [h.1, h.2.1]), if_neg h.2.2]

theorem along_append (here : Location) (front back : List Name) :
    here.along (front ++ back) = (here.along front).along back := by
  induction front generalizing here with
  | nil => rfl
  | cons name rest ih =>
    simp only [List.cons_append, along]
    split
    · exact ih here
    · split
      · exact ih here.dropLast
      · exact ih (here ++ [name])

theorem along_of_proper {names : List Name} (h : ∀ n ∈ names, IsProper n) (here : Location) :
    here.along names = here ++ names := by
  induction names generalizing here with
  | nil => rw [along, List.append_nil]
  | cons name rest ih =>
    rw [along_down here (h name List.mem_cons_self), ih fun n hn => h n (List.mem_cons_of_mem _ hn)]
    simp

theorem along_hops (here : Location) (path : Bytes) :
    here.along (FileSystem.hops path) = here.along (components path) := by
  rcases FileSystem.hops_cases path with hsame | ⟨-, hslash⟩
  · rw [hsame]
  · rw [hslash, along_append]
    simp [along]

end Location

namespace FileSystem

variable {t : Tree} {purpose : Purpose} {links : Nat} {here dir : Location}
  {front back names : List Name} {spot : Spot}

theorem Walks.place_eq (hfree : t.LinkFree) (h : Walks t purpose links here names spot) :
    spot.place = here.along names := by
  induction h with
  | stay => rfl
  | pass _ hname _ ih => rw [ih, Location.along_stay _ hname]
  | up _ _ ih => rw [ih, Location.along_up]
  | arrive _ hname _ _ => exact (Location.along_down _ hname []).symm
  | enter _ hname _ _ _ _ _ ih => rw [ih, Location.along_down _ hname]
  | follow _ _ _ _ _ hlink => exact absurd hlink (hfree _ _)

namespace Descends

theorem eq_along (h : Descends t here names dir) : dir = here.along names := by
  induction h with
  | here => rfl
  | pass _ hname _ ih => rw [ih, Location.along_stay _ hname]
  | up _ _ ih => rw [ih, Location.along_up]
  | down _ hname _ _ ih => rw [ih, Location.along_down _ hname]

theorem isDirAt_front (h : Descends t here names dir) (hfront : front <+: names) :
    t.isDirAt (here.along front) = true := by
  induction h generalizing front with
  | here hdir =>
    rw [List.prefix_nil.1 hfront]
    exact Tree.isDirAt_iff.2 ⟨_, hdir⟩
  | pass hdir hname _ ih =>
    cases front with
    | nil => exact Tree.isDirAt_iff.2 ⟨_, hdir⟩
    | cons first front =>
      obtain ⟨rfl, hrest⟩ := List.cons_prefix_cons.1 hfront
      rw [Location.along_stay _ hname]
      exact ih hrest
  | up hdir _ ih =>
    cases front with
    | nil => exact Tree.isDirAt_iff.2 ⟨_, hdir⟩
    | cons first front =>
      obtain ⟨rfl, hrest⟩ := List.cons_prefix_cons.1 hfront
      rw [Location.along_up]
      exact ih hrest
  | down hdir hname _ _ ih =>
    cases front with
    | nil => exact Tree.isDirAt_iff.2 ⟨_, hdir⟩
    | cons first front =>
      obtain ⟨rfl, hrest⟩ := List.cons_prefix_cons.1 hfront
      rw [Location.along_down _ hname]
      exact ih hrest

theorem isDirAt (h : Descends t here names dir) : t.isDirAt dir = true := by
  have hend := h.isDirAt_front (List.prefix_refl _)
  rwa [← h.eq_along] at hend

theorem of_walks_front (hfree : t.LinkFree) (hback : back ≠ [])
    (h : Walks t purpose links here (front ++ back) spot) :
    Descends t here front (here.along front) := by
  generalize hnames : front ++ back = names at h
  induction h generalizing front with
  | stay => exact absurd (List.append_eq_nil_iff.1 hnames).2 hback
  | pass hdir hname _ ih =>
    cases front with
    | nil => exact .here hdir
    | cons first front =>
      obtain ⟨rfl, hrest⟩ := List.cons_eq_cons.1 hnames
      rw [Location.along_stay _ hname]
      exact .pass hdir hname (ih hrest)
  | up hdir _ ih =>
    cases front with
    | nil => exact .here hdir
    | cons first front =>
      obtain ⟨rfl, hrest⟩ := List.cons_eq_cons.1 hnames
      rw [Location.along_up]
      exact .up hdir (ih hrest)
  | arrive hdir _ _ _ =>
    cases front with
    | nil => exact .here hdir
    | cons first front =>
      obtain ⟨-, hrest⟩ := List.cons_eq_cons.1 hnames
      exact absurd (List.append_eq_nil_iff.1 hrest).2 hback
  | enter hdir hname hlen _ _ _ _ ih =>
    cases front with
    | nil => exact .here hdir
    | cons first front =>
      obtain ⟨rfl, hrest⟩ := List.cons_eq_cons.1 hnames
      rw [Location.along_down _ hname]
      exact .down hdir hname hlen (ih hrest)
  | follow _ _ _ _ _ hlink => exact absurd hlink (hfree _ _)

theorem concat {name : Name} (h : Descends t here front dir)
    (hdir : t.isDirAt (dir.along [name]) = true) :
    Descends t here (front ++ [name]) (dir.along [name]) := by
  induction h with
  | @here place mode hplace =>
    obtain ⟨below, hbelow⟩ := Tree.isDirAt_iff.1 hdir
    rw [List.nil_append]
    by_cases hstay : name = [] ∨ name = dot
    · rw [Location.along_stay _ hstay]
      exact .pass hplace hstay (.here hplace)
    · by_cases hup : name = dotDot
      · subst hup
        rw [Location.along_up] at hbelow ⊢
        exact .up hplace (.here hbelow)
      · have hname : IsProper name := ⟨fun he => hstay (.inl he), fun he => hstay (.inr he), hup⟩
        rw [Location.along_down _ hname, Location.along] at hbelow ⊢
        have hlen := (Path.isName_iff.1 (Tree.isName_of_get? hbelow name (by simp))).2.2.2.2.2
        exact .down hplace hname hlen (.here hbelow)
  | pass hplace hname _ ih => exact .pass hplace hname (ih hdir)
  | up hplace _ ih => exact .up hplace (ih hdir)
  | down hplace hname hlen _ ih => exact .down hplace hname hlen (ih hdir)

theorem of_kept {s : Tree} (h : Descends t here names dir)
    (hkept : ∀ front, front <+: names → ∀ e, t.get? (here.along front) = some e →
      s.get? (here.along front) = some e) : Descends s here names dir := by
  have hstart {place : Location} {mode : Nat} {names : List Name}
      (hkept : ∀ front, front <+: names → ∀ e, t.get? (place.along front) = some e →
        s.get? (place.along front) = some e) (hdir : t.get? place = some (.dir mode)) :
      s.get? place = some (.dir mode) := hkept [] List.nil_prefix _ hdir
  induction h with
  | here hdir => exact .here (hstart hkept hdir)
  | @pass place _ _ name rest hdir hname _ ih =>
    refine .pass (hstart hkept hdir) hname (ih fun front hfront => ?_)
    have hlonger := hkept (name :: front) (List.cons_prefix_cons.2 ⟨rfl, hfront⟩)
    rwa [Location.along_stay _ hname] at hlonger
  | @up place _ _ rest hdir _ ih =>
    refine .up (hstart hkept hdir) (ih fun front hfront => ?_)
    have hlonger := hkept (dotDot :: front) (List.cons_prefix_cons.2 ⟨rfl, hfront⟩)
    rwa [Location.along_up] at hlonger
  | @down place _ _ name rest hdir hname hlen _ ih =>
    refine .down (hstart hkept hdir) hname hlen (ih fun front hfront => ?_)
    have hlonger := hkept (name :: front) (List.cons_prefix_cons.2 ⟨rfl, hfront⟩)
    rwa [Location.along_down _ hname] at hlonger

end Descends

def placeOf (fs : FileSystem) (path : Bytes) : Location :=
  (startOf fs.cwd path).along (components path)

/-- The path leads from directory to directory down to its place. -/
def LeadsDown (fs : FileSystem) (path : Bytes) : Prop :=
  Descends fs.tree (startOf fs.cwd path) (components path) (fs.placeOf path)

section

variable {fs : FileSystem} {path : Bytes} (hfree : fs.tree.LinkFree)
include hfree

theorem resolve_place {purpose : Purpose} {spot : Spot} (h : fs.resolve path purpose = .ok spot) :
    spot.place = fs.placeOf path := by
  rw [(resolve_eq_ok_iff.1 h).2.place_eq hfree, Location.along_hops, placeOf]

theorem resolveNew_place {spot : Spot} (h : fs.resolveNew path = .ok spot) :
    spot.place = fs.placeOf path :=
  (resolveHops_eq_ok_iff.1 h).2.place_eq hfree

theorem entryAt_place {place : Location} {e : Entry} (h : fs.entryAt path = .ok (place, e)) :
    place = fs.placeOf path ∧ fs.tree.get? place = some e := by
  obtain ⟨spot, hresolve, rfl, hget⟩ := entryAt_eq_ok_iff.1 h
  exact ⟨resolve_place hfree hresolve, hget⟩

theorem get?_placeOf_of_probe {kind : Kind} (h : fs.probe path = some kind) :
    ∃ e, fs.tree.get? (fs.placeOf path) = some e ∧ e.kind = kind := by
  obtain ⟨place, e, he, hkind⟩ := probe_eq_some_iff.1 h
  obtain ⟨rfl, hget⟩ := entryAt_place hfree he
  exact ⟨e, hget, hkind⟩

end

end FileSystem

end Whiteout
