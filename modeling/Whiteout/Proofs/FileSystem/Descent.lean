import Whiteout.Proofs.FileSystem.Growth

/-!
# Straight ways down

A path that leads through directories to some directory and goes on with proper names spells one
place and no other, as long as there are no links. What a request does with such a path is then
decided by the entry at that place alone.
-/

namespace Whiteout

open Whiteout.Path (dot dotDot components endsWithSeparator IsProper)

def Tree.LinkFree (t : Tree) : Prop := ∀ l target, t.get? l ≠ some (.link target)

instance (t : Tree) : Decidable t.LinkFree := by
  refine decidable_of_iff (∀ x ∈ t.entries, x.2.isLink = false)
    ⟨fun h l target hlink => ?_, fun h x hx => ?_⟩
  · by_cases hl : l = []
    · subst hl
      cases hlink
    · cases h _ ((Tree.get?_eq_some_iff hl).1 hlink)
  · obtain ⟨l, e⟩ := x
    have hget := (Tree.get?_eq_some_iff (Location.ne_nil_of_isNamed (t.rooted _ hx).1)).2 hx
    cases e with
    | file => rfl
    | dir => rfl
    | link target => exact absurd hget (h l target)

def Tree.LinkFreeBelow (t : Tree) (place : Location) : Prop :=
  ∀ below target, below ≠ [] → t.get? (place ++ below) ≠ some (.link target)

namespace FileSystem

/-- Names that lead from directory to directory, through no link. -/
inductive Descends (t : Tree) : Location → List Name → Location → Prop
  | here {place : Location} {mode : Nat} (hdir : t.get? place = some (.dir mode)) :
      Descends t place [] place
  | pass {place dir : Location} {mode : Nat} {name : Name} {rest : List Name}
      (hdir : t.get? place = some (.dir mode)) (hname : name = [] ∨ name = dot)
      (hrest : Descends t place rest dir) : Descends t place (name :: rest) dir
  | up {place dir : Location} {mode : Nat} {rest : List Name}
      (hdir : t.get? place = some (.dir mode)) (hrest : Descends t place.dropLast rest dir) :
      Descends t place (dotDot :: rest) dir
  | down {place dir : Location} {mode : Nat} {name : Name} {rest : List Name}
      (hdir : t.get? place = some (.dir mode)) (hname : IsProper name)
      (hlen : name.length ≤ Path.maxNameLength) (hrest : Descends t (place ++ [name]) rest dir) :
      Descends t place (name :: rest) dir

namespace Descends

variable {t : Tree} {place dir : Location} {names back : List Name}

theorem dir_at_start (h : Descends t place names dir) :
    ∃ mode, t.get? place = some (.dir mode) := by
  cases h with
  | here hdir => exact ⟨_, hdir⟩
  | pass hdir => exact ⟨_, hdir⟩
  | up hdir => exact ⟨_, hdir⟩
  | down hdir => exact ⟨_, hdir⟩

theorem grows {s t : Tree} (hgrow : ∀ l e, s.get? l = some e → t.get? l = some e)
    (h : Descends s place names dir) : Descends t place names dir := by
  induction h with
  | here hdir => exact .here (hgrow _ _ hdir)
  | pass hdir hname _ ih => exact .pass (hgrow _ _ hdir) hname ih
  | up hdir _ ih => exact .up (hgrow _ _ hdir) ih
  | down hdir hname hlen _ ih => exact .down (hgrow _ _ hdir) hname hlen ih

theorem drop_empty (h : Descends t place (names ++ [[]]) dir) : Descends t place names dir := by
  generalize hnames : names ++ [[]] = all at h
  induction h generalizing names with
  | here => simp at hnames
  | pass hdir hname hrest ih =>
    cases names with
    | nil =>
      obtain ⟨-, rfl⟩ := List.cons_eq_cons.1 hnames
      exact hrest
    | cons first names =>
      obtain ⟨rfl, rfl⟩ := List.cons_eq_cons.1 hnames
      exact .pass hdir hname (ih rfl)
  | up hdir hrest ih =>
    cases names with
    | nil => exact absurd (List.cons_eq_cons.1 hnames).1 (by simp [dotDot])
    | cons first names =>
      obtain ⟨rfl, rfl⟩ := List.cons_eq_cons.1 hnames
      exact .up hdir (ih rfl)
  | down hdir hname hlen hrest ih =>
    cases names with
    | nil => exact absurd (List.cons_eq_cons.1 hnames).1.symm hname.1
    | cons first names =>
      obtain ⟨rfl, rfl⟩ := List.cons_eq_cons.1 hnames
      exact .down hdir hname hlen (ih rfl)

theorem of_walks {purpose : Purpose} {links : Nat} {spot : Spot} {mode : Nat} (hfree : t.LinkFree)
    (h : Walks t purpose links place names spot) (hdir : t.get? spot.place = some (.dir mode)) :
    Descends t place names spot.place := by
  induction h with
  | stay => exact .here hdir
  | pass hhere hname _ ih => exact .pass hhere hname (ih hdir)
  | up hhere _ ih => exact .up hhere (ih hdir)
  | arrive hhere hname hlen _ => exact .down hhere hname hlen (.here hdir)
  | enter hhere hname hlen _ _ _ _ ih => exact .down hhere hname hlen (ih hdir)
  | follow _ _ _ _ _ hlink => exact absurd hlink (hfree _ _)

theorem to_dir (hdir : t.isDirAt (place ++ names) = true) :
    Descends t place names (place ++ names) := by
  obtain ⟨mode, hget⟩ := Tree.isDirAt_iff.1 hdir
  induction names generalizing place with
  | nil =>
    rw [List.append_nil] at hget ⊢
    exact .here hget
  | cons name rest ih =>
    have hname := Path.isName_iff.1 (Tree.isName_of_get? hget name (by simp))
    have habove : t.isDirAt place = true :=
      Tree.isDirAt_of_above hget (List.prefix_append _ _) (by simp)
    obtain ⟨mode', hplace⟩ := Tree.isDirAt_iff.1 habove
    have hsplit : place ++ name :: rest = place ++ [name] ++ rest := by simp
    rw [hsplit] at hdir hget ⊢
    exact .down hplace ⟨hname.1, hname.2.1, hname.2.2.1⟩ hname.2.2.2.2.2 (ih hdir hget)

theorem walk_append {purpose : Purpose} {links : Nat} (h : Descends t place names dir)
    (hback : back ≠ []) (hslash : back ≠ [[]]) :
    walk t purpose links place (names ++ back) = walk t purpose links dir back := by
  have hlonger := append_ne_slash hback hslash
  induction h with
  | here => rfl
  | pass hdir hname _ ih => rw [List.cons_append, walk_pass hdir hname, ih]
  | up hdir _ ih => rw [List.cons_append, walk_up hdir, ih]
  | down hdir hname hlen hrest ih =>
    obtain ⟨below, hbelow⟩ := hrest.dir_at_start
    rw [List.cons_append, walk_enter hdir hname hlen (by simp [hback]) (by simp [hlonger]) hbelow,
      ih]

end Descends

theorem Walks.straight_below {t : Tree} {purpose : Purpose} {links : Nat} {here : Location}
    {names : List Name} {spot : Spot}
    (hfree : t.LinkFreeBelow here) (hne : names ≠ []) (hproper : ∀ n ∈ names, IsProper n)
    (h : Walks t purpose links here names spot) : spot = .named (here ++ names) := by
  induction h with
  | stay => exact absurd rfl hne
  | pass _ hname =>
    have hfirst := hproper _ List.mem_cons_self
    exact absurd hname (by simp [hfirst.1, hfirst.2.1])
  | up => exact absurd rfl (hproper _ List.mem_cons_self).2.2
  | arrive => rfl
  | @enter _ _ _ here name rest _ _ _ _ hgo _ _ _ ih =>
    have hlower : t.LinkFreeBelow (here ++ [name]) := by
      intro below target _
      rw [List.append_assoc]
      exact hfree ([name] ++ below) target (by simp)
    simpa using ih hlower hgo fun n hn => hproper n (List.mem_cons_of_mem _ hn)
  | follow _ _ _ _ _ hlink => exact absurd hlink (hfree _ _ (by simp))

theorem Walks.straight {t : Tree} {purpose : Purpose} {links : Nat} {here : Location}
    {names : List Name} {spot : Spot} (hfree : t.LinkFree) (hne : names ≠ [])
    (hproper : ∀ n ∈ names, IsProper n) (h : Walks t purpose links here names spot) :
    spot = .named (here ++ names) :=
  h.straight_below (fun _ _ _ => hfree _ _) hne hproper

/-- The path descends to some directory and goes on from there with proper names to the place. -/
def Spells (fs : FileSystem) (path : Bytes) (place : Location) : Prop :=
  endsWithSeparator path = false ∧ ∃ front names dir,
    components path = front ++ names ∧ names ≠ [] ∧ (∀ n ∈ names, IsProper n) ∧
      Descends fs.tree (startOf fs.cwd path) front dir ∧ place = dir ++ names

namespace Spells

variable {fs : FileSystem} {path : Bytes} {place : Location}

theorem grows {after : FileSystem} (h : fs.Spells path place) (hgrow : Grows fs after) :
    after.Spells path place := by
  obtain ⟨hend, front, names, dir, hpath, hne, hproper, hdown, hplace⟩ := h
  exact ⟨hend, front, names, dir, hpath, hne, hproper, hgrow.1 ▸ hdown.grows hgrow.2, hplace⟩

theorem ne_nil (h : fs.Spells path place) : place ≠ [] := by
  obtain ⟨-, front, names, dir, -, hne, -, -, rfl⟩ := h
  simp [hne]

theorem resolveNew_eq (h : fs.Spells path place) :
    fs.resolveNew path = fs.resolve path .keepLink := by
  rw [resolveNew, resolve, hops_of_not_endsWithSeparator h.1]

theorem spot_eq (hfree : fs.tree.LinkFree) (h : fs.Spells path place) {purpose : Purpose}
    {spot : Spot} (hresolve : fs.resolve path purpose = .ok spot) : spot = .named place := by
  obtain ⟨hend, front, names, dir, hpath, hne, hproper, hdown, rfl⟩ := h
  have hwalk := (resolve_eq_ok_iff.1 hresolve).2
  have hslash : names ≠ [[]] := by
    intro hempty
    subst hempty
    exact (hproper [] (by simp)).1 rfl
  rw [hops_of_not_endsWithSeparator hend, hpath, ← walk_eq_ok_iff, hdown.walk_append hne hslash,
    walk_eq_ok_iff] at hwalk
  exact hwalk.straight hfree hne hproper

theorem resolve_eq (hfree : fs.tree.LinkFree) (h : fs.Spells path place)
    (hadm : Path.isAdmissible path = true) (hdir : fs.tree.isDirAt place.dropLast = true)
    (hlen : ∀ n ∈ place, n.length ≤ Path.maxNameLength) (purpose : Purpose) :
    fs.resolve path purpose = .ok (.named place) := by
  obtain ⟨hend, front, names, dir, hpath, hne, hproper, hdown, rfl⟩ := h
  obtain ⟨init, last, rfl⟩ := Location.exists_concat hne
  have hlast : IsProper last := hproper last (by simp)
  have hinit : fs.tree.isDirAt (dir ++ init) = true := by
    rwa [← List.append_assoc, List.dropLast_concat] at hdir
  obtain ⟨mode, hget⟩ := Tree.isDirAt_iff.1 hinit
  refine resolve_eq_ok_iff.2 ⟨hadm, walk_eq_ok_iff.1 ?_⟩
  have hslash : init ++ [last] ≠ [[]] := fun he => (hproper [] (he ▸ by simp)).1 rfl
  rw [hops_of_not_endsWithSeparator hend, hpath, hdown.walk_append hne hslash,
    (Descends.to_dir hinit).walk_append (by simp) (by simpa using hlast.1), ← List.append_assoc]
  exact walk_eq_ok_iff.2
    (.arrive hget hlast (hlen last (by simp)) fun target hl => absurd hl (hfree _ _))

theorem entryAt_eq_ok_iff (hfree : fs.tree.LinkFree) (h : fs.Spells path place) {found : Location}
    {e : Entry} :
    fs.entryAt path = .ok (found, e) ↔ Path.isAdmissible path = true ∧ found = place ∧
      fs.tree.get? place = some e := by
  rw [FileSystem.entryAt_eq_ok_iff]
  constructor
  · intro hfound
    rcases hfound with ⟨spot, hresolve, rfl, hget⟩
    cases h.spot_eq hfree hresolve
    exact ⟨(resolve_eq_ok_iff.1 hresolve).1, rfl, hget⟩
  · intro hfound
    rcases hfound with ⟨hadm, rfl, hget⟩
    have hlen : ∀ n ∈ found, n.length ≤ Path.maxNameLength := fun n hn =>
      (Path.isName_iff.1 (Tree.isName_of_get? hget n hn)).2.2.2.2.2
    exact ⟨.named found, h.resolve_eq hfree hadm (Tree.isDirAt_dropLast hget) hlen .keepLink, rfl,
      hget⟩

theorem probe_eq (hfree : fs.tree.LinkFree) (h : fs.Spells path place)
    (hadm : Path.isAdmissible path = true) :
    fs.probe path = (fs.tree.get? place).map Entry.kind := by
  cases hget : fs.tree.get? place with
  | some e =>
    have he := (h.entryAt_eq_ok_iff hfree).2 ⟨hadm, rfl, hget⟩
    rw [probe, he, Option.map_some]
  | none =>
    rw [Option.map_none, probe_eq_none_iff]
    cases he : fs.entryAt path with
    | error e => exact ⟨e, rfl⟩
    | ok found =>
      obtain ⟨found, e⟩ := found
      have hsome := ((h.entryAt_eq_ok_iff hfree).1 he).2.2
      rw [hget] at hsome
      cases hsome

end Spells

end FileSystem

end Whiteout
