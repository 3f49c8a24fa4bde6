import Whiteout.Marker.Create
import Whiteout.Proofs.FileSystem.Additions

/-!
# Entries asked for

A request that makes a directory or creates a file asks for an entry at a place. With the directory
above it there, what stands at the place alone decides: nothing is filled with the entry, an entry
of the same kind counts as granted, and one of the other kind is in the way. Entries asked for one
after the other are granted up to the first that is refused. As long as their places differ, each
is refused or granted by what stood at its place at the start, so the whole outcome can be read off
the start.
-/

namespace Whiteout.FileSystem

open Whiteout.Path (dot dotDot components endsWithSeparator IsProper)

/-- An entry to be at a place, asked for by a path. -/
structure Wanted where
  path : Bytes
  place : Location
  kind : Kind
  mode : Nat

def obstacle : Kind → Errno
  | .file => .isDirectory
  | .dir => .fileExists

namespace Wanted

def entry [Host] (w : Wanted) : Entry :=
  match w.kind with
  | .file => .file (Host.granted w.mode) []
  | .dir => .dir (Host.granted w.mode)

theorem kind_entry [Host] (w : Wanted) : w.entry.kind = w.kind := by
  rw [entry]
  split <;> simp_all [Entry.kind, Entry.isDir]

theorem isLink_entry [Host] (w : Wanted) : w.entry.isLink = false := by
  rw [entry]
  split <;> rfl

def Is [Host] (w : Wanted) (l : Location) (e : Entry) : Prop := l = w.place ∧ e = w.entry

def lastName (w : Wanted) : Name := (components w.path).getLastD []

def fault? (w : Wanted) (fs : FileSystem) : Option IoError :=
  match pathFault? w.path with
  | some fault => some fault
  | none =>
    if Path.maxNameLength < w.lastName.length then some (.system .nameTooLong)
    else match fs.tree.get? w.place with
      | none => none
      | some e => if e.kind = w.kind then none else some (.system (obstacle w.kind))

/-- The path leads down to a directory, and its last name from there to the place. -/
def InReach (w : Wanted) (fs : FileSystem) : Prop :=
  endsWithSeparator w.path = false ∧ w.lastName ≠ [] ∧ ∃ front dir,
    components w.path = front ++ [w.lastName] ∧
      Descends fs.tree (startOf fs.cwd w.path) front dir ∧ w.place = dir.along [w.lastName]

/-- The answers to a request for the entry; the flag tells whether it was put there. -/
inductive Answers [Host] (w : Wanted) (fs : FileSystem) : Except IoError (Bool × FileSystem) → Prop
  | refused {fault : IoError} (hfault : w.fault? fs = some fault) : Answers w fs (.error fault)
  | present {e : Entry} (hfault : w.fault? fs = none) (hget : fs.tree.get? w.place = some e) :
      Answers w fs (.ok (false, fs))
  | added {after : FileSystem} (hfault : w.fault? fs = none) (hnew : fs.tree.get? w.place = none)
      (hput : fs.IsPut after w.place w.entry) : Answers w fs (.ok (true, after))

def Admitted (w : Wanted) : Prop :=
  pathFault? w.path = none ∧ w.lastName.length ≤ Path.maxNameLength

variable {w : Wanted} {fs other : FileSystem} {e : Entry}

theorem fault?_congr (h : other.tree.get? w.place = fs.tree.get? w.place) :
    w.fault? other = w.fault? fs := by
  rw [fault?, fault?, h]

theorem fault?_of_added (hnone : fs.tree.get? w.place = none)
    (hsome : other.tree.get? w.place = some e) (hkind : e.kind = w.kind) :
    w.fault? other = w.fault? fs := by
  rw [fault?, fault?, hnone, hsome]
  simp only [hkind, if_true]

theorem kind_of_fault?_eq_none (h : w.fault? fs = none) (hget : fs.tree.get? w.place = some e) :
    e.kind = w.kind := by
  rw [fault?] at h
  split at h
  · cases h
  · split at h
    · cases h
    · rw [hget] at h
      simpa using h

namespace Admitted

variable (h : w.Admitted)
include h

theorem fault?_of_none (hget : fs.tree.get? w.place = none) : w.fault? fs = none := by
  rw [fault?, h.1]
  simp only [hget, Nat.not_lt_of_le h.2, if_false]

theorem fault?_of_some (hget : fs.tree.get? w.place = some e) :
    w.fault? fs = if e.kind = w.kind then none else some (.system (obstacle w.kind)) := by
  rw [fault?, h.1]
  simp only [hget, Nat.not_lt_of_le h.2, if_false]

theorem answers_of_some [Host] {outcome : Except IoError (Bool × FileSystem)}
    (hget : fs.tree.get? w.place = some e) (houtcome : outcome =
      if e.kind = w.kind then .ok (false, fs) else .error (.system (obstacle w.kind))) :
    w.Answers fs outcome := by
  have hfault := h.fault?_of_some hget
  by_cases hkind : e.kind = w.kind
  · rw [if_pos hkind] at hfault houtcome
    exact houtcome ▸ .present hfault hget
  · rw [if_neg hkind] at hfault houtcome
    exact houtcome ▸ .refused hfault

end Admitted

end Wanted

/-- The file system grew by the entries named, all of them where nothing was, and by no others. -/
structure AddsAll (added : Location → Entry → Prop) (before after : FileSystem) : Prop
    extends AddsOnly added before after where
  complete : ∀ l e, added l e → before.tree.get? l = none → after.tree.get? l = some e

namespace AddsAll

variable {added more : Location → Entry → Prop} {before middle after : FileSystem}

theorem refl_of_present (h : ∀ l e, added l e → (before.tree.get? l).isSome = true) :
    AddsAll added before before := by
  refine ⟨.refl before, fun l e hadded hnone => ?_⟩
  have hsome := h l e hadded
  rw [hnone] at hsome
  cases hsome

theorem of_put {place : Location} {e : Entry} (h : before.IsPut after place e)
    (hnew : before.tree.get? place = none) :
    AddsAll (fun l f => l = place ∧ f = e) before after := by
  refine ⟨h.adds hnew, fun l f hadded _ => ?_⟩
  rw [h.2, if_pos hadded.1.symm, hadded.2]

theorem sameTree {other : FileSystem} (h : AddsAll added before after) (hsame : SameTree after other) :
    AddsAll added before other :=
  ⟨h.toAddsOnly.sameTree hsame, fun l e hadded hnone => hsame.1 ▸ h.complete l e hadded hnone⟩

theorem trans (h : AddsAll added before middle) (h' : AddsAll more middle after)
    (hagree : ∀ l e f, added l e → more l f → e = f) :
    AddsAll (fun l e => added l e ∨ more l e) before after := by
  have hadds := (h.toAddsOnly.weaken fun _ _ hadded => Or.inl hadded).trans
    (h'.toAddsOnly.weaken fun _ _ hadded => Or.inr hadded)
  refine ⟨hadds, fun l e hadded hnone => ?_⟩
  rcases hadded with hfirst | hsecond
  · exact h'.grows.2 l e (h.complete l e hfirst hnone)
  · rcases h.toAddsOnly.get?_cases l with hkept | ⟨-, f, hmiddle, hfirst⟩
    · exact h'.complete l e hsecond (hkept.trans hnone)
    · rw [← hagree l f e hfirst hsecond]
      exact h'.grows.2 l f hmiddle

theorem unique {other : FileSystem} (h : AddsAll added before after)
    (h' : AddsAll added before other) : SameTree other after := by
  refine ⟨Tree.ext_get? fun l => ?_, h.grows.1.trans h'.grows.1.symm⟩
  rcases h.toAddsOnly.get?_cases l with hkept | ⟨hnone, e, hafter, hadded⟩
  · rcases h'.toAddsOnly.get?_cases l with hkept' | ⟨hnone, e, hother, hadded⟩
    · exact hkept.trans hkept'.symm
    · rw [h.complete l e hadded hnone, hother]
  · rw [hafter, h'.complete l e hadded hnone]

end AddsAll

def missing (fs : FileSystem) (places : List Location) : List Location :=
  places.filter fun l => (fs.tree.get? l).isNone

theorem mem_missing {fs : FileSystem} {places : List Location} {l : Location} :
    l ∈ fs.missing places ↔ l ∈ places ∧ fs.tree.get? l = none := by
  rw [missing, List.mem_filter, Option.isNone_iff_eq_none]

theorem not_mem_missing {fs : FileSystem} {places : List Location} {l : Location}
    (h : l ∉ places) : l ∉ fs.missing places := fun hmem => h (mem_missing.1 hmem).1

theorem AddsAll.get?_cases [Host] {before after : FileSystem} {ws : List Wanted}
    (h : AddsAll (fun l e => ∃ w ∈ ws, w.Is l e) before after) (l : Location) :
    (∃ w ∈ ws, l = w.place ∧ before.tree.get? l = none ∧ after.tree.get? l = some w.entry) ∨
      l ∉ before.missing (ws.map Wanted.place) ∧ after.tree.get? l = before.tree.get? l := by
  by_cases hmem : l ∈ before.missing (ws.map Wanted.place)
  · obtain ⟨hplace, hnone⟩ := mem_missing.1 hmem
    obtain ⟨w, hw, rfl⟩ := List.mem_map.1 hplace
    exact .inl ⟨w, hw, rfl, hnone, h.complete _ _ ⟨w, hw, rfl, rfl⟩ hnone⟩
  · refine .inr ⟨hmem, ?_⟩
    rcases h.toAddsOnly.get?_cases l with hkept | ⟨hnone, e, -, w, hw, hplace, -⟩
    · exact hkept
    · exact absurd (mem_missing.2 ⟨List.mem_map.2 ⟨w, hw, hplace.symm⟩, hnone⟩) hmem

theorem walk_singleton {t : Tree} (hfree : t.LinkFree) {purpose : Purpose} {dir : Location}
    {mode : Nat} (hdir : t.get? dir = some (.dir mode)) {name : Name} (hname : name ≠ [])
    (links : Nat) :
    walk t purpose links dir [name] =
      if name = dot ∨ name = dotDot then .ok (.self (dir.along [name]))
      else if Path.maxNameLength < name.length then .error .nameTooLong
      else .ok (.named (dir.along [name])) := by
  obtain ⟨follow, hwalk⟩ := exists_walkWith t purpose links
  rw [hwalk, walkWith, hdir]
  by_cases hdot : name = dot
  · subst hdot
    simp [walkWith, Location.along]
  · by_cases hup : name = dotDot
    · subst hup
      simp [walkWith, Location.along, dot, dotDot]
    · have hlink (target : Bytes) : t.get? (dir ++ [name]) ≠ some (.link target) := hfree _ target
      simp only [hname, hdot, hup, or_self, if_false, Location.along]
      split
      · next hslash => simp at hslash
      · split
        · rfl
        · split
          · next target hget => exact absurd hget (hlink target)
          · rfl
          · rfl

theorem pathFault?_ne_fileExists (path : Bytes) :
    pathFault? path ≠ some (.system .fileExists) := by
  rw [pathFault?]
  split
  · simp
  · split
    · simp
    · split <;> simp

namespace Wanted

variable {w : Wanted} {fs after : FileSystem}

theorem probe_eq {spot : Spot} (hresolve : fs.resolve w.path .keepLink = .ok spot)
    (hplace : spot.place = w.place) : fs.probe w.path = (fs.tree.get? w.place).map Entry.kind := by
  rw [probe, entryAt, hresolve]
  simp only [existing, hplace]
  cases fs.tree.get? w.place <;> rfl

theorem Answers.adds [Host] {made : Bool} (h : w.Answers fs (.ok (made, after))) :
    w.fault? fs = none ∧ AddsAll w.Is fs after := by
  cases h with
  | present hfault hget =>
    refine ⟨hfault, .refl_of_present fun l e hadded => ?_⟩
    rw [hadded.1, hget]
    rfl
  | added hfault hnew hput => exact ⟨hfault, .of_put hput hnew⟩

namespace InReach

variable (hreach : w.InReach fs)
include hreach

theorem grows (hgrow : Grows fs after) : w.InReach after := by
  obtain ⟨hend, hname, front, dir, hpath, hdown, hplace⟩ := hreach
  exact ⟨hend, hname, front, dir, hpath, hgrow.1 ▸ hdown.grows hgrow.2, hplace⟩

theorem leadsDown (hdir : fs.tree.isDirAt w.place = true) :
    fs.placeOf w.path = w.place ∧ fs.LeadsDown w.path := by
  obtain ⟨-, -, front, dir, hpath, hdown, hplace⟩ := hreach
  rw [hplace] at hdir ⊢
  have hway := hdown.concat hdir
  rw [← hpath] at hway
  have hread : fs.placeOf w.path = dir.along [w.lastName] := hway.eq_along.symm
  exact ⟨hread, by rw [LeadsDown, hread]; exact hway⟩

theorem resolveNew_eq : fs.resolveNew w.path = fs.resolve w.path .keepLink := by
  rw [resolveNew, resolve, hops_of_not_endsWithSeparator hreach.1]

theorem isDirAt_of_dots (hdots : w.lastName = dot ∨ w.lastName = dotDot) :
    fs.tree.isDirAt w.place = true := by
  obtain ⟨-, -, front, dir, -, hdown, hplace⟩ := hreach
  obtain ⟨mode, hdir⟩ := Tree.isDirAt_iff.1 hdown.isDirAt
  rw [hplace]
  rcases hdots with hdot | hup
  · rw [Location.along_stay _ (.inr hdot)]
    exact Tree.isDirAt_iff.2 ⟨mode, hdir⟩
  · rw [hup, Location.along_up]
    exact Tree.isDirAt_dropLast hdir

variable (hfree : fs.tree.LinkFree)
include hfree

theorem resolve_eq (hfault : pathFault? w.path = none) (purpose : Purpose) :
    fs.resolve w.path purpose =
      if w.lastName = dot ∨ w.lastName = dotDot then .ok (.self w.place)
      else if Path.maxNameLength < w.lastName.length then .error (.system .nameTooLong)
      else .ok (.named w.place) := by
  obtain ⟨hend, hname, front, dir, hpath, hdown, hplace⟩ := hreach
  obtain ⟨mode, hdir⟩ := Tree.isDirAt_iff.1 hdown.isDirAt
  have hwalk : walk fs.tree purpose maxLinks (startOf fs.cwd w.path) (hops w.path) =
      walk fs.tree purpose maxLinks dir [w.lastName] := by
    rw [hops_of_not_endsWithSeparator hend, hpath]
    exact hdown.walk_append (by simp) (by simpa using hname)
  rw [resolve, resolveHops, hfault, hwalk, walk_singleton hfree hdir hname, hplace]
  dsimp only
  split
  · rfl
  · split <;> rfl

theorem resolve_cases (purpose : Purpose) :
    (∃ fault, fs.resolve w.path purpose = .error fault ∧ fault ≠ .system .fileExists ∧
      w.fault? fs = some fault) ∨
    w.Admitted ∧
      (fs.resolve w.path purpose = .ok (.self w.place) ∧ fs.tree.isDirAt w.place = true ∨
        fs.resolve w.path purpose = .ok (.named w.place)) := by
  cases hfault : pathFault? w.path with
  | some fault =>
    refine .inl ⟨fault, by rw [resolve, resolveHops, hfault], fun he => ?_, by rw [fault?, hfault]⟩
    exact pathFault?_ne_fileExists w.path (he ▸ hfault)
  | none =>
    have hresolve := hreach.resolve_eq hfree hfault purpose
    by_cases hdots : w.lastName = dot ∨ w.lastName = dotDot
    · rw [if_pos hdots] at hresolve
      have hshort : w.lastName.length ≤ Path.maxNameLength := by
        rcases hdots with hdot | hup
        · rw [hdot]
          decide
        · rw [hup]
          decide
      exact .inr ⟨⟨hfault, hshort⟩, .inl ⟨hresolve, hreach.isDirAt_of_dots hdots⟩⟩
    · rw [if_neg hdots] at hresolve
      by_cases hlong : Path.maxNameLength < w.lastName.length
      · rw [if_pos hlong] at hresolve
        exact .inl ⟨_, hresolve, by simp, by rw [fault?, hfault]; exact if_pos hlong⟩
      · rw [if_neg hlong] at hresolve
        exact .inr ⟨⟨hfault, Nat.le_of_not_lt hlong⟩, .inr hresolve⟩

variable [Host]

theorem ensureDirWith_answers (hkind : w.kind = .dir) :
    w.Answers fs (fs.ensureDirWith w.path w.mode) := by
  have hentry : w.entry = .dir (Host.granted w.mode) := by rw [entry, hkind]
  have hmakeDir :
      fs.makeDir w.path w.mode = (fs.resolve w.path .keepLink).bind (fs.addNew w.entry) := by
    rw [makeDir, hreach.resolveNew_eq, hentry]
    cases fs.resolve w.path .keepLink with
    | error fault => rfl
    | ok spot => rfl
  rcases hreach.resolve_cases hfree .keepLink with
    ⟨fault, hresolve, hne, hfault⟩ | ⟨hadm, hspot⟩
  · have hrefused : fs.ensureDirWith w.path w.mode = .error fault := by
      rw [ensureDirWith, hmakeDir, hresolve, Except.bind]
      split
      · next hok => cases hok
      · next hexists => exact absurd (Except.error.inj hexists) hne
      · next hother => rw [Except.error.inj hother]
    exact hrefused ▸ .refused hfault
  · -- something is at the place already, and only a directory will do
    have hthere {spot : Spot} {e : Entry} (hresolve : fs.resolve w.path .keepLink = .ok spot)
        (hplace : spot.place = w.place) (hget : fs.tree.get? w.place = some e)
        (hadd : fs.addNew w.entry spot = .error (.system .fileExists)) :
        w.Answers fs (fs.ensureDirWith w.path w.mode) := by
      have hmake : fs.makeDir w.path w.mode = .error (.system .fileExists) := by
        rw [hmakeDir, hresolve]
        exact hadd
      refine hadm.answers_of_some hget ?_
      rw [ensureDirWith, hmake]
      simp only [Wanted.probe_eq hresolve hplace, hget, Option.map_some, Option.some.injEq, hkind,
        obstacle]
    rcases hspot with ⟨hresolve, hdir⟩ | hresolve
    · obtain ⟨mode, hget⟩ := Tree.isDirAt_iff.1 hdir
      exact hthere hresolve rfl hget rfl
    · cases hget : fs.tree.get? w.place with
      | some e => exact hthere hresolve rfl hget (by simp only [addNew, hget])
      | none =>
        rw [hresolve, Except.bind] at hmakeDir
        simp only [addNew, hget] at hmakeDir
        obtain ⟨place, hnew, -, hput⟩ := makeDir_ok hmakeDir
        rw [hreach.resolveNew_eq, hresolve] at hnew
        cases hnew
        rw [ensureDirWith, hmakeDir]
        exact .added (hadm.fault?_of_none hget) hget (hentry ▸ hput)

theorem createFile_answers (hkind : w.kind = .file) :
    ∃ outcome, w.Answers fs outcome ∧ fs.createFile w.path w.mode = outcome.map Prod.snd := by
  rcases hreach.resolve_cases hfree .createFile with
    ⟨fault, hresolve, -, hfault⟩ | ⟨hadm, ⟨hresolve, hdir⟩ | hresolve⟩
  · exact ⟨.error fault, .refused hfault, by rw [createFile, openFile, hresolve]; rfl⟩
  · obtain ⟨mode, hget⟩ := Tree.isDirAt_iff.1 hdir
    refine ⟨.error (.system .isDirectory), hadm.answers_of_some hget ?_, ?_⟩
    · rw [hkind]
      rfl
    · rw [createFile, openFile, hresolve]
      rfl
  · cases hget : fs.tree.get? w.place with
    | some e =>
      refine ⟨_, hadm.answers_of_some hget rfl, ?_⟩
      rw [createFile, openFile, hresolve, hkind]
      simp only [hget]
      cases e with
      | file => rfl
      | dir => rfl
      | link => rfl
    | none =>
      have hopen : fs.openFile w.path w.mode =
          .ok (w.place, fs.add w.place (.file (Host.granted w.mode) [])) := by
        rw [openFile, hresolve]
        simp only [hget]
      obtain ⟨-, ⟨⟨mode, content, hsome⟩, -⟩ | ⟨-, hput⟩⟩ := openFile_ok hopen
      · rw [hget] at hsome
        cases hsome
      · have hentry : w.entry = .file (Host.granted w.mode) [] := by rw [entry, hkind]
        refine ⟨_, .added (hadm.fault?_of_none hget) hget (hentry ▸ hput), ?_⟩
        rw [createFile, hopen, hentry]
        rfl

end InReach

end Wanted

/-- What happens when entries are asked for one after the other, up to the first refusal. -/
inductive Carries [Host] : FileSystem → List Wanted → Option IoError → FileSystem → Prop
  | done {fs : FileSystem} : Carries fs [] none fs
  | refused {fs : FileSystem} {w : Wanted} {later : List Wanted} {fault : IoError}
      (h : w.Answers fs (.error fault)) : Carries fs (w :: later) (some fault) fs
  | granted {fs middle after : FileSystem} {w : Wanted} {later : List Wanted}
      {outcome : Option IoError} {made : Bool} (h : w.Answers fs (.ok (made, middle)))
      (hlater : Carries middle later outcome after) : Carries fs (w :: later) outcome after

def firstFault? (fs : FileSystem) (ws : List Wanted) : Option IoError :=
  ws.findSome? fun w => w.fault? fs

/-- One of the entries that come before the first refusal. -/
def Granted [Host] (fs : FileSystem) (ws : List Wanted) (l : Location) (e : Entry) : Prop :=
  ∃ w ∈ ws.takeWhile (fun w => (w.fault? fs).isNone), w.Is l e

theorem granted_cons [Host] {fs : FileSystem} {w : Wanted} {later : List Wanted}
    (h : w.fault? fs = none) (l : Location) (e : Entry) :
    fs.Granted (w :: later) l e ↔ w.Is l e ∨ fs.Granted later l e := by
  simp only [Granted]
  rw [List.takeWhile_cons_of_pos (by rw [h]; rfl)]
  simp

theorem granted_of_firstFault?_none [Host] {fs : FileSystem} {ws : List Wanted}
    (h : fs.firstFault? ws = none) : fs.Granted ws = fun l e => ∃ w ∈ ws, w.Is l e := by
  have hclear := List.findSome?_eq_none_iff.1 h
  have hall : ws.takeWhile (fun w => (w.fault? fs).isNone) = ws := by
    rw [← List.append_nil ws,
      List.takeWhile_append_of_pos fun w hw => by rw [hclear w hw]; rfl, List.takeWhile_nil]
  funext l e
  rw [Granted, hall]

theorem takeWhile_concat_prefix {α : Type} {p : α → Bool} {xs : List α} {x : α}
    (h : ∃ y ∈ xs ++ [x], p y = false) : (xs ++ [x]).takeWhile p <+: xs := by
  rw [List.takeWhile_append]
  split
  · next hall =>
    -- then it is the last one that stops the scan
    have hxs : xs.takeWhile p = xs := (List.takeWhile_prefix p).eq_of_length hall
    obtain ⟨y, hy, hstop⟩ := h
    rcases List.mem_append.1 hy with hy | hy
    · have hpass : p y = true := by
        rw [← hxs] at hy
        exact List.all_eq_true.1 List.all_takeWhile y hy
      rw [hpass] at hstop
      cases hstop
    · cases List.mem_singleton.1 hy
      have hlast : [x].takeWhile p = [] := List.takeWhile_cons_of_neg (by simp [hstop])
      exact ⟨[], by rw [hlast, List.append_nil, List.append_nil]⟩
  · exact List.takeWhile_prefix p

theorem granted_of_firstFault?_some [Host] {fs : FileSystem} {front : List Wanted} {last : Wanted}
    {fault : IoError} (h : fs.firstFault? (front ++ [last]) = some fault) :
    ∃ granted, granted <+: front ∧
      fs.Granted (front ++ [last]) = fun l e => ∃ w ∈ granted, w.Is l e := by
  obtain ⟨w, hw, hstop⟩ := List.exists_of_findSome?_eq_some h
  exact ⟨_, takeWhile_concat_prefix ⟨w, hw, by rw [hstop]; rfl⟩, rfl⟩

theorem granted_congr [Host] {fs other : FileSystem} {ws : List Wanted}
    (h : ∀ w ∈ ws, w.fault? other = w.fault? fs) :
    other.firstFault? ws = fs.firstFault? ws ∧ other.Granted ws = fs.Granted ws := by
  have hboth : other.firstFault? ws = fs.firstFault? ws ∧
      ws.takeWhile (fun w => (w.fault? other).isNone) =
        ws.takeWhile fun w => (w.fault? fs).isNone := by
    induction ws with
    | nil => exact ⟨rfl, rfl⟩
    | cons w later ih =>
      obtain ⟨hfault, hfront⟩ := ih fun v hv => h v (List.mem_cons_of_mem _ hv)
      simp only [firstFault?] at hfault
      simp only [firstFault?, List.findSome?_cons, List.takeWhile, h w List.mem_cons_self, hfault,
        hfront, and_self]
  refine ⟨hboth.1, ?_⟩
  funext l e
  rw [Granted, Granted, hboth.2]

namespace Carries

variable [Host] {fs after : FileSystem} {ws : List Wanted} {outcome : Option IoError}

/-- If the places differ, the outcome and the entries added can be read off the start. -/
theorem effect (h : Carries fs ws outcome after)
    (hplaces : ws.Pairwise fun v w => v.place ≠ w.place) :
    outcome = fs.firstFault? ws ∧ AddsAll (fs.Granted ws) fs after := by
  induction h with
  | done => exact ⟨rfl, .refl_of_present fun l e hadded => by simp [Granted] at hadded⟩
  | @refused fs w later fault hanswer =>
    cases hanswer with
    | refused hfault =>
      refine ⟨by rw [firstFault?, List.findSome?_cons, hfault], .refl_of_present fun l e hadded => ?_⟩
      simp [Granted, hfault] at hadded
  | @granted fs middle after w later outcome made hanswer _ ih =>
    obtain ⟨hnew, hlater⟩ := List.pairwise_cons.1 hplaces
    obtain ⟨hfault, hadds⟩ := hanswer.adds
    obtain ⟨houtcome, hrest⟩ := ih hlater
    -- what was granted first stands at none of the later places
    have hsame : ∀ v ∈ later, v.fault? middle = v.fault? fs := by
      intro v hv
      rcases hadds.toAddsOnly.get?_cases v.place with hkept | ⟨-, e, -, hadded⟩
      · exact Wanted.fault?_congr hkept
      · exact absurd hadded.1.symm (hnew v hv)
    obtain ⟨hfirst, hgranted⟩ := granted_congr hsame
    rw [hfirst] at houtcome
    rw [hgranted] at hrest
    refine ⟨by rw [houtcome, firstFault?, firstFault?, List.findSome?_cons, hfault], ?_⟩
    have hall := hadds.trans hrest fun l e f hw hv => by
      obtain ⟨v, hv, hplace, -⟩ := hv
      exact absurd (hw.1.symm.trans hplace) (hnew v ((List.takeWhile_subset _) hv))
    have hcons : fs.Granted (w :: later) = fun l e => w.Is l e ∨ fs.Granted later l e :=
      funext fun l => funext fun e => propext (granted_cons hfault l e)
    rw [hcons]
    exact hall

end Carries

end Whiteout.FileSystem
