import Whiteout.FileSystem.Reached
import Whiteout.Proofs.Path.Joining

/-!
# Walks as a relation

`Walks` says which spots a walk may lead to, one rule for each kind of name; the walk itself answers
with a spot exactly when the relation has it. The facts below are about walks through any tree, with
links: what a walk that keeps links finds does not depend on entries that come later, the front of a
walk that finds something finds something too, and a walk behind a proper name ends at a name.
-/

namespace Whiteout.FileSystem

open Whiteout.Path (dot dotDot IsProper)

inductive Walks (t : Tree) (purpose : Purpose) : Nat → Location → List Name → Spot → Prop
  | stay {links : Nat} {here : Location} : Walks t purpose links here [] (.self here)
  | pass {links mode : Nat} {here : Location} {name : Name} {rest : List Name} {spot : Spot}
      (hdir : t.get? here = some (.dir mode)) (hname : name = [] ∨ name = dot)
      (hrest : Walks t purpose links here rest spot) :
      Walks t purpose links here (name :: rest) spot
  | up {links mode : Nat} {here : Location} {rest : List Name} {spot : Spot}
      (hdir : t.get? here = some (.dir mode))
      (hrest : Walks t purpose links here.dropLast rest spot) :
      Walks t purpose links here (dotDot :: rest) spot
  | arrive {links mode : Nat} {here : Location} {name : Name}
      (hdir : t.get? here = some (.dir mode)) (hname : IsProper name)
      (hlen : name.length ≤ Path.maxNameLength)
      (hlink : ∀ target, t.get? (here ++ [name]) = some (.link target) → purpose = .keepLink) :
      Walks t purpose links here [name] (.named (here ++ [name]))
  | enter {links mode below : Nat} {here : Location} {name : Name} {rest : List Name} {spot : Spot}
      (hdir : t.get? here = some (.dir mode)) (hname : IsProper name)
      (hlen : name.length ≤ Path.maxNameLength) (hgo : rest ≠ [])
      (hfile : ¬(purpose = .createFile ∧ rest = [[]]))
      (hbelow : t.get? (here ++ [name]) = some (.dir below))
      (hrest : Walks t purpose links (here ++ [name]) rest spot) :
      Walks t purpose links here (name :: rest) spot
  | follow {links mode : Nat} {here : Location} {name target : Bytes} {rest : List Name}
      {spot : Spot} (hdir : t.get? here = some (.dir mode)) (hname : IsProper name)
      (hlen : name.length ≤ Path.maxNameLength) (hgo : ¬(rest = [] ∧ purpose = .keepLink))
      (hfile : ¬(purpose = .createFile ∧ rest = [[]]))
      (hlink : t.get? (here ++ [name]) = some (.link target))
      (hrest : Walks t purpose links (startOf here target) (hops target ++ rest) spot) :
      Walks t purpose (links + 1) here (name :: rest) spot

variable {t : Tree} {purpose : Purpose} {links : Nat} {here : Location} {names : List Name}
  {spot : Spot}

theorem walkWith_of_not_dir {follow : Location → List Name → Except Errno Spot} (hgo : names ≠ [])
    (h : walkWith t purpose follow here names = .ok spot) :
    ∃ mode, t.get? here = some (.dir mode) := by
  obtain ⟨name, rest, rfl⟩ := List.exists_cons_of_ne_nil hgo
  rw [walkWith] at h
  split at h
  · cases h
  · cases h
  · cases h
  · next mode hdir => exact ⟨mode, hdir⟩

theorem walks_of_walkWith {follow : Location → List Name → Except Errno Spot}
    (hf : ∀ here names spot, follow here names = .ok spot → ∃ fewer, links = fewer + 1 ∧
      Walks t purpose fewer here names spot) (h : walkWith t purpose follow here names = .ok spot) :
    Walks t purpose links here names spot := by
  induction names generalizing here with
  | nil => cases h; exact .stay
  | cons name rest ih =>
    obtain ⟨mode, hdir⟩ := walkWith_of_not_dir (by simp) h
    rw [walkWith, hdir] at h
    dsimp only at h
    split at h
    · next hpass => exact .pass hdir hpass (ih h)
    · next hpass =>
      split at h
      · next hup => subst hup; exact .up hdir (ih h)
      · next hup =>
        have hname : IsProper name := ⟨fun he => hpass (.inl he), fun he => hpass (.inr he), hup⟩
        split at h
        · cases h
        · next hfile =>
          split at h
          · cases h
          · next hlong =>
            have hlen : name.length ≤ Path.maxNameLength := Nat.le_of_not_lt hlong
            split at h
            · next target hlink =>
              split at h
              · next hkeep =>
                obtain ⟨rfl, rfl⟩ := hkeep
                cases h
                exact .arrive hdir hname hlen fun _ _ => rfl
              · next hgo =>
                obtain ⟨fewer, rfl, hrest⟩ := hf _ _ _ h
                exact .follow hdir hname hlen hgo hfile hlink hrest
            · next hnone =>
              split at h
              · next hlast => cases h; subst hlast; exact .arrive hdir hname hlen (by simp [hnone])
              · cases h
            · next e hnolink hsome =>
              split at h
              · next hlast =>
                cases h
                subst hlast
                exact .arrive hdir hname hlen fun target hl =>
                  absurd (hsome.symm.trans hl) (by simpa using hnolink target)
              · next hgo =>
                obtain ⟨below, hbelow⟩ := walkWith_of_not_dir hgo h
                exact .enter hdir hname hlen hgo hfile hbelow (ih h)

theorem walks_of_walk (h : walk t purpose links here names = .ok spot) :
    Walks t purpose links here names spot := by
  induction links generalizing here names spot with
  | zero => exact walks_of_walkWith (fun _ _ _ hf => by cases hf) h
  | succ links ih => exact walks_of_walkWith (fun _ _ _ hf => ⟨links, rfl, ih hf⟩) h

theorem exists_walkWith (t : Tree) (purpose : Purpose) (links : Nat) :
    ∃ follow, walk t purpose links = walkWith t purpose follow := by
  cases links with
  | zero => exact ⟨_, rfl⟩
  | succ links => exact ⟨_, rfl⟩

section

variable {mode below : Nat} {name : Name} {rest : List Name}

theorem walk_pass (hdir : t.get? here = some (.dir mode)) (hname : name = [] ∨ name = dot) :
    walk t purpose links here (name :: rest) = walk t purpose links here rest := by
  obtain ⟨follow, hwalk⟩ := exists_walkWith t purpose links
  rw [hwalk, walkWith, hdir]
  exact if_pos hname

theorem walk_up (hdir : t.get? here = some (.dir mode)) :
    walk t purpose links here (dotDot :: rest) = walk t purpose links here.dropLast rest := by
  obtain ⟨follow, hwalk⟩ := exists_walkWith t purpose links
  rw [hwalk, walkWith, hdir]
  simp [dot, dotDot]

theorem walk_enter (hdir : t.get? here = some (.dir mode)) (hname : IsProper name)
    (hlen : name.length ≤ Path.maxNameLength) (hgo : rest ≠ [])
    (hfile : ¬(purpose = .createFile ∧ rest = [[]]))
    (hbelow : t.get? (here ++ [name]) = some (.dir below)) :
    walk t purpose links here (name :: rest) = walk t purpose links (here ++ [name]) rest := by
  obtain ⟨follow, hwalk⟩ := exists_walkWith t purpose links
  have hlong : ¬Path.maxNameLength < name.length := Nat.not_lt_of_le hlen
  rw [hwalk, walkWith, hdir]
  simp only [hname.1, hname.2.1, hname.2.2, hlong, or_self, if_false, hfile, hbelow, hgo]

theorem walk_follow {target : Bytes} (hdir : t.get? here = some (.dir mode))
    (hname : IsProper name) (hlen : name.length ≤ Path.maxNameLength)
    (hgo : ¬(rest = [] ∧ purpose = .keepLink)) (hfile : ¬(purpose = .createFile ∧ rest = [[]]))
    (hlink : t.get? (here ++ [name]) = some (.link target)) :
    walk t purpose (links + 1) here (name :: rest) =
      walk t purpose links (startOf here target) (hops target ++ rest) := by
  have hlong : ¬Path.maxNameLength < name.length := Nat.not_lt_of_le hlen
  rw [walk, walkWith, hdir]
  simp only [hname.1, hname.2.1, hname.2.2, hlong, or_self, if_false, hfile, hlink, hgo]

end

theorem walk_of_walks (h : Walks t purpose links here names spot) :
    walk t purpose links here names = .ok spot := by
  induction h with
  | @stay links here =>
    obtain ⟨follow, hwalk⟩ := exists_walkWith t purpose links
    rw [hwalk, walkWith]
  | pass hdir hname _ ih => rw [walk_pass hdir hname, ih]
  | up hdir _ ih => rw [walk_up hdir, ih]
  | @arrive links _ here name hdir hname hlen hlink =>
    obtain ⟨follow, hwalk⟩ := exists_walkWith t purpose links
    have hlong : ¬Path.maxNameLength < name.length := Nat.not_lt_of_le hlen
    rw [hwalk, walkWith, hdir]
    simp only [hname.1, hname.2.1, hname.2.2, hlong, or_self, if_false, List.nil_eq,
      List.cons_ne_nil, and_false, if_true, true_and]
    split
    · next target hl => rw [if_pos (hlink target hl)]
    · rfl
    · rfl
  | enter hdir hname hlen hgo hfile hbelow _ ih =>
    rw [walk_enter hdir hname hlen hgo hfile hbelow, ih]
  | follow hdir hname hlen hgo hfile hlink _ ih =>
    rw [walk_follow hdir hname hlen hgo hfile hlink, ih]

theorem walk_eq_ok_iff :
    walk t purpose links here names = .ok spot ↔ Walks t purpose links here names spot :=
  ⟨walks_of_walk, walk_of_walks⟩

namespace Walks

/-- A walk leads to the same spot in a tree that has more entries. If it follows a link at its end
too, none of these entries may be a link. -/
theorem grows_of_links {s t : Tree} (hgrow : ∀ l e, s.get? l = some e → t.get? l = some e)
    (hlinks : purpose = .keepLink ∨
      ∀ l target, t.get? l = some (.link target) → s.get? l = some (.link target))
    (h : Walks s purpose links here names spot) : Walks t purpose links here names spot := by
  induction h with
  | stay => exact .stay
  | pass hdir hname _ ih => exact .pass (hgrow _ _ hdir) hname ih
  | up hdir _ ih => exact .up (hgrow _ _ hdir) ih
  | arrive hdir hname hlen hlink =>
    refine .arrive (hgrow _ _ hdir) hname hlen fun target hthere => ?_
    rcases hlinks with hkeep | hold
    · exact hkeep
    · exact hlink target (hold _ target hthere)
  | enter hdir hname hlen hgo hfile hbelow _ ih =>
    exact .enter (hgrow _ _ hdir) hname hlen hgo hfile (hgrow _ _ hbelow) ih
  | follow hdir hname hlen hgo hfile hlink _ ih =>
    exact .follow (hgrow _ _ hdir) hname hlen hgo hfile (hgrow _ _ hlink) ih

theorem grows {s t : Tree} (hgrow : ∀ l e, s.get? l = some e → t.get? l = some e)
    (h : Walks s .keepLink links here names spot) : Walks t .keepLink links here names spot :=
  h.grows_of_links hgrow (.inl rfl)

theorem keepLink (h : Walks t purpose links here names spot) :
    ∃ kept, Walks t .keepLink links here names kept ∧
      (kept = spot ∨ (t.get? kept.place).isSome = true) := by
  induction h with
  | stay => exact ⟨_, .stay, .inl rfl⟩
  | pass hdir hname _ ih =>
    obtain ⟨kept, hkept, hsame⟩ := ih
    exact ⟨kept, .pass hdir hname hkept, hsame⟩
  | up hdir _ ih =>
    obtain ⟨kept, hkept, hsame⟩ := ih
    exact ⟨kept, .up hdir hkept, hsame⟩
  | arrive hdir hname hlen _ => exact ⟨_, .arrive hdir hname hlen fun _ _ => rfl, .inl rfl⟩
  | enter hdir hname hlen hgo _ hbelow _ ih =>
    obtain ⟨kept, hkept, hsame⟩ := ih
    exact ⟨kept, .enter hdir hname hlen hgo (by simp) hbelow hkept, hsame⟩
  | @follow links _ here name target rest _ hdir hname hlen _ _ hlink _ ih =>
    obtain ⟨kept, hkept, hsame⟩ := ih
    by_cases hlast : rest = []
    · subst hlast
      exact ⟨.named (here ++ [name]), .arrive hdir hname hlen fun _ _ => rfl,
        .inr (by simp [Spot.place, hlink])⟩
    · exact ⟨kept, .follow hdir hname hlen (by simp [hlast]) (by simp) hlink hkept, hsame⟩

theorem front {front back : List Name} (h : Walks t .keepLink links here (front ++ back) spot)
    (hfound : (t.get? spot.place).isSome = true) :
    ∃ half, Walks t .keepLink links here front half ∧ (t.get? half.place).isSome = true := by
  generalize hnames : front ++ back = names at h
  induction h generalizing front with
  | stay =>
    obtain ⟨rfl, -⟩ := List.append_eq_nil_iff.1 hnames
    exact ⟨_, .stay, hfound⟩
  | pass hdir hname _ ih =>
    cases front with
    | nil => exact ⟨_, .stay, by simp [Spot.place, hdir]⟩
    | cons first front =>
      obtain ⟨rfl, rfl⟩ := List.cons_eq_cons.1 hnames
      obtain ⟨half, hhalf, hsome⟩ := ih hfound rfl
      exact ⟨half, .pass hdir hname hhalf, hsome⟩
  | up hdir _ ih =>
    cases front with
    | nil => exact ⟨_, .stay, by simp [Spot.place, hdir]⟩
    | cons first front =>
      obtain ⟨rfl, rfl⟩ := List.cons_eq_cons.1 hnames
      obtain ⟨half, hhalf, hsome⟩ := ih hfound rfl
      exact ⟨half, .up hdir hhalf, hsome⟩
  | arrive hdir hname hlen _ =>
    cases front with
    | nil => exact ⟨_, .stay, by simp [Spot.place, hdir]⟩
    | cons first front =>
      obtain ⟨rfl, hrest⟩ := List.cons_eq_cons.1 hnames
      obtain ⟨rfl, -⟩ := List.append_eq_nil_iff.1 hrest
      exact ⟨_, .arrive hdir hname hlen fun _ _ => rfl, hfound⟩
  | enter hdir hname hlen hgo hfile hbelow _ ih =>
    cases front with
    | nil => exact ⟨_, .stay, by simp [Spot.place, hdir]⟩
    | cons first front =>
      obtain ⟨rfl, rfl⟩ := List.cons_eq_cons.1 hnames
      by_cases hlast : front = []
      · subst hlast
        exact ⟨_, .arrive hdir hname hlen fun _ _ => rfl, by simp [Spot.place, hbelow]⟩
      · obtain ⟨half, hhalf, hsome⟩ := ih hfound rfl
        exact ⟨half, .enter hdir hname hlen hlast (by simp) hbelow hhalf, hsome⟩
  | follow hdir hname hlen hgo hfile hlink _ ih =>
    cases front with
    | nil => exact ⟨_, .stay, by simp [Spot.place, hdir]⟩
    | cons first front =>
      obtain ⟨rfl, rfl⟩ := List.cons_eq_cons.1 hnames
      by_cases hlast : front = []
      · subst hlast
        exact ⟨_, .arrive hdir hname hlen fun _ _ => rfl, by simp [Spot.place, hlink]⟩
      · obtain ⟨half, hhalf, hsome⟩ := ih hfound (List.append_assoc ..)
        exact ⟨half, .follow hdir hname hlen (by simp [hlast]) (by simp) hlink hhalf, hsome⟩

theorem named {front : List Name} {last : Name}
    (h : Walks t .keepLink links here (front ++ [last]) spot) (hlast : IsProper last) :
    ∃ place, spot = .named place := by
  generalize hnames : front ++ [last] = names at h
  induction h generalizing front with
  | stay => simp at hnames
  | pass _ hname _ ih =>
    cases front with
    | nil =>
      obtain ⟨rfl, -⟩ := List.cons_eq_cons.1 hnames
      exact absurd hname (by simp [hlast.1, hlast.2.1])
    | cons first front => exact ih (List.cons_eq_cons.1 hnames).2
  | up _ _ ih =>
    cases front with
    | nil => exact absurd (List.cons_eq_cons.1 hnames).1 hlast.2.2
    | cons first front => exact ih (List.cons_eq_cons.1 hnames).2
  | arrive => exact ⟨_, rfl⟩
  | enter _ _ _ hgo _ _ _ ih =>
    cases front with
    | nil => exact absurd (List.cons_eq_cons.1 hnames).2.symm hgo
    | cons first front => exact ih (List.cons_eq_cons.1 hnames).2
  | follow _ _ _ hgo _ _ _ ih =>
    cases front with
    | nil => exact absurd ⟨(List.cons_eq_cons.1 hnames).2.symm, rfl⟩ hgo
    | cons first front =>
      obtain ⟨-, rfl⟩ := List.cons_eq_cons.1 hnames
      exact ih (List.append_assoc ..)

end Walks

theorem append_ne_slash {back : List Name} (hback : back ≠ []) (hslash : back ≠ [[]])
    (front : List Name) : front ++ back ≠ [[]] := by
  intro he
  rcases List.append_eq_singleton_iff.1 he with ⟨-, hb⟩ | ⟨-, hb⟩
  · exact hslash hb
  · exact hback hb

theorem walkWith_skip_empty {follow : Location → List Name → Except Errno Spot} {back : List Name}
    (hback : back ≠ []) (hslash : back ≠ [[]])
    (hf : ∀ here front, follow here (front ++ [] :: back) = follow here (front ++ back))
    (here : Location) (front : List Name) :
    walkWith t purpose follow here (front ++ [] :: back) =
      walkWith t purpose follow here (front ++ back) := by
  induction front generalizing here with
  | nil =>
    obtain ⟨name, rest, rfl⟩ := List.exists_cons_of_ne_nil hback
    simp only [List.nil_append]
    rw [walkWith]
    split
    · next hdir => rw [walkWith, hdir]
    · next hdir => rw [walkWith, hdir]
    · next hdir => rw [walkWith, hdir]
    · simp
  | cons name front ih =>
    have hlong : front ++ [] :: back ≠ [[]] := by
      cases front with
      | nil => simpa using hback
      | cons => simp
    have hlong' := append_ne_slash hback hslash front
    simp only [List.cons_append, walkWith, ih, hlong, hlong', and_false, if_false,
      List.append_eq_nil_iff,
      hback, List.cons_ne_nil, false_and, ← List.append_assoc, hf]

theorem walk_skip_empty {back : List Name} (hback : back ≠ []) (hslash : back ≠ [[]])
    (front : List Name) :
    walk t purpose links here (front ++ [] :: back) =
      walk t purpose links here (front ++ back) := by
  induction links generalizing here front with
  | zero => exact walkWith_skip_empty hback hslash (fun _ _ => rfl) here front
  | succ links ih => exact walkWith_skip_empty hback hslash (fun _ _ => ih _) here front

end Whiteout.FileSystem
