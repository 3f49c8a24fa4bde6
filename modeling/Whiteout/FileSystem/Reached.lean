import Whiteout.FileSystem.Resolve

/-!
# Where a walk may end

A walk that ends at a name has found it in a directory, and the name is one that the directory may
hold. A link is at the end only of a walk that keeps links.
-/

namespace Whiteout.FileSystem

open Whiteout.Path (separator components isName)

def Plain (name : Name) : Prop := separator ∉ name ∧ 0 ∉ name

theorem plain_of_mem_components {path name : Bytes} (h : 0 ∉ path) (hn : name ∈ components path) : Plain name :=
  ⟨Path.separator_not_mem_component hn, fun h0 => h (Path.mem_of_mem_component hn h0)⟩

theorem plain_of_mem_hops {path name : Bytes} (h : 0 ∉ path) (hn : name ∈ hops path) : Plain name := by
  simp only [hops] at hn
  split at hn
  · rcases List.mem_append.1 hn with hn | hn
    · exact plain_of_mem_components h hn
    · simp_all [Plain]
  · exact plain_of_mem_components h hn

/-- A place that a walk may end at: a name in a directory, and a link only if links are kept. -/
def Reached (t : Tree) (purpose : Purpose) (place : Location) : Prop :=
  place.isNamed = true ∧ t.isDirAt place.dropLast = true ∧
    (purpose ≠ .keepLink → ∀ target, t.get? place ≠ some (.link target))

theorem reached_concat {t : Tree} {purpose : Purpose} {here : Location} {name : Name}
    (hdir : t.isDirAt here = true) (hname : isName name = true)
    (hlink : purpose ≠ .keepLink → ∀ target, t.get? (here ++ [name]) ≠ some (.link target)) :
    Reached t purpose (here ++ [name]) := by
  simpa [Reached, Location.isNamed, hname, hdir] using hlink

theorem walkWith_reached {t : Tree} {purpose : Purpose} {follow : Location → List Name → Except Errno Spot}
    (hf : ∀ here names place, (∀ n ∈ names, Plain n) → follow here names = .ok (.named place) →
      Reached t purpose place)
    (here : Location) (names : List Name) (place : Location) (hn : ∀ n ∈ names, Plain n)
    (h : walkWith t purpose follow here names = .ok (.named place)) : Reached t purpose place := by
  induction names generalizing here with
  | nil => cases h
  | cons name rest ih =>
    have hrest : ∀ n ∈ rest, Plain n := fun n hm => hn n (List.mem_cons_of_mem _ hm)
    rw [walkWith] at h
    split at h
    · cases h
    · cases h
    · cases h
    · next mode hget =>
      have hdir : t.isDirAt here = true := Tree.isDirAt_iff.2 ⟨mode, hget⟩
      split at h
      · exact ih here hrest h
      · next hdot =>
        split at h
        · exact ih _ hrest h
        · next hdots =>
          split at h
          · cases h
          · split at h
            · cases h
            · next hlen =>
              have hname : isName name = true := by
                have := hn name (List.mem_cons_self ..)
                simp only [not_or] at hdot
                exact Path.isName_iff.2 ⟨hdot.1, hdot.2, hdots, this.1, this.2, Nat.le_of_not_lt hlen⟩
              split at h
              · next target hlink =>
                split at h
                · next hkeep => cases h; exact reached_concat hdir hname fun hne => absurd hkeep.2 hne
                · refine hf _ _ _ (fun n hm => ?_) h
                  rcases List.mem_append.1 hm with hm | hm
                  · exact plain_of_mem_hops (Path.isAdmissible_iff.1 (Tree.isSound_of_get? hlink)).2.1 hm
                  · exact hrest n hm
              · next hnone =>
                split at h
                · cases h; exact reached_concat hdir hname fun _ target => by simp [hnone]
                · cases h
              · next e hget' hnolink =>
                split at h
                · cases h; exact reached_concat hdir hname fun _ target => by simp_all
                · exact ih _ hrest h

theorem walk_reached {t : Tree} {purpose : Purpose} (links : Nat) (here : Location) (names : List Name)
    (place : Location) (hn : ∀ n ∈ names, Plain n) (h : walk t purpose links here names = .ok (.named place)) :
    Reached t purpose place := by
  induction links generalizing here names place with
  | zero => exact walkWith_reached (fun _ _ _ _ hf => by cases hf) here names place hn h
  | succ links ih => exact walkWith_reached ih here names place hn h

theorem resolveHops_reached {fs : FileSystem} {path : Bytes} {names : List Name} {purpose : Purpose} {place : Location}
    (hn : 0 ∉ path → ∀ n ∈ names, Plain n) (h : fs.resolveHops path names purpose = .ok (.named place)) :
    Reached fs.tree purpose place := by
  unfold resolveHops at h
  split at h
  · cases h
  · next hfault =>
    have hnul := (Path.isAdmissible_iff.1 (pathFault?_eq_none_iff.1 hfault)).2.1
    cases hw : walk fs.tree purpose maxLinks (startOf fs.cwd path) names with
    | error e => rw [hw] at h; cases h
    | ok spot => rw [hw] at h; cases h; exact walk_reached _ _ _ _ (hn hnul) hw

theorem resolve_reached {fs : FileSystem} {path : Bytes} {purpose : Purpose} {place : Location}
    (h : fs.resolve path purpose = .ok (.named place)) : Reached fs.tree purpose place :=
  resolveHops_reached (fun h0 _ hn => plain_of_mem_hops h0 hn) h

theorem resolveNew_reached {fs : FileSystem} {path : Bytes} {place : Location}
    (h : fs.resolveNew path = .ok (.named place)) : Reached fs.tree .keepLink place :=
  resolveHops_reached (fun h0 _ hn => plain_of_mem_components h0 hn) h

end Whiteout.FileSystem
