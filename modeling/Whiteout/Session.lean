import Whiteout.FileSystem.Operations

/-!
# Sessions

A session is a file system together with the identity its requests act as and the number of times
that identity has been asked for. An entry is given to the acting identity, and a refusal is
reported to whoever asked but undoes nothing.
-/

namespace Whiteout

structure Session where
  fs : FileSystem
  identity : Identity
  queries : Nat

namespace Session

def start (fs : FileSystem) (identity : Identity) : Session := ⟨fs, identity, 0⟩

variable [Host]

/-- A privileged identity leaves the entry as it is and does not even look whether it is there. -/
def setOwner (s : Session) (path : Bytes) : Except Error Unit × Session :=
  let asked := { s with queries := s.queries + 1 }
  if s.identity.isPrivileged then (.ok (), asked)
  else match s.fs.changeOwner path s.identity with
    | .ok given => (.ok (), { asked with fs := given })
    | .error e => (.error (.ownership (.refused path e)), asked)

def offer (s : Session) (path : Bytes) : Session := (s.setOwner path).2

/-- The library tries to give the entry at a place away, and the host lets it. -/
def Gives (s : Session) (place : Location) : Prop :=
  s.identity.isPrivileged = false ∧ Host.refusal? place s.identity = none

theorem offer_cases (s : Session) (path : Bytes) :
    s.offer path = { s with queries := s.queries + 1 } ∧
        (∀ place e, s.fs.entryAt path = .ok (place, e) → ¬s.Gives place) ∨
      ∃ place e, s.fs.entryAt path = .ok (place, e) ∧ s.Gives place ∧
        s.offer path = { s with fs := s.fs.giveAway place e, queries := s.queries + 1 } := by
  unfold offer setOwner
  split
  · next hpriv => exact .inl ⟨rfl, fun _ _ _ hgives => Bool.noConfusion (hpriv.symm.trans hgives.1)⟩
  · next hpriv =>
    cases hentry : s.fs.entryAt path with
    | error e =>
      rw [FileSystem.changeOwner, hentry]
      exact .inl ⟨rfl, nofun⟩
    | ok found =>
      obtain ⟨place, e⟩ := found
      rw [FileSystem.changeOwner, hentry]
      cases hrefusal : Host.refusal? place s.identity with
      | none =>
        simp only [hrefusal]
        exact .inr ⟨place, e, rfl, ⟨by simpa using hpriv, hrefusal⟩, rfl⟩
      | some reason =>
        refine .inl ⟨by simp only [hrefusal], fun place' e' hfound hgives => ?_⟩
        cases hfound
        cases hrefusal.symm.trans hgives.2

end Session

end Whiteout
