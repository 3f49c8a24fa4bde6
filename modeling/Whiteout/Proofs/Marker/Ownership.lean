import Whiteout.Proofs.Marker.Offered
import Whiteout.Proofs.Marker.Requests
import Whiteout.Proofs.Marker.SpecialBits

/-!
# Ownership

Whom a request acts as shows in the owners of what it makes and nowhere else, as long as giving an
entry away changes nothing but its owner. Two runs of the same requests on the same file system then
answer the same and leave the same file system after every request, whoever the single requests act
as. The identity is asked for by the hides alone, as often as these have something to give away.
-/

namespace Whiteout

open Text (utf8)

def Session.actingAs (s : Session) (identity : Identity) : Session := { s with identity }

section

variable [Host]

theorem UnionView.hide_congr_of_nothing_taken {view : UnionView} {s t : Session}
    (hnone : ∀ mode, Host.takenByGiving mode = 0) (h : t.fs = s.fs) (path : Bytes) (rank : Nat)
    (kind : Kind) : (view.hide t path rank kind).1 = (view.hide s path rank kind).1 ∧
      (view.hide t path rank kind).2.fs = (view.hide s path rank kind).2.fs := by
  obtain ⟨hanswer, hsame⟩ := view.hide_congr (s := s) (t := t) ⟨by rw [h], by rw [h]⟩ path rank kind
  have hours := (view.hide_passesOn s path rank kind).of_nothing_taken hnone
  have htheirs := (view.hide_passesOn t path rank kind).of_nothing_taken hnone
  exact ⟨hanswer, hours.unique (h ▸ htheirs) hsame⟩

namespace Request

variable {s t : Session} {r : Request}

def setsOwner : Request → Bool
  | .setOwner _ => true
  | _ => false

def creates : Request → Bool
  | .hide _ _ _ => true
  | .hideIfProvided _ _ _ _ => true
  | _ => false

theorem perform_congr (view : UnionView) (hnone : ∀ mode, Host.takenByGiving mode = 0)
    (h : t.fs = s.fs) (hr : r.setsOwner = false) :
    (r.perform view t).1 = (r.perform view s).1 ∧
      (r.perform view t).2.fs = (r.perform view s).2.fs := by
  cases r with
  | hide path rank kind =>
    obtain ⟨hanswer, hfs⟩ := view.hide_congr_of_nothing_taken hnone h path rank kind
    exact ⟨congrArg Response.done hanswer, hfs⟩
  | hideIfProvided lookup path rank kind =>
    simp only [perform, UnionView.hideIfProvided, h]
    split
    · exact ⟨rfl, h⟩
    · exact ⟨rfl, h⟩
    · obtain ⟨hanswer, hfs⟩ := view.hide_congr_of_nothing_taken hnone h path rank kind
      exact ⟨congrArg Response.done hanswer, hfs⟩
  | unhide path last => simp only [perform, h, and_self]
  | isHidden path rank => simp only [perform, h, and_self]
  | markers rank => simp only [perform, h, and_self]
  | findBranch path start => simp only [perform, h, and_self]
  | setOwner path => cases hr

theorem queries_of_not_creates (view : UnionView) (s : Session) (hc : r.creates = false)
    (hr : r.setsOwner = false) : (r.perform view s).2.queries = s.queries := by
  cases r with
  | hide => cases hc
  | hideIfProvided => cases hc
  | setOwner => cases hr
  | unhide => rfl
  | isHidden => rfl
  | markers => rfl
  | findBranch => rfl

end Request

namespace UnionView

variable {view : UnionView} {s t : Session} {path : Bytes} {rank : Nat} {kind : Kind}

/-- What a run shows: each answer and the file system after it, every request acting as whom it
comes with. -/
def trace (view : UnionView) (s : Session) : List (Identity × Request) → List (Response × FileSystem)
  | [] => []
  | (identity, r) :: later =>
    let (response, next) := r.perform view (s.actingAs identity)
    (response, next.fs) :: view.trace next later

theorem trace_congr {ours theirs : List (Identity × Request)}
    (hnone : ∀ mode, Host.takenByGiving mode = 0) (h : t.fs = s.fs)
    (hsame : theirs.map Prod.snd = ours.map Prod.snd) (hown : ∀ x ∈ ours, x.2.setsOwner = false) :
    view.trace t theirs = view.trace s ours := by
  -- the two runs go through the same file systems
  induction ours generalizing s t theirs with
  | nil =>
    rw [List.map_eq_nil_iff.1 hsame]
    rfl
  | cons first later ih =>
    obtain ⟨⟨identity, r⟩, theirLater, rfl, hr, hlater⟩ := List.map_eq_cons_iff.1 hsame
    obtain rfl : r = first.2 := hr
    have hacting : (t.actingAs identity).fs = (s.actingAs first.1).fs := h
    have hstep := Request.perform_congr view hnone hacting (hown first List.mem_cons_self)
    have hrest := ih hstep.2 hlater fun x hx => hown x (List.mem_cons_of_mem _ hx)
    simp only [trace, hstep, hrest]

theorem hideIfProvided_of_found {lookup : Lookup} {found : Nat}
    (h : lookup s.fs path rank = .ok (some found)) :
    view.hideIfProvided lookup s path rank kind = view.hide s path rank kind := by
  rw [hideIfProvided, h]

theorem hideIfProvided_of_not_found {lookup : Lookup}
    (h : ∀ found, lookup s.fs path rank ≠ .ok (some found)) :
    (view.hideIfProvided lookup s path rank kind).2 = s := by
  rw [hideIfProvided]
  split
  · rfl
  · rfl
  · next found hfound => exact absurd hfound (h found)

theorem ownership_exactly {home : Option String} {config : Config}
    (haccepted : ofConfig home config = .ok view) :
    ((∀ mode, Host.takenByGiving mode = 0) →
      ∀ (s t : Session) (ours theirs : List (Identity × Request)), s.fs = t.fs →
        ours.map Prod.snd = theirs.map Prod.snd → (∀ x ∈ ours, x.2.setsOwner = false) →
          view.trace s ours = view.trace t theirs) ∧
    (∀ s path rank kind, view.Offers path rank kind s (view.hide s path rank kind).1
      (view.hide s path rank kind).2) ∧
    (∀ lookup s path rank kind,
      ((∃ found, lookup s.fs path rank = .ok (some found)) →
        view.Offers path rank kind s (view.hideIfProvided lookup s path rank kind).1
          (view.hideIfProvided lookup s path rank kind).2) ∧
      ((∀ found, lookup s.fs path rank ≠ .ok (some found)) →
        (view.hideIfProvided lookup s path rank kind).2 = s)) ∧
    ∀ (s : Session) (r : Request), r.creates = false → r.setsOwner = false →
      (r.perform view s).2.queries = s.queries := by
  have hv := accepted_of_ofConfig haccepted
  refine ⟨?_, fun s path rank kind => hide_offers hv s path rank kind, ?_, ?_⟩
  · intro hnone s t ours theirs hfs hsame hown
    exact (trace_congr hnone hfs.symm hsame.symm hown).symm
  · intro lookup s path rank kind
    refine ⟨?_, hideIfProvided_of_not_found⟩
    rintro ⟨found, hfound⟩
    rw [hideIfProvided_of_found hfound]
    exact hide_offers hv s path rank kind
  · exact fun s r hc hr => r.queries_of_not_creates view s hc hr

end UnionView

end

@[reducible] def Sample.givingHost : Host := { Sample.host with takenByGiving := fun _ => 0 }

namespace UnionView

attribute [local instance] Sample.givingHost in
theorem ownership_exactly_sample :
    let hide : Request := .hide (utf8 "d/a") 0 .file
    let hidden := (Sample.view.hide Sample.session (utf8 "d/a") 0 .file).2
    Sample.view.newMetaDirs Sample.session.fs hidden.fs (utf8 "d/a") 0 =
      [[utf8 "up", utf8 ".unionfs"], [utf8 "up", utf8 ".unionfs", utf8 "d"]] ∧
    hidden.queries = 3 ∧
    Sample.view.trace Sample.session [(⟨0, 0⟩, hide), (⟨7, 7⟩, .markers 0)] =
      Sample.view.trace Sample.session [(⟨4242, 4242⟩, hide), (⟨0, 0⟩, .markers 0)] := by
  intro hide hidden
  obtain ⟨hruns, hhide, -, -⟩ := ownership_exactly Sample.ofConfig_config
  have hnew : Sample.view.newMetaDirs Sample.session.fs hidden.fs (utf8 "d/a") 0 =
      [[utf8 "up", utf8 ".unionfs"], [utf8 "up", utf8 ".unionfs", utf8 "d"]] := by decide +kernel
  have hok : (Sample.view.hide Sample.session (utf8 "d/a") 0 .file).1 = .ok () := by
    decide +kernel
  have hasked := (hhide Sample.session (utf8 "d/a") 0 .file).asked
  rw [hnew, hok] at hasked
  exact ⟨hnew, hasked, hruns (fun _ => rfl) _ _ _ _ rfl rfl (by decide +kernel)⟩

end UnionView

end Whiteout
