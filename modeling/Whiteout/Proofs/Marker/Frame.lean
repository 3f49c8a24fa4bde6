import Whiteout.Proofs.Marker.Footprint
import Whiteout.Proofs.Marker.Requests
import Whiteout.Proofs.Marker.SpecialBits

/-!
# Data outside the metadata trees

Whatever is requested and however it ends, only the metadata trees change. Without links each path
that is written to reads a place below a metadata directory: a hide adds its footprint there, and a
removal takes away the entry at a marker's place. So a run leaves every other place as it was. Only
an entry that is given away by its own path may lose special bits, if the host takes them.
-/

namespace Whiteout

open Text (utf8)
open Whiteout.FileSystem (AddsOnly keptBits)
open Whiteout.Path (IsStep)

namespace FileSystem

/-- Outside the region nothing came, went or changed, and no link came anywhere. -/
structure KeepsOutside (region : Location → Prop) (before after : FileSystem) : Prop where
  cwd : after.cwd = before.cwd
  same : ∀ l, ¬region l → after.tree.get? l = before.tree.get? l
  linkFree : before.tree.LinkFree → after.tree.LinkFree

namespace KeepsOutside

variable {region : Location → Prop} {before middle after : FileSystem}

theorem refl (fs : FileSystem) : KeepsOutside region fs fs := ⟨rfl, fun _ _ => rfl, id⟩

theorem trans (h : KeepsOutside region before middle) (h' : KeepsOutside region middle after) :
    KeepsOutside region before after :=
  ⟨h'.cwd.trans h.cwd, fun l hl => (h'.same l hl).trans (h.same l hl), h'.linkFree ∘ h.linkFree⟩

theorem of_adds {added : Location → Entry → Prop} (h : AddsOnly added before after)
    (hregion : ∀ l e, added l e → region l ∧ e.isLink = false) :
    KeepsOutside region before after := by
  refine ⟨h.grows.1, fun l hl => ?_,
    fun hfree => h.linkFree hfree fun l e hadded => (hregion l e hadded).2⟩
  rcases h.get?_cases l with hkept | ⟨-, e, -, hadded⟩
  · exact hkept
  · exact absurd (hregion l e hadded).1 hl

theorem of_cut {place : Location} (hcwd : after.cwd = before.cwd)
    (hget : ∀ l, l ≠ [] → after.tree.get? l = if place = l then none else before.tree.get? l)
    (hregion : region place) : KeepsOutside region before after := by
  have hshrunk : Grows after before := .of_removed hcwd hget
  refine ⟨hcwd, fun l hl => ?_, fun hfree l target hlink => hfree l target (hshrunk.2 l _ hlink)⟩
  by_cases hnil : l = []
  · subst hnil
    rw [Tree.get?_nil, Tree.get?_nil]
  · have hne : place ≠ l := fun hsame => hl (hsame ▸ hregion)
    rw [hget l hnil, if_neg hne]

end KeepsOutside

theorem removeMarker_keeps {fs without : FileSystem} {path : Bytes} {region : Location → Prop}
    (hfree : fs.tree.LinkFree) (hregion : region (fs.placeOf path))
    (h : fs.removeMarker path = some (.ok without)) : KeepsOutside region fs without := by
  rw [removeMarker] at h
  split at h
  · cases h
  · obtain ⟨place, e, he, -, hcwd, hget⟩ := unlink_ok (Option.some.inj h)
    have hplace : place = fs.placeOf path := (entryAt_place hfree he).1
    exact .of_cut hcwd (fun l _ => hget l) (hplace ▸ hregion)
  · obtain ⟨place, mode, he, -, hcwd, hget⟩ := unlinkDir_ok (Option.some.inj h)
    have hplace : place = fs.placeOf path := (entryAt_place hfree he).1
    exact .of_cut hcwd hget (hplace ▸ hregion)

theorem removeMarker_special {fs without : FileSystem} {path : Bytes}
    (h : fs.removeMarker path = some (.ok without)) : without.special = fs.special := by
  rw [removeMarker] at h
  split at h
  · cases h
  · have hunlink := Option.some.inj h
    rw [unlink] at hunlink
    split at hunlink
    · cases hunlink
    · split at hunlink <;> cases hunlink
      rfl
  · have hunlink := Option.some.inj h
    rw [unlinkDir] at hunlink
    split at hunlink
    · cases hunlink
    · split at hunlink
      · cases hunlink
      · split at hunlink <;> cases hunlink
        rfl

/-- The host takes no special bit that the entry at the place has when it is given away. -/
def KeptWhole [Host] (fs : FileSystem) (l : Location) : Prop :=
  ∀ e, fs.tree.get? l = some e → keptBits e (fs.special l) = fs.special l

end FileSystem

namespace UnionView

open Whiteout.FileSystem (KeepsOutside)

variable {view : UnionView} {s : Session} {fs : FileSystem} {region : Location → Prop}

def InMetaTree (view : UnionView) (fs : FileSystem) (l : Location) : Prop :=
  ∃ b ∈ view.branches, view.metaPlace fs b <+: l

theorem InMetaTree.congr {after : FileSystem} (hcwd : after.cwd = fs.cwd) :
    view.InMetaTree after = view.InMetaTree fs := by
  funext l
  simp only [InMetaTree, metaPlace_congr hcwd]

theorem unhideIn_special (path : Bytes) (ranks : List Nat) :
    (view.unhideIn fs path ranks).2.special = fs.special := by
  induction ranks generalizing fs with
  | nil => rfl
  | cons rank others ih =>
    rw [unhideIn]
    split
    · rfl
    · split
      · exact ih
      · next without hremoved => exact ih.trans (FileSystem.removeMarker_special hremoved)
      · exact ih
      · exact ih

section

variable (hv : view.Accepted)
include hv

theorem inMetaTree_markerPath {path : Bytes} {rank : Nat} {marker : BoundedPath}
    (h : view.markerPath path rank = .ok marker) : view.InMetaTree fs (fs.placeOf marker.text) := by
  obtain ⟨parts, b, hparts, hb, -, rfl⟩ := (markerPath_eq_ok_iff hv).1 h
  obtain ⟨-, hne, hsteps⟩ := unionComponents_eq_ok_iff.1 hparts
  rw [placeOf_markerText hv hb fs hne hsteps]
  exact ⟨b, List.mem_of_getElem? hb, List.prefix_append _ _⟩

theorem unhideIn_keeps (hfree : fs.tree.LinkFree) (path : Bytes) (ranks : List Nat) :
    KeepsOutside (view.InMetaTree fs) fs (view.unhideIn fs path ranks).2 := by
  induction ranks generalizing fs with
  | nil => exact .refl _
  | cons rank others ih =>
    rw [unhideIn]
    split
    · exact .refl _
    · next marker hmarker =>
      split
      · exact ih hfree
      · next without hremoved =>
        have hstep := FileSystem.removeMarker_keeps hfree (inMetaTree_markerPath hv hmarker) hremoved
        have hrest := ih (hstep.linkFree hfree)
        rw [InMetaTree.congr hstep.cwd] at hrest
        exact hstep.trans hrest
      · exact ih hfree
      · exact ih hfree

theorem unhide_keeps (hfree : fs.tree.LinkFree) (path : Bytes) (last : Option Nat) :
    KeepsOutside (view.InMetaTree fs) fs (view.unhide fs path last).2 := by
  rw [unhide]
  split
  · exact unhideIn_keeps hv hfree path _
  · exact .refl _

variable [Host]

theorem hide_keeps (hfree : s.fs.tree.LinkFree) (path : Bytes) (rank : Nat) (kind : Kind) :
    KeepsOutside (view.InMetaTree s.fs) s.fs (view.hide s path rank kind).2.fs := by
  rcases hide_cases hv hfree path rank kind with ⟨e, herror⟩ |
    ⟨parts, b, response, made, hparts, hb, -⟩
  · rw [herror]
    exact .refl _
  · exact .of_adds (hide_adds hv hfree hparts hb) fun l e hadded =>
      ⟨⟨b, List.mem_of_getElem? hb, hadded.base_prefix⟩, hadded.not_isLink⟩

theorem hideIfProvided_keeps (hfree : s.fs.tree.LinkFree) (lookup : Lookup) (path : Bytes)
    (rank : Nat) (kind : Kind) :
    KeepsOutside (view.InMetaTree s.fs) s.fs
      (view.hideIfProvided lookup s path rank kind).2.fs := by
  rw [hideIfProvided]
  split
  · exact .refl _
  · exact .refl _
  · exact hide_keeps hv hfree path rank kind

theorem perform_keeps (hfree : s.fs.tree.LinkFree) (r : Request) :
    KeepsOutside (view.InMetaTree s.fs) s.fs (r.perform view s).2.fs := by
  cases r with
  | hide path rank kind => exact hide_keeps hv hfree path rank kind
  | hideIfProvided lookup path rank kind => exact hideIfProvided_keeps hv hfree lookup path rank kind
  | unhide path last => exact unhide_keeps hv hfree path last
  | isHidden => exact .refl _
  | markers => exact .refl _
  | findBranch => exact .refl _
  | setOwner path =>
    have hsame := s.offer_sameTree path
    change KeepsOutside _ s.fs (s.offer path).fs
    exact ⟨hsame.2, fun l _ => by rw [hsame.1], fun hfree => hsame.1 ▸ hfree⟩

theorem run_keeps (hfree : s.fs.tree.LinkFree) (requests : List Request) :
    KeepsOutside (view.InMetaTree s.fs) s.fs (view.run s requests).2.fs := by
  induction requests generalizing s with
  | nil => exact .refl _
  | cons r later ih =>
    have hstep := perform_keeps hv hfree r
    have hrest := ih (hstep.linkFree hfree)
    rw [InMetaTree.congr hstep.cwd] at hrest
    exact hstep.trans hrest

theorem hide_special (hfree : s.fs.tree.LinkFree) (path : Bytes) (rank : Nat) (kind : Kind)
    {l : Location} (hl : ¬view.InMetaTree s.fs l) :
    (view.hide s path rank kind).2.fs.special l = s.fs.special l := by
  have hkeeps := hide_keeps hv hfree path rank kind
  have hbits := view.hide_passesOn s path rank kind
  cases hget : s.fs.tree.get? l with
  | none => exact hbits.absent l ((hkeeps.same l hl).trans hget)
  | some e =>
    refine hbits.kept l e hget ?_
    rintro ⟨-, m, hmarker, -, e', hentry⟩
    have hplace := (FileSystem.entryAt_place (hkeeps.linkFree hfree) hentry).1
    rw [← InMetaTree.congr hkeeps.cwd, hplace] at hl
    exact hl (inMetaTree_markerPath hv hmarker)

theorem perform_special (hfree : s.fs.tree.LinkFree) (r : Request) {l : Location}
    (hl : ¬view.InMetaTree s.fs l) :
    (r.perform view s).2.fs.special l = s.fs.special l ∨
      ∃ path e, r = .setOwner path ∧ s.Gives l ∧ s.fs.tree.get? l = some e ∧
        (r.perform view s).2.fs.special l = keptBits e (s.fs.special l) := by
  cases r with
  | hide path rank kind => exact .inl (hide_special hv hfree path rank kind hl)
  | hideIfProvided lookup path rank kind =>
    refine .inl ?_
    simp only [Request.perform, hideIfProvided]
    split
    · rfl
    · rfl
    · exact hide_special hv hfree path rank kind hl
  | unhide path last =>
    refine .inl ?_
    simp only [Request.perform, unhide]
    split
    · rw [unhideIn_special]
    · rfl
  | isHidden => exact .inl rfl
  | markers => exact .inl rfl
  | findBranch => exact .inl rfl
  | setOwner path =>
    change (s.offer path).fs.special l = _ ∨
      ∃ _ _, _ ∧ _ ∧ _ ∧ (s.offer path).fs.special l = _
    rcases s.offer_cases path with ⟨hoffer, -⟩ | ⟨place, e, hentry, hgives, hoffer⟩
    · exact .inl (by rw [hoffer])
    · rw [hoffer]
      by_cases hplace : l = place
      · subst hplace
        exact .inr ⟨path, e, rfl, hgives, FileSystem.entryAt_ok hentry, if_pos rfl⟩
      · exact .inl (if_neg hplace)

theorem run_special (hfree : s.fs.tree.LinkFree) {requests : List Request} {l : Location}
    (hl : ¬view.InMetaTree s.fs l)
    (hwhole : ∀ path, .setOwner path ∈ requests → s.Gives l → s.fs.KeptWhole l) :
    (view.run s requests).2.fs.special l = s.fs.special l := by
  induction requests generalizing s with
  | nil => rfl
  | cons r later ih =>
    have hstep := perform_keeps hv hfree r
    have hfirst : (r.perform view s).2.fs.special l = s.fs.special l := by
      rcases perform_special hv hfree r hl with hsame | ⟨path, e, rfl, hgives, hget, htaken⟩
      · exact hsame
      · exact htaken.trans (hwhole path List.mem_cons_self hgives e hget)
    refine (ih (hstep.linkFree hfree) (InMetaTree.congr hstep.cwd ▸ hl)
      fun path hpath hgives e hget => ?_).trans hfirst
    rw [Session.Gives, view.perform_identity s r] at hgives
    rw [hfirst]
    exact hwhole path (List.mem_cons_of_mem _ hpath) hgives e ((hstep.same l hl).symm.trans hget)

end

end UnionView

end Whiteout
