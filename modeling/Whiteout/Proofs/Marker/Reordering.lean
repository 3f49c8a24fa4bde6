import Whiteout.Proofs.Marker.Effect
import Whiteout.Proofs.Marker.Requests

/-!
# Hides in any order

Hides in one branch do not get in each other's way: they may share directories on the way to their
markers, but as long as no component ends with the tag and no two ask for markers of different kind
under one name, whatever one of them adds is what each other one would have put there. So each hide
answers, and adds, what it would have at the start, whichever hides come before it.
-/

namespace Whiteout

open Text (utf8)
open Whiteout.FileSystem (AddsAll AddsOnly PassesOn SameTree Wanted)
open Whiteout.Path (components IsStep)

section

variable [Host]

namespace UnionView

variable {view : UnionView} {s t : Session} {fs : FileSystem} {b : Branch} {rank : Nat}
  {path : Bytes} {kind : Kind} {base : Location} {parts : List Name} {v w : Wanted}

def Adds (view : UnionView) (fs : FileSystem) (rank : Nat) (path : Bytes) (kind : Kind)
    (l : Location) (e : Entry) : Prop :=
  ∃ parts b, unionComponents path = .ok parts ∧ view.branches[rank]? = some b ∧
    (view.markerText b parts).length + 1 ≤ view.maxPathLen ∧ fs.LeadsDown b.root ∧
      fs.Granted (view.plan b (view.metaPlace fs b) parts kind) l e

theorem adds_eq (hparts : unionComponents path = .ok parts) (hb : view.branches[rank]? = some b)
    (hfit : (view.markerText b parts).length + 1 ≤ view.maxPathLen)
    (hroot : fs.LeadsDown b.root) : view.Adds fs rank path kind =
      fs.Granted (view.plan b (view.metaPlace fs b) parts kind) := by
  funext l e
  refine propext ⟨?_, fun hgranted => ⟨parts, b, hparts, hb, hfit, hroot, hgranted⟩⟩
  rintro ⟨parts', b', hparts', hb', -, -, hgranted⟩
  cases hparts.symm.trans hparts'
  cases hb.symm.trans hb'
  exact hgranted

theorem Adds.not_isLink {l : Location} {e : Entry} (h : view.Adds fs rank path kind l e) :
    e.isLink = false := by
  obtain ⟨-, -, -, -, -, -, w, -, -, rfl⟩ := h
  exact w.isLink_entry

theorem plan_agree {other : List Name} {otherKind : Kind} (hne : parts ≠ []) (hne' : other ≠ [])
    (htag : ∀ c ∈ parts, ¬view.hideTag <:+ c) (htag' : ∀ c ∈ other, ¬view.hideTag <:+ c)
    (hkind : parts = other → kind = otherKind) (hv : v ∈ view.plan b base parts kind)
    (hw : w ∈ view.plan b base other otherKind) (hplace : v.place = w.place) :
    v.kind = w.kind ∧ v.entry = w.entry := by
  -- the marker's name ends with the tag, and no mirrored directory has such a name
  have hmarker {parts names dirs : List Name} (hne : parts ≠ []) (hnames : names <+: dirs.dropLast)
      (htag : ∀ c ∈ dirs, ¬view.hideTag <:+ c)
      (hplace : base ++ view.markerNames parts = base ++ names) : False := by
    obtain ⟨front, last, rfl⟩ := Location.exists_concat hne
    have hsame := List.append_cancel_left hplace
    rw [markerNames_concat] at hsame
    have hmem : last ++ view.hideTag ∈ dirs :=
      List.dropLast_subset _ (hnames.subset (hsame ▸ by simp))
    exact htag _ hmem (List.suffix_append _ _)
  rcases mem_plan.1 hv with ⟨names, hnames, rfl⟩ | rfl
  · rcases mem_plan.1 hw with ⟨names', -, rfl⟩ | rfl
    · exact ⟨rfl, rfl⟩
    · exact (hmarker hne' hnames htag hplace.symm).elim
  · rcases mem_plan.1 hw with ⟨names', hnames', rfl⟩ | rfl
    · exact (hmarker hne hnames' htag' hplace).elim
    · obtain rfl := markerNames_injective hne hne' (List.append_cancel_left hplace)
      obtain rfl := hkind rfl
      exact ⟨rfl, rfl⟩

/-- Hides that may be done in any order, as paths with the kinds of their markers. -/
structure Unordered (view : UnionView) (calls : List (Bytes × Kind)) : Prop where
  untagged : ∀ c ∈ calls, ∀ name ∈ components c.1, ¬view.hideTag <:+ name
  sameKind : ∀ c ∈ calls, ∀ d ∈ calls, components c.1 = components d.1 → c.2 = d.2

def AddsAny (view : UnionView) (fs : FileSystem) (rank : Nat) (calls : List (Bytes × Kind))
    (l : Location) (e : Entry) : Prop :=
  ∃ c ∈ calls, view.Adds fs rank c.1 c.2 l e

def GivesAny (view : UnionView) (s : Session) (rank : Nat) (calls : List (Bytes × Kind))
    (after : FileSystem) (l : Location) : Prop :=
  ∃ c ∈ calls, (view.hide s c.1 rank c.2).1 = .ok () ∧ view.GivesMarker s after c.1 rank l

section

variable {c : Bytes × Kind} {later : List (Bytes × Kind)} {l : Location} {e : Entry}

theorem not_addsAny_nil : ¬view.AddsAny fs rank [] l e := by simp [AddsAny]

theorem addsAny_cons : view.AddsAny fs rank (c :: later) = fun l e =>
    view.Adds fs rank c.1 c.2 l e ∨ view.AddsAny fs rank later l e := by
  funext l e
  simp [AddsAny]

theorem AddsAny.not_isLink (h : view.AddsAny fs rank later l e) : e.isLink = false := by
  obtain ⟨c, -, hadds⟩ := h
  exact hadds.not_isLink

theorem not_givesAny_nil : ¬view.GivesAny s rank [] fs l := by simp [GivesAny]

theorem givesAny_cons : view.GivesAny s rank (c :: later) fs l ↔
    (view.hide s c.1 rank c.2).1 = .ok () ∧ view.GivesMarker s fs c.1 rank l ∨
      view.GivesAny s rank later fs l := by
  simp [GivesAny]

end

namespace Unordered

variable {calls : List (Bytes × Kind)} {c d : Bytes × Kind} (hcalls : view.Unordered calls)
  (hc : c ∈ calls)
include hcalls hc

theorem plans_agree (hd : d ∈ calls) {other : List Name} (hparts : unionComponents c.1 = .ok parts)
    (hother : unionComponents d.1 = .ok other) (hv : v ∈ view.plan b base parts c.2)
    (hw : w ∈ view.plan b base other d.2) (hplace : v.place = w.place) :
    v.kind = w.kind ∧ v.entry = w.entry := by
  obtain ⟨rfl, hne, -⟩ := unionComponents_eq_ok_iff.1 hparts
  obtain ⟨rfl, hne', -⟩ := unionComponents_eq_ok_iff.1 hother
  exact plan_agree hne hne' (hcalls.untagged c hc) (hcalls.untagged d hd)
    (hcalls.sameKind c hc d hd) hv hw hplace

theorem fault?_of_adds (hparts : unionComponents c.1 = .ok parts)
    (hb : view.branches[rank]? = some b)
    (h : AddsOnly (view.AddsAny s.fs rank calls) s.fs t.fs)
    (hw : w ∈ view.plan b (view.metaPlace s.fs b) parts c.2) : w.fault? t.fs = w.fault? s.fs := by
  rcases h.get?_cases w.place with hkept | ⟨hnone, e, hsome, d, hd, hadds⟩
  · exact Wanted.fault?_congr hkept
  · obtain ⟨other, b', hparts', hb', -, -, v, hv, hplace, he⟩ := hadds
    cases hb.symm.trans hb'
    obtain ⟨hkind, -⟩ :=
      hcalls.plans_agree hc hd hparts hparts' hw (List.takeWhile_subset _ hv) hplace
    refine Wanted.fault?_of_added hnone hsome ?_
    rw [he, v.kind_entry, hkind]

theorem hide_later (hv : view.Accepted) (hfree : s.fs.tree.LinkFree)
    (hfree' : t.fs.tree.LinkFree) (h : AddsOnly (view.AddsAny s.fs rank calls) s.fs t.fs) :
    (view.hide t c.1 rank c.2).1 = (view.hide s c.1 rank c.2).1 ∧
      AddsAll (view.Adds s.fs rank c.1 c.2) t.fs (view.hide t c.1 rank c.2).2.fs := by
  cases hmarker : view.markerPath c.1 rank with
  | error e =>
    have hnone (m : BoundedPath) : view.markerPath c.1 rank ≠ .ok m := by simp [hmarker]
    obtain ⟨fault, hfails⟩ := hide_of_no_marker hnone c.2
    rw [hfails, hfails]
    refine ⟨rfl, .refl_of_present fun l e hadds => ?_⟩
    obtain ⟨parts, b, hparts, hb, hfit, -⟩ := hadds
    exact absurd ((markerPath_eq_ok_iff hv).2 ⟨parts, b, hparts, hb, hfit, rfl⟩) (hnone _)
  | ok m =>
    obtain ⟨parts, b, hparts, hb, hfit, -⟩ := (markerPath_eq_ok_iff hv).1 hmarker
    by_cases hroot : s.fs.LeadsDown b.root
    · have hroot' : t.fs.LeadsDown b.root := hroot.grows h.grows
      have hfault := fun w => hcalls.fault?_of_adds hc (w := w) hparts hb h
      obtain ⟨hfirst, hgranted⟩ := FileSystem.granted_congr hfault
      obtain ⟨hanswer, -⟩ := hide_effect hv hb hfree hroot hparts hfit c.2
      obtain ⟨hanswer', hadds⟩ := hide_effect hv hb hfree' hroot' hparts hfit c.2
      rw [metaPlace_of_grows h.grows, hfirst] at hanswer'
      rw [metaPlace_of_grows h.grows, hgranted] at hadds
      rw [adds_eq hparts hb hfit hroot]
      exact ⟨hanswer'.trans hanswer.symm, hadds⟩
    · -- no hide gets as far as adding anything where the branch root is not there
      have hnone {path : Bytes} {kind : Kind} {l : Location} {e : Entry} :
          ¬view.Adds s.fs rank path kind l e := by
        rintro ⟨-, b', -, hb', -, hroot', -⟩
        cases hb.symm.trans hb'
        exact hroot hroot'
      have hsame : SameTree s.fs t.fs := h.sameTree_of_nothing fun l e hadded => by
        obtain ⟨d, -, hadds⟩ := hadded
        exact hnone hadds
      obtain ⟨hanswer, -⟩ := view.hide_congr hsame c.1 rank c.2
      have hstill : (view.hide t c.1 rank c.2).2.fs = t.fs :=
        (root_descends_of_hide hv hfree' hb).resolve_right fun hroot' =>
          hroot (hroot'.grows (.of_sameTree hsame.symm))
      rw [hstill]
      exact ⟨hanswer, .refl_of_present fun l e hadds => (hnone hadds).elim⟩

theorem adds_agree (hd : d ∈ calls) {l : Location} {e f : Entry}
    (he : view.Adds fs rank c.1 c.2 l e) (hf : view.Adds fs rank d.1 d.2 l f) : e = f := by
  obtain ⟨parts, b, hparts, hb, -, -, v, hv, rfl, rfl⟩ := he
  obtain ⟨other, b', hparts', hb', -, -, w, hw, hplace, rfl⟩ := hf
  cases hb.symm.trans hb'
  exact (hcalls.plans_agree hc hd hparts hparts' (List.takeWhile_subset _ hv)
    (List.takeWhile_subset _ hw) hplace).2

omit hc in
/-- A run of some of the hides, after others of them, goes as each of them would at the start, and
gives away the markers that they would. -/
theorem run_later (hv : view.Accepted) (hfree : s.fs.tree.LinkFree) {some : List (Bytes × Kind)}
    (hsome : some ⊆ calls) (hfree' : t.fs.tree.LinkFree) (hid : t.identity = s.identity)
    (h : AddsOnly (view.AddsAny s.fs rank calls) s.fs t.fs) {final : Session}
    (hfinal : (view.run t (some.map fun c => .hide c.1 rank c.2)).2 = final) :
    (view.run t (some.map fun c => .hide c.1 rank c.2)).1 =
        some.map (fun c => .done (view.hide s c.1 rank c.2).1) ∧
      AddsAll (view.AddsAny s.fs rank some) t.fs final.fs ∧
      PassesOn (view.GivesAny s rank some final.fs) t.fs final.fs := by
  -- whatever was added so far is among `AddsAny`, so the next hide goes as it would at the start
  induction some generalizing t with
  | nil =>
    cases hfinal
    exact ⟨rfl, .refl_of_present fun l e hadds => (not_addsAny_nil hadds).elim,
      (PassesOn.refl _).congr fun l => iff_of_false not_givesAny_nil not_false⟩
  | cons c later ih =>
    have hc : c ∈ calls := hsome List.mem_cons_self
    have hlater : later ⊆ calls := fun d hd => hsome (List.mem_cons_of_mem _ hd)
    obtain ⟨hanswer, hadds⟩ := hcalls.hide_later hc hv hfree hfree' h
    have hnext : AddsOnly (view.AddsAny s.fs rank calls) s.fs (view.hide t c.1 rank c.2).2.fs :=
      h.trans (hadds.weaken fun l e he => ⟨c, hc, he⟩)
    have hfree'' : (view.hide t c.1 rank c.2).2.fs.tree.LinkFree :=
      hnext.linkFree hfree fun l e he => he.not_isLink
    rw [List.map_cons, run_cons] at hfinal
    obtain ⟨hanswers, hrest, hbits⟩ :=
      ih hlater hfree'' ((view.hide_identity t c.1 rank c.2).trans hid) hnext hfinal
    rw [List.map_cons, run_cons]
    refine ⟨?_, ?_, ?_⟩
    · rw [List.map_cons, ← hanswers, ← hanswer]
      rfl
    · rw [addsAny_cons]
      refine hadds.trans hrest fun l e f he hf => ?_
      obtain ⟨d, hd, hf⟩ := hf
      exact hcalls.adds_agree hc (hlater hd) he hf
    · refine ((view.hide_passesOn t c.1 rank c.2).trans hbits hadds.grows hrest.grows).congr
        fun l => ?_
      have hown : (view.hide t c.1 rank c.2).1 = .ok () →
          (view.GivesMarker t (view.hide t c.1 rank c.2).2.fs c.1 rank l ↔
            view.GivesMarker s final.fs c.1 rank l) := fun hok =>
        (givesMarker_later hv hok hrest.grows l).trans (givesMarker_congr hid)
      rw [hanswer] at hown ⊢
      rw [givesAny_cons]
      exact or_congr (and_congr_right fun hok => (hown hok).symm) Iff.rfl

end Unordered

theorem hides_reordered {home : Option String} {config : Config}
    (haccepted : ofConfig home config = .ok view) (hfree : s.fs.tree.LinkFree)
    {calls other : List (Bytes × Kind)}
    (htag : ∀ c ∈ calls, ∀ name ∈ components c.1, ¬view.hideTag <:+ name)
    (hkind : ∀ c ∈ calls, ∀ d ∈ calls, components c.1 = components d.1 → c.2 = d.2)
    (hperm : calls.Perm other) (rank : Nat) :
    ∃ answer : Bytes × Kind → Response,
      (view.run s (calls.map fun c => .hide c.1 rank c.2)).1 = calls.map answer ∧
      (view.run s (other.map fun c => .hide c.1 rank c.2)).1 = other.map answer ∧
      (view.run s (calls.map fun c => .hide c.1 rank c.2)).2.fs =
        (view.run s (other.map fun c => .hide c.1 rank c.2)).2.fs := by
  have hcalls : view.Unordered calls := ⟨htag, hkind⟩
  have hv := accepted_of_ofConfig haccepted
  have hstart : AddsOnly (view.AddsAny s.fs rank calls) s.fs s.fs := .refl _
  obtain ⟨hanswers, hadds, hbits⟩ :=
    hcalls.run_later hv hfree (List.Subset.refl _) hfree rfl hstart rfl
  obtain ⟨hanswers', hadds', hbits'⟩ :=
    hcalls.run_later hv hfree hperm.symm.subset hfree rfl hstart rfl
  have hsame : view.AddsAny s.fs rank other = view.AddsAny s.fs rank calls := by
    funext l e
    simp only [AddsAny, hperm.mem_iff]
  rw [hsame] at hadds'
  have htree := hadds'.unique hadds
  refine ⟨_, hanswers, hanswers', (hbits'.unique (hbits.congr fun l => ?_) htree.symm)⟩
  simp only [GivesAny, hperm.mem_iff, givesMarker_sameTree htree]

end UnionView

end

namespace UnionView

attribute [local instance] Sample.host in
theorem hides_reordered_sample :
    let calls := [(utf8 "low/d", Kind.file), (utf8 "a_HIDDEN~b", .dir), (utf8 "../a", .file),
      (utf8 "low/a", .file), (utf8 "low", .dir), (utf8 "//low/./a", .dir), (utf8 "/low/a/", .file)]
    Sample.session.fs.tree.LinkFree ∧
    (Sample.view.run Sample.session (calls.map fun c => .hide c.1 1 c.2)).2.fs =
      (Sample.view.run Sample.session (calls.reverse.map fun c => .hide c.1 1 c.2)).2.fs := by
  intro calls
  have hfree : Sample.session.fs.tree.LinkFree := by decide +kernel
  obtain ⟨-, -, -, hfs⟩ := hides_reordered Sample.ofConfig_config hfree
    (by decide +kernel) (by decide +kernel) calls.reverse_perm.symm 1
  exact ⟨hfree, hfs⟩

end UnionView

end Whiteout
