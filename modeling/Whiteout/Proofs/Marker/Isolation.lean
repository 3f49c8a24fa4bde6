import Whiteout.Proofs.Marker.Standing
import Whiteout.Proofs.Mirror.Layout

/-!
# What else a hide hides

In a tree without links, with metadata trees that lie apart, a hide changes what is hidden in its
own branch only, and there it hides what is at or below the path. But the directories on the way to
the marker stand among the markers, and one whose name ends with the tag is a marker itself: a hide
also hides the paths that such a directory shadows, and no others.
-/

namespace Whiteout

open Text (utf8)
open Whiteout.FileSystem (AddsOnly startOf)
open Whiteout.Path (dot dotDot components IsStep IsProper)

namespace UnionView

/-- The metadata trees lie apart from each other, and every directory of one that the root of
another branch leads through is there. -/
structure Apart (view : UnionView) (fs : FileSystem) : Prop where
  separate : ∀ b ∈ view.branches, ∀ c ∈ view.branches, b ≠ c →
    ¬view.metaPlace fs b <+: view.metaPlace fs c
  settled : ∀ b ∈ view.branches, ∀ c ∈ view.branches, b ≠ c →
    ∀ front, front <+: components c.root →
      view.metaPlace fs b <+: (startOf fs.cwd c.root).along front →
        (fs.tree.get? ((startOf fs.cwd c.root).along front)).isSome = true

/-- A directory on the way to the marker of `path` has the name of a marker that hides `q`. -/
def Shadows (view : UnionView) (path q : Bytes) : Prop :=
  ∃ front, front ≠ [] ∧ front <+: components q ∧
    view.markerNames front <+: (components path).dropLast

/-- Whether a marker for `path`, and the directories on the way to it, hide `q`. -/
def Affects (view : UnionView) (path q : Bytes) : Prop :=
  (∀ c ∈ components q, c ≠ dot ∧ c ≠ dotDot) ∧
    (components path <+: components q ∨ view.Shadows path q)

instance (view : UnionView) (path q : Bytes) : Decidable (view.Shadows path q) := by
  refine decidable_of_iff (∃ n, n < (components q).length ∧
    view.markerNames ((components q).take (n + 1)) <+: (components path).dropLast)
    ⟨fun h => ?_, fun h => ?_⟩
  · obtain ⟨n, hn, habove⟩ := h
    have hlen : ((components q).take (n + 1)).length = n + 1 := List.length_take_of_le hn
    exact ⟨_, List.ne_nil_of_length_pos (by omega), List.take_prefix _ _, habove⟩
  · obtain ⟨front, hne, hfront, habove⟩ := h
    have hpos : 0 < front.length := List.length_pos_iff.2 hne
    have hle := hfront.length_le
    refine ⟨front.length - 1, by omega, ?_⟩
    rwa [Nat.sub_add_cancel hpos, ← List.prefix_iff_eq_take.1 hfront]

instance (view : UnionView) (path q : Bytes) : Decidable (view.Affects path q) :=
  inferInstanceAs (Decidable (_ ∧ _))

variable {view : UnionView} {fs : FileSystem} {b c : Branch} {rank j : Nat}
  {parts front : List Name}

theorem Apart.eq_of_prefix (h : view.Apart fs) (hb : b ∈ view.branches) (hc : c ∈ view.branches)
    {l : Location} (hpre : view.metaPlace fs b <+: l) (hpre' : view.metaPlace fs c <+: l) :
    b = c :=
  eq_of_metaPlace_prefix
    (fun hne => ⟨h.separate b hb c hc hne, h.separate c hc b hb (Ne.symm hne)⟩) hpre hpre'

theorem Ready.apart {places : Nat → Location} (hready : view.Ready fs places) (hv : view.Accepted) :
    view.Apart fs := by
  have hplace {b : Branch} (hb : b ∈ view.branches) :
      view.metaPlace fs b = places b.rank ++ [view.metaDir] := by
    have hb' := hv.rank_of_mem hb
    have hnames : ∀ n ∈ [view.metaDir], IsProper n := by simpa using hready.isProper_metaDir hv
    rw [metaPlace_eq hv hb', FileSystem.placeOf, ← (hready.descends hb').eq_along,
      Location.along_of_proper hnames]
  have hrank {b : Branch} (hb : b ∈ view.branches) : b.rank < view.branches.length :=
    (List.getElem?_eq_some_iff.1 (hv.rank_of_mem hb)).1
  constructor
  · intro b hb c hc hne hpre
    rw [hplace hb, hplace hc] at hpre
    have hsame := hready.rank_unique (hrank hb) (hrank hc) hpre (List.prefix_refl _)
    have hc' := hv.rank_of_mem hc
    rw [← hsame, hv.rank_of_mem hb] at hc'
    exact hne (Option.some.inj hc')
  · intro b hb c hc _ front hfront _
    have hdir := (hready.descends (hv.rank_of_mem hc)).isDirAt_front hfront
    obtain ⟨mode, hget⟩ := Tree.isDirAt_iff.1 hdir
    rw [hget]
    rfl

theorem HasMarker.entry (h : view.HasMarker fs parts rank) (hv : view.Accepted)
    (hfree : fs.tree.LinkFree) (hne : parts ≠ []) (hsteps : ∀ c ∈ parts, IsStep c) :
    ∃ b e, view.branches[rank]? = some b ∧ (view.markerText b parts).length + 1 ≤ view.maxPathLen ∧
      Path.isAdmissible (view.markerText b parts) = true ∧ fs.LeadsDown b.root ∧
      fs.tree.get? (view.metaPlace fs b ++ view.markerNames parts) = some e := by
  obtain ⟨b, hb, hfit, hprobe⟩ := h
  obtain ⟨⟨place, e⟩, he⟩ := FileSystem.probe_isSome_iff.1 hprobe
  obtain ⟨hadm, hroot, rfl, hget⟩ := (entryAt_markerText_iff hv hfree hb hne hsteps).1 he
  exact ⟨b, e, hb, hfit, hadm, hroot, hget⟩

theorem HasMarker.of_above (h : view.HasMarker fs parts rank) (hv : view.Accepted)
    (hne : parts ≠ []) (hfront : front ≠ []) (habove : view.markerNames front <+: parts.dropLast) :
    view.HasMarker fs front rank := by
  obtain ⟨b, hb, hfit, hprobe⟩ := h
  obtain ⟨more, hmore⟩ := habove
  obtain ⟨rest, htext⟩ : ∃ rest,
      view.markerText b parts = view.markerText b front ++ Path.separator :: rest := by
    rw [markerText_eq view b hne, markerText_eq view b hfront, markerNames, ← hmore,
      List.append_assoc, Path.slashed_append, ← List.append_assoc]
    cases more with
    | nil => exact ⟨_, by rw [List.nil_append, Path.slashed_cons]⟩
    | cons name more => exact ⟨_, by rw [List.cons_append, Path.slashed_cons]⟩
  have hnil : view.markerText b front ≠ [] := by simp [markerText, metaText_ne_nil hv hb]
  rw [htext] at hfit hprobe
  rw [List.length_append] at hfit
  exact ⟨b, hb, by omega, FileSystem.probe_of_below hnil hprobe⟩

section

variable {s : Session} {path : Bytes} {kind : Kind} (hv : view.Accepted)
  (hfree : s.fs.tree.LinkFree) (hapart : view.Apart s.fs)
include hv hfree hapart

variable [Host]

theorem Apart.leadsDown_before (hb : view.branches[rank]? = some b)
    (hparts : unionComponents path = .ok parts) (hc : c ∈ view.branches)
    (h : (view.hide s path rank kind).2.fs.LeadsDown c.root) : s.fs.LeadsDown c.root := by
  have hadds : AddsOnly (view.Footprint (view.metaPlace s.fs b) parts kind) s.fs
    (view.hide s path rank kind).2.fs := hide_adds hv hfree hparts hb
  by_cases hbc : b = c
  · subst hbc
    rcases root_descends_of_hide hv hfree hb with hsame | hdown
    · rwa [hsame] at h
    · exact hdown
  · -- the directories on the way are old ones, or settled in the other metadata tree
    refine h.of_grown hadds.grows fun front hfront hsome => ?_
    obtain ⟨e, he⟩ := Option.isSome_iff_exists.1 hsome
    rcases hadds.fresh _ e he with hold | hnew
    · rw [hold]
      rfl
    · exact hapart.settled b (List.mem_of_getElem? hb) c hc hbc front hfront hnew.base_prefix

theorem hasMarker_before (hb : view.branches[rank]? = some b)
    (hparts : unionComponents path = .ok parts) (hne : front ≠ [])
    (hsteps : ∀ c ∈ front, IsStep c)
    (h : view.HasMarker (view.hide s path rank kind).2.fs front j) :
    view.HasMarker s.fs front j ∨
      j = rank ∧ (front = parts ∨ view.markerNames front <+: parts.dropLast) := by
  have hadds : AddsOnly (view.Footprint (view.metaPlace s.fs b) parts kind) s.fs
    (view.hide s path rank kind).2.fs := hide_adds hv hfree hparts hb
  have hfree' := hadds.linkFree hfree fun l e hadded => hadded.not_isLink
  obtain ⟨c, e, hc, hfit, hadm, hroot, hget⟩ := h.entry hv hfree' hne hsteps
  have hbmem := List.mem_of_getElem? hb
  have hcmem := List.mem_of_getElem? hc
  rw [metaPlace_of_grows hadds.grows] at hget
  rcases hadds.fresh _ e hget with hold | hnew
  · left
    have hbefore := hapart.leadsDown_before hv hfree hb hparts hcmem hroot
    have hprobe := probe_markerText hv hfree hc hne hsteps hbefore hadm hold
    exact ⟨c, hc, hfit, by rw [hprobe]; rfl⟩
  · right
    have hbc : b = c :=
      hapart.eq_of_prefix hbmem hcmem hnew.base_prefix (List.prefix_append _ _)
    subst hbc
    have hsame : j = rank := (hv.ranked j b hc).symm.trans (hv.ranked rank b hb)
    refine ⟨hsame, ?_⟩
    rcases hnew with ⟨names, hnames, hplace, -⟩ | ⟨hplace, -⟩
    · exact .inr (List.append_cancel_left hplace ▸ hnames)
    · exact .inl (markerNames_injective hne (unionComponents_eq_ok_iff.1 hparts).2.1
        (List.append_cancel_left hplace))

/-- Whatever a hide answers, it changes what is hidden in its own branch and for the paths that it
affects alone. -/
theorem isHidden_of_not_affects (q : Bytes) (hq : j = rank → ¬view.Affects path q) :
    view.isHidden (view.hide s path rank kind).2.fs q j = view.isHidden s.fs q j := by
  rcases hide_cases hv hfree path rank kind with ⟨e, herror⟩ |
    ⟨parts, b, response, made, hparts, hb, -⟩
  · rw [herror]
  · obtain ⟨hcomps, -⟩ := unionComponents_eq_ok_iff.1 hparts
    rw [Bool.eq_iff_iff, isHidden_iff hv, isHidden_iff hv]
    constructor
    · intro hhidden
      rcases hhidden with ⟨hcow, others, hothers, front, hne, hfront, hmarker⟩
      obtain ⟨hqcomps, -, hsteps⟩ := unionComponents_eq_ok_iff.1 hothers
      have hfsteps := isStep_of_mem_front hothers hfront
      rcases hasMarker_before hv hfree hapart hb hparts hne hfsteps hmarker with
        hbefore | ⟨hsame, hnew⟩
      · exact ⟨hcow, others, hothers, front, hne, hfront, hbefore⟩
      · -- a marker that is new hides a path that is affected
        refine absurd ⟨fun c hc => (hsteps c (hqcomps ▸ hc)).1.2, ?_⟩ (hq hsame)
        rw [hqcomps] at hfront
        rcases hnew with rfl | hshadow
        · exact .inl (hcomps ▸ hfront)
        · exact .inr ⟨front, hne, hfront, hcomps ▸ hshadow⟩
    · intro hhidden
      rcases hhidden with ⟨hcow, others, hothers, front, hne, hfront, hmarker⟩
      exact ⟨hcow, others, hothers, front, hne, hfront,
        hmarker.grows (view.hide_grows s path rank kind)⟩

omit hfree hapart in
theorem isHidden_of_affects (hcow : view.cowEnabled = true)
    (h : (view.hide s path rank kind).1 = .ok ()) {q : Bytes} (hq : view.Affects path q) :
    view.isHidden (view.hide s path rank kind).2.fs q rank = true := by
  obtain ⟨parts, hparts, hmarker⟩ := hasMarker_of_hide hv h
  obtain ⟨hcomps, hne, -⟩ := unionComponents_eq_ok_iff.1 hparts
  obtain ⟨hdots, hbelow | ⟨front, hfne, hfront, hshadow⟩⟩ := hq
  · obtain ⟨hothers, hpre⟩ := unionComponents_of_below hparts hbelow hdots
    exact isHidden_of_hasMarker hv hcow hothers hne hpre hmarker
  · have hqne : components q ≠ [] := fun hnil => hfne (List.prefix_nil.1 (hnil ▸ hfront))
    exact isHidden_of_hasMarker hv hcow (unionComponents_of_dotFree hqne hdots) hfne hfront
      (hmarker.of_above hv hne hfne (hcomps ▸ hshadow))

end

theorem isHidden_after_hide [Host] {home : Option String} {config : Config}
    (haccepted : ofConfig home config = .ok view) (hcow : view.cowEnabled = true) {s : Session}
    (hfree : s.fs.tree.LinkFree) (hapart : view.Apart s.fs) (path : Bytes) (rank : Nat)
    (kind : Kind) (q : Bytes) (j : Nat) :
    ((j = rank → ¬view.Affects path q) →
      view.isHidden (view.hide s path rank kind).2.fs q j = view.isHidden s.fs q j) ∧
    ((view.hide s path rank kind).1 = .ok () → view.Affects path q →
      view.isHidden (view.hide s path rank kind).2.fs q rank = true) := by
  have hv := accepted_of_ofConfig haccepted
  exact ⟨isHidden_of_not_affects hv hfree hapart q, fun h hq => isHidden_of_affects hv hcow h hq⟩

attribute [local instance] Host.plain

theorem isHidden_after_hide_sample :
    Sample.view.isHidden
      (Sample.view.hide Sample.session (utf8 "a_HIDDEN~/b") 0 .file).2.fs (utf8 "b") 0 =
        Sample.view.isHidden Sample.session.fs (utf8 "b") 0 ∧
    Sample.view.isHidden
      (Sample.view.hide Sample.session (utf8 "a_HIDDEN~/b") 0 .file).2.fs (utf8 "a/c") 0 =
        true := by
  have hapart := Sample.ready.apart (accepted_of_ofConfig Sample.ofConfig_config)
  have hafter := isHidden_after_hide Sample.ofConfig_config rfl Sample.ready.linkFree hapart
    (utf8 "a_HIDDEN~/b") 0 .file
  exact ⟨(hafter (utf8 "b") 0).1 (by decide +kernel),
    (hafter (utf8 "a/c") 0).2 (by decide +kernel) (by decide +kernel)⟩

/-- The directory `a_HIDDEN~` on the way to a marker is itself the marker of `a`. -/
theorem hidden_by_mirrored_directory :
    Sample.view.Apart Sample.session.fs ∧ Sample.session.fs.tree.LinkFree ∧
    ¬components (utf8 "a_HIDDEN~/b") <+: components (utf8 "a") ∧
    Sample.view.isHidden Sample.session.fs (utf8 "a") 0 = false ∧
    Sample.view.isHidden
      (Sample.view.hide Sample.session (utf8 "a_HIDDEN~/b") 0 .file).2.fs (utf8 "a") 0 = true :=
  ⟨Sample.ready.apart (accepted_of_ofConfig Sample.ofConfig_config), Sample.ready.linkFree,
    by decide +kernel, by decide +kernel, by decide +kernel⟩

-- a root that leads through a directory still to be made is only found after it is made
example :
    let view := { Sample.view with branches :=
      [⟨0, utf8 "up", .readWrite⟩, ⟨1, utf8 "up/.unionfs/d/../../../low", .readOnly⟩] }
    let tree := (Sample.tree.put [utf8 "low", utf8 ".unionfs"] (.dir 0o755)).put
      [utf8 "low", utf8 ".unionfs", utf8 "a_HIDDEN~"] (.file 0o600 [])
    let s := Session.start { tree, cwd := [] } ⟨0, 0⟩
    view.isHidden s.fs (utf8 "a") 1 = false ∧
      view.isHidden (view.hide s (utf8 "d/x") 0 .file).2.fs (utf8 "a") 1 = true := by
  decide +kernel

end UnionView

end Whiteout
