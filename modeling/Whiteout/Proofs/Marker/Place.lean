import Whiteout.Proofs.Path.Build
import Whiteout.Proofs.Union.Accepted

/-!
# Where markers stand and which paths they hide

A marker path is the metadata directory, the components and the tag, and it depends on the path
through its components alone. A path is hidden in a branch exactly when some front of its components
has a marker there: a prefix that is too long ends the search but has no marker, nor has a longer
one.
-/

namespace Whiteout

open Whiteout.Path (dot dotDot components separator isAbsolute endsWithSeparator IsStep IsComponent)
open Whiteout.Marker (slashed)
open BoundedPath (joined)

theorem unionComponents_eq_ok_iff {path : Bytes} {parts : List Bytes} :
    unionComponents path = .ok parts ↔
      parts = components path ∧ parts ≠ [] ∧ ∀ c ∈ parts, IsStep c := by
  constructor
  · intro h
    obtain ⟨hparts, hne, hdots⟩ := unionComponents_ok h
    refine ⟨hparts, hne, fun c hc => ?_⟩
    have hcomp : IsComponent c := Path.isComponent_of_mem (hparts ▸ hc)
    exact ⟨⟨hcomp.1, hdots c hc⟩, hcomp.2⟩
  · intro h
    rcases h with ⟨rfl, hne, hsteps⟩
    have hfind : (components path).find? (fun c => c == dot || c == dotDot) = none := by
      rw [List.find?_eq_none]
      intro c hc
      simp [(hsteps c hc).1.2.1, (hsteps c hc).1.2.2]
    rw [unionComponents]
    split
    · next hnil => exact absurd hnil hne
    · rw [hfind]

theorem isStep_of_mem_front {path : Bytes} {parts front : List Bytes}
    (hparts : unionComponents path = .ok parts) (hfront : front <+: parts) :
    ∀ c ∈ front, IsStep c :=
  fun c hc => (unionComponents_eq_ok_iff.1 hparts).2.2 c (hfront.subset hc)

theorem unionComponents_slashed {names : List Bytes} (hne : names ≠ [])
    (h : ∀ n ∈ names, IsStep n) : unionComponents (slashed names) = .ok names := by
  rw [unionComponents_eq_ok_iff, Path.components_slashed fun n hn => (h n hn).isComponent]
  exact ⟨rfl, hne, h⟩

theorem unionComponents_of_dotFree {path : Bytes} (hne : components path ≠ [])
    (hdots : ∀ c ∈ components path, c ≠ dot ∧ c ≠ dotDot) :
    unionComponents path = .ok (components path) := by
  refine unionComponents_eq_ok_iff.2 ⟨rfl, hne, fun c hc => ?_⟩
  have hcomp : IsComponent c := Path.isComponent_of_mem hc
  exact ⟨⟨hcomp.1, hdots c hc⟩, hcomp.2⟩

theorem unionComponents_of_below {path q : Bytes} {parts : List Bytes}
    (hparts : unionComponents path = .ok parts) (hbelow : components path <+: components q)
    (hdots : ∀ c ∈ components q, c ≠ dot ∧ c ≠ dotDot) :
    unionComponents q = .ok (components q) ∧ parts <+: components q := by
  obtain ⟨rfl, hne, -⟩ := unionComponents_eq_ok_iff.1 hparts
  refine ⟨unionComponents_of_dotFree ?_ hdots, hbelow⟩
  intro hnil
  rw [hnil, List.prefix_nil] at hbelow
  exact hne hbelow

namespace UnionView

variable {view : UnionView} {fs : FileSystem} {rank : Nat} {path : Bytes} {parts : List Bytes}
  {root m : BoundedPath}

theorem tagged_eq_ok_iff {base : BoundedPath} :
    view.tagged base = .ok m ↔ (base.text ++ view.hideTag).length + 1 ≤ base.limit ∧
      m = { base with text := base.text ++ view.hideTag } :=
  BoundedPath.extendTo_eq_ok_iff

def metaText (view : UnionView) (b : Branch) : Bytes := joined b.root view.metaDir

theorem metaRoot_eq_ok_iff (hv : view.Accepted) :
    view.metaRoot rank = .ok root ↔ ∃ b, view.branches[rank]? = some b ∧
      (view.metaText b).length + 1 ≤ view.maxPathLen ∧
        root = ⟨view.metaText b, view.maxPathLen⟩ := by
  rw [metaRoot, branch]
  cases hb : view.branches[rank]? with
  | none => simp
  | some b =>
    have hroot : b.root ≠ [] := hv.rooted b (List.mem_of_getElem? hb)
    simp [BoundedPath.build_pair_eq_ok_iff, hroot, hv.metaDir.1, metaText]

theorem metaText_ne_nil (hv : view.Accepted) {b : Branch} (hb : view.branches[rank]? = some b) :
    view.metaText b ≠ [] :=
  BoundedPath.joined_ne_nil (hv.rooted b (List.mem_of_getElem? hb))

theorem components_metaText (hv : view.Accepted) (b : Branch) :
    components (view.metaText b) = components b.root ++ [view.metaDir] := by
  rw [metaText, BoundedPath.components_joined, Path.components_of_isComponent hv.metaDir]

theorem endsWithSeparator_metaText (hv : view.Accepted) (b : Branch) :
    endsWithSeparator (view.metaText b) = false := by
  rw [metaText, BoundedPath.joined_of_isComponent _ hv.metaDir]
  split
  · rw [Path.endsWithSeparator_append _ hv.metaDir.1]
    exact Path.endsWithSeparator_of_not_mem hv.metaDir.2
  · exact Path.endsWithSeparator_slashed _ (by simp) (by simpa using hv.metaDir)

def markerText (view : UnionView) (b : Branch) (parts : List Bytes) : Bytes :=
  view.metaText b ++ slashed parts ++ view.hideTag

theorem markerText_concat (view : UnionView) (b : Branch) (front : List Bytes) (last : Bytes) :
    view.markerText b (front ++ [last]) =
      view.metaText b ++ slashed (front ++ [last ++ view.hideTag]) := by
  simp [markerText, slashed]

theorem components_markerText (hv : view.Accepted) (b : Branch) {front : List Bytes} {last : Bytes}
    (hsteps : ∀ c ∈ front ++ [last], IsStep c) :
    components (view.markerText b (front ++ [last])) =
      components b.root ++ [view.metaDir] ++ front ++ [last ++ view.hideTag] := by
  have hcomps : ∀ c ∈ front ++ [last ++ view.hideTag], IsComponent c := by
    intro c hc
    rcases List.mem_append.1 hc with hc | hc
    · exact (hsteps c (List.mem_append_left _ hc)).isComponent
    · rw [List.mem_singleton.1 hc]
      exact ((hsteps last (by simp)).append hv.hideTag).isComponent
  rw [markerText_concat, Path.components_append_slashed hcomps, components_metaText hv]
  simp

theorem endsWithSeparator_markerText (hv : view.Accepted) (b : Branch) (parts : List Bytes) :
    endsWithSeparator (view.markerText b parts) = false := by
  rw [markerText, Path.endsWithSeparator_append _ hv.hideTag.1]
  exact Path.endsWithSeparator_of_not_mem hv.hideTag.2

theorem markerPath_eq_ok_iff_parts : view.markerPath path rank = .ok m ↔
    ∃ parts root mirrored, unionComponents path = .ok parts ∧ view.metaRoot rank = .ok root ∧
      root.pushSegments parts = .ok mirrored ∧ view.tagged mirrored = .ok m := by
  constructor
  · intro h
    rw [markerPath] at h
    split at h
    · cases h
    · next parts hparts =>
      split at h
      · cases h
      · next root hroot =>
        split at h
        · cases h
        · next mirrored hpush => exact ⟨parts, root, mirrored, hparts, hroot, hpush, h⟩
  · rintro ⟨parts, root, mirrored, hparts, hroot, hpush, hmarker⟩
    simp only [markerPath, hparts, hroot, hpush, hmarker]

theorem markerPath_eq_ok_iff (hv : view.Accepted) :
    view.markerPath path rank = .ok m ↔ ∃ parts b, unionComponents path = .ok parts ∧
      view.branches[rank]? = some b ∧ (view.markerText b parts).length + 1 ≤ view.maxPathLen ∧
        m = ⟨view.markerText b parts, view.maxPathLen⟩ := by
  have hpushed {parts : List Bytes} {b : Branch} (hparts : unionComponents path = .ok parts)
      (hb : view.branches[rank]? = some b) (hfit : (view.metaText b).length + 1 ≤ view.maxPathLen)
      (mirrored : BoundedPath) :=
    BoundedPath.pushSegments_eq_ok_iff
      (fun c hc => ((unionComponents_eq_ok_iff.1 hparts).2.2 c hc).isComponent)
      ⟨view.metaText b, view.maxPathLen⟩ mirrored (metaText_ne_nil hv hb)
      (endsWithSeparator_metaText hv b) hfit
  rw [markerPath_eq_ok_iff_parts]
  constructor
  · rintro ⟨parts, root, mirrored, hparts, hroot, hpush, hmarker⟩
    obtain ⟨b, hb, hmeta, rfl⟩ := (metaRoot_eq_ok_iff hv).1 hroot
    obtain ⟨-, rfl⟩ := (hpushed hparts hb hmeta mirrored).1 hpush
    obtain ⟨hfit, rfl⟩ := tagged_eq_ok_iff.1 hmarker
    exact ⟨parts, b, hparts, hb, hfit, rfl⟩
  · rintro ⟨parts, b, hparts, hb, hfit, rfl⟩
    have hmirror : (view.metaText b ++ slashed parts).length + 1 ≤ view.maxPathLen := by
      rw [markerText, List.length_append] at hfit
      omega
    have hmeta : (view.metaText b).length + 1 ≤ view.maxPathLen := by
      rw [List.length_append] at hmirror
      omega
    exact ⟨parts, _, _, hparts, (metaRoot_eq_ok_iff hv).2 ⟨b, hb, hmeta, rfl⟩,
      (hpushed hparts hb hmeta _).2 ⟨hmirror, rfl⟩, tagged_eq_ok_iff.2 ⟨hfit, rfl⟩⟩

theorem exists_tagged {base mirrored : BoundedPath} {names : List Bytes}
    (hpush : base.pushSegments names = .ok mirrored) (h : view.tagged mirrored = .ok m) :
    ∃ marker, view.tagged base = .ok marker := by
  obtain ⟨hlimit, hlonger⟩ := BoundedPath.pushSegments_ok hpush
  obtain ⟨hfit, -⟩ := tagged_eq_ok_iff.1 h
  refine ⟨_, tagged_eq_ok_iff.2 ⟨?_, rfl⟩⟩
  rw [List.length_append, hlimit] at hfit
  rw [List.length_append]
  omega

/-- The search along the components finds what each front of them, spelled by itself, would find:
where it stops for want of room there is none for a longer front either. -/
theorem hiddenAlong_eq_true_iff {base : BoundedPath} {names : List Bytes} :
    view.hiddenAlong fs base names = true ↔ ∃ front mirrored marker, front ≠ [] ∧
      front <+: names ∧ base.pushSegments front = .ok mirrored ∧
      view.tagged mirrored = .ok marker ∧ (fs.probe marker.text).isSome = true := by
  induction names generalizing base with
  | nil =>
    simp only [hiddenAlong, Bool.false_eq_true, List.prefix_nil, false_iff]
    rintro ⟨front, -, -, hne, hnil, -⟩
    exact hne hnil
  | cons name rest ih =>
    -- every front starts with `name`
    have hfirst {front : List Bytes} (hne : front ≠ []) (hpre : front <+: name :: rest) :
        ∃ more, more <+: rest ∧ front = name :: more := by
      obtain ⟨first, more, rfl⟩ := List.exists_cons_of_ne_nil hne
      obtain ⟨rfl, hmore⟩ := List.cons_prefix_cons.1 hpre
      exact ⟨more, hmore, rfl⟩
    rw [hiddenAlong]
    cases hpush : base.pushSegment name with
    | error e =>
      simp only [Bool.false_eq_true, false_iff]
      rintro ⟨front, mirrored, marker, hne, hpre, hfront, -⟩
      obtain ⟨more, -, rfl⟩ := hfirst hne hpre
      rw [BoundedPath.pushSegments, hpush] at hfront
      cases hfront
    | ok next =>
      have hrest (more : List Bytes) :
          base.pushSegments (name :: more) = next.pushSegments more := by
        rw [BoundedPath.pushSegments, hpush]
      cases htagged : view.tagged next with
      | error e =>
        simp only [htagged, Bool.false_eq_true, false_iff]
        rintro ⟨front, mirrored, marker, hne, hpre, hfront, hmarker, -⟩
        obtain ⟨more, -, rfl⟩ := hfirst hne hpre
        obtain ⟨shorter, hshorter⟩ := exists_tagged (hrest more ▸ hfront) hmarker
        cases htagged.symm.trans hshorter
      | ok marker =>
        simp only [htagged, Bool.or_eq_true, ih]
        constructor
        · rintro (hprobe | ⟨front, mirrored, other, -, hpre, hfront, hmarker, hprobe⟩)
          · exact ⟨[name], next, marker, by simp, by simp, hrest [], htagged, hprobe⟩
          · exact ⟨name :: front, mirrored, other, by simp, List.cons_prefix_cons.2 ⟨rfl, hpre⟩,
              (hrest front).trans hfront, hmarker, hprobe⟩
        · rintro ⟨front, mirrored, other, hne, hpre, hfront, hmarker, hprobe⟩
          obtain ⟨more, hmore, rfl⟩ := hfirst hne hpre
          rw [hrest] at hfront
          cases more with
          | nil =>
            cases hfront
            cases htagged.symm.trans hmarker
            exact .inl hprobe
          | cons second more =>
            exact .inr ⟨second :: more, mirrored, other, by simp, hmore, hfront, hmarker, hprobe⟩

theorem hiddenAlong_iff {base : BoundedPath} (hbase : base.text ≠ [])
    (hend : endsWithSeparator base.text = false) (hfit : base.text.length + 1 ≤ base.limit)
    {names : List Bytes} (hnames : ∀ n ∈ names, IsComponent n) :
    view.hiddenAlong fs base names = true ↔ ∃ front, front ≠ [] ∧ front <+: names ∧
      (base.text ++ slashed front ++ view.hideTag).length + 1 ≤ base.limit ∧
      (fs.probe (base.text ++ slashed front ++ view.hideTag)).isSome = true := by
  have hpush {front : List Bytes} (hpre : front <+: names) (next : BoundedPath) :=
    BoundedPath.pushSegments_eq_ok_iff (fun n hn => hnames n (hpre.subset hn)) base next hbase hend
      hfit
  rw [hiddenAlong_eq_true_iff]
  constructor
  · rintro ⟨front, mirrored, marker, hne, hpre, hfront, hmarker, hprobe⟩
    obtain ⟨-, rfl⟩ := (hpush hpre mirrored).1 hfront
    obtain ⟨hlen, rfl⟩ := tagged_eq_ok_iff.1 hmarker
    exact ⟨front, hne, hpre, hlen, hprobe⟩
  · rintro ⟨front, hne, hpre, hlen, hprobe⟩
    have hshort : (base.text ++ slashed front).length + 1 ≤ base.limit := by
      rw [List.length_append] at hlen
      omega
    exact ⟨front, _, _, hne, hpre, (hpush hpre _).2 ⟨hshort, rfl⟩,
      tagged_eq_ok_iff.2 ⟨hlen, rfl⟩, hprobe⟩

/-- Whether the marker for some components exists in a branch, under a path that fits. -/
def HasMarker (view : UnionView) (fs : FileSystem) (parts : List Name) (rank : Nat) : Prop :=
  ∃ b, view.branches[rank]? = some b ∧ (view.markerText b parts).length + 1 ≤ view.maxPathLen ∧
    (fs.probe (view.markerText b parts)).isSome = true

theorem isHidden_iff (hv : view.Accepted) :
    view.isHidden fs path rank = true ↔
      view.cowEnabled = true ∧ ∃ parts, unionComponents path = .ok parts ∧
        ∃ front, front ≠ [] ∧ front <+: parts ∧ view.HasMarker fs front rank := by
  rw [isHidden, Bool.and_eq_true, and_congr_right_iff]
  intro _
  cases hparts : unionComponents path with
  | error e => simp
  | ok parts =>
    have hcomps : ∀ n ∈ parts, IsComponent n := fun n hn =>
      ((unionComponents_eq_ok_iff.1 hparts).2.2 n hn).isComponent
    simp only [Except.ok.injEq, exists_eq_left']
    cases hroot : view.metaRoot rank with
    | error e =>
      simp only [Bool.false_eq_true, false_iff, not_exists, not_and]
      intro front hne hpre hmarker
      rcases hmarker with ⟨b, hb, hfit, -⟩
      have hmeta : (view.metaText b).length + 1 ≤ view.maxPathLen := by
        simp only [markerText, List.length_append] at hfit
        omega
      rw [(metaRoot_eq_ok_iff hv).2 ⟨b, hb, hmeta, rfl⟩] at hroot
      cases hroot
    | ok root =>
      obtain ⟨b, hb, hfit, rfl⟩ := (metaRoot_eq_ok_iff hv).1 hroot
      simp only [HasMarker, hb, Option.some.injEq, exists_eq_left']
      exact hiddenAlong_iff (metaText_ne_nil hv hb) (endsWithSeparator_metaText hv b) hfit hcomps

theorem isHidden_of_hasMarker (hv : view.Accepted) (hcow : view.cowEnabled = true)
    {front : List Bytes} (hparts : unionComponents path = .ok parts) (hne : front ≠ [])
    (hfront : front <+: parts) (hmarker : view.HasMarker fs front rank) :
    view.isHidden fs path rank = true :=
  (isHidden_iff hv).2 ⟨hcow, parts, hparts, front, hne, hfront, hmarker⟩

end UnionView

end Whiteout
