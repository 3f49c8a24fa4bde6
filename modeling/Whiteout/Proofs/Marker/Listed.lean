import Whiteout.Proofs.Marker.Footprint
import Whiteout.Proofs.Mirror.Listing

/-!
# What a listing tells of a hidden path

A marker is listed under the name before its tag and under the spelling of the directories above it.
So a path just hidden is listed, once and with its kind, exactly when its last name has no tag of
its own and no other marker is spelled like it. A name with a tag of its own is not listed at all.
-/

namespace Whiteout

open Text (utf8)
open Whiteout.FileSystem (AddsOnly)
open Whiteout.Path (components separator IsStep IsComponent)
open Whiteout.Marker (slashed spelled ofPlaced?)

theorem filterMap_eq_singleton_iff {α β : Type} {f : α → Option β} {xs : List α} (hxs : xs.Nodup)
    {x : α} (hx : x ∈ xs) {y : β} (hy : f x = some y) :
    xs.filterMap f = [y] ↔ ∀ x' ∈ xs, (f x').isSome = true → x' = x := by
  obtain ⟨front, back, rfl⟩ := List.append_of_mem hx
  have hother : x ∉ front ∧ x ∉ back := by
    simp only [List.nodup_append, List.nodup_cons] at hxs
    exact ⟨fun hm => hxs.2.2 x hm x List.mem_cons_self rfl, hxs.2.1.1⟩
  have hnone {ys : List α} (hnot : x ∉ ys) :
      ys.filterMap f = [] ↔ ∀ x' ∈ ys, (f x').isSome = true → x' = x := by
    rw [List.filterMap_eq_nil_iff]
    constructor
    · intro hall x' hx' hsome
      rw [hall x' hx'] at hsome
      cases hsome
    · intro honly x' hx'
      refine Option.not_isSome_iff_eq_none.1 fun hsome => hnot ?_
      exact honly x' hx' hsome ▸ hx'
  have hends : front.filterMap f ++ y :: back.filterMap f = [y] ↔
      front.filterMap f = [] ∧ back.filterMap f = [] := by
    simp [List.append_eq_singleton_iff]
  rw [List.filterMap_append, List.filterMap_cons, hy, hends, hnone hother.1, hnone hother.2]
  simp only [List.mem_append, List.mem_cons, or_imp, forall_and, forall_eq, implies_true, true_and]

namespace Marker

variable {tag root : Bytes} {rank : Nat} {entries : List (Location × Entry)} {place : Location}
  {e : Entry} {front : List Name} {last : Name}

theorem walk_ok {listed : List Marker} (h : walk tag rank root entries = .ok listed) :
    listed = entries.filterMap fun x => ofPlaced? tag rank x.1 x.2 := by
  induction entries generalizing listed with
  | nil => cases h; rfl
  | cons x rest ih =>
    rw [walk] at h
    split at h
    · cases h
    · cases hrest : walk tag rank root rest with
      | error e => rw [hrest] at h; cases h
      | ok others =>
        rw [hrest] at h
        cases h
        rw [List.filterMap_cons, ih hrest]
        cases ofPlaced? tag rank x.1 x.2 <;> rfl

theorem isComponent_spelled {name : Name} (h : IsComponent name) : IsComponent (spelled name) := by
  rw [spelled]
  split
  · exact h
  · refine ⟨fun hnil => ?_, fun hsep => h.2 ?_⟩
    · rw [Text.utf8_eq_nil_iff, Text.toList_display, List.map_eq_nil_iff] at hnil
      exact Text.characters_ne_nil h.1 hnil
    · exact Text.separator_mem_of_display (Text.separator_mem_utf8.1 hsep)

theorem eq_of_spelled {name : Name} {text : String} (h : spelled name = utf8 text)
    (hplain : Char.ofNat 0xFFFD ∉ text.toList) : name = utf8 text := by
  rw [spelled] at h
  split at h
  · exact h
  · next hread =>
    have htext : Text.display name = text := Text.utf8_injective h
    refine absurd ?_ hplain
    rw [← htext]
    exact Text.replacement_mem_display (Option.not_isSome_iff_eq_none.1 hread)

/-- The marker that an entry is listed as, if it is listed under the given components. -/
def asPath? (tag : Bytes) (rank : Nat) (parts : List Name) (place : Location) (e : Entry) :
    Option Marker :=
  (ofPlaced? tag rank place e).filter fun m => m.rank = rank ∧ m.unionPath = slashed parts

/-- Which entry is listed as a path: one whose name is the last name with a tag put behind it, and
whose directories are spelled like the others. -/
theorem isSome_asPath?_iff (hplace : ∀ n ∈ place, IsComponent n)
    (hcomps : ∀ n ∈ front ++ [last], IsComponent n) (hname : ∃ s, last ++ tag = utf8 s) :
    (asPath? tag rank (front ++ [last]) place e).isSome = true ↔
      Tag.Untagged tag last ∧ ∃ names, place = names ++ [last ++ tag] ∧
        names.map spelled = front := by
  have hread : (Text.decode? (last ++ tag)).isNone = false := by
    obtain ⟨s, hs⟩ := hname
    rw [hs, Text.decode?_utf8]
    rfl
  rw [asPath?, Option.isSome_filter, Option.any_eq_true]
  constructor
  · intro hlisted
    rcases hlisted with ⟨m, hm, hpath⟩
    have hpath := (of_decide_eq_true hpath).2
    rw [ofPlaced?] at hm
    split at hm
    · cases hm
    · next name hlast =>
      split at hm
      · cases hm
      · obtain ⟨hidden, hstrip, rfl⟩ := Option.map_eq_some_iff.1 hm
        obtain ⟨rfl, huntagged⟩ := Tag.strip?_eq_some_iff.1 hstrip
        obtain ⟨names, rfl⟩ := List.getLast?_eq_some_iff.1 hlast
        have htagged : IsComponent (hidden ++ tag) := hplace _ (by simp)
        have hhidden : IsComponent hidden :=
          ⟨huntagged.ne_nil, fun hsep => htagged.2 (List.mem_append_left _ hsep)⟩
        have hnames : ∀ n ∈ names.map spelled ++ [hidden], IsComponent n := by
          intro n hn
          rcases List.mem_append.1 hn with hn | hn
          · obtain ⟨name, hmem, rfl⟩ := List.mem_map.1 hn
            exact isComponent_spelled (hplace name (List.mem_append_left _ hmem))
          · exact List.mem_singleton.1 hn ▸ hhidden
        rw [List.dropLast_concat] at hpath
        obtain ⟨hfront, hsame⟩ := List.append_inj' (Path.slashed_injective hnames hcomps hpath) rfl
        cases List.singleton_inj.1 hsame
        exact ⟨huntagged, names, rfl, hfront⟩
  · intro hmarker
    rcases hmarker with ⟨huntagged, names, rfl, rfl⟩
    refine ⟨⟨rank, slashed (names.map spelled ++ [last]), e.kind⟩, ?_, decide_eq_true ⟨rfl, rfl⟩⟩
    simp [ofPlaced?, hread, huntagged.strip?_tagged]

end Marker

namespace UnionView

open Whiteout.Marker (asPath?)

variable {view : UnionView} {fs : FileSystem} {s : Session} {rank : Nat} {kind : Kind}
  {parts : List Name} {b : Branch}

/-- The marker of some components is read as theirs, and no other marker of the branch is. -/
def ReadsBack (view : UnionView) (fs : FileSystem) (rank : Nat) (parts : List Name) : Prop :=
  Tag.Untagged view.hideTag (parts.getLastD []) ∧
    ∀ b names e, view.branches[rank]? = some b →
      fs.tree.get? (view.metaPlace fs b ++ names ++ [parts.getLastD [] ++ view.hideTag]) = some e →
        names.map spelled = parts.dropLast → names = parts.dropLast

theorem readsBack_concat_iff (hb : view.branches[rank]? = some b) {front : List Name} {last : Name} :
    view.ReadsBack fs rank (front ++ [last]) ↔ Tag.Untagged view.hideTag last ∧
      ∀ names e, (names ++ [last ++ view.hideTag], e) ∈ fs.tree.below (view.metaPlace fs b) →
        names.map spelled = front → names = front := by
  have hbelow (names : List Name) (e : Entry) :
      (names ++ [last ++ view.hideTag], e) ∈ fs.tree.below (view.metaPlace fs b) ↔
        fs.tree.get? (view.metaPlace fs b ++ names ++ [last ++ view.hideTag]) = some e := by
    simp [Tree.mem_below_iff]
  simp only [ReadsBack, List.getLastD_concat, List.dropLast_concat, hbelow]
  refine and_congr_right fun _ => ⟨fun hback names e => hback b names e hb, ?_⟩
  intro hback b' names e hb'
  cases hb.symm.trans hb'
  exact hback names e

theorem readsBack_of_plain (fs : FileSystem)
    (hplain : ∀ c ∈ parts.dropLast, ∃ text, c = utf8 text ∧ Char.ofNat 0xFFFD ∉ text.toList)
    (h : Tag.Untagged view.hideTag (parts.getLastD [])) : view.ReadsBack fs rank parts := by
  refine ⟨h, fun _ names _ _ _ hspelled => ?_⟩
  rw [← hspelled] at hplain ⊢
  refine (List.map_id names).symm.trans (List.map_congr_left fun name hname => ?_)
  obtain ⟨text, htext, hno⟩ := hplain _ (List.mem_map_of_mem hname)
  rw [htext]
  exact Marker.eq_of_spelled htext hno

theorem HasMarker.metaDir (h : view.HasMarker fs parts rank) (hv : view.Accepted)
    (hfree : fs.tree.LinkFree) (hne : parts ≠ []) (hb : view.branches[rank]? = some b) {e : Entry}
    (hget : fs.tree.get? (view.metaPlace fs b ++ view.markerNames parts) = some e) :
    ∃ mode, fs.entryAt (view.metaText b) = .ok (view.metaPlace fs b, .dir mode) := by
  obtain ⟨b', hb', -, hprobe⟩ := h
  cases hb.symm.trans hb'
  have hnames : view.markerNames parts ≠ [] := by simp [markerNames]
  obtain ⟨first, names, hsplit⟩ := List.exists_cons_of_ne_nil hnames
  rw [markerText_eq view b hne, hsplit, Path.slashed_cons] at hprobe
  have habove := FileSystem.probe_of_below (metaText_ne_nil hv hb) hprobe
  obtain ⟨⟨place, found⟩, he⟩ := FileSystem.probe_isSome_iff.1 habove
  obtain ⟨rfl, hfound⟩ := FileSystem.entryAt_place hfree he
  have hdir : fs.tree.isDirAt (view.metaPlace fs b) = true :=
    Tree.isDirAt_of_above hget (List.prefix_append _ _) (by simpa using hnames)
  obtain ⟨mode, hmode⟩ := Tree.isDirAt_iff.1 hdir
  cases hfound.symm.trans hmode
  exact ⟨mode, he⟩

def listedAs (rank : Nat) (parts : List Name) (listed : List Marker) : List Marker :=
  listed.filter fun m => m.rank = rank ∧ m.unionPath = slashed parts

theorem listedAs_filterMap (tag : Bytes) (entries : List (Location × Entry)) :
    listedAs rank parts (entries.filterMap fun x => ofPlaced? tag rank x.1 x.2) =
      entries.filterMap fun x => asPath? tag rank parts x.1 x.2 := by
  rw [listedAs, List.filter_filterMap]
  rfl

theorem listed_eq (hv : view.Accepted) (hb : view.branches[rank]? = some b) {mode : Nat}
    (hdir : fs.entryAt (view.metaText b) = .ok (view.metaPlace fs b, .dir mode))
    {listed : List Marker} (h : view.markers fs rank = .ok listed) :
    listed = (fs.tree.below (view.metaPlace fs b)).filterMap fun x =>
      ofPlaced? view.hideTag rank x.1 x.2 := by
  rw [markers] at h
  split at h
  · cases h
  · next root hroot =>
    obtain ⟨b', hb', -, rfl⟩ := (metaRoot_eq_ok_iff hv).1 hroot
    cases hb.symm.trans hb'
    rw [hdir] at h
    exact Marker.walk_ok h

theorem listedAs_eq_singleton_iff (hv : view.Accepted) (hb : view.branches[rank]? = some b)
    {front : List Name} {last : Name} (hsteps : ∀ c ∈ front ++ [last], IsStep c)
    (htexts : ∀ c ∈ front ++ [last], ∃ text, c = utf8 text) {mode : Nat}
    (hdir : fs.entryAt (view.metaText b) = .ok (view.metaPlace fs b, .dir mode)) {e : Entry}
    (hget : fs.tree.get? (view.metaPlace fs b ++ view.markerNames (front ++ [last])) = some e)
    {listed : List Marker} (hlist : view.markers fs rank = .ok listed) :
    listedAs rank (front ++ [last]) listed = [⟨rank, slashed (front ++ [last]), e.kind⟩] ↔
      view.ReadsBack fs rank (front ++ [last]) := by
  have hcomps : ∀ c ∈ front ++ [last], IsComponent c := fun c hc => (hsteps c hc).isComponent
  have hname : ∃ text, last ++ view.hideTag = utf8 text := by
    obtain ⟨tag, htag⟩ := hv.tagText
    obtain ⟨text, htext⟩ := htexts last (by simp)
    exact ⟨text ++ tag, by rw [htext, htag, Text.utf8_append]⟩
  rw [markerNames_concat] at hget
  have hmem : (front ++ [last ++ view.hideTag], e) ∈ fs.tree.below (view.metaPlace fs b) :=
    Tree.mem_below_iff.2 ⟨by simp, hget⟩
  have hselected : ∀ x ∈ fs.tree.below (view.metaPlace fs b),
      (asPath? view.hideTag rank (front ++ [last]) x.1 x.2).isSome = true ↔
      Tag.Untagged view.hideTag last ∧ ∃ names, x.1 = names ++ [last ++ view.hideTag] ∧
        names.map spelled = front := by
    intro x hx
    have hplace := Tree.isName_of_get? (Tree.mem_below_iff.1 hx).2
    exact Marker.isSome_asPath?_iff
      (fun n hn => Path.isComponent_of_isName (hplace n (List.mem_append_right _ hn))) hcomps hname
  rw [listed_eq hv hb hdir hlist, listedAs_filterMap, readsBack_concat_iff hb]
  by_cases huntagged : Tag.Untagged view.hideTag last
  · have hown : ofPlaced? view.hideTag rank (front ++ [last ++ view.hideTag]) e =
        some ⟨rank, slashed (front ++ [last]), e.kind⟩ :=
      Marker.ofPlaced?_of_tagged (fun c hc => htexts c (List.mem_append_left _ hc)) hname huntagged
    have hdistinct : (fs.tree.below (view.metaPlace fs b)).Nodup :=
      (fs.tree.below_distinct _).imp fun hne hsame => hne (congrArg Prod.fst hsame)
    rw [filterMap_eq_singleton_iff hdistinct hmem (by simp [asPath?, hown])]
    constructor
    · intro honly
      refine ⟨huntagged, fun names f hother hspelled => ?_⟩
      have hsame := honly _ hother ((hselected _ hother).2 ⟨huntagged, names, rfl, hspelled⟩)
      exact List.append_cancel_right (congrArg Prod.fst hsame)
    · intro hback x hx hsome
      obtain ⟨-, names, hplace, hspelled⟩ := (hselected x hx).1 hsome
      obtain ⟨place, f⟩ := x
      dsimp only at hplace
      subst hplace
      obtain rfl := hback.2 names f hx hspelled
      cases hget.symm.trans (Tree.mem_below_iff.1 hx).2
      rfl
  · constructor
    · intro hsingle
      have hlisted : (⟨rank, slashed (front ++ [last]), e.kind⟩ : Marker) ∈
          [(⟨rank, slashed (front ++ [last]), e.kind⟩ : Marker)] := List.mem_singleton_self _
      rw [← hsingle, List.mem_filterMap] at hlisted
      obtain ⟨x, hx, hm⟩ := hlisted
      exact absurd ((hselected x hx).1 (Option.isSome_iff_exists.2 ⟨_, hm⟩)).1 huntagged
    · exact fun hback => absurd hback.1 huntagged

theorem listed_once_iff [Host] {home : Option String} {config : Config}
    (haccepted : ofConfig home config = .ok view) (hfree : s.fs.tree.LinkFree) {text : String}
    {listed : List Marker} (hhide : (view.hide s (utf8 text) rank kind).1 = .ok ())
    (hlist : view.markers (view.hide s (utf8 text) rank kind).2.fs rank = .ok listed) :
    listedAs rank (components (utf8 text)) listed =
        [⟨rank, slashed (components (utf8 text)), kind⟩] ↔
      view.ReadsBack (view.hide s (utf8 text) rank kind).2.fs rank (components (utf8 text)) := by
  have hv := accepted_of_ofConfig haccepted
  obtain ⟨parts, hparts, hmarker⟩ := hasMarker_of_hide hv hhide
  obtain ⟨b, hb, -⟩ := id hmarker
  obtain ⟨hcomps, hne, hsteps⟩ := unionComponents_eq_ok_iff.1 hparts
  obtain ⟨e, hget, hkind⟩ := kind_of_hide hv hfree hparts hb hhide
  have hadds : AddsOnly (view.Footprint (view.metaPlace s.fs b) parts kind) s.fs
    (view.hide s (utf8 text) rank kind).2.fs := hide_adds hv hfree hparts hb
  have hfree' := hadds.linkFree hfree fun l f hadded => hadded.not_isLink
  rw [← metaPlace_of_grows hadds.grows] at hget
  generalize (view.hide s (utf8 text) rank kind).2.fs = after at hlist hget hmarker hfree' ⊢
  rw [← hcomps]
  obtain ⟨mode, hdir⟩ := hmarker.metaDir hv hfree' hne hb hget
  obtain ⟨front, last, rfl⟩ := Location.exists_concat hne
  exact hkind ▸ listedAs_eq_singleton_iff hv hb hsteps
    (fun c hc => Text.exists_utf8_of_mem_components (hcomps ▸ hc)) hdir hget hlist

attribute [local instance] Host.plain

theorem listed_once_sample :
    ∃ listed, Sample.view.markers
        (Sample.view.hide Sample.session (utf8 "d/a") 0 .file).2.fs 0 = .ok listed ∧
      listedAs 0 (components (utf8 "d/a")) listed =
        [⟨0, slashed (components (utf8 "d/a")), .file⟩] := by
  have hlist : Sample.view.markers (Sample.view.hide Sample.session (utf8 "d/a") 0 .file).2.fs 0 =
      .ok [⟨0, utf8 "/d/a", .file⟩] := by
    decide +kernel
  have hplain : ∀ c ∈ (components (utf8 "d/a")).dropLast,
      ∃ text, c = utf8 text ∧ Char.ofNat 0xFFFD ∉ text.toList := by
    have hd : (components (utf8 "d/a")).dropLast = [utf8 "d"] := by decide +kernel
    intro c hc
    rw [hd, List.mem_singleton] at hc
    exact ⟨"d", hc, by decide⟩
  exact ⟨_, hlist, (listed_once_iff Sample.ofConfig_config Sample.ready.linkFree
    (by decide +kernel) hlist).2 (readsBack_of_plain _ hplain (by decide +kernel))⟩

/-- The name `a_HIDDEN~b` has a tag of its own, so it is hidden but not listed. -/
theorem hidden_but_not_listed :
    Sample.session.fs.tree.LinkFree ∧
    (Sample.view.hide Sample.session (utf8 "a_HIDDEN~b") 0 .file).1 = .ok () ∧
    Sample.view.markers
      (Sample.view.hide Sample.session (utf8 "a_HIDDEN~b") 0 .file).2.fs 0 = .ok [] :=
  ⟨Sample.ready.linkFree, by decide +kernel, by decide +kernel⟩

-- a directory whose name is no text is spelled like one named by the replacement character
example :
    let metaDir := [utf8 "up", utf8 ".unionfs"]
    let tree := ((Sample.tree.put metaDir (.dir 0o755)).put (metaDir ++ [[0xFF]]) (.dir 0o755)).put
      (metaDir ++ [[0xFF], utf8 "a_HIDDEN~"]) (.dir 0o700)
    let s := Session.start { tree, cwd := [] } ⟨0, 0⟩
    (Sample.view.hide s (utf8 "\uFFFD/a") 0 .file).1 = .ok () ∧
      Sample.view.markers (Sample.view.hide s (utf8 "\uFFFD/a") 0 .file).2.fs 0 = .ok
        [⟨0, utf8 "/\uFFFD/a", .file⟩, ⟨0, utf8 "/\uFFFD/a", .dir⟩] := by
  decide +kernel

end UnionView

end Whiteout
