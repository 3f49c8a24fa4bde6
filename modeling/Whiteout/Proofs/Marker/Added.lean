import Whiteout.Proofs.Marker.Effect
import Whiteout.Proofs.Marker.SpecialBits
import Whiteout.Proofs.Marker.Standing
import Whiteout.Proofs.Mirror.Layout

/-!
# Exactly what a hide adds

A hide is refused for its arguments alone: for a rank that no branch has, for a path that has no
marker, and for a marker whose path does not fit. Then nothing is done at all. Otherwise only the
host can stop it. The directories on the way to the marker that are missing are made from the top
down; a hide that is stopped has made some of the first of them and no marker, and one that succeeds
has made all of them and, if nothing stood at the marker's place, the marker. What is made has the
mode asked for less what the host keeps back, and the special bits that the host hands down to it.
-/

namespace Whiteout

open Text (utf8)
open Whiteout.FileSystem (AddsAll PassesOn Wanted)
open Whiteout.Path (dot dotDot components)
open Whiteout.Marker (slashed)

def Error.IsRequestFault : Error → Prop
  | .argument _ => True
  | .nameTooLong _ _ => True
  | _ => False

namespace BoundedPath

variable {path : BoundedPath} {text segment : Bytes} {segments : List Bytes} {e : Error}

theorem extendTo_error (h : path.extendTo text = .error e) : e.IsRequestFault := by
  rw [extendTo] at h
  split at h
  · cases h
    trivial
  · cases h

theorem pushSegment_error (h : path.pushSegment segment = .error e) : e.IsRequestFault := by
  rw [pushSegment] at h
  split at h
  · cases h
    trivial
  · split at h
    · exact extendTo_error h
    · exact extendTo_error h

theorem pushSegments_fault (h : path.pushSegments segments = .error e) : e.IsRequestFault := by
  induction segments generalizing path with
  | nil => cases h
  | cons segment others ih =>
    rw [pushSegments] at h
    split at h
    · exact ih h
    · next fault hpush =>
      cases h
      exact pushSegment_error hpush

theorem build_error {limit : Nat} (h : build limit segments = .error e) : e.IsRequestFault := by
  cases segments with
  | nil =>
    cases h
    trivial
  | cons segment others => exact pushSegments_fault h

end BoundedPath

namespace UnionView

variable {view : UnionView} {s : Session} {fs : FileSystem} {b : Branch} {base : Location}
  {path : Bytes} {rank : Nat} {parts : List Name} {kind : Kind} {e : Error}

/-- No branch has the rank, or the path has no marker, or the marker's path does not fit. -/
def Refuses (view : UnionView) (path : Bytes) (rank : Nat) : Prop :=
  view.branches.length ≤ rank ∨ components path = [] ∨ dot ∈ components path ∨
    dotDot ∈ components path ∨ ∃ b, view.branches[rank]? = some b ∧
      view.maxPathLen < (view.markerText b (components path)).length + 1

def way (view : UnionView) (fs : FileSystem) (b : Branch) (parts : List Name) : List Location :=
  (List.range parts.length).map fun n => view.metaPlace fs b ++ parts.take n

/-- A new marker, with the part of its mode that is granted. -/
def blank (granted : Nat → Nat) : Kind → Entry
  | .file => .file (granted 0o600) []
  | .dir => .dir (granted 0o700)

/-- What a hide that is not refused makes, with the part of each mode that is granted. -/
def Makes (granted : Nat → Nat) (view : UnionView) (s : Session) (b : Branch) (parts : List Name)
    (kind : Kind) (answer : Except Error Unit) (after : Session) : Prop :=
  (∃ fault, answer = .error (.io fault)) ∧
      (∃ made, made <+: s.fs.missing (view.way s.fs b parts) ∧
        ∀ l, after.fs.tree.get? l =
          if l ∈ made then some (.dir (granted 0o755)) else s.fs.tree.get? l) ∨
    answer = .ok () ∧
      ∀ l, after.fs.tree.get? l =
        if l ∈ s.fs.missing (view.way s.fs b parts) then some (.dir (granted 0o755))
        else if l ∈ s.fs.missing [view.markedPlace s.fs b parts] then some (blank granted kind)
        else s.fs.tree.get? l

theorem branch_error (h : view.branch rank = .error e) : e.IsRequestFault := by
  rw [branch] at h
  split at h
  · cases h
  · cases h
    trivial

theorem markerPath_error (h : view.markerPath path rank = .error e) : e.IsRequestFault := by
  rw [markerPath] at h
  split at h
  · next fault hparts =>
    cases h
    rw [unionComponents] at hparts
    split at hparts
    · cases hparts
      trivial
    · split at hparts
      · cases hparts
        trivial
      · cases hparts
  · split at h
    · next fault hroot =>
      cases h
      rw [metaRoot] at hroot
      split at hroot
      · next fault' hbranch =>
        cases hroot
        exact branch_error hbranch
      · exact BoundedPath.build_error hroot
    · split at h
      · next fault hpush =>
        cases h
        exact BoundedPath.pushSegments_fault hpush
      · exact BoundedPath.extendTo_error h

theorem unionComponents_eq_ok_components :
    unionComponents path = .ok (components path) ↔
      components path ≠ [] ∧ dot ∉ components path ∧ dotDot ∉ components path := by
  constructor
  · intro h
    obtain ⟨-, hne, hdots⟩ := unionComponents_ok h
    exact ⟨hne, fun hm => (hdots _ hm).1 rfl, fun hm => (hdots _ hm).2 rfl⟩
  · intro h
    obtain ⟨hne, hdot, hup⟩ := h
    refine unionComponents_of_dotFree hne fun c hc => ⟨?_, ?_⟩
    · exact fun he => hdot (he ▸ hc)
    · exact fun he => hup (he ▸ hc)

theorem not_refuses_iff : ¬view.Refuses path rank ↔
    unionComponents path = .ok (components path) ∧ ∃ b, view.branches[rank]? = some b ∧
      (view.markerText b (components path)).length + 1 ≤ view.maxPathLen := by
  rw [unionComponents_eq_ok_components]
  cases hb : view.branches[rank]? with
  | none =>
    have hlen : view.branches.length ≤ rank := List.getElem?_eq_none_iff.1 hb
    simp [Refuses, hlen]
  | some b =>
    have hlen : rank < view.branches.length := (List.getElem?_eq_some_iff.1 hb).1
    simp only [Refuses, hb, Option.some.injEq, exists_eq_left', not_or, Nat.not_le, Nat.not_lt]
    simp only [hlen, true_and, and_assoc, ne_eq]

theorem exists_error_of_refuses (hv : view.Accepted) (h : view.Refuses path rank) :
    ∃ e, view.markerPath path rank = .error e := by
  cases hmarker : view.markerPath path rank with
  | error e => exact ⟨e, rfl⟩
  | ok m =>
    obtain ⟨parts, b, hparts, hb, hfit, -⟩ := (markerPath_eq_ok_iff hv).1 hmarker
    obtain ⟨rfl, -⟩ := unionComponents_eq_ok_iff.1 hparts
    exact absurd h (not_refuses_iff.2 ⟨hparts, b, hb, hfit⟩)

theorem way_eq (hne : parts ≠ []) : view.way fs b parts =
    (view.mirroredFrom b (view.metaPlace fs b) [] parts.dropLast).map Wanted.place := by
  obtain ⟨front, last, rfl⟩ := Location.exists_concat hne
  rw [mirroredFrom_eq, List.map_map, List.dropLast_concat, way, List.length_append,
    List.length_singleton]
  refine List.map_congr_left fun n hn => ?_
  have hle : n ≤ front.length := Nat.le_of_lt_succ (List.mem_range.1 hn)
  rw [List.take_append_of_le_length hle]
  rfl

theorem not_mem_way_of_below {l : Location} (h : view.markedPlace fs b parts <+: l) :
    l ∉ view.way fs b parts := by
  intro hmem
  obtain ⟨n, hn, rfl⟩ := List.mem_map.1 hmem
  have hlen := h.length_le
  have hshort := List.mem_range.1 hn
  rw [markedPlace, markerNames, List.length_append, List.length_append, List.length_append,
    List.length_take, List.length_dropLast, List.length_singleton] at hlen
  omega

section

variable [Host]

theorem hide_of_refuses (hv : view.Accepted) (h : view.Refuses path rank) (s : Session)
    (kind : Kind) : ∃ e, e.IsRequestFault ∧ view.hide s path rank kind = (.error e, s) := by
  obtain ⟨e, hmarker⟩ := exists_error_of_refuses hv h
  rw [hide]
  split
  · next fault hbranch => exact ⟨fault, branch_error hbranch, rfl⟩
  · rw [hmarker]
    exact ⟨e, markerPath_error hmarker, rfl⟩

theorem entry_wantedMarker :
    (view.wantedMarker b base parts kind).entry = blank Host.granted kind := by
  cases kind with
  | file => rfl
  | dir => rfl

theorem get?_of_mirrored {dirs : List Wanted} {after : FileSystem}
    (h : AddsAll (fun l e => ∃ w ∈ dirs, w.Is l e) fs after)
    (hdirs : ∀ w ∈ dirs, w.entry = .dir (Host.granted 0o755)) (l : Location) :
    after.tree.get? l = if l ∈ fs.missing (dirs.map Wanted.place) then
      some (.dir (Host.granted 0o755)) else fs.tree.get? l := by
  rcases h.get?_cases l with ⟨w, hw, rfl, hnone, hget⟩ | ⟨hmem, hget⟩
  · rw [hget, hdirs w hw, if_pos (FileSystem.mem_missing.2 ⟨List.mem_map_of_mem hw, hnone⟩)]
  · rw [hget, if_neg hmem]

namespace Makes

theorem asAsked {answer : Except Error Unit} {after : Session}
    (h : view.Makes Host.granted s b parts kind answer after)
    (hasked : s.fs.AsAsked) : view.Makes id s b parts kind answer after := by
  have hdir : Host.granted 0o755 = id 0o755 := hasked.granted_eq rfl
  have hmarker : blank Host.granted kind = blank id kind := by
    cases kind with
    | file => exact congrArg (Entry.file · []) (hasked.granted_eq rfl)
    | dir => exact congrArg Entry.dir (hasked.granted_eq rfl)
  rwa [Makes, hdir, hmarker] at h

end Makes

section

variable (hv : view.Accepted) (hfree : s.fs.tree.LinkFree) (hb : view.branches[rank]? = some b)
  (hparts : unionComponents path = .ok parts)
  (hfit : (view.markerText b parts).length + 1 ≤ view.maxPathLen)
include hv hfree hb hparts hfit

/-- With arguments that are not at fault a hide is granted all that it asks for, or the host stops
it at some directory or at the marker. -/
theorem hide_granted_cases (kind : Kind) :
    ((view.hide s path rank kind).1 = .ok () ∧ s.fs.LeadsDown b.root ∧
      AddsAll (fun l e => ∃ w ∈ view.plan b (view.metaPlace s.fs b) parts kind, w.Is l e) s.fs
        (view.hide s path rank kind).2.fs) ∨
    ∃ fault granted, (view.hide s path rank kind).1 = .error (.io fault) ∧
      granted <+: view.mirroredFrom b (view.metaPlace s.fs b) [] parts.dropLast ∧
        AddsAll (fun l e => ∃ w ∈ granted, w.Is l e) s.fs (view.hide s path rank kind).2.fs := by
  by_cases hroot : s.fs.LeadsDown b.root
  · obtain ⟨hanswer, hadds⟩ := hide_effect hv hb hfree hroot hparts hfit kind
    cases hfault : s.fs.firstFault? (view.plan b (view.metaPlace s.fs b) parts kind) with
    | none =>
      rw [hfault] at hanswer
      rw [FileSystem.granted_of_firstFault?_none hfault] at hadds
      exact .inl ⟨hanswer, hroot, hadds⟩
    | some fault =>
      rw [hfault] at hanswer
      obtain ⟨granted, hfront, hgranted⟩ := FileSystem.granted_of_firstFault?_some hfault
      rw [plan, hgranted] at hadds
      exact .inr ⟨fault, granted, hanswer, hfront, hadds⟩
  · obtain ⟨fault, hnothing⟩ := hide_of_no_root hv hfree hparts hb hfit hroot kind
    rw [hnothing]
    exact .inr ⟨fault, [], rfl, List.nil_prefix, .refl_of_present (by simp)⟩

theorem hide_stopped {fault : IoError} (h : (view.hide s path rank kind).1 = .error (.io fault)) :
    ∃ made, made <+: s.fs.missing (view.way s.fs b parts) ∧
      ∀ l, (view.hide s path rank kind).2.fs.tree.get? l =
        if l ∈ made then some (.dir (Host.granted 0o755)) else s.fs.tree.get? l := by
  rcases hide_granted_cases hv hfree hb hparts hfit kind with
    ⟨hok, -⟩ | ⟨-, granted, -, hfront, hadds⟩
  · rw [h] at hok
    cases hok
  · have hdirs : ∀ w ∈ granted, w.entry = .dir (Host.granted 0o755) := by
      intro w hw
      obtain ⟨names, -, rfl⟩ := mem_mirroredFrom.1 (hfront.subset hw)
      rfl
    refine ⟨_, ?_, get?_of_mirrored hadds hdirs⟩
    rw [way_eq (unionComponents_eq_ok_iff.1 hparts).2.1]
    exact (hfront.map Wanted.place).filter _

theorem hide_grants_all (h : (view.hide s path rank kind).1 = .ok ()) :
    s.fs.LeadsDown b.root ∧
      AddsAll (fun l e => ∃ w ∈ view.plan b (view.metaPlace s.fs b) parts kind, w.Is l e) s.fs
        (view.hide s path rank kind).2.fs := by
  rcases hide_granted_cases hv hfree hb hparts hfit kind with ⟨-, hall⟩ | ⟨fault, -, hio, -⟩
  · exact hall
  · rw [h] at hio
    cases hio

theorem hide_done (h : (view.hide s path rank kind).1 = .ok ()) (l : Location) :
    (view.hide s path rank kind).2.fs.tree.get? l =
      if l ∈ s.fs.missing (view.way s.fs b parts) then some (.dir (Host.granted 0o755))
      else if l ∈ s.fs.missing [view.markedPlace s.fs b parts] then some (blank Host.granted kind)
      else s.fs.tree.get? l := by
  have hway : view.way s.fs b parts =
      (view.mirroredFrom b (view.metaPlace s.fs b) [] parts.dropLast).map Wanted.place :=
    way_eq (unionComponents_eq_ok_iff.1 hparts).2.1
  obtain ⟨-, hadds⟩ := hide_grants_all hv hfree hb hparts hfit h
  rcases hadds.get?_cases l with ⟨w, hw, rfl, hnone, hget⟩ | ⟨hmem, hget⟩
  · rcases List.mem_append.1 hw with hw | hw
    · have hdir : w.place ∈ s.fs.missing (view.way s.fs b parts) :=
        FileSystem.mem_missing.2 ⟨hway ▸ List.mem_map_of_mem hw, hnone⟩
      rw [hget, if_pos hdir]
      obtain ⟨names, -, rfl⟩ := mem_mirroredFrom.1 hw
      rfl
    · cases List.mem_singleton.1 hw
      have hmarker : view.markedPlace s.fs b parts ∉ s.fs.missing (view.way s.fs b parts) :=
        FileSystem.not_mem_missing (not_mem_way_of_below (List.prefix_refl _))
      rw [hget, entry_wantedMarker]
      exact ((if_neg hmarker).trans (if_pos (FileSystem.mem_missing.2
        ⟨List.mem_singleton_self _, hnone⟩))).symm
  · rw [FileSystem.missing, plan, List.map_append, List.filter_append, List.mem_append, not_or,
      ← hway] at hmem
    exact hget.trans ((if_neg hmem.1).trans (if_neg hmem.2)).symm

end

end

theorem hide_exactly [Host] {home : Option String} {config : Config}
    (haccepted : ofConfig home config = .ok view) (hfree : s.fs.tree.LinkFree)
    {answer : Except Error Unit} {after : Session}
    (hanswer : view.hide s path rank kind = (answer, after)) :
    ((∃ e, answer = .error e ∧ e.IsRequestFault) ↔ view.Refuses path rank) ∧
    (view.Refuses path rank → after = s) ∧
    (¬view.Refuses path rank → ∃ b, view.branches[rank]? = some b ∧
      view.Makes Host.granted s b (components path) kind answer after) ∧
    (∀ l e, s.fs.tree.get? l = some e → after.fs.tree.get? l = some e) ∧
    PassesOn (fun l => answer = .ok () ∧ view.GivesMarker s after.fs path rank l) s.fs after.fs ∧
    (s.fs.AsAsked →
      (¬view.Refuses path rank → ∃ b, view.branches[rank]? = some b ∧
        view.Makes id s b (components path) kind answer after) ∧
      ∀ l e, after.fs.tree.get? l = some e →
        after.fs.special l = if (s.fs.tree.get? l).isSome then s.fs.special l else 0) := by
  have hv := accepted_of_ofConfig haccepted
  obtain rfl : (view.hide s path rank kind).1 = answer := congrArg Prod.fst hanswer
  obtain rfl : (view.hide s path rank kind).2 = after := congrArg Prod.snd hanswer
  have hmakes (h : ¬view.Refuses path rank) : ∃ b, view.branches[rank]? = some b ∧
      view.Makes Host.granted s b (components path) kind (view.hide s path rank kind).1
        (view.hide s path rank kind).2 := by
    obtain ⟨hparts, b, hb, hfit⟩ := not_refuses_iff.1 h
    refine ⟨b, hb, ?_⟩
    rcases hide_granted_cases hv hfree hb hparts hfit kind with ⟨hok, -⟩ | ⟨fault, -, hio, -⟩
    · exact .inr ⟨hok, hide_done hv hfree hb hparts hfit hok⟩
    · exact .inl ⟨⟨fault, hio⟩, hide_stopped hv hfree hb hparts hfit hio⟩
  have hpasses := view.hide_passesOn s path rank kind
  refine ⟨⟨fun h => ?_, fun h => ?_⟩, fun h => ?_, hmakes, ?_, hpasses, fun hasked => ⟨fun h => ?_, ?_⟩⟩
  · obtain ⟨e, herror, hfault⟩ := h
    apply Classical.byContradiction
    intro hno
    obtain ⟨b, -, ⟨⟨fault, hio⟩, -⟩ | ⟨hok, -⟩⟩ := hmakes hno
    · rw [hio] at herror
      cases herror
      exact hfault
    · rw [hok] at herror
      cases herror
  · obtain ⟨e, hfault, hnothing⟩ := hide_of_refuses hv h s kind
    exact ⟨e, by rw [hnothing], hfault⟩
  · obtain ⟨e, -, hnothing⟩ := hide_of_refuses hv h s kind
    rw [hnothing]
  · exact (view.hide_grows s path rank kind).2
  · obtain ⟨b, hb, hmade⟩ := hmakes h
    exact ⟨b, hb, hmade.asAsked hasked⟩
  · exact fun l e => hpasses.special_of_asAsked hasked

attribute [local instance] Sample.host

theorem asAsked_sample : Sample.session.fs.AsAsked where
  umask := rfl
  inherits _ := Nat.zero_and _
  giving _ _ := Nat.zero_and _

/-- Refused, done with two directories missing, and stopped with three missing. -/
theorem hide_exactly_sample :
    let top := [utf8 "up", utf8 ".unionfs"]
    let refused := Sample.view.hide Sample.session (utf8 "d/..") 0 .file
    let done := Sample.view.hide Sample.session (utf8 "d/e") 0 .dir
    let stopped := Sample.view.hide Sample.session (utf8 "d/" ++ 0 :: utf8 "/x") 0 .file
    (refused.2 = Sample.session ∧ ∃ e, refused.1 = .error e ∧ e.IsRequestFault) ∧
    (∀ l, done.2.fs.tree.get? l =
      if l ∈ [top, top ++ [utf8 "d"]] then some (.dir 0o755)
      else if l ∈ [top ++ [utf8 "d", utf8 "e_HIDDEN~"]] then some (.dir 0o700)
      else Sample.tree.get? l) ∧
    ∃ made, made <+: [top, top ++ [utf8 "d"], top ++ [utf8 "d", [0]]] ∧
      ∀ l, stopped.2.fs.tree.get? l = if l ∈ made then some (.dir 0o755) else Sample.tree.get? l := by
  intro top refused done stopped
  have hfree := Sample.ready.linkFree
  obtain ⟨hfault, hnothing, -⟩ :=
    hide_exactly Sample.ofConfig_config hfree (Prod.eta refused).symm
  obtain ⟨-, -, -, -, -, hdone⟩ :=
    hide_exactly Sample.ofConfig_config hfree (Prod.eta done).symm
  obtain ⟨-, -, -, -, -, hstopped⟩ :=
    hide_exactly Sample.ofConfig_config hfree (Prod.eta stopped).symm
  have hrefuses : Sample.view.Refuses (utf8 "d/..") 0 :=
    .inr (.inr (.inr (.inl (by decide +kernel))))
  refine ⟨⟨hnothing hrefuses, hfault.2 hrefuses⟩, ?_, ?_⟩
  · have hok : done.1 = .ok () := by decide +kernel
    obtain ⟨b, hb, ⟨⟨fault, hio⟩, -⟩ | ⟨-, hmade⟩⟩ := (hdone asAsked_sample).1
      (not_refuses_iff.2 ⟨by decide +kernel, ⟨0, utf8 "up", .readWrite⟩, rfl, by decide +kernel⟩)
    · cases hok.symm.trans hio
    · cases hb
      exact hmade
  · have hio : stopped.1 = .error (.io .nulInPath) := by decide +kernel
    obtain ⟨b, hb, ⟨-, hmade⟩ | ⟨hok, -⟩⟩ := (hstopped asAsked_sample).1
      (not_refuses_iff.2 ⟨by decide +kernel, ⟨0, utf8 "up", .readWrite⟩, rfl, by decide +kernel⟩)
    · cases hb
      exact hmade
    · cases hok.symm.trans hio

-- a component that the host admits in no name leaves the directories above it behind
example :
    let path := utf8 "d/" ++ 0 :: utf8 "/x"
    (Sample.view.hide Sample.session path 0 .file).1 = .error (.io .nulInPath) ∧
      (Sample.view.hide Sample.session path 0 .file).2.fs.tree.get?
        [utf8 "up", utf8 ".unionfs", utf8 "d"] = some (.dir 0o755) := by
  decide +kernel

end UnionView

end Whiteout
