import Whiteout.CommandLine.Run
import Whiteout.Proofs.Hash.Exact
import Whiteout.Proofs.Json.Reading
import Whiteout.Proofs.Lookup.Scan
import Whiteout.Proofs.Marker.Requests
import Whiteout.Proofs.Marker.SpecialBits

/-!
# Commands as requests

A command puts some requests to the union, and what it tells is made of their answers alone: the
first failure, or else a line for each answer. A rank that is named and that no branch has is told
before anything is asked.
-/

namespace Whiteout

open Text (utf8 display)

namespace Response

def error? : Response → Option Error
  | .done (.error e) => some e
  | .cleaned (.error e) => some e
  | .listed (.error e) => some e
  | .found (.error e) => some e
  | _ => none

/-- The call gave what was asked for; a lookup has to find a branch. -/
def Succeeds : Response → Prop
  | .found (.ok none) => False
  | r => r.error? = none

theorem not_succeeds_of_error {r : Response} {e : Error} (h : r.error? = some e) : ¬r.Succeeds := by
  intro hr
  unfold Succeeds at hr
  split at hr
  · exact hr
  · cases h.symm.trans hr

end Response

namespace CommandLine

def ranksOf (view : UnionView) : Option Nat → List Nat
  | some rank => if rank < view.branches.length then [rank] else []
  | none => List.range view.branches.length

namespace Command

def rank? : Command → Option Nat
  | .check _ branch => branch
  | .list branch _ => branch
  | _ => none

def requests (view : UnionView) : Command → List Request
  | .check path branch => (ranksOf view branch).map (.isHidden (utf8 path))
  | .resolve path => [.findBranch (utf8 path) 0]
  | .hide path rank dir => [.hide (utf8 path) rank (if dir then .dir else .file)]
  | .unhide path last => [.unhide (utf8 path) last]
  | .list branch _ => (ranksOf view branch).map .markers
  | .hash _ => []

end Command

def linesOf : List String → String
  | [] => ""
  | line :: later => line ++ "\n" ++ linesOf later

def modeText (view : UnionView) (rank : Nat) : String :=
  (view.branches[rank]?.map fun b => b.mode.text).getD ""

def jsonMarker (m : Marker) : Json.Value :=
  .object
    [(some "rank".toList, .ofNat m.rank),
     (some "union_path".toList, .string (some (display m.unionPath).toList)),
     (some "kind".toList, .string (some m.kind.text.toList))]

/-- What a command tells when no call failed, by the answers. A list in JSON is told by what is read
from it. -/
inductive Tells (view : UnionView) : Command → List Response → Outcome → Prop
  | checked {path : String} {branch : Option Nat} (hidden : Nat → Bool) :
      Tells view (.check path branch) ((ranksOf view branch).map fun rank => .hidden (hidden rank))
        ⟨0, linesOf ((ranksOf view branch).map fun rank =>
          let state := if hidden rank then "hidden" else "visible"
          s!"{rank}\t{modeText view rank}\t{state}"), ""⟩
  | found {path : String} {rank : Nat} {b : Branch} (hb : view.branches[rank]? = some b) :
      Tells view (.resolve path) [.found (.ok (some rank))]
        ⟨0, s!"{rank}\t{b.mode.text}\t{display (BoundedPath.joined b.root (utf8 path))}\n", ""⟩
  | absent {path : String} :
      Tells view (.resolve path) [.found (.ok none)]
        ⟨1, "", s!"{path}: not present in the union\n"⟩
  | hid {path : String} {rank : Nat} (dir : Bool) :
      Tells view (.hide path rank dir) [.done (.ok ())]
        ⟨0, let kind := if dir then "dir" else "file"
          s!"Hid {path} in branch {rank} ({kind} marker)\n", ""⟩
  | cleaned {path : String} {last : Option Nat} {removed : List Nat}
      {failures : List CleanupFailure} :
      Tells view (.unhide path last) [.cleaned (.ok ⟨removed, failures⟩)]
        ⟨0, if removed = [] ∧ failures = [] then s!"No whiteouts for {path}\n"
          else linesOf (removed.map fun rank => s!"Removed whiteout for {path} in branch {rank}"),
        linesOf (failures.map fun f =>
          s!"Warning: could not remove {display f.path} in branch {f.rank}: {f.reason.text}")⟩
  | listed {branch : Option Nat} (markers : Nat → List Marker) :
      Tells view (.list branch false)
        ((ranksOf view branch).map fun rank => .listed (.ok (markers rank)))
        ⟨0, linesOf (((ranksOf view branch).flatMap markers).map fun m =>
          s!"{m.rank}\t{m.kind.text}\t{display m.unionPath}"), ""⟩
  | listedJson {branch : Option Nat} {text : String} (markers : Nat → List Marker)
      (htext : Json.parse text.toList =
        some (.array (((ranksOf view branch).flatMap markers).map jsonMarker))) :
      Tells view (.list branch true)
        ((ranksOf view branch).map fun rank => .listed (.ok (markers rank)))
        ⟨0, text ++ "\n", ""⟩
  | hashed {input : String} :
      Tells view (.hash input) [] ⟨0, s!"{Hash.exactElf (utf8 input)}\n", ""⟩

inductive Answers (view : UnionView) (c : Command) (answers : List Response) : Outcome → Prop
  | noBranch {rank : Nat} (hrank : c.rank? = some rank) (hlen : view.branches.length ≤ rank) :
      Answers view c answers
        ⟨1, "", s!"Error: {(Error.argument (.noBranch rank view.branches.length)).message}\n"⟩
  | failed {e : Error} (hrank : ∀ rank, c.rank? = some rank → rank < view.branches.length)
      (hfirst : answers.findSome? Response.error? = some e) :
      Answers view c answers ⟨1, "", s!"Error: {e.message}\n"⟩
  | told {o : Outcome} (hrank : ∀ rank, c.rank? = some rank → rank < view.branches.length)
      (htold : Tells view c answers o) : Answers view c answers o

end CommandLine

namespace UnionView

variable [Host] {view : UnionView} {s t : Session}

theorem run_append (s : Session) (front back : List Request) :
    (view.run s (front ++ back)).2 = (view.run (view.run s front).2 back).2 := by
  induction front generalizing s with
  | nil => rfl
  | cons r front ih => exact ih (r.perform view s).2

theorem run_map {α : Type} {ask : α → Request} (answer : α → Response)
    (h : ∀ a, (ask a).perform view s = (answer a, s)) (xs : List α) :
    view.run s (xs.map ask) = (xs.map answer, s) := by
  induction xs with
  | nil => rfl
  | cons a xs ih => rw [List.map_cons, run_cons, h, ih, List.map_cons]

theorem hide_eq_of_same (hfs : t.fs = s.fs) (hid : t.identity = s.identity) (path : Bytes)
    (rank : Nat) (kind : Kind) : (view.hide t path rank kind).1 = (view.hide s path rank kind).1 ∧
      (view.hide t path rank kind).2.fs = (view.hide s path rank kind).2.fs := by
  obtain ⟨hanswer, hsame⟩ :=
    view.hide_congr (s := s) (t := t) ⟨by rw [hfs], by rw [hfs]⟩ path rank kind
  refine ⟨hanswer, (view.hide_passesOn s path rank kind).unique ?_ hsame⟩
  refine (hfs ▸ view.hide_passesOn t path rank kind).congr fun l => ?_
  rw [hanswer, givesMarker_congr hid, givesMarker_sameTree hsame]

end UnionView

namespace CommandLine

variable {view : UnionView} {s : Session} {c : Command} {answers : List Response}
  {o : Outcome}

theorem modeText_eq {rank : Nat} {b : Branch} (hb : view.branches[rank]? = some b) :
    modeText view rank = b.mode.text := by
  rw [modeText, hb]
  rfl

theorem joinLines_eq (lines : List String) : joinLines lines = linesOf lines := by
  refine String.toList_injective ?_
  rw [joinLines, String.toList_join]
  induction lines with
  | nil => rfl
  | cons line later ih =>
    rw [linesOf, String.toList_append, String.toList_append, ← ih, List.map_cons,
      List.flatMap_cons, String.toList_append]

theorem selectedBranches_cases (hv : view.Accepted) (branch : Option Nat) :
    (∃ rank, branch = some rank ∧ view.branches.length ≤ rank ∧
      selectedBranches view branch = .error (.argument (.noBranch rank view.branches.length))) ∨
    (∀ rank, branch = some rank → rank < view.branches.length) ∧
      ∃ bs, selectedBranches view branch = .ok bs ∧ ranksOf view branch = bs.map Branch.rank ∧
        ∀ b ∈ bs, view.branches[b.rank]? = some b := by
  cases branch with
  | none =>
    refine .inr ⟨nofun, view.branches, rfl, ?_, fun b hb => hv.rank_of_mem hb⟩
    refine List.ext_getElem? fun i => ?_
    rw [ranksOf, List.getElem?_map]
    cases hb : view.branches[i]? with
    | none =>
      have hlen := List.getElem?_eq_none_iff.1 hb
      rw [List.getElem?_eq_none (by simpa using hlen)]
      rfl
    | some b =>
      have hlen := (List.getElem?_eq_some_iff.1 hb).1
      rw [List.getElem?_range hlen, Option.map_some, hv.ranked i b hb]
  | some rank =>
    cases hb : view.branches[rank]? with
    | none =>
      have hlen := List.getElem?_eq_none_iff.1 hb
      refine .inl ⟨rank, rfl, hlen, ?_⟩
      rw [selectedBranches, UnionView.branch, hb]
      rfl
    | some b =>
      have hlen := (List.getElem?_eq_some_iff.1 hb).1
      have hrank := hv.ranked rank b hb
      refine .inr ⟨fun rank' h => by cases h; exact hlen, [b], ?_, ?_, by simpa [hrank] using hb⟩
      · rw [selectedBranches, UnionView.branch, hb]
        rfl
      · rw [ranksOf, if_pos hlen, List.map_singleton, hrank]

theorem markersOf_of_all {fs : FileSystem} {markers : Nat → List Marker} {bs : List Branch}
    (h : ∀ b ∈ bs, view.markers fs b.rank = .ok (markers b.rank)) :
    markersOf view fs bs = .ok (bs.flatMap fun b => markers b.rank) := by
  induction bs with
  | nil => rfl
  | cons b bs ih =>
    rw [markersOf, h b List.mem_cons_self, ih fun c hc => h c (List.mem_cons_of_mem b hc)]
    rfl

theorem markersOf_of_error {fs : FileSystem} {bs : List Branch} {e : Error}
    (h : (bs.map fun b => Response.listed (view.markers fs b.rank)).findSome? Response.error? =
      some e) : markersOf view fs bs = .error e := by
  induction bs with
  | nil => cases h
  | cons b bs ih =>
    rw [List.map_cons, List.findSome?_cons] at h
    rw [markersOf]
    cases hb : view.markers fs b.rank with
    | error fault =>
      rw [hb] at h
      exact congrArg Except.error (Option.some.inj h)
    | ok found =>
      rw [hb] at h
      simp only [ih h, Except.map]

theorem markersOf_cases (view : UnionView) (fs : FileSystem) (bs : List Branch) :
    (∃ e, (bs.map fun b => Response.listed (view.markers fs b.rank)).findSome? Response.error? =
        some e ∧ markersOf view fs bs = .error e) ∨
      ∃ markers : Nat → List Marker, (∀ b ∈ bs, view.markers fs b.rank = .ok (markers b.rank)) ∧
        markersOf view fs bs = .ok (bs.flatMap fun b => markers b.rank) := by
  cases hfirst : (bs.map fun b => Response.listed (view.markers fs b.rank)).findSome?
      Response.error? with
  | some e => exact .inl ⟨e, rfl, markersOf_of_error hfirst⟩
  | none =>
    let markers rank := (view.markers fs rank).toOption.getD []
    have hmarkers : ∀ b ∈ bs, view.markers fs b.rank = .ok (markers b.rank) := by
      intro b hb
      have hgood := List.findSome?_eq_none_iff.1 hfirst _ (List.mem_map_of_mem hb)
      cases hlist : view.markers fs b.rank with
      | error e =>
        rw [hlist] at hgood
        cases hgood
      | ok ms => simp only [markers, hlist, Except.toOption, Option.getD_some]
    exact .inr ⟨markers, hmarkers, markersOf_of_all hmarkers⟩

theorem check_answers (hv : view.Accepted) (fs : FileSystem) (path : String) (branch : Option Nat) :
    Answers view (.check path branch)
      ((ranksOf view branch).map fun rank => .hidden (view.isHidden fs (utf8 path) rank))
      (check view fs (utf8 path) branch) := by
  rw [check]
  rcases selectedBranches_cases hv branch with
    ⟨rank, hrank, hlen, hselect⟩ | ⟨hrank, bs, hselect, hranks, hbs⟩
  · rw [hselect]
    exact .noBranch hrank hlen
  · have hlines : bs.map (checkLine view fs (utf8 path)) = (ranksOf view branch).map fun rank =>
        let state := if view.isHidden fs (utf8 path) rank then "hidden" else "visible"
        s!"{rank}\t{modeText view rank}\t{state}" := by
      rw [hranks, List.map_map]
      refine List.map_congr_left fun b hb => ?_
      simp only [checkLine, Function.comp_apply, modeText_eq (hbs b hb)]
    rw [hselect, Outcome.ofResult, joinLines_eq, hlines]
    exact .told hrank (.checked fun rank => view.isHidden fs (utf8 path) rank)

theorem toList_markerJson (m : Marker) : (markerJson m).toList =
    '\x7b' :: (Json.written "rank".toList ++ ':' :: (Nat.toDigits 10 m.rank ++
      ',' :: (Json.written "union_path".toList ++ ':' :: (Json.written (display m.unionPath).toList ++
        ',' :: (Json.written "kind".toList ++ ':' :: (Json.written m.kind.text.toList ++ ['\x7d'])))))) := by
  have hkeys : Json.written "rank".toList = "\"rank\"".toList ∧
      Json.written "union_path".toList = "\"union_path\"".toList ∧
        Json.written "kind".toList = "\"kind\"".toList := ⟨rfl, rfl, rfl⟩
  rw [hkeys.1, hkeys.2.1, hkeys.2.2]
  simp [markerJson, jsonString, String.toList_append, String.toList_ofList]

theorem value_markerJson (m : Marker) (depth : Nat) (tail : Json.Chars) :
    Json.value (depth + 2) ((markerJson m).toList ++ tail) = some (jsonMarker m, tail) := by
  rw [toList_markerJson]
  simp only [List.cons_append, List.append_assoc, List.nil_append]
  refine Json.value_object (fun fuel => ?_) ?_ (Json.written_append _ _)
  · change Json.objectMembers (Json.value (depth + 1)) (fuel + 2 + 1) _ = _
    rw [Json.objectMembers_next (Json.member_written _ (Json.value_toDigits depth _ _)),
      Json.objectMembers_next (Json.member_written _ (Json.value_written depth _ _)),
      Json.objectMembers_last (Json.member_written _ (Json.value_written depth _ _))]
    rfl
  · simp [Json.written]
    omega

theorem parse_markersText (ms : List Marker) :
    ∃ text, markersText true ms = text ++ "\n" ∧
      Json.parse text.toList = some (.array (ms.map jsonMarker)) := by
  refine ⟨"[" ++ String.intercalate "," (ms.map markerJson) ++ "]", ?_, ?_⟩
  · rw [markersText, if_pos rfl, String.append_assoc, String.append_assoc, String.append_assoc]
    rfl
  · rw [← @Json.parse_objects _ (fun m => (markerJson m).toList) jsonMarker ms
      (fun m => ⟨_, toList_markerJson m⟩) value_markerJson]
    simp [String.toList_intercalate, Function.comp_def]

theorem list_answers (hv : view.Accepted) (fs : FileSystem) (branch : Option Nat) (json : Bool) :
    Answers view (.list branch json)
      ((ranksOf view branch).map fun rank => .listed (view.markers fs rank))
      (list view fs branch json) := by
  rw [list]
  rcases selectedBranches_cases hv branch with
    ⟨rank, hrank, hlen, hselect⟩ | ⟨hrank, bs, hselect, hranks, -⟩
  · rw [hselect]
    exact .noBranch hrank hlen
  · rw [hselect]
    dsimp only
    rcases markersOf_cases view fs bs with ⟨e, hfirst, herror⟩ | ⟨markers, hmarkers, hall⟩
    · rw [herror]
      refine .failed hrank ?_
      rw [hranks, List.map_map]
      exact hfirst
    · have hanswers : (ranksOf view branch).map (fun rank => Response.listed (view.markers fs rank)) =
          (ranksOf view branch).map fun rank => .listed (.ok (markers rank)) := by
        rw [hranks, List.map_map, List.map_map]
        exact List.map_congr_left fun b hb => congrArg Response.listed (hmarkers b hb)
      rw [hall, hanswers, Outcome.ofResult, ← List.flatMap_map, ← hranks]
      cases json with
      | false =>
        rw [markersText, if_neg Bool.false_ne_true, joinLines_eq]
        exact .told hrank (.listed markers)
      | true =>
        obtain ⟨text, houtput, htext⟩ := parse_markersText ((ranksOf view branch).flatMap markers)
        rw [houtput]
        exact .told hrank (.listedJson markers htext)

theorem resolve_answers (hv : view.Accepted) (fs : FileSystem) (path : String) :
    Answers view (.resolve path) [.found (view.findBranch fs (utf8 path) 0)]
      (resolve view fs (utf8 path)) := by
  rw [resolve]
  cases hfound : view.findBranch fs (utf8 path) 0 with
  | error e => exact .failed nofun rfl
  | ok rank? =>
    cases rank? with
    | none =>
      simp only [Text.display_utf8]
      exact .told nofun .absent
    | some rank =>
      obtain ⟨-, ⟨b, full, hb, hfull, -⟩, -⟩ := UnionView.findBranch_eq_some hv hfound
      obtain ⟨-, -, -, rfl⟩ := BoundedPath.build_pair_eq_ok_iff.1 hfull
      simp only [(view.branch_ok_iff rank b).2 hb, hfull]
      exact .told nofun (.found hb)

theorem removedLine_utf8 (path : String) (rank : Nat) :
    removedLine (utf8 path) rank = s!"Removed whiteout for {path} in branch {rank}" := by
  unfold removedLine
  simp only [Text.display_utf8]

theorem reportOutcome_eq (path : String) (removed : List Nat) (failures : List CleanupFailure) :
    reportOutcome (utf8 path) ⟨removed, failures⟩ = ⟨0,
      if removed = [] ∧ failures = [] then s!"No whiteouts for {path}\n"
        else linesOf (removed.map fun rank => s!"Removed whiteout for {path} in branch {rank}"),
      linesOf (failures.map fun f =>
        s!"Warning: could not remove {display f.path} in branch {f.rank}: {f.reason.text}")⟩ := by
  have hremoved : removedLine (utf8 path) =
      fun rank => s!"Removed whiteout for {path} in branch {rank}" :=
    funext (removedLine_utf8 path)
  have hfailures : failureLine = fun f =>
      s!"Warning: could not remove {display f.path} in branch {f.rank}: {f.reason.text}" := by
    funext f
    unfold failureLine
    rfl
  simp only [reportOutcome, joinLines_eq, CleanupReport.isClean, Bool.and_eq_true,
    List.isEmpty_iff, Text.display_utf8, hremoved, hfailures]
  split
  · simp only [linesOf, String.append_empty]
    rfl
  · rfl

theorem unhide_answers (view : UnionView) (fs : FileSystem) (path : String) (last : Option Nat) :
    Answers view (.unhide path last) [.cleaned (view.unhide fs (utf8 path) last).1]
      (unhide view fs (utf8 path) last).1 := by
  rw [unhide]
  dsimp only
  cases (view.unhide fs (utf8 path) last).1 with
  | error e => exact .failed nofun rfl
  | ok report =>
    obtain ⟨removed, failures⟩ := report
    rw [Outcome.ofResult, reportOutcome_eq]
    exact .told nofun .cleaned

theorem exit_of_answers (h : Answers view c answers o) :
    (o.exit = 0 ↔ (∀ rank, c.rank? = some rank → rank < view.branches.length) ∧
        ∀ r ∈ answers, r.Succeeds) ∧ (o.exit = 0 ∨ o.exit = 1) := by
  cases h with
  | noBranch hrank hlen =>
    exact ⟨⟨nofun, fun h => absurd (h.1 _ hrank) (Nat.not_lt_of_le hlen)⟩, .inr rfl⟩
  | failed hrank hfirst =>
    obtain ⟨r, hr, he⟩ := List.exists_of_findSome?_eq_some hfirst
    exact ⟨⟨nofun, fun h => absurd (h.2 r hr) (Response.not_succeeds_of_error he)⟩, .inr rfl⟩
  | told hrank htold =>
    cases htold with
    | absent =>
      exact ⟨⟨nofun, fun h => (h.2 _ (List.mem_singleton_self _)).elim⟩, .inr rfl⟩
    | hashed => exact ⟨⟨fun _ => ⟨hrank, nofun⟩, fun _ => rfl⟩, .inl rfl⟩
    | checked | found | hid | cleaned | listed | listedJson =>
      refine ⟨⟨fun _ => ⟨hrank, ?_⟩, fun _ => rfl⟩, .inl rfl⟩
      simp [Response.Succeeds, Response.error?]

variable [Host]

theorem hide_answers (view : UnionView) (hid : s.identity = Host.process) (path : String)
    (rank : Nat) (dir : Bool) :
    Answers view (.hide path rank dir)
        [.done (view.hide s (utf8 path) rank (if dir then .dir else .file)).1]
        (hide view s.fs (utf8 path) rank dir).1 ∧
      (hide view s.fs (utf8 path) rank dir).2 =
        (view.hide s (utf8 path) rank (if dir then .dir else .file)).2.fs := by
  obtain ⟨hanswer, hafter⟩ := @UnionView.hide_eq_of_same _ view s
    (Session.start s.fs Host.process) rfl hid.symm (utf8 path) rank (if dir then .dir else .file)
  rw [hide]
  dsimp only
  rw [hanswer, hafter]
  refine ⟨?_, rfl⟩
  cases (view.hide s (utf8 path) rank (if dir then .dir else .file)).1 with
  | error e => exact .failed nofun rfl
  | ok =>
    cases dir with
    | true =>
      simp only [Outcome.ofResult, Text.display_utf8]
      exact .told nofun (.hid true)
    | false =>
      simp only [Outcome.ofResult, Text.display_utf8]
      exact .told nofun (.hid false)

/-- A command tells what the answers to its requests say and leaves what they leave. -/
theorem perform_answers (hv : view.Accepted) (hid : s.identity = Host.process) (c : Command) :
    Answers view c (view.run s (c.requests view)).1 (perform view s.fs c).1 ∧
      (perform view s.fs c).2 = (view.run s (c.requests view)).2.fs := by
  cases c with
  | check path branch =>
    rw [Command.requests, view.run_map (fun rank => .hidden (view.isHidden s.fs (utf8 path) rank))
      fun _ => rfl]
    exact ⟨check_answers hv s.fs path branch, rfl⟩
  | resolve path => exact ⟨resolve_answers hv s.fs path, rfl⟩
  | hide path rank dir => exact hide_answers view hid path rank dir
  | unhide path last => exact ⟨unhide_answers view s.fs path last, rfl⟩
  | list branch json =>
    rw [Command.requests, view.run_map (fun rank => .listed (view.markers s.fs rank))
      fun _ => rfl]
    exact ⟨list_answers hv s.fs branch json, rfl⟩
  | hash input =>
    refine ⟨?_, rfl⟩
    rw [perform, hash, (Hash.follows_elf _).toNat_eq]
    exact .told (fun rank hrank => by cases hrank) .hashed

end CommandLine

end Whiteout
