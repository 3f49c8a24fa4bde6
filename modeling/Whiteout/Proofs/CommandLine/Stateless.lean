import Whiteout.Proofs.CommandLine.Answers
import Whiteout.Proofs.FileSystem.Unaffected
import Whiteout.Proofs.Marker.Frame
import Whiteout.Proofs.Mirror.Layout

/-!
# One union behind all invocations

Every invocation reads its configuration again, from a tree that the invocations before it have
changed. But they change the metadata trees alone, so as long as the way to the configuration file
keeps clear of these, the same union is opened each time: the invocations do what one union opened
at the start does for the same requests, and tell what it answers.
-/

namespace Whiteout.CommandLine

open Text (utf8)
open Whiteout.FileSystem (KeepsOutside SameAlong startOf)
open Whiteout.Path (components)

variable {env : Environment} {fs other : FileSystem} {config branches : Option String}
  {view : UnionView} {e : Error}

theorem ofConfig_of_mapError {home : Option String} {c : Config}
    (h : (UnionView.ofConfig home c).mapError Error.config = .ok view) :
    UnionView.ofConfig home c = .ok view := by
  cases hview : UnionView.ofConfig home c with
  | error fault =>
    rw [hview] at h
    cases h
  | ok opened =>
    rw [hview] at h
    cases h
    rfl

section

variable [Host]

/-- The configuration file that is read, or that would be if it were there. -/
def configFile (env : Environment) : Option String → Except Error Bytes
  | some path => .ok (utf8 path)
  | none => env.configPath

/-- No front of the configuration file's path names a place at or below a metadata directory. -/
def ConfigApart (env : Environment) (view : UnionView) (fs : FileSystem) (config : Option String) :
    Prop :=
  ∀ path, configFile env config = .ok path → ∀ n ≤ (components path).length,
    ∀ b ∈ view.branches,
      ¬view.metaPlace fs b <+: (startOf fs.cwd path).along ((components path).take n)

def leave (env : Environment) (config branches : Option String) (fs : FileSystem) (c : Command) :
    FileSystem :=
  (run env fs ⟨config, branches, c⟩).2

theorem load_congr (hfree : fs.tree.LinkFree)
    (h : ∀ path, configFile env config = .ok path → SameAlong fs other path) :
    Config.load env other (config.map utf8) = Config.load env fs (config.map utf8) := by
  cases config with
  | some path =>
    have hsame := h (utf8 path) rfl
    simp only [Option.map_some, Config.load, Config.loadFrom, hsame.textAt_eq hfree]
  | none =>
    simp only [Option.map_none, Config.load, Config.loadDefault]
    cases hpath : env.configPath with
    | error e => rfl
    | ok path =>
      have hsame := h path hpath
      simp only [hsame.exists?_eq hfree, Config.loadFrom, hsame.textAt_eq hfree]

theorem openUnion_congr (hfree : fs.tree.LinkFree)
    (h : ∀ path, configFile env config = .ok path → SameAlong fs other path) :
    openUnion env other config branches = openUnion env fs config branches := by
  rw [openUnion, openUnion, load_congr hfree h]

theorem accepted_of_openUnion (h : openUnion env fs config branches = .ok view) :
    view.Accepted := by
  rw [openUnion] at h
  split at h
  · cases h
  · split at h
    · exact UnionView.accepted_of_ofConfig (ofConfig_of_mapError h)
    · split at h
      · cases h
      · exact UnionView.accepted_of_ofConfig (ofConfig_of_mapError h)

theorem sameAlong_of_keeps (hapart : ConfigApart env view fs config)
    (hkeeps : KeepsOutside (view.InMetaTree fs) fs other) {path : Bytes}
    (hpath : configFile env config = .ok path) : SameAlong fs other path := by
  refine ⟨hkeeps.cwd, fun front hfront => hkeeps.same _ fun hregion => ?_⟩
  obtain ⟨b, hb, hpre⟩ := hregion
  rw [List.prefix_iff_eq_take.1 hfront] at hpre
  exact hapart path hpath front.length hfront.length_le b hb hpre

theorem run_of_open (h : openUnion env fs config branches = .ok view) (c : Command) :
    run env fs ⟨config, branches, c⟩ = perform view fs c := by
  cases c with
  | hash input => rfl
  | _ => simp only [run, h]

theorem run_of_closed (h : openUnion env fs config branches = .error e) (c : Command) :
    run env fs ⟨config, branches, c⟩ =
      (match c with
        | .hash input => ⟨0, s!"{Hash.exactElf (utf8 input)}\n", ""⟩
        | _ => ⟨1, "", s!"Error: {e.message}\n"⟩, fs) := by
  cases c with
  | hash input => simp only [run, hash, Outcome.done, (Hash.follows_elf _).toNat_eq]
  | _ => simp only [run, h, Outcome.failed]

section

variable (hopen : openUnion env fs config branches = .ok view) (hfree : fs.tree.LinkFree)
  (hapart : ConfigApart env view fs config)
include hopen hfree hapart

/-- An invocation on what the union has left so far does and tells what the union does next. -/
theorem run_answers {s : Session} (hkeeps : KeepsOutside (view.InMetaTree fs) fs s.fs)
    (hid : s.identity = Host.process) (c : Command) :
    Answers view c (view.run s (c.requests view)).1 (run env s.fs ⟨config, branches, c⟩).1 ∧
      (run env s.fs ⟨config, branches, c⟩).2 = (view.run s (c.requests view)).2.fs := by
  have hsame : openUnion env s.fs config branches = openUnion env fs config branches :=
    openUnion_congr hfree fun path hpath => sameAlong_of_keeps hapart hkeeps hpath
  rw [run_of_open (hsame.trans hopen)]
  exact perform_answers (accepted_of_openUnion hopen) hid c

omit hapart in
theorem run_keeps_outside {s : Session} (hkeeps : KeepsOutside (view.InMetaTree fs) fs s.fs)
    (requests : List Request) :
    KeepsOutside (view.InMetaTree fs) fs (view.run s requests).2.fs := by
  have hrun := UnionView.run_keeps (accepted_of_openUnion hopen) (hkeeps.linkFree hfree) requests
  rw [UnionView.InMetaTree.congr hkeeps.cwd] at hrun
  exact hkeeps.trans hrun

theorem leaves_eq {s : Session} (hkeeps : KeepsOutside (view.InMetaTree fs) fs s.fs)
    (hid : s.identity = Host.process) (commands : List Command) :
    commands.foldl (leave env config branches) s.fs =
      (view.run s (commands.flatMap (Command.requests view))).2.fs := by
  induction commands generalizing s with
  | nil => rfl
  | cons c later ih =>
    obtain ⟨-, hleaves⟩ := run_answers hopen hfree hapart hkeeps hid c
    rw [List.foldl_cons, leave, hleaves, List.flatMap_cons, UnionView.run_append]
    exact ih (run_keeps_outside hopen hfree hkeeps _) ((view.run_identity s _).trans hid)

end

theorem leaves_of_closed (h : openUnion env fs config branches = .error e)
    (commands : List Command) : commands.foldl (leave env config branches) fs = fs := by
  induction commands with
  | nil => rfl
  | cons c later ih => rw [List.foldl_cons, leave, run_of_closed h, ih]

theorem invocations_follow_one_union (hfree : fs.tree.LinkFree) (env : Environment)
    (config branches : Option String) (earlier : List Command) (c : Command) :
    let now := earlier.foldl (leave env config branches) fs
    let invocation : Invocation := ⟨config, branches, c⟩
    (∀ view, openUnion env fs config branches = .ok view → ConfigApart env view fs config →
      let s := (view.run (.start fs Host.process) (earlier.flatMap (Command.requests view))).2
      let answers := (view.run s (c.requests view)).1
      now = s.fs ∧
      Answers view c answers (run env now invocation).1 ∧
      (run env now invocation).2 = (view.run s (c.requests view)).2.fs ∧
      ((run env now invocation).1.exit = 0 ↔
        (∀ rank, c.rank? = some rank → rank < view.branches.length) ∧
          ∀ r ∈ answers, r.Succeeds) ∧
      ((run env now invocation).1.exit = 0 ∨ (run env now invocation).1.exit = 1)) ∧
    ∀ e, openUnion env fs config branches = .error e →
      now = fs ∧ run env now invocation =
        (match c with
          | .hash input => ⟨0, s!"{Hash.exactElf (utf8 input)}\n", ""⟩
          | _ => ⟨1, "", s!"Error: {e.message}\n"⟩, fs) := by
  intro now invocation
  refine ⟨fun view hopen hapart => ?_, fun e hclosed => ?_⟩
  · intro s answers
    have hstart : KeepsOutside (view.InMetaTree fs) fs (Session.start fs Host.process).fs := .refl fs
    have hnow : now = s.fs := leaves_eq hopen hfree hapart hstart rfl earlier
    have hid : s.identity = Host.process := view.run_identity (.start fs Host.process) _
    obtain ⟨htells, hleaves⟩ :=
      run_answers hopen hfree hapart (run_keeps_outside hopen hfree hstart _) hid c
    rw [hnow]
    exact ⟨rfl, htells, hleaves, exit_of_answers htells⟩
  · have hnow : now = fs := leaves_of_closed hclosed earlier
    rw [hnow]
    exact ⟨rfl, run_of_closed hclosed c⟩

end

attribute [local instance] Sample.host

theorem invocations_follow_one_union_sample :
    let env : Environment := ⟨some "home", some "conf", none⟩
    let branches := some "up=RW:low=RO"
    let earlier := [Command.hide "a" 0 false]
    earlier.foldl (leave env none branches) Sample.session.fs =
      (Sample.view.run Sample.session [.hide (utf8 "a") 0 .file]).2.fs ∧
    (run env (earlier.foldl (leave env none branches) Sample.session.fs)
      ⟨none, branches, .check "a" none⟩).1 = ⟨0, "0\trw\thidden\n1\tro\tvisible\n", ""⟩ ∧
    (run env (earlier.foldl (leave env none branches) Sample.session.fs)
      ⟨none, branches, .list none true⟩).1 =
        ⟨0, "[\x7b\"rank\":0,\"union_path\":\"/a\",\"kind\":\"file\"\x7d]\n", ""⟩ := by
  intro env branches earlier
  have hopen : openUnion env Sample.session.fs none branches = .ok Sample.view := by
    decide +kernel
  have hapart : ConfigApart env Sample.view Sample.session.fs none := by
    have hfile : configFile env none = .ok (utf8 "conf/config.toml") := by decide +kernel
    intro path hpath
    cases hfile.symm.trans hpath
    decide +kernel
  have hstart : Session.start Sample.session.fs Host.process = Sample.session := rfl
  have hrequests : earlier.flatMap (Command.requests Sample.view) =
      [.hide (utf8 "a") 0 .file] := rfl
  have hfollow := (invocations_follow_one_union Sample.ready.linkFree env none
    branches earlier (.check "a" none)).1 Sample.view hopen hapart
  rw [hstart, hrequests] at hfollow
  have hnow := hfollow.1
  refine ⟨hnow, ?_, ?_⟩
  · rw [hnow]
    decide +kernel
  · rw [hnow]
    decide +kernel

end Whiteout.CommandLine
