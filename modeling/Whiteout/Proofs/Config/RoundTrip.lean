import Whiteout.Config.Basic
import Whiteout.Proofs.Toml.Document

/-!
# Configurations read back

The text of a configuration is read line by line as the settings that are made, and behind them as
an element of the array of branches for each branch. From these entries the configuration comes back
as it was, field by field, with what was not set not set again.
-/

namespace Whiteout.Config

open Toml (Chars Entries Line Reads ReadsValue Value find? pairsOf elementsOf written)

variable {rest text : Chars} {found : List Line}

def optionalEntry (key : String) (v : Option Value) : Entries := v.toList.map fun v => (key.toList, v)

def settingEntries (c : Config) : Entries :=
  ("cow_enabled".toList, .boolean c.cowEnabled) ::
    (optionalEntry "max_path_len" (c.maxPathLen.map fun n : Nat => .integer n) ++
      optionalEntry "meta_dir" (c.metaDir.map fun s => .string s.toList) ++
      optionalEntry "hide_tag" (c.hideTag.map fun s => .string s.toList))

def branchEntries (b : BranchSpec) : Entries :=
  [("path".toList, .string b.path.toList), ("mode".toList, .string b.mode.text.toList)]

def branchesValue : List BranchSpec → Value
  | [] => .array []
  | branches => .tables (branches.map branchEntries)

def entries (c : Config) : Entries :=
  c.settingEntries ++ [("branches".toList, branchesValue c.branches)]

def settingLines (entries : Entries) : List Line := (pairsOf entries).map .setting

def branchLines (b : BranchSpec) : List Line :=
  .blank :: .header (.element [] "branches".toList) :: settingLines (branchEntries b)

def branchesLines : List BranchSpec → List Line
  | [] => settingLines [("branches".toList, branchesValue [])]
  | branches => branches.flatMap branchLines

theorem readsValue_boolText (b : Bool) : ReadsValue (boolText b) (.boolean b) := by
  cases b with
  | false => exact Toml.readsValue_false
  | true => exact Toml.readsValue_true

theorem reads_setting (key : String) {v : Value} (hkey : Toml.IsBareKey key.toList)
    (hvalue : ReadsValue text v) (h : Reads rest found) :
    Reads (setting key text ++ rest) (settingLines [(key.toList, v)] ++ found) := by
  have htext : setting key text ++ rest =
      key.toList ++ ' ' :: '=' :: ' ' :: (text ++ '\n' :: rest) := by
    simp [setting]
  rw [htext]
  exact h.setting hkey hvalue

theorem reads_optionalSetting {α : Type} (key : String) (hkey : Toml.IsBareKey key.toList)
    (set : Option α) {text : α → Chars} {v : α → Value}
    (hvalue : ∀ a, set = some a → ReadsValue (text a) (v a)) (h : Reads rest found) :
    Reads (optionalSetting key (set.map text) ++ rest)
      (settingLines (optionalEntry key (set.map v)) ++ found) := by
  cases set with
  | none => exact h
  | some a => exact reads_setting key hkey (hvalue a rfl) h

theorem reads_branchText (b : BranchSpec) (h : Reads rest found) :
    Reads (branchText b ++ rest) (branchLines b ++ found) := by
  have hkey : Toml.IsBareKey "branches".toList := by decide
  have hmode := reads_setting "mode" (by decide) (Toml.readsValue_written b.mode.text.toList) h
  have hpath := reads_setting "path" (by decide) (Toml.readsValue_written b.path.toList) hmode
  have htext : branchText b = "\n[[branches]]\n".toList ++ setting "path" (written b.path.toList) ++
      setting "mode" (written b.mode.text.toList) := rfl
  have hheader (more : Chars) : "\n[[branches]]\n".toList ++ more =
      '\n' :: '[' :: '[' :: ("branches".toList ++ ']' :: ']' :: '\n' :: more) := by
    simp
  rw [htext, List.append_assoc, List.append_assoc, hheader]
  exact (hpath.element hkey).blank

theorem reads_branchesText (branches : List BranchSpec) :
    Reads (branchesText branches) (branchesLines branches) := by
  cases branches with
  | nil =>
    have hnone := reads_setting "branches" (by decide) Toml.readsValue_nothing .nil
    rwa [List.append_nil, List.append_nil] at hnone
  | cons b others =>
    have hall (branches : List BranchSpec) :
        Reads (branches.flatMap branchText) (branches.flatMap branchLines) := by
      induction branches with
      | nil => exact .nil
      | cons b others ih =>
        rw [List.flatMap_cons, List.flatMap_cons]
        exact reads_branchText b ih
    exact hall (b :: others)

theorem reads_tomlText {c : Config} (h : c.writable = true) :
    Reads c.tomlText (settingLines c.settingEntries ++ branchesLines c.branches) := by
  have hlimit : ∀ n, c.maxPathLen = some n →
      ReadsValue (Nat.toDigits 10 n) (.integer n) := by
    intro n hn
    rw [writable, hn] at h
    exact Toml.readsValue_toDigits (by simpa using h)
  have hread := reads_setting "cow_enabled" (by decide) (readsValue_boolText c.cowEnabled)
    (reads_optionalSetting "max_path_len" (by decide) c.maxPathLen hlimit
      (reads_optionalSetting "meta_dir" (by decide) c.metaDir
        (fun s _ => Toml.readsValue_written s.toList)
        (reads_optionalSetting "hide_tag" (by decide) c.hideTag
          (fun s _ => Toml.readsValue_written s.toList) (reads_branchesText c.branches))))
  simpa [tomlText, settingLines, settingEntries, pairsOf] using hread

theorem sections_settingLines (entries : Entries) (found : List Line) :
    Toml.sections (settingLines entries ++ found) =
      (pairsOf entries ++ (Toml.sections found).1, (Toml.sections found).2) := by
  induction entries with
  | nil => rfl
  | cons e others ih =>
    have hlines : settingLines (e :: others) ++ found =
        .setting ⟨[], e.1, e.2⟩ :: (settingLines others ++ found) := rfl
    rw [hlines, Toml.sections, ih]
    rfl

theorem sections_branchLines (branches : List BranchSpec) :
    Toml.sections (branches.flatMap branchLines) =
      ([], elementsOf "branches".toList (branches.map branchEntries)) := by
  induction branches with
  | nil => rfl
  | cons b others ih =>
    rw [List.flatMap_cons, branchLines, List.cons_append, List.cons_append, Toml.sections,
      Toml.sections, sections_settingLines, ih, List.append_nil]
    rfl

theorem nodup_keys (c : Config) :
    (c.settingEntries.map Prod.fst ++ ["branches".toList]).Nodup := by
  obtain ⟨cowEnabled, maxPathLen, metaDir, hideTag, branches⟩ := c
  cases maxPathLen <;> cases metaDir <;> cases hideTag <;> simp [settingEntries, optionalEntry]

theorem parse_tomlText {c : Config} (h : c.writable = true) :
    Toml.parse c.tomlText = some c.entries := by
  have hnodup := c.nodup_keys
  have hnew : "branches".toList ∉ c.settingEntries.map Prod.fst :=
    fun hmem => (List.nodup_append.1 hnodup).2.2 _ hmem _ (List.mem_singleton.2 rfl) rfl
  have hmark : Toml.skipMark c.tomlText = c.tomlText := rfl
  have hlines := reads_tomlText h (c.tomlText.length + 1) (Nat.lt_succ_self _)
  rw [Toml.parse, hmark, hlines]
  dsimp only
  rw [sections_settingLines]
  cases hbranches : c.branches with
  | nil =>
    have hpairs : pairsOf c.settingEntries ++ (Toml.sections (branchesLines [])).1 =
        pairsOf c.entries := by
      rw [entries, hbranches, pairsOf, pairsOf, List.map_append]
      rfl
    have hset : Toml.setPairs (pairsOf c.entries) [] = some c.entries :=
      Toml.setPairs_item (by rwa [entries, List.map_append])
    rw [hpairs, hset]
    rfl
  | cons b others =>
    have hset : Toml.setPairs (pairsOf c.settingEntries) [] = some c.settingEntries :=
      Toml.setPairs_item (List.nodup_append.1 hnodup).1
    have hitems : ∀ item ∈ (b :: others).map branchEntries, (item.map Prod.fst).Nodup := by
      intro item hitem
      obtain ⟨branch, -, rfl⟩ := List.mem_map.1 hitem
      simp [branchEntries]
    rw [branchesLines, sections_branchLines, List.append_nil, hset, Option.bind_some,
      Toml.addSections_elementsOf hnew (by simp) hitems, entries, hbranches]
    · rfl
    · simp

theorem find?_optionalEntry (key : List Char) (name : String) (v : Option Value) :
    find? key (optionalEntry name v) = if name.toList = key then v else none := by
  cases v with
  | none => simp [optionalEntry, Toml.find?_nil]
  | some v => simp [optionalEntry, Toml.find?_cons, Toml.find?_nil]

theorem modeOf_text (m : Mode) : modeOf (some (.string m.text.toList)) = some m := by
  rw [modeOf, String.ofList_toList, Mode.ofText?_text]

theorem branchOfTable_branchEntries (b : BranchSpec) :
    branchOfTable (branchEntries b) = some b := by
  have hpath : find? "path".toList (branchEntries b) = some (.string b.path.toList) := by
    simp [branchEntries, Toml.find?_cons]
  have hmode : find? "mode".toList (branchEntries b) = some (.string b.mode.text.toList) := by
    simp [branchEntries, Toml.find?_cons]
  rw [branchOfTable, hpath, hmode, modeOf_text, textOf, String.ofList_toList]

theorem mapM_branchEntries (branches : List BranchSpec) :
    (branches.map branchEntries).mapM branchOfTable = some branches := by
  induction branches with
  | nil => rfl
  | cons b others ih =>
    rw [List.map_cons, List.mapM_cons, branchOfTable_branchEntries, ih]
    rfl

theorem branchesOf_branchesValue (branches : List BranchSpec) :
    branchesOf (some (branchesValue branches)) = some branches := by
  cases branches with
  | nil => rfl
  | cons b others => exact mapM_branchEntries (b :: others)

theorem find?_entries (c : Config) :
    find? "cow_enabled".toList c.entries = some (.boolean c.cowEnabled) ∧
    find? "max_path_len".toList c.entries = c.maxPathLen.map (fun n : Nat => .integer n) ∧
    find? "meta_dir".toList c.entries = c.metaDir.map (fun s => .string s.toList) ∧
    find? "hide_tag".toList c.entries = c.hideTag.map (fun s => .string s.toList) ∧
    find? "branches".toList c.entries = some (branchesValue c.branches) := by
  simp [entries, settingEntries, Toml.find?_cons, Toml.find?_append, Toml.find?_nil,
    find?_optionalEntry]

theorem ofEntries_entries (c : Config) : ofEntries c.entries = some c := by
  obtain ⟨hcow, hlimit, hdir, htag, hbranches⟩ := c.find?_entries
  have htext (set : Option String) :
      textOf (set.map fun s => .string s.toList) = some set := by
    cases set with
    | none => rfl
    | some s => rw [Option.map_some, textOf, String.ofList_toList]
  have hnumber (set : Option Nat) :
      limitOf (set.map fun n : Nat => .integer n) = some set := by
    cases set <;> rfl
  rw [ofEntries, hcow, hlimit, hdir, htag, hbranches, hnumber, htext, htext,
    branchesOf_branchesValue]
  rfl

/-- What is written for a configuration is read as that configuration. -/
theorem ofToml?_toToml? {c : Config} {text : String} (h : c.toToml? = some text) :
    ofToml? text = some c := by
  rw [toToml?] at h
  split at h
  · next hwritable =>
    cases h
    rw [ofToml?, String.toList_ofList, parse_tomlText hwritable, Option.bind_some, ofEntries_entries]
  · cases h

end Whiteout.Config
