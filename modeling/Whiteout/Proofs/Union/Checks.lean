import Whiteout.Proofs.Marker.Rendering

/-!
# What the checks of a configuration ask for

The checks are a list of conditions in a fixed order, each with the fault that is reported where it
is the first that does not hold. A view is opened exactly if all of them hold, and it is the
configuration with its defaults filled in and its branches numbered. As its roots fit and its
metadata name is one component, only the length of the whole can keep a metadata directory from
being named.
-/

namespace Whiteout.UnionView

open Text (utf8)
open Environment (expandTilde)

structure Condition where
  holds : Bool
  fault : ConfigFault

def firstFault? (conditions : List Condition) : Option ConfigFault :=
  (conditions.find? fun c => !c.holds).map Condition.fault

def fieldConditions (field value : String) : List Condition :=
  [⟨value ≠ "", .emptyField field⟩, ⟨'/' ∉ value.toList, .separatorInField field value⟩]

def rootConditions (limit rank : Nat) (root : Bytes) : List Condition :=
  [⟨root ≠ [], .emptyRoot rank⟩, ⟨root.length + 1 ≤ limit, .rootTooLong rank root limit⟩]

def branchConditions (home : Option String) (limit : Nat) (spec : BranchSpec × Nat) :
    List Condition :=
  rootConditions limit spec.2 (expandTilde home spec.1.path)

/-- Everything that is asked of a configuration, in the order of the checks. -/
def conditions (home : Option String) (config : Config) : List Condition :=
  ⟨0 < config.effectiveMaxPathLen, .noPathLimit⟩ ::
    (fieldConditions "meta_dir" config.effectiveMetaDir ++
      (fieldConditions "hide_tag" config.effectiveHideTag ++
        ⟨config.branches ≠ [], .noBranches⟩ ::
          config.branches.zipIdx.flatMap (branchConditions home config.effectiveMaxPathLen)))

structure Valid (home : Option String) (config : Config) : Prop where
  limited : 0 < config.effectiveMaxPathLen
  metaDir : config.effectiveMetaDir ≠ "" ∧ '/' ∉ config.effectiveMetaDir.toList
  hideTag : config.effectiveHideTag ≠ "" ∧ '/' ∉ config.effectiveHideTag.toList
  branched : config.branches ≠ []
  rooted : ∀ spec ∈ config.branches, expandTilde home spec.path ≠ [] ∧
    (expandTilde home spec.path).length + 1 ≤ config.effectiveMaxPathLen

def numbered (home : Option String) (spec : BranchSpec × Nat) : Branch :=
  ⟨spec.2, expandTilde home spec.1.path, spec.1.mode⟩

def opened (home : Option String) (config : Config) : UnionView :=
  { branches := config.branches.zipIdx.map (numbered home)
    cowEnabled := config.cowEnabled
    maxPathLen := config.effectiveMaxPathLen
    metaDir := utf8 config.effectiveMetaDir
    hideTag := utf8 config.effectiveHideTag }

variable {home : Option String} {config : Config} {view : UnionView}

theorem firstFault?_nil : firstFault? [] = none := rfl

theorem firstFault?_cons_of_true {holds : Prop} [Decidable holds] (h : holds) (fault : ConfigFault)
    (others : List Condition) : firstFault? (⟨holds, fault⟩ :: others) = firstFault? others := by
  rw [firstFault?, List.find?_cons_of_neg (by simp [h]), firstFault?]

theorem firstFault?_cons_of_false {holds : Prop} [Decidable holds] (h : ¬holds)
    (fault : ConfigFault) (others : List Condition) :
    firstFault? (⟨holds, fault⟩ :: others) = some fault := by
  rw [firstFault?, List.find?_cons_of_pos (by simp [h]), Option.map_some]

theorem firstFault?_append (front back : List Condition) :
    firstFault? (front ++ back) = (firstFault? front).or (firstFault? back) := by
  rw [firstFault?, List.find?_append, Option.map_or]
  rfl

theorem firstFault?_eq_none_iff {conditions : List Condition} :
    firstFault? conditions = none ↔ ∀ c ∈ conditions, c.holds = true := by
  rw [firstFault?, Option.map_eq_none_iff, List.find?_eq_none]
  simp

theorem fieldFault?_eq (field value : String) :
    fieldFault? field value = firstFault? (fieldConditions field value) := by
  rw [fieldFault?, fieldConditions]
  by_cases hempty : value = ""
  · rw [if_pos (by simp [hempty]), firstFault?_cons_of_false (by simp [hempty])]
  · rw [if_neg (by simp [hempty]), firstFault?_cons_of_true hempty]
    by_cases hslash : '/' ∈ value.toList
    · rw [if_pos hslash, firstFault?_cons_of_false (not_not_intro hslash)]
    · rw [if_neg hslash, firstFault?_cons_of_true hslash, firstFault?_nil]

theorem rootFault?_eq (limit rank : Nat) (root : Bytes) :
    rootFault? limit rank root = firstFault? (rootConditions limit rank root) := by
  rw [rootFault?, rootConditions]
  by_cases hempty : root = []
  · rw [if_pos hempty, firstFault?_cons_of_false (not_not_intro hempty)]
  · rw [if_neg hempty, firstFault?_cons_of_true hempty]
    by_cases hfit : root.length + 1 ≤ limit
    · rw [if_neg (Nat.not_lt_of_le hfit), firstFault?_cons_of_true hfit, firstFault?_nil]
    · rw [if_pos (Nat.lt_of_not_le hfit), firstFault?_cons_of_false hfit]

theorem rankedFrom_eq (home : Option String) (limit rank : Nat) (specs : List BranchSpec) :
    rankedFrom home limit rank specs =
      match firstFault? ((specs.zipIdx rank).flatMap (branchConditions home limit)) with
      | some fault => .error fault
      | none => .ok ((specs.zipIdx rank).map (numbered home)) := by
  induction specs generalizing rank with
  | nil => rfl
  | cons spec others ih =>
    rw [rankedFrom, List.zipIdx_cons, List.flatMap_cons, firstFault?_append, branchConditions,
      ← rootFault?_eq, ih]
    cases rootFault? limit rank (expandTilde home spec.path) with
    | some fault => rfl
    | none =>
      cases firstFault? ((others.zipIdx (rank + 1)).flatMap (branchConditions home limit)) with
      | some fault => rfl
      | none => rfl

theorem ofConfig_eq (home : Option String) (config : Config) : ofConfig home config =
    match firstFault? (conditions home config) with
    | some fault => .error fault
    | none => .ok (opened home config) := by
  rw [ofConfig, conditions]
  by_cases hlimit : config.effectiveMaxPathLen = 0
  · rw [if_pos hlimit, firstFault?_cons_of_false (by simp [hlimit])]
  · rw [if_neg hlimit, firstFault?_cons_of_true (Nat.pos_of_ne_zero hlimit), firstFault?_append,
      firstFault?_append, ← fieldFault?_eq, ← fieldFault?_eq]
    cases fieldFault? "meta_dir" config.effectiveMetaDir with
    | some fault => rfl
    | none =>
      cases fieldFault? "hide_tag" config.effectiveHideTag with
      | some fault => rfl
      | none =>
        dsimp only
        by_cases hnone : config.branches = []
        · rw [if_pos hnone, firstFault?_cons_of_false (not_not_intro hnone)]
          rfl
        · rw [if_neg hnone, firstFault?_cons_of_true hnone, rankedFrom_eq]
          cases firstFault? (config.branches.zipIdx.flatMap
              (branchConditions home config.effectiveMaxPathLen)) with
          | some fault => rfl
          | none => rfl

theorem holds_fieldConditions_iff {field value : String} :
    (∀ c ∈ fieldConditions field value, c.holds = true) ↔ value ≠ "" ∧ '/' ∉ value.toList := by
  simp [fieldConditions]

theorem holds_rootConditions_iff {limit rank : Nat} {root : Bytes} :
    (∀ c ∈ rootConditions limit rank root, c.holds = true) ↔
      root ≠ [] ∧ root.length + 1 ≤ limit := by
  simp [rootConditions]

theorem holds_branchConditions_iff {limit rank : Nat} {specs : List BranchSpec} :
    (∀ c ∈ (specs.zipIdx rank).flatMap (branchConditions home limit), c.holds = true) ↔
      ∀ spec ∈ specs, expandTilde home spec.path ≠ [] ∧
        (expandTilde home spec.path).length + 1 ≤ limit := by
  induction specs generalizing rank with
  | nil => simp
  | cons spec others ih =>
    rw [List.zipIdx_cons, List.flatMap_cons, List.forall_mem_append, ih, List.forall_mem_cons,
      branchConditions, holds_rootConditions_iff]

theorem holds_iff_valid :
    (∀ c ∈ conditions home config, c.holds = true) ↔ Valid home config := by
  simp only [conditions, List.forall_mem_cons, List.forall_mem_append, holds_fieldConditions_iff,
    holds_branchConditions_iff, decide_eq_true_eq]
  constructor
  · rintro ⟨hlimit, hdir, htag, hbranched, hrooted⟩
    exact ⟨hlimit, hdir, htag, hbranched, hrooted⟩
  · intro h
    exact ⟨h.limited, h.metaDir, h.hideTag, h.branched, h.rooted⟩

theorem ofConfig_eq_ok_iff :
    ofConfig home config = .ok view ↔ Valid home config ∧ view = opened home config := by
  rw [ofConfig_eq, ← holds_iff_valid, ← firstFault?_eq_none_iff]
  cases firstFault? (conditions home config) with
  | some fault => simp
  | none => simp [eq_comm]

theorem ofConfig_eq_error_iff {fault : ConfigFault} :
    ofConfig home config = .error fault ↔
      firstFault? (conditions home config) = some fault := by
  rw [ofConfig_eq]
  cases firstFault? (conditions home config) with
  | some fault => simp
  | none => simp

theorem getElem?_opened (home : Option String) (config : Config) (i : Nat) :
    (opened home config).branches[i]? = config.branches[i]?.map fun spec =>
      (⟨i, expandTilde home spec.path, spec.mode⟩ : Branch) := by
  simp only [opened, List.getElem?_map, List.getElem?_zipIdx, Option.map_map, Nat.zero_add]
  rfl

theorem length_opened (home : Option String) (config : Config) :
    (opened home config).branches.length = config.branches.length := by
  simp [opened]

theorem exists_branch_iff {i : Nat} : (∃ b, view.branch i = .ok b) ↔ i < view.branches.length := by
  simp [branch_ok_iff, ← Option.isSome_iff_exists]

theorem metaRoot_error (hv : view.Accepted) {i : Nat} (hi : i < view.branches.length) {e : Error}
    (h : view.metaRoot i = .error e) : ∃ length, e = .nameTooLong length view.maxPathLen := by
  have hb : view.branches[i]? = some view.branches[i] := List.getElem?_eq_getElem hi
  rw [metaRoot_eq_through hv hb, BoundedPath.through] at h
  split at h
  · cases h
    exact ⟨_, rfl⟩
  · cases h

/-- A configuration is accepted exactly if it is valid, and refused for the first condition that it
violates; the view has its branches in order and its settings with their defaults. -/
theorem ofConfig_exactly (home : Option String) (config : Config) :
    ((∃ view, ofConfig home config = .ok view) ↔ Valid home config) ∧
      (∀ fault, ofConfig home config = .error fault ↔
        firstFault? (conditions home config) = some fault) ∧
      ∀ view, ofConfig home config = .ok view →
        (∀ i, view.branches[i]? = config.branches[i]?.map fun spec =>
          (⟨i, expandTilde home spec.path, spec.mode⟩ : Branch)) ∧
        (∀ i, (∃ b, view.branch i = .ok b) ↔ i < config.branches.length) ∧
        view.cowEnabled = config.cowEnabled ∧ view.maxPathLen = config.effectiveMaxPathLen ∧
        view.metaDir = utf8 config.effectiveMetaDir ∧ view.hideTag = utf8 config.effectiveHideTag ∧
        ∀ i e, i < config.branches.length → view.metaRoot i = .error e →
          ∃ length, e = .nameTooLong length view.maxPathLen := by
  refine ⟨?_, fun fault => ofConfig_eq_error_iff, fun view h => ?_⟩
  · simp only [ofConfig_eq_ok_iff, exists_and_left, exists_eq, and_true]
  · obtain ⟨-, rfl⟩ := ofConfig_eq_ok_iff.1 h
    have hlen := length_opened home config
    refine ⟨getElem?_opened home config, fun i => ?_, rfl, rfl, rfl, rfl, fun i e hi he => ?_⟩
    · rw [exists_branch_iff, hlen]
    · exact metaRoot_error (accepted_of_ofConfig h) (hlen.symm ▸ hi) he

def crampedSample : Config :=
  { Config.unset with maxPathLen := some 5, branches := [⟨" ~/a ", .readWrite⟩] }

def untaggedSample : Config :=
  { crampedSample with hideTag := some "a/b", branches := [⟨"", .readOnly⟩] }

theorem ofConfig_exactly_sample :
    ofConfig (some "/h") untaggedSample = .error (.separatorInField "hide_tag" "a/b") ∧
      ofConfig (some "/h") crampedSample = .ok (opened (some "/h") crampedSample) ∧
        (opened (some "/h") crampedSample).branches[0]? = some ⟨0, utf8 "/h/a", .readWrite⟩ ∧
        ∃ length,
          (opened (some "/h") crampedSample).metaRoot 0 = .error (.nameTooLong length 5) := by
  obtain ⟨-, hrefused, -⟩ := ofConfig_exactly (some "/h") untaggedSample
  obtain ⟨-, -, hopened⟩ := ofConfig_exactly (some "/h") crampedSample
  have hok : ofConfig (some "/h") crampedSample = .ok (opened (some "/h") crampedSample) := by
    decide +kernel
  have hlong : (opened (some "/h") crampedSample).metaRoot 0 = .error (.nameTooLong 13 5) := by
    decide +kernel
  obtain ⟨hbranches, -, -, -, -, -, hmeta⟩ := hopened _ hok
  obtain ⟨length, hlength⟩ := hmeta 0 _ (by decide) hlong
  refine ⟨(hrefused _).2 (by decide +kernel), hok, ?_, length, hlong.trans (congrArg _ hlength)⟩
  rw [hbranches 0]
  decide +kernel

end Whiteout.UnionView
