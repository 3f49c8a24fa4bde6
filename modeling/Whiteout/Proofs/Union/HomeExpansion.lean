import Whiteout.Proofs.FileSystem.Along
import Whiteout.Proofs.Text.Parts
import Whiteout.Proofs.Union.Checks

/-!
# Roots written with a tilde

What stands behind `~/` is joined to the home directory, and a join adds up the components as long
as the second part is relative. With one more separator behind `~/` the second part is absolute and
the home directory is gone: such a root is wherever the rest of the text leads.
-/

namespace Whiteout

open Text (utf8 trimEnd)
open Whiteout.Path (components dot dotDot isAbsolute separator)

namespace Path

variable {base rest : Bytes}

theorem join_of_isAbsolute (h : isAbsolute rest = true) (base : Bytes) : join base rest = rest :=
  if_pos h

theorem components_join (h : isAbsolute rest = false) (base : Bytes) :
    components (join base rest) = components base ++ components rest := by
  rw [join, if_neg (by simp [h])]
  by_cases hbase : base = []
  · simp [hbase, components_nil]
  · cases hend : endsWithSeparator base with
    | false =>
      rw [if_neg (by simp [hbase])]
      exact components_append_separator base rest
    | true =>
      obtain ⟨front, rfl⟩ := endsWithSeparator_iff.1 hend
      rw [if_pos (by simp), components_concat_separator, List.append_assoc, List.singleton_append,
        components_append_separator]

theorem isAbsolute_join (h : isAbsolute rest = false) (base : Bytes) :
    isAbsolute (join base rest) = isAbsolute base := by
  rw [join, if_neg (by simp [h])]
  by_cases hbase : base = []
  · rw [if_pos (by simp [hbase]), hbase, List.nil_append, h]
    rfl
  · split <;> exact isAbsolute_append hbase _

theorem isAbsolute_utf8 (s : String) : isAbsolute (utf8 s) = true ↔ s.toList.head? = some '/' := by
  cases hs : s.toList with
  | nil => simp [utf8, hs, isAbsolute]
  | cons c cs =>
    obtain ⟨first, tail, hfirst⟩ : ∃ first tail, String.utf8EncodeChar c = first :: tail :=
      List.exists_cons_of_ne_nil String.utf8EncodeChar_ne_nil
    have hbytes : utf8 s = first :: (tail ++ cs.flatMap String.utf8EncodeChar) := by
      rw [utf8, hs, List.flatMap_cons, hfirst, List.cons_append]
    rw [hbytes, isAbsolute_iff, List.head?_cons, Option.some_inj]
    constructor
    · rintro ⟨_, hsep⟩
      rw [(List.cons_eq_cons.1 hsep).1] at hfirst
      exact Text.separator_mem_encode.1 (hfirst ▸ List.mem_cons_self)
    · rintro rfl
      exact ⟨_, congrArg (· :: _) (List.cons_eq_cons.1 hfirst).1.symm⟩

end Path

theorem Location.prefix_along {names : List Name} (h : dotDot ∉ names) (here : Location) :
    here <+: here.along names := by
  induction names generalizing here with
  | nil => exact List.prefix_refl here
  | cons name rest ih =>
    have hname : name ≠ dotDot := fun he => h (he ▸ List.mem_cons_self)
    have hrest : dotDot ∉ rest := fun hmem => h (List.mem_cons_of_mem _ hmem)
    rw [along, if_neg hname]
    split
    · exact ih hrest here
    · exact (List.prefix_append here [name]).trans (ih hrest _)

theorem FileSystem.placeOf_join {base rest : Bytes} (habs : isAbsolute rest = false)
    (hup : dotDot ∉ components rest) (fs : FileSystem) :
    fs.placeOf base <+: fs.placeOf (Path.join base rest) := by
  rw [placeOf, placeOf, startOf, startOf, Path.isAbsolute_join habs, Path.components_join habs,
    Location.along_append]
  exact Location.prefix_along hup _

namespace Environment

def behindTilde (rest : String) : Bytes := utf8 (String.ofList (trimEnd rest.toList))

theorem expandTilde_behind (home rest : String) :
    expandTilde (some home) ("~/" ++ rest) = Path.join (utf8 home) (behindTilde rest) := by
  have htrim : Text.trim ("~/" ++ rest).toList = '~' :: '/' :: trimEnd rest.toList := by
    rw [String.toList_append]
    exact (Text.trim_cons (by decide) ('/' :: rest.toList)).trans
      (congrArg _ (Text.trimEnd_cons (by decide) rest.toList))
  simp only [expandTilde, htrim, behindTilde]

theorem isAbsolute_behindTilde (rest : String) :
    isAbsolute (behindTilde rest) = true ↔ rest.toList.head? = some '/' := by
  rw [behindTilde, Path.isAbsolute_utf8, String.toList_ofList, Text.head?_trimEnd (by decide)]

theorem isAbsolute_behindTilde_eq_false {rest : String} (h : rest.toList.head? ≠ some '/') :
    isAbsolute (behindTilde rest) = false := by
  rw [← Bool.not_eq_true, isAbsolute_behindTilde]
  exact h

variable {home rest : String}

theorem components_expandTilde_iff :
    components (expandTilde (some home) ("~/" ++ rest)) =
        components (utf8 home) ++ components (behindTilde rest) ↔
      rest.toList.head? ≠ some '/' ∨ components (utf8 home) = [] := by
  rw [expandTilde_behind]
  by_cases hrest : rest.toList.head? = some '/'
  · rw [Path.join_of_isAbsolute ((isAbsolute_behindTilde rest).2 hrest), List.self_eq_append_left]
    simp [hrest]
  · rw [Path.components_join (isAbsolute_behindTilde_eq_false hrest)]
    simp [hrest]

theorem placeOf_expandTilde (hup : dotDot ∉ components (behindTilde rest))
    (hrest : rest.toList.head? ≠ some '/' ∨
      isAbsolute (utf8 home) = true ∧ components (utf8 home) = []) (fs : FileSystem) :
    fs.placeOf (utf8 home) <+: fs.placeOf (expandTilde (some home) ("~/" ++ rest)) := by
  rcases hrest with hrest | ⟨habs, hnone⟩
  · rw [expandTilde_behind]
    exact FileSystem.placeOf_join (isAbsolute_behindTilde_eq_false hrest) hup fs
  · have htop : fs.placeOf (utf8 home) = [] := by
      rw [FileSystem.placeOf, FileSystem.startOf, if_pos habs, hnone, Location.along]
    rw [htop]
    exact List.nil_prefix

end Environment

namespace UnionView

open Environment (expandTilde behindTilde)

/-- A root written with `~/` has the components of the home directory before its own exactly if no
further separator follows or the home directory has none; otherwise the text behind `~/` alone is
the root. Without `..` the root is at the home directory or below it, unless it is replaced so. -/
theorem tilde_root_iff (home rest : String) :
    (components (expandTilde (some home) ("~/" ++ rest)) =
        components (utf8 home) ++ components (behindTilde rest) ↔
      rest.toList.head? ≠ some '/' ∨ components (utf8 home) = []) ∧
    (rest.toList.head? = some '/' → expandTilde (some home) ("~/" ++ rest) = behindTilde rest) ∧
    ∀ config view i mode, ofConfig (some home) config = .ok view →
      config.branches[i]? = some (⟨"~/" ++ rest, mode⟩ : BranchSpec) →
        view.branches[i]? = some (⟨i, expandTilde (some home) ("~/" ++ rest), mode⟩ : Branch) ∧
        (dotDot ∉ components (behindTilde rest) →
          (rest.toList.head? ≠ some '/' ∨
            isAbsolute (utf8 home) = true ∧ components (utf8 home) = []) →
          ∀ fs : FileSystem, fs.placeOf (utf8 home) <+:
            fs.placeOf (expandTilde (some home) ("~/" ++ rest))) := by
  refine ⟨Environment.components_expandTilde_iff, fun hrest => ?_,
    fun config view i mode h hi => ⟨?_, Environment.placeOf_expandTilde⟩⟩
  · rw [Environment.expandTilde_behind]
    exact Path.join_of_isAbsolute ((Environment.isAbsolute_behindTilde rest).2 hrest) _
  · obtain ⟨-, rfl⟩ := ofConfig_eq_ok_iff.1 h
    rw [getElem?_opened, hi, Option.map_some]

/-- One root below the home directory, and one that leaves it by a doubled separator. -/
def homeSample : Config :=
  { Config.unset with branches := [⟨"~/ro ", .readOnly⟩, ⟨"~//etc", .readOnly⟩] }

theorem tilde_root_iff_sample :
    components (expandTilde (some "/home/u/") "~/ro ") = [utf8 "home", utf8 "u", utf8 "ro"] ∧
      ∃ b, (opened (some "/home/u/") homeSample).branches[0]? = some b ∧
        b.root = utf8 "/home/u/ro" ∧
        ∀ fs : FileSystem, fs.placeOf (utf8 "/home/u/") <+: fs.placeOf b.root := by
  obtain ⟨hcomponents, -, hroots⟩ := tilde_root_iff "/home/u/" "ro "
  obtain ⟨hroot, hbelow⟩ := hroots homeSample (opened (some "/home/u/") homeSample) 0 .readOnly
    (by decide +kernel) rfl
  refine ⟨(hcomponents.2 (.inl (by decide))).trans (by decide +kernel), _, hroot,
    by decide +kernel, hbelow (by decide +kernel) (.inl (by decide))⟩

theorem tilde_root_outside_home :
    components (expandTilde (some "/home/u") "~//etc") ≠
        components (utf8 "/home/u") ++ components (utf8 "/etc") ∧
      ∃ view b, ofConfig (some "/home/u") homeSample = .ok view ∧ view.branch 1 = .ok b ∧
        b.root = utf8 "/etc" ∧
        ∀ fs : FileSystem, ¬fs.placeOf (utf8 "/home/u") <+: fs.placeOf b.root := by
  refine ⟨by decide +kernel, opened (some "/home/u") homeSample, ⟨1, utf8 "/etc", .readOnly⟩,
    by decide +kernel, by decide +kernel, rfl, fun fs => ?_⟩
  have hhome : fs.placeOf (utf8 "/home/u") = [utf8 "home", utf8 "u"] := rfl
  have hroot : fs.placeOf (utf8 "/etc") = [utf8 "etc"] := rfl
  rw [hhome, hroot]
  decide

end UnionView

end Whiteout
