import Whiteout.Proofs.FileSystem.Trailing
import Whiteout.Proofs.Lookup.Scan
import Whiteout.Proofs.Marker.Respelled

/-!
# Other spellings of a path

Markers depend on the components of a path alone, but the lookup hands the path to the host as it is
written. Two spellings of the same components are answered alike except where the host tells them
apart: a separator at the end asks for a directory, and a spelling may be too long. Where the lookup
answers alike, hiding what a lower branch still provides does the same.
-/

namespace Whiteout

open Text (utf8)
open Whiteout.Path (dot dotDot separator components isAbsolute endsWithSeparator)

namespace BoundedPath

theorem endsWithSeparator_joined (text : Bytes) {segment : Bytes} (h : components segment ≠ []) :
    endsWithSeparator (joined text segment) = endsWithSeparator segment := by
  have hne := Path.ne_nil_of_components h
  have hslash (front : Bytes) : endsWithSeparator (front ++ separator :: segment) =
      endsWithSeparator segment := by
    rw [Path.endsWithSeparator_append front (List.cons_ne_nil _ _), ← List.singleton_append,
      Path.endsWithSeparator_append _ hne]
  rw [joined]
  split
  · next _ hseg =>
    obtain ⟨rest, rfl⟩ := Path.isAbsolute_iff.1 hseg
    have hrest : rest ≠ [] := by
      rintro rfl
      exact h rfl
    rw [List.tail_cons, Path.endsWithSeparator_append _ hrest, ← List.singleton_append,
      Path.endsWithSeparator_append _ hrest]
  · exact hslash text
  · exact Path.endsWithSeparator_append _ hne

end BoundedPath

namespace UnionView

open BoundedPath (joined)

variable {view : UnionView} {fs : FileSystem} {path other : Bytes} {rank start : Nat}

def TooLong (outcome : Except Error (Option Nat)) : Prop :=
  ∃ length limit, outcome = .error (.nameTooLong length limit)

theorem tooLong_of_error (hv : view.Accepted) (hpath : path ≠ []) {e : Error}
    (h : view.findBranch fs path start = .error e) :
    TooLong (view.findBranch fs path start) := by
  obtain ⟨r, b, -, hb, he, -⟩ := (findBranch_eq_error_iff hv).1 h
  have hroot := hv.rooted b (List.mem_of_getElem? hb)
  obtain ⟨length, rfl⟩ :=
    BoundedPath.tooLong_of_build (by simp [hroot, hpath]) (List.cons_ne_nil _ _) he
  exact ⟨length, _, h⟩

/-- In a branch that has `path`, what the host asks of `other`: its place is not too long, and it is
a directory if `other` ends with a separator and `path` does not. -/
def Suits (view : UnionView) (fs : FileSystem) (path other : Bytes) (rank : Nat) : Prop :=
  ∀ b full, view.branches[rank]? = some b → view.entryPath b other = .ok full →
    full.text.length ≤ Path.maxLength ∧ (endsWithSeparator other = true →
      endsWithSeparator path = true ∨ fs.isDirectory (joined b.root path) = true)

section

variable (hv : view.Accepted) (hsame : components path = components other)
  (hne : components path ≠ [])
include hv hsame hne

theorem Provides.suits_iff (h : view.Provides fs path rank) {b : Branch} {full : BoundedPath}
    (hb : view.branches[rank]? = some b) (hfull : view.entryPath b other = .ok full) :
    (fs.probe full.text).isSome = true ↔ view.Suits fs path other rank := by
  obtain ⟨b', full', hb', hfull', hsome⟩ := h
  cases hb.symm.trans hb'
  have hroot : b.root ≠ [] := hv.rooted b (List.mem_of_getElem? hb)
  obtain ⟨-, -, rfl⟩ := (entryPath_eq_ok_iff hroot).1 hfull'
  obtain ⟨-, -, rfl⟩ := (entryPath_eq_ok_iff hroot).1 hfull
  have hcomps : components (joined b.root path) = components (joined b.root other) := by
    rw [BoundedPath.components_joined, BoundedPath.components_joined, hsame]
  have hnil : components (joined b.root path) ≠ [] := by simp [BoundedPath.components_joined, hne]
  have habs : isAbsolute (joined b.root path) = isAbsolute (joined b.root other) := by
    rw [BoundedPath.isAbsolute_joined hroot, BoundedPath.isAbsolute_joined hroot]
  rw [FileSystem.probe_respelled hcomps hnil habs hsome,
    BoundedPath.endsWithSeparator_joined _ hne,
    BoundedPath.endsWithSeparator_joined _ (hsame ▸ hne)]
  constructor
  · intro hsuits b' full' hb' hfull'
    cases hb.symm.trans hb'
    cases hfull.symm.trans hfull'
    exact hsuits
  · intro hsuits
    exact hsuits b _ hb hfull

theorem Provides.suits (h : view.Provides fs path rank) (h' : view.Provides fs other rank) :
    view.Suits fs path other rank := by
  obtain ⟨b, full, hb, hfull, hsome⟩ := h'
  exact (h.suits_iff hv hsame hne hb hfull).1 hsome

theorem Provides.not_suits (h : view.Provides fs path rank) (h' : view.Lacks fs other rank) :
    ¬view.Suits fs path other rank := by
  obtain ⟨b, full, hb, hfull, hnone⟩ := h'
  rw [← h.suits_iff hv hsame hne hb hfull, hnone]
  exact Bool.false_ne_true

end

section

variable (hv : view.Accepted) (hsame : components path = components other)
  (hne : components path ≠ []) (hdots : ∀ c ∈ components path, c ≠ dot ∧ c ≠ dotDot)
include hsame hne hdots

theorem unionComponents_respelled : unionComponents path = unionComponents other := by
  rw [unionComponents_of_dotFree hne hdots,
    unionComponents_of_dotFree (hsame ▸ hne) (hsame ▸ hdots), hsame]

theorem isHidden_respelled (fs : FileSystem) (rank : Nat) :
    view.isHidden fs path rank = view.isHidden fs other rank :=
  view.isHidden_of_same_parts fs rank (unionComponents_respelled hsame hne hdots)

theorem hide_respelled [Host] (s : Session) (rank : Nat) (kind : Kind) :
    view.hide s path rank kind = view.hide s other rank kind :=
  view.hide_of_same_parts s rank (unionComponents_respelled hsame hne hdots) kind

include hv

/-- The scans for two spellings go on side by side until the branch found for one is reached. -/
theorem findBranch_respelled (hfit : ¬TooLong (view.findBranch fs other start))
    (hfound : view.findBranch fs path start = .ok (some rank))
    (hsuits : view.Suits fs path other rank)
    (hback : ∀ r, view.findBranch fs other start = .ok (some r) → view.Suits fs other path r) :
    view.findBranch fs other start = .ok (some rank) := by
  have hne' : components other ≠ [] := hsame ▸ hne
  have hnil := Path.ne_nil_of_components hne'
  obtain ⟨hle, hprovides, hbefore⟩ := findBranch_eq_some hv hfound
  have hlt : rank < view.branches.length := by
    obtain ⟨b, -, hb, -⟩ := hprovides
    exact (List.getElem?_eq_some_iff.1 hb).1
  -- the two scans pass the same branches; the branches up to the one found for `path` are left
  generalize hleft : rank - start = left
  induction left generalizing start with
  | zero =>
    obtain rfl : start = rank := by omega
    rcases round_cases view fs other start with hend | hother | ⟨hlacks, -⟩ | hpasses |
      ⟨b, e, hb, he⟩
    · omega
    · exact findBranch_of_provides hv hother
    · exact absurd hsuits (hprovides.not_suits hv hsame hne hlacks)
    · exact absurd hsuits (hprovides.not_suits hv hsame hne hpasses.1)
    · exact absurd (tooLong_of_error hv hnil (findBranch_of_error hv hb he)) hfit
  | succ left ih =>
    have hpassed := hbefore start (Nat.le_refl _) (by omega)
    rcases round_cases view fs other start with hend | hother | ⟨hlacks, hhidden⟩ | hpasses |
      ⟨b, e, hb, he⟩
    · omega
    · exact absurd (hback start (findBranch_of_provides hv hother))
        (hother.not_suits hv hsame.symm hne' hpassed.1)
    · rw [← isHidden_respelled hsame hne hdots, hpassed.2] at hhidden
      cases hhidden
    · rw [findBranch_of_passes hv hpasses] at hfit hback ⊢
      rw [findBranch_of_passes hv hpassed] at hfound
      exact ih hfit hfound hback (by omega) (fun j hj hj' => hbefore j (by omega) hj') (by omega)
    · exact absurd (tooLong_of_error hv hnil (findBranch_of_error hv hb he)) hfit

theorem findBranch_eq_iff (hfit : ¬TooLong (view.findBranch fs path start))
    (hfit' : ¬TooLong (view.findBranch fs other start)) :
    view.findBranch fs path start = view.findBranch fs other start ↔
      (∀ r, view.findBranch fs path start = .ok (some r) → view.Suits fs path other r) ∧
      ∀ r, view.findBranch fs other start = .ok (some r) → view.Suits fs other path r := by
  have hne' : components other ≠ [] := hsame ▸ hne
  have hdots' : ∀ c ∈ components other, c ≠ dot ∧ c ≠ dotDot := hsame ▸ hdots
  have hprovides {p : Bytes} {r : Nat} (hr : view.findBranch fs p start = .ok (some r)) :
      view.Provides fs p r := (findBranch_eq_some hv hr).2.1
  constructor
  · intro hanswer
    exact ⟨fun r hr => (hprovides hr).suits hv hsame hne (hprovides (hanswer ▸ hr)),
      fun r hr => (hprovides hr).suits hv hsame.symm hne' (hprovides (hanswer ▸ hr))⟩
  · intro hsuits
    rcases hsuits with ⟨hsuits, hback⟩
    cases hpath : view.findBranch fs path start with
    | error e => exact absurd (tooLong_of_error hv (Path.ne_nil_of_components hne) hpath) hfit
    | ok answer =>
      cases hother : view.findBranch fs other start with
      | error e => exact absurd (tooLong_of_error hv (Path.ne_nil_of_components hne') hother) hfit'
      | ok answer' =>
        cases answer with
        | some r =>
          exact (hother.symm.trans
            (findBranch_respelled hv hsame hne hdots hfit' hpath (hsuits r hpath) hback)).symm
        | none =>
          cases answer' with
          | none => rfl
          | some r =>
            exact hpath.symm.trans
              (findBranch_respelled hv hsame.symm hne' hdots' hfit hother (hback r hother) hsuits)

end

theorem suits_of_same_end (hv : view.Accepted) (hlimit : view.maxPathLen ≤ Path.maxLength + 1)
    (hend : endsWithSeparator path = endsWithSeparator other) (fs : FileSystem) (rank : Nat) :
    view.Suits fs path other rank := by
  intro b full hb hfull
  have hroot := hv.rooted b (List.mem_of_getElem? hb)
  obtain ⟨-, hfit, rfl⟩ := (entryPath_eq_ok_iff hroot).1 hfull
  exact ⟨by dsimp only; omega, fun hslash => .inl (hend.trans hslash)⟩

/-- The lookup answers alike for two spellings exactly if the branch found for one suits the other,
and where it does, hiding what a lower branch provides does the same for both. -/
theorem respelled_iff [Host] {home : Option String} {config : Config}
    (haccepted : ofConfig home config = .ok view) (hsame : components path = components other)
    (hne : components path ≠ []) (hdots : ∀ c ∈ components path, c ≠ dot ∧ c ≠ dotDot) :
    (∀ fs start, ¬TooLong (view.findBranch fs path start) →
      ¬TooLong (view.findBranch fs other start) →
      (view.findBranch fs path start = view.findBranch fs other start ↔
        (∀ r, view.findBranch fs path start = .ok (some r) → view.Suits fs path other r) ∧
        ∀ r, view.findBranch fs other start = .ok (some r) → view.Suits fs other path r)) ∧
    ∀ s rank kind, view.findBelow s.fs path rank = view.findBelow s.fs other rank →
      view.hideIfProvided view.findBelow s path rank kind =
        view.hideIfProvided view.findBelow s other rank kind := by
  have hv := accepted_of_ofConfig haccepted
  refine ⟨fun fs start hfit hfit' => findBranch_eq_iff hv hsame hne hdots hfit hfit',
    fun s rank kind hanswer => ?_⟩
  rw [hideIfProvided, hideIfProvided, hanswer, hide_respelled hsame hne hdots]

attribute [local instance] Host.plain

theorem respelled_iff_sample :
    Sample.view.findBranch Sample.session.fs (utf8 "a") 0 =
      Sample.view.findBranch Sample.session.fs (utf8 "//a") 0 ∧
    Sample.view.hideIfProvided Sample.view.findBelow Sample.session (utf8 "a") 0 .file =
      Sample.view.hideIfProvided Sample.view.findBelow Sample.session (utf8 "//a") 0 .file := by
  have hv := accepted_of_ofConfig Sample.ofConfig_config
  have hfound : Sample.view.findBranch Sample.session.fs (utf8 "a") 0 = .ok (some 1) := by
    decide +kernel
  have hfound' : Sample.view.findBranch Sample.session.fs (utf8 "//a") 0 = .ok (some 1) := by
    decide +kernel
  have hfits {r : Nat} : ¬TooLong (.ok (some r)) := nofun
  have hspellings := respelled_iff Sample.ofConfig_config
    (show components (utf8 "a") = components (utf8 "//a") by decide +kernel) (by decide +kernel)
    (by decide +kernel)
  exact ⟨(hspellings.1 Sample.session.fs 0 (hfound ▸ hfits) (hfound' ▸ hfits)).2
      ⟨fun r _ => suits_of_same_end hv (by decide) (by decide +kernel) _ r,
        fun r _ => suits_of_same_end hv (by decide) (by decide +kernel) _ r⟩,
    hspellings.2 Sample.session 0 .file (by decide +kernel)⟩

/-- The file `a` is found as `a` but not as `a/`, which names the same marker. -/
theorem found_by_one_spelling :
    components (utf8 "a") = components (utf8 "a/") ∧
    Sample.view.findBranch Sample.session.fs (utf8 "a") 0 = .ok (some 1) ∧
    Sample.view.findBranch Sample.session.fs (utf8 "a/") 0 = .ok none ∧
    (Sample.view.hideIfProvided Sample.view.findBelow Sample.session (utf8 "a") 0 .file).2.fs.probe
      (utf8 "up/.unionfs/a_HIDDEN~") = some .file ∧
    (Sample.view.hideIfProvided Sample.view.findBelow Sample.session (utf8 "a/") 0 .file).2.fs.probe
      (utf8 "up/.unionfs/a_HIDDEN~") = none :=
  ⟨by decide +kernel, by decide +kernel, by decide +kernel, by decide +kernel, by decide +kernel⟩

end UnionView

end Whiteout
