import Whiteout.Proofs.Marker.Enumeration

/-!
# The order of a listing

A listing is sorted by the names on disk, where a marker's name carries the tag and a directory's
does not, and not by the paths that it shows. So a path may come before another one though it is the
greater text: what is hidden below a path comes before the path itself, and a longer name comes first
if it goes on with less than the tag, or than a separator that the shorter one is followed by.
-/

namespace Whiteout

open Text (utf8)
open Whiteout.Path (components separator IsComponent)
open Whiteout.Marker (slashed ofPlaced?)

def Tree.Textual (t : Tree) : Prop :=
  ∀ l e, t.get? l = some e → ∀ n ∈ l, ∃ text, n = utf8 text

theorem Tree.textual_of_names {t : Tree} (names : List String)
    (h : ∀ x ∈ t.entries, ∀ n ∈ x.1, n ∈ names.map utf8) : t.Textual := by
  intro l e hget n hn
  obtain ⟨text, -, htext⟩ :=
    List.mem_map.1 (h _ ((Tree.get?_eq_some_iff (List.ne_nil_of_mem hn)).1 hget) n hn)
  exact ⟨text, htext.symm⟩

namespace Marker

/-- Whether the marker of the first path is listed before that of the second one, although the
first path is the greater text. The paths are compared where they differ. -/
def overtakes (tag : Bytes) : Bytes → Bytes → Bool
  | [], _ => false
  | a :: u, [] => (a :: u ++ tag).takeWhile (· != separator) < tag
  | a :: u, b :: v => if a = b then overtakes tag u v else a == separator && b < separator

end Marker

namespace UnionView

open Marker (overtakes)

variable {view : UnionView} {x y : Name} {p q : List Name}

theorem markerNames_eq (view : UnionView) (x : Name) (p : List Name) :
    view.markerNames (x :: p) = (x ++ if p = [] then view.hideTag else []) ::
      if p = [] then [] else view.markerNames p := by
  by_cases hp : p = []
  · subst hp
    rfl
  · obtain ⟨front, last, rfl⟩ := Location.exists_concat hp
    rw [← List.cons_append, markerNames_concat, markerNames_concat]
    simp

theorem markerNames_cons_lt_iff (a : UInt8) :
    view.markerNames ((a :: x) :: p) < view.markerNames ((a :: y) :: q) ↔
      view.markerNames (x :: p) < view.markerNames (y :: q) := by
  simp only [markerNames_eq, List.cons_append, List.cons_lt_cons_iff, List.cons.injEq,
    UInt8.lt_irrefl, false_or, true_and]

theorem append_slashed_eq_cons {a : UInt8} {u : Bytes} (h : x ++ slashed p = a :: u) :
    (∃ rest, x = a :: rest ∧ rest ++ slashed p = u) ∨
      x = [] ∧ a = separator ∧ ∃ n ns, p = n :: ns ∧ n ++ slashed ns = u := by
  cases x with
  | nil =>
    cases p with
    | nil => cases h
    | cons n ns =>
      rw [List.nil_append, Path.slashed_cons] at h
      obtain ⟨rfl, rfl⟩ := List.cons_eq_cons.1 h
      exact .inr ⟨rfl, rfl, n, ns, rfl, rfl⟩
  | cons b rest =>
    obtain ⟨rfl, rfl⟩ := List.cons_eq_cons.1 h
    exact .inl ⟨rest, rfl, rfl⟩

theorem takeWhile_append_slashed (hx : separator ∉ x) (htag : separator ∉ view.hideTag) :
    (x ++ slashed p ++ view.hideTag).takeWhile (· != separator) =
      x ++ if p = [] then view.hideTag else [] := by
  have hplain {n : Bytes} (hn : separator ∉ n) : ∀ b ∈ n, (b != separator) = true :=
    fun b hb => bne_iff_ne.2 fun hsep => hn (hsep ▸ hb)
  rw [List.append_assoc, List.takeWhile_append_of_pos (hplain hx)]
  cases p with
  | nil =>
    have hwhole := @List.takeWhile_append_of_pos _ _ _ [] (hplain htag)
    simpa [slashed] using hwhole
  | cons n ns => simp [Path.slashed_cons]

theorem overtakes_append_iff (htag : separator ∉ view.hideTag) (hx : ∀ n ∈ x :: p, separator ∉ n)
    (hy : ∀ n ∈ y :: q, separator ∉ n) :
    overtakes view.hideTag (x ++ slashed p) (y ++ slashed q) = true ↔
      view.markerNames (x :: p) < view.markerNames (y :: q) ∧
        y ++ slashed q < x ++ slashed p := by
  generalize hu : x ++ slashed p = u
  generalize hw : y ++ slashed q = w
  fun_induction overtakes view.hideTag u w generalizing x y p q with
  | case1 w => simp
  | case2 a u =>
    obtain ⟨rfl, hq⟩ := List.append_eq_nil_iff.1 hw
    obtain rfl : q = [] := by
      cases q with
      | nil => rfl
      | cons n ns => cases hq
    rw [← hu, takeWhile_append_slashed (hx x List.mem_cons_self) htag, hu]
    simp [markerNames_eq, List.cons_lt_cons_iff]
  | case3 u a w ih =>
    rcases append_slashed_eq_cons hu with ⟨rest, rfl, hrest⟩ | ⟨rfl, rfl, n, ns, rfl, hrest⟩
    · rcases append_slashed_eq_cons hw with ⟨rest', rfl, hrest'⟩ | ⟨rfl, rfl, -⟩
      · obtain ⟨hfirst, hp⟩ := List.forall_mem_cons.1 hx
        obtain ⟨hfirst', hq⟩ := List.forall_mem_cons.1 hy
        have hx' := List.forall_mem_cons.2 ⟨fun hsep => hfirst (List.mem_cons_of_mem a hsep), hp⟩
        have hy' := List.forall_mem_cons.2 ⟨fun hsep => hfirst' (List.mem_cons_of_mem a hsep), hq⟩
        rw [ih hx' hy' hrest hrest', markerNames_cons_lt_iff]
        simp
      · exact absurd List.mem_cons_self (hx _ List.mem_cons_self)
    · rcases append_slashed_eq_cons hw with ⟨rest', rfl, -⟩ | ⟨rfl, -, n', ns', rfl, hrest'⟩
      · exact absurd List.mem_cons_self (hy _ List.mem_cons_self)
      · rw [ih (List.forall_mem_cons.1 hx).2 (List.forall_mem_cons.1 hy).2 hrest hrest']
        simp [markerNames_eq, List.cons_lt_cons_iff]
  | case4 a u b w hne =>
    -- the paths differ here: inside a name, or where one of two names ends
    rcases append_slashed_eq_cons hu with ⟨rest, rfl, -⟩ | ⟨rfl, rfl, n, ns, rfl, -⟩
    · rcases append_slashed_eq_cons hw with ⟨rest', rfl, -⟩ | ⟨rfl, rfl, n', ns', rfl, -⟩
      · have ha : a ≠ separator := fun hsep => hx _ List.mem_cons_self (hsep ▸ List.mem_cons_self)
        have hnot (hlt : a < b) : ¬b < a := UInt8.lt_asymm hlt
        simpa [markerNames_eq, List.cons_lt_cons_iff, ha, hne, Ne.symm hne] using hnot
      · simp [markerNames_eq, List.cons_lt_cons_iff]
    · rcases append_slashed_eq_cons hw with ⟨rest', rfl, -⟩ | ⟨rfl, rfl, -⟩
      · simp [markerNames_eq, List.cons_lt_cons_iff, Ne.symm hne]
      · exact absurd rfl hne

theorem overtakes_slashed_iff (htag : separator ∉ view.hideTag) (hne : p ≠ []) (hne' : q ≠ [])
    (hp : ∀ n ∈ p, separator ∉ n) (hq : ∀ n ∈ q, separator ∉ n) :
    overtakes view.hideTag (slashed p) (slashed q) = true ↔
      view.markerNames p < view.markerNames q ∧ slashed q < slashed p := by
  obtain ⟨x, p, rfl⟩ := List.exists_cons_of_ne_nil hne
  obtain ⟨y, q, rfl⟩ := List.exists_cons_of_ne_nil hne'
  rw [Path.slashed_cons, Path.slashed_cons, overtakes, if_pos rfl, overtakes_append_iff htag hp hq,
    List.cons_lt_cons_self]

-- a path below another one goes before its neighbours and before it, a longer name does not
example : overtakes (utf8 "_HIDDEN~") (utf8 "/a/x") (utf8 "/a.b") = true ∧
    overtakes (utf8 "_HIDDEN~") (utf8 "/a/x") (utf8 "/a") = true ∧
    overtakes (utf8 "_HIDDEN~") (utf8 "/ab") (utf8 "/a") = false := by
  decide +kernel

section

variable {fs : FileSystem} {rank : Nat} {listed : List Marker}

theorem markers_ok (h : view.markers fs rank = .ok listed) : listed = [] ∨
    ∃ place, listed = (fs.tree.below place).filterMap fun x =>
      ofPlaced? view.hideTag rank x.1 x.2 := by
  rw [markers] at h
  split at h
  · cases h
  · split at h
    · next place mode _ => exact .inr ⟨place, Marker.walk_ok h⟩
    · cases h
      exact .inl rfl

variable (htexts : fs.tree.Textual) (h : view.markers fs rank = .ok listed)
include htexts h

theorem exists_parts_of_listed {m : Marker} (hm : m ∈ listed) : ∃ parts, parts ≠ [] ∧
    (∀ c ∈ parts, IsComponent c) ∧ m.unionPath = slashed parts := by
  rcases markers_ok h with rfl | ⟨place, rfl⟩
  · cases hm
  · obtain ⟨⟨below, e⟩, hx, hm⟩ := List.mem_filterMap.1 hm
    have hbelow (n : Name) (hn : n ∈ below) :=
      htexts _ e (Tree.mem_below_iff.1 hx).2 n (List.mem_append_right _ hn)
    obtain ⟨parts, hne, hcomps, hpath, -⟩ := markerNames_of_listed hx hbelow hm
    exact ⟨parts, hne, hcomps, hpath⟩

theorem listed_ascending : listed.Pairwise fun m m' =>
    view.markerNames (components m.unionPath) < view.markerNames (components m'.unionPath) := by
  rcases markers_ok h with rfl | ⟨place, rfl⟩
  · exact List.Pairwise.nil
  · have hnames {x : Location × Entry} (hx : x ∈ fs.tree.below place) {m : Marker}
        (hm : ofPlaced? view.hideTag rank x.1 x.2 = some m) :
        view.markerNames (components m.unionPath) = x.1 := by
      have hbelow (n : Name) (hn : n ∈ x.1) :=
        htexts _ x.2 (Tree.mem_below_iff.1 hx).2 n (List.mem_append_right _ hn)
      obtain ⟨parts, -, hcomps, hpath, hplace⟩ := markerNames_of_listed hx hbelow hm
      rw [hpath, Path.components_slashed hcomps, hplace]
    have hplaces : (fs.tree.below place).Pairwise fun x y => ∀ m m',
        ofPlaced? view.hideTag rank x.1 x.2 = some m →
          ofPlaced? view.hideTag rank y.1 y.2 = some m' →
            view.markerNames (components m.unionPath) <
              view.markerNames (components m'.unionPath) := by
      refine (fs.tree.below_ascending place).imp_of_mem ?_
      intro x y hx hy hlt m m' hm hm'
      rwa [hnames hx hm, hnames hy hm']
    exact hplaces.filterMap _ fun x y hxy m hm m' hm' => hxy m m' hm hm'

theorem overtakes_listed_iff (htag : separator ∉ view.hideTag) {m m' : Marker} (hm : m ∈ listed)
    (hm' : m' ∈ listed) : overtakes view.hideTag m.unionPath m'.unionPath = true ↔
      view.markerNames (components m.unionPath) < view.markerNames (components m'.unionPath) ∧
        m'.unionPath < m.unionPath := by
  obtain ⟨parts, hne, hcomps, hpath⟩ := exists_parts_of_listed htexts h hm
  obtain ⟨parts', hne', hcomps', hpath'⟩ := exists_parts_of_listed htexts h hm'
  rw [hpath, hpath', Path.components_slashed hcomps, Path.components_slashed hcomps']
  exact overtakes_slashed_iff htag hne hne' (fun n hn => (hcomps n hn).2)
    fun n hn => (hcomps' n hn).2

end

theorem markers_sorted_iff {home : Option String} {config : Config}
    (haccepted : ofConfig home config = .ok view) {fs : FileSystem} {rank : Nat}
    {listed : List Marker} (htexts : fs.tree.Textual) (h : view.markers fs rank = .ok listed) :
    (listed.Pairwise fun m m' => view.markerNames (components m.unionPath) <
      view.markerNames (components m'.unionPath)) ∧
    ((listed.map Marker.unionPath).Pairwise (· < ·) ↔ ∀ m ∈ listed, ∀ m' ∈ listed,
      overtakes view.hideTag m.unionPath m'.unionPath = false) := by
  have htag := (accepted_of_ofConfig haccepted).hideTag.2
  have hsorted := listed_ascending htexts h
  refine ⟨hsorted, ?_⟩
  rw [List.pairwise_map]
  constructor
  · intro hpaths m hm m' hm'
    rw [← Bool.not_eq_true, overtakes_listed_iff htexts h htag hm hm']
    intro hovertakes
    obtain ⟨hnames, hpath⟩ := hovertakes
    obtain ⟨i, hi, rfl⟩ := List.mem_iff_getElem.1 hm
    obtain ⟨j, hj, rfl⟩ := List.mem_iff_getElem.1 hm'
    rcases Nat.lt_trichotomy i j with hlt | rfl | hlt
    · exact List.lt_asymm hpath (List.pairwise_iff_getElem.1 hpaths i j hi hj hlt)
    · exact List.lt_irrefl _ hnames
    · exact List.lt_asymm hnames (List.pairwise_iff_getElem.1 hsorted j i hj hi hlt)
  · intro hnone
    refine hsorted.imp_of_mem fun {m m'} hm hm' hlt => ?_
    have hnot := hnone m hm m' hm'
    rw [← Bool.not_eq_true, overtakes_listed_iff htexts h htag hm hm', not_and] at hnot
    rcases List.le_iff_lt_or_eq.1 (List.not_lt.1 (hnot hlt)) with hpath | hsame
    · exact hpath
    · rw [hsame] at hlt
      exact absurd hlt (List.lt_irrefl _)

attribute [local instance] Host.plain

theorem markers_sorted_iff_sample :
    let s := (Sample.view.hide (Sample.view.hide Sample.session (utf8 "b") 0 .file).2
      (utf8 "a") 0 .file).2
    let listed : List Marker := [⟨0, utf8 "/a", .file⟩, ⟨0, utf8 "/b", .file⟩]
    Sample.view.markers s.fs 0 = .ok listed ∧
    ((listed.map Marker.unionPath).Pairwise (· < ·) ↔ ∀ m ∈ listed, ∀ m' ∈ listed,
      overtakes Sample.view.hideTag m.unionPath m'.unionPath = false) := by
  intro s listed
  have htexts : s.fs.tree.Textual :=
    Tree.textual_of_names ["up", "low", "a", ".unionfs", "a_HIDDEN~", "b_HIDDEN~"]
      (by decide +kernel)
  have hlist : Sample.view.markers s.fs 0 = .ok listed := by decide +kernel
  exact ⟨hlist, (markers_sorted_iff Sample.ofConfig_config htexts hlist).2⟩

/-- The longer name goes on with a dot, the shorter one with the tag, so it is listed first. -/
theorem greater_path_listed_first :
    let s := (Sample.view.hide (Sample.view.hide Sample.session (utf8 "a") 0 .file).2
      (utf8 "a.txt") 0 .file).2
    let listed : List Marker := [⟨0, utf8 "/a.txt", .file⟩, ⟨0, utf8 "/a", .file⟩]
    ofConfig none Sample.config = .ok Sample.view ∧ s.fs.tree.Textual ∧
    Sample.view.markers s.fs 0 = .ok listed ∧
    ¬(listed.map Marker.unionPath).Pairwise (· < ·) := by
  intro s listed
  exact ⟨Sample.ofConfig_config,
    Tree.textual_of_names ["up", "low", "a", ".unionfs", "a_HIDDEN~", "a.txt_HIDDEN~"]
      (by decide +kernel),
    by decide +kernel, by decide +kernel⟩

end UnionView

end Whiteout
