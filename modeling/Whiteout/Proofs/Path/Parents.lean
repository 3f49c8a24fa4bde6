import Whiteout.Proofs.Path.Joining
import Whiteout.Proofs.Text.Parts

/-!
# Fronts and parents of a path

A front of a path is a text that the path begins with and that names some of its first components.
The parent of a path leaves out the last piece that counts, so it is cut from the text of the path,
is shorter than it, and does not end in a separator unless it is the top.
-/

namespace Whiteout.Path

open Text (pieces rejoin)

/-- A text that names at least one of the first components of the path. -/
structure IsFront (front path : Bytes) : Prop where
  named : components front ≠ []
  text : front <+: path
  names : components front <+: components path

theorem IsFront.refl {path : Bytes} (h : components path ≠ []) : IsFront path path :=
  ⟨h, List.prefix_refl _, List.prefix_refl _⟩

theorem IsFront.trans {front middle path : Bytes} (h : IsFront front middle)
    (htext : middle <+: path) (hnames : components middle <+: components path) :
    IsFront front path :=
  ⟨h.named, h.text.trans htext, h.names.trans hnames⟩

variable {path parent : Bytes} {texts kept : List Bytes}

theorem prefix_of_significant (texts : List Bytes) : significant texts <+: texts := by
  cases texts with
  | nil => exact List.prefix_refl _
  | cons first others =>
    exact List.cons_prefix_cons.2 ⟨rfl, List.rdropWhile_prefix ignorable others⟩

theorem significant_concat {texts front : List Bytes} {last : Bytes} (hfront : front ≠ [])
    (h : significant texts = front ++ [last]) : last ≠ [] := by
  cases texts with
  | nil => simp [significant] at h
  | cons first others =>
    obtain ⟨b, more, rfl⟩ := List.exists_cons_of_ne_nil hfront
    obtain ⟨-, hkept⟩ := List.cons_eq_cons.1 h
    have hne : others.rdropWhile ignorable ≠ [] := by simp [List.rdropWhile, hkept]
    have hlast : ¬ignorable last = true := by
      simpa [List.rdropWhile, hkept] using List.rdropWhile_last_not ignorable others hne
    rintro rfl
    exact hlast rfl

theorem components_rejoin (hne : texts ≠ []) (hfree : ∀ p ∈ texts, separator ∉ p) :
    components (rejoin separator texts) = texts.filter fun p => !p.isEmpty := by
  rw [components, Text.pieces_rejoin hne hfree]

theorem rejoin_front (hne : kept ≠ []) (h : kept <+: (pieces separator path).dropLast) :
    rejoin separator kept ++ [separator] <+: path ∧
      components (rejoin separator kept) <+: components path := by
  obtain ⟨more, hmore⟩ := h
  obtain ⟨last, hpieces⟩ : ∃ last, pieces separator path = kept ++ (more ++ [last]) :=
    ⟨_, by rw [← List.append_assoc, hmore, List.dropLast_concat_getLast (Text.pieces_ne_nil _ _)]⟩
  have hfree : ∀ p ∈ kept, separator ∉ p := fun p hp =>
    Text.not_mem_piece (hpieces ▸ List.mem_append_left _ hp)
  have hpath : path = rejoin separator kept ++ separator :: rejoin separator (more ++ [last]) := by
    rw [← Text.rejoin_append _ hne (by simp), ← hpieces, Text.rejoin_pieces]
  constructor
  · refine ⟨rejoin separator (more ++ [last]), ?_⟩
    rw [List.append_assoc, List.singleton_append, ← hpath]
  · rw [components_rejoin hne hfree, components, hpieces, List.filter_append]
    exact List.prefix_append _ _

theorem endsWithSeparator_rejoin (front : List Bytes) {last : Bytes} (hne : last ≠ [])
    (hfree : separator ∉ last) :
    endsWithSeparator (rejoin separator (front ++ [last])) = false := by
  by_cases hfront : front = []
  · rw [hfront]
    exact endsWithSeparator_of_not_mem hfree
  · rw [Text.rejoin_append _ hfront (by simp), ← List.singleton_append, ← List.append_assoc]
    exact (endsWithSeparator_append _ hne).trans (endsWithSeparator_of_not_mem hfree)

theorem endsWithSeparator_significant (htexts : texts ≠ []) (htop : significant texts ≠ [[]])
    (hfree : ∀ p ∈ texts, separator ∉ p) :
    endsWithSeparator (rejoin separator (significant texts)) = false := by
  obtain ⟨first, others, rfl⟩ := List.exists_cons_of_ne_nil htexts
  obtain ⟨front, last, hsplit⟩ : ∃ front last, significant (first :: others) = front ++ [last] :=
    Location.exists_concat (List.cons_ne_nil _ _)
  have hlast : last ≠ [] := by
    by_cases hfront : front = []
    · rintro rfl
      exact htop (by rw [hsplit, hfront, List.nil_append])
    · exact significant_concat hfront hsplit
  have hmem : last ∈ significant (first :: others) := by
    rw [hsplit]
    exact List.mem_append_right front List.mem_cons_self
  rw [hsplit]
  exact endsWithSeparator_rejoin front hlast (hfree last ((prefix_of_significant _).subset hmem))

theorem dropLast_of_significant {first : Bytes} {others : List Bytes} (hothers : others ≠ [])
    (h : significant texts = first :: others) : first :: others.dropLast <+: texts.dropLast := by
  have hlonger : first :: others <+: texts := h ▸ prefix_of_significant texts
  have hfront : first :: others.dropLast <+: texts :=
    (List.cons_prefix_cons.2 ⟨rfl, List.dropLast_prefix others⟩).trans hlonger
  refine Location.prefix_dropLast hfront fun hall => ?_
  have hlen := hlonger.length_le
  rw [← hall, List.length_cons, List.length_cons, List.length_dropLast] at hlen
  have hpos := List.length_pos_of_ne_nil hothers
  omega

theorem parent?_cases (h : parent? path = some parent) : parent = [] ∨
    ∃ kept, kept ≠ [] ∧ kept <+: (pieces separator path).dropLast ∧
      (kept = [[]] ∧ parent = [separator] ∨
        parent = rejoin separator kept ∧ endsWithSeparator parent = false) := by
  rw [parent?] at h
  split at h
  · cases h
  · split at h
    · cases h
    · cases h
      exact .inl rfl
  · next first others hothers hsignificant =>
    have hfront := dropLast_of_significant hothers hsignificant
    have hkept := (prefix_of_significant (first :: others.dropLast)).trans hfront
    split at h
    · next htop =>
      cases h
      exact .inr ⟨[[]], List.cons_ne_nil _ _, htop ▸ hkept, .inl ⟨rfl, rfl⟩⟩
    · next hnotTop =>
      cases h
      have hfree : ∀ p ∈ first :: others.dropLast, separator ∉ p := fun p hp =>
        Text.not_mem_piece (List.dropLast_subset _ (hfront.subset hp))
      exact .inr ⟨_, List.cons_ne_nil _ _, hkept, .inr ⟨rfl,
        endsWithSeparator_significant (List.cons_ne_nil _ _) hnotTop hfree⟩⟩

theorem prefix_of_parent (h : parent? path = some parent) :
    parent <+: path ∧ components parent <+: components path := by
  rcases parent?_cases h with rfl | ⟨kept, hne, hkept, ⟨rfl, rfl⟩ | ⟨rfl, -⟩⟩
  · exact ⟨List.nil_prefix, List.nil_prefix⟩
  · exact ⟨(rejoin_front hne hkept).1, List.nil_prefix⟩
  · obtain ⟨htext, hnames⟩ := rejoin_front hne hkept
    exact ⟨(List.prefix_append _ _).trans htext, hnames⟩

theorem endsWithSeparator_of_parent (h : parent? path = some parent)
    (hne : components parent ≠ []) : endsWithSeparator parent = false := by
  rcases parent?_cases h with rfl | ⟨kept, -, -, ⟨-, rfl⟩ | ⟨-, hend⟩⟩
  · rfl
  · exact absurd rfl hne
  · exact hend

end Whiteout.Path
