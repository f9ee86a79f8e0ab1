import CssSelector.Proofs.Definitions

/-!
The definitions of a configuration that no signatures can be made of. What is reported of them is the
smallest name that is listed under two grammars of an argument, with the two smallest of these
grammars (`Definitions.smallest_of_signatures`).
-/

set_option autoImplicit false

namespace CssSelector

open Text

def ArgumentGrammar.Precedes (g h : ArgumentGrammar) : Prop := [g, h].Sublist ArgumentGrammar.all

theorem exists_of_mapM_eq_error {α β ε : Type} {f : α → Except ε β} {xs : List α} {e : ε}
    (h : xs.mapM f = .error e) :
    ∃ before x after, xs = before ++ x :: after ∧ (∀ y ∈ before, ∃ z, f y = .ok z) ∧
      f x = .error e := by
  induction xs with
  | nil => cases h
  | cons x xs ih =>
    rw [List.mapM_cons] at h
    cases hx : f x with
    | error e' =>
      rw [hx] at h
      cases h
      exact ⟨[], x, xs, rfl, nofun, hx⟩
    | ok z =>
      rw [hx] at h
      cases hxs : xs.mapM f with
      | ok zs =>
        rw [hxs] at h
        cases h
      | error e' =>
        rw [hxs] at h
        cases h
        obtain ⟨before, y, after, rfl, hbefore, hy⟩ := ih hxs
        exact ⟨x :: before, y, after, rfl, List.forall_mem_cons.2 ⟨⟨z, hx⟩, hbefore⟩, hy⟩

namespace Definitions
variable {d : Definitions} {name : String} {g h : ArgumentGrammar}

/-- The name, in lower case, is listed under two grammars that take an argument. -/
def Ambiguous (d : Definitions) (name : String) : Prop :=
  ∃ g h, g ≠ h ∧ g ≠ .noArgument ∧ h ≠ .noArgument ∧ d.Lists g name ∧ d.Lists h name

/-- The two grammars are, in their order, the first ones of an argument that the name is listed
under. -/
structure Smallest (d : Definitions) (name : String) (first second : ArgumentGrammar) : Prop where
  bearing : first ≠ .noArgument ∧ second ≠ .noArgument
  listed : d.Lists first name ∧ d.Lists second name
  ordered : first.Precedes second
  least : ∀ g, g ≠ .noArgument → d.Lists g name → g = first ∨ g = second ∨ second.Precedes g

theorem ambiguous_iff :
    d.Ambiguous name ↔ ¬∃ s, Signature.ofGrammars (grammarsOf name d.entries) = .ok s := by
  simp only [Signature.exists_ofGrammars_iff, mem_grammarsOf, Ambiguous]
  push Not
  constructor
  · rintro ⟨g, h, hne, hg, hh, hlg, hlh⟩
    exact ⟨g, hlg, h, hlh, hg, hh, hne⟩
  · rintro ⟨g, hlg, h, hlh, hg, hh, hne⟩
    exact ⟨g, h, hne, hg, hh, hlg, hlh⟩

theorem pairwise_grammarsOf (d : Definitions) (name : String) :
    (grammarsOf name d.entries).Pairwise fun g h => g = h ∨ g.Precedes h := by
  have hentries : (d.entries.map (·.1)).Pairwise fun g h => g = h ∨ g.Precedes h := by
    have hmap : d.entries.map (·.1) =
        ArgumentGrammar.all.flatMap fun g => List.replicate (d.names g).length g := by
      rw [entries, List.map_flatMap]
      refine congrArg (List.flatMap · _) (funext fun g => ?_)
      rw [List.map_map]
      exact List.map_const'
    rw [hmap, List.pairwise_flatMap]
    refine ⟨fun g _ => List.pairwise_replicate.2 (.inr (.inl rfl)), ?_⟩
    refine List.pairwise_iff_forall_sublist.2 fun hsub x hx y hy => .inr ?_
    rwa [List.eq_of_mem_replicate hx, List.eq_of_mem_replicate hy]
  exact hentries.sublist (List.filter_sublist.map _)

theorem eq_or_precedes_of_find? {gs : List ArgumentGrammar} {p : ArgumentGrammar → Bool}
    (hgs : gs.Pairwise fun g h => g = h ∨ g.Precedes h) (hg : gs.find? p = some g) (hh : h ∈ gs)
    (hp : p h) : g = h ∨ g.Precedes h := by
  obtain ⟨-, before, after, rfl, hbefore⟩ := List.find?_eq_some_iff_append.1 hg
  obtain hmem | hmem := List.mem_append.1 hh
  · have hnot := hbefore h hmem
    rw [hp] at hnot
    contradiction
  · obtain rfl | hmem := List.mem_cons.1 hmem
    · exact .inl rfl
    · exact (List.pairwise_cons.1 (List.pairwise_append.1 hgs).2.1).1 h hmem

theorem smallest_of_ofGrammars
    (hs : Signature.ofGrammars (grammarsOf name d.entries) = .error (g, h)) :
    d.Smallest name g h := by
  obtain ⟨hg, hh⟩ := Signature.ofGrammars_eq_error_iff.1 hs
  have hbearing : g ≠ .noArgument := by simpa using List.find?_some hg
  have hsecond : h ≠ .noArgument ∧ h ≠ g := by simpa using List.find?_some hh
  have hlh := List.mem_of_find?_eq_some hh
  have hordered := d.pairwise_grammarsOf name
  refine ⟨⟨hbearing, hsecond.1⟩, ⟨mem_grammarsOf.1 (List.mem_of_find?_eq_some hg),
    mem_grammarsOf.1 hlh⟩, ?_, fun k hk hlk => ?_⟩
  · have hle := eq_or_precedes_of_find? hordered hg hlh (by simpa using hsecond.1)
    exact hle.resolve_left (Ne.symm hsecond.2)
  · by_cases hkg : k = g
    · exact .inl hkg
    · have hle := eq_or_precedes_of_find? hordered hh (mem_grammarsOf.2 hlk) (by simp [hk, hkg])
      exact .inr (hle.imp_left Eq.symm)

theorem ofGroup_eq_error {category : Category} {e : String × List ArgumentGrammar} {x : ConfigError}
    (hx : ofGroup category e = .error x) :
    ∃ g h, Signature.ofGrammars e.2 = .error (g, h) ∧ x = .ambiguousDefinition category e.1 g h := by
  rw [ofGroup] at hx
  split at hx
  · contradiction
  case h_2 g h he =>
    cases hx
    exact ⟨g, h, he, rfl⟩

/-- Definitions fail because of their smallest ambiguous name and of its two smallest grammars. -/
theorem smallest_of_signatures {category : Category} {x : ConfigError}
    (hx : d.signatures category = .error x) :
    ∃ name g h, x = .ambiguousDefinition category name g h ∧ d.Smallest name g h ∧
      ∀ n, d.Ambiguous n → n = name ∨ bytes name < bytes n := by
  obtain ⟨before, ⟨name, gs⟩, after, hsplit, hbefore, he⟩ :=
    exists_of_mapM_eq_error (f := ofGroup category) hx
  have hmem {e : String × List ArgumentGrammar} (h : e ∈ before ++ (name, gs) :: after) :
      e.2 = grammarsOf e.1 d.entries := (mem_grouped.1 (hsplit ▸ h)).1
  obtain ⟨g, h, hgs, rfl⟩ := ofGroup_eq_error he
  have hown := hmem (List.mem_append_right before List.mem_cons_self)
  dsimp only at hown hgs
  subst hown
  refine ⟨name, g, h, rfl, smallest_of_ofGrammars hgs, fun n hn => ?_⟩
  have hl : ∃ k, d.Lists k n := hn.imp fun _ ⟨_, _, _, _, hk, _⟩ => hk
  obtain ⟨gs', hgs'⟩ := (exists_grouped_iff n).2 hl
  rw [hsplit] at hgs'
  obtain hlow | hhigh := List.mem_append.1 hgs'
  · -- a name before it has a signature
    obtain ⟨s, hs⟩ := hbefore _ hlow
    have hok := (ofGroup_eq_ok_iff.1 hs).2
    rw [hmem hgs'] at hok
    exact absurd ⟨_, hok⟩ (ambiguous_iff.1 hn)
  · obtain heq | hhigh := List.mem_cons.1 hhigh
    · exact .inl (congrArg Prod.fst heq)
    · have hsorted := d.grouped.sorted
      rw [hsplit] at hsorted
      have hlt := (List.pairwise_cons.1 (List.pairwise_append.1 hsorted).2.1).1 _ hhigh
      exact .inr (bytes_lt hlt)

end Definitions
end CssSelector
