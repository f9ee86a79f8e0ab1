import CssSelector.Proofs.Lexing.Case
import CssSelector.Proofs.Lexing.Trim
import CssSelector.Proofs.Reads.Name
import CssSelector.Proofs.Reads.Recast
import CssSelector.Proofs.Tiling

/-!
Letter case that says nothing. In names of pseudo-classes and pseudo-elements, in formulas and in the
keyword behind them letters may have any case: the text is still accepted, and nothing but the names
comes out as it is written (`Dialect.parse_recased`).
-/

set_option autoImplicit false

namespace CssSelector

namespace Text

theorem slice?_eq_some {cs xs : List Char} {start stop : Nat} :
    slice? cs start stop = some xs ↔
      ∃ us vs, cs = us ++ xs ++ vs ∧ start = byteSize us ∧ stop = byteSize us + byteSize xs := by
  constructor
  · intro h
    unfold slice? at h
    obtain ⟨⟨us, ys⟩, hstart, h'⟩ := Option.bind_eq_some_iff.1 h
    dsimp only at h'
    split at h'
    case isTrue hle =>
      obtain ⟨⟨zs, vs⟩, hstop, h'⟩ := Option.bind_eq_some_iff.1 h'
      obtain rfl : zs = xs := Option.some.inj h'
      obtain ⟨rfl, rfl⟩ := splitAt?_eq_some hstart
      obtain ⟨rfl, hsize⟩ := splitAt?_eq_some hstop
      exact ⟨us, vs, (List.append_assoc _ _ _).symm, rfl, by omega⟩
    case isFalse => contradiction
  · rintro ⟨us, vs, rfl, rfl, rfl⟩
    exact slice?_append us xs vs

theorem slice?_trans {cs xs ys : List Char} {start middle stop : Nat}
    (h : slice? cs start middle = some xs) (h' : slice? cs middle stop = some ys) :
    slice? cs start stop = some (xs ++ ys) := by
  obtain ⟨us, vs, rfl, rfl, rfl⟩ := slice?_eq_some.1 h
  obtain ⟨us', vs', hsplit, hsize, rfl⟩ := slice?_eq_some.1 h'
  rw [← byteSize_append] at hsize
  rw [List.append_assoc us'] at hsplit
  obtain ⟨rfl, rfl⟩ := append_inj_of_byteSize hsplit hsize
  refine slice?_eq_some.2 ⟨us, vs', by simp, rfl, ?_⟩
  simp only [byteSize_append, Nat.add_assoc]

theorem le_of_slice? {cs xs : List Char} {start stop : Nat} (h : slice? cs start stop = some xs) :
    start ≤ stop := by
  obtain ⟨us, vs, -, rfl, rfl⟩ := slice?_eq_some.1 h
  exact Nat.le_add_right _ _

theorem eq_nil_of_slice? {cs xs : List Char} {n : Nat} (h : slice? cs n n = some xs) : xs = [] := by
  obtain ⟨us, vs, -, hstart, hstop⟩ := slice?_eq_some.1 h
  by_contra hne
  have hpos := byteSize_pos hne
  omega

end Text

open Text

/-- Related lists are a list and its image, if no element is there twice. -/
theorem exists_map_of_forall₂ {α : Type} [DecidableEq α] {R : α → α → Prop} {xs ys : List α}
    (h : List.Forall₂ R xs ys) (hn : xs.Nodup) :
    ∃ g : α → α, ys = xs.map g ∧ ∀ x ∈ xs, R x (g x) := by
  induction h with
  | nil => exact ⟨id, rfl, nofun⟩
  | @cons x y xs ys hx _ ih =>
    obtain ⟨hnot, hn⟩ := List.nodup_cons.1 hn
    obtain ⟨g, rfl, hg⟩ := ih hn
    have hother : ∀ z ∈ xs, Function.update g x y z = g z := by
      intro z hz
      refine Function.update_of_ne ?_ _ _
      rintro rfl
      exact hnot hz
    refine ⟨Function.update g x y, ?_, List.forall_mem_cons.2 ⟨?_, fun z hz => ?_⟩⟩
    · rw [List.map_cons, Function.update_self, List.map_congr_left hother]
    · rwa [Function.update_self]
    · rw [hother z hz]
      exact hg z hz

namespace Role

def caseless : Role → Bool
  | name | formula | keyword => true
  | _ => false

end Role

def SameSlice (text text' : String) (t u : Token) : Prop :=
  ∃ cs, slice? text.toList t.position u.position = some cs ∧
    slice? text'.toList t.position u.position = some cs

instance (text text' : String) :
    Trans (SameSlice text text') (SameSlice text text') (SameSlice text text') where
  trans h h' := by
    obtain ⟨cs, hcs, hcs'⟩ := h
    obtain ⟨ds, hds, hds'⟩ := h'
    exact ⟨cs ++ ds, slice?_trans hcs hds, slice?_trans hcs' hds'⟩

/-- The case of letters is changed in names, formulas and keywords only. -/
structure Recased (d : Dialect) (ts : List Token) (text text' : String) : Prop where
  letters : fold text' = fold text
  elsewhere : (Zone.selector.roles d ts).IsChain fun a b =>
    ¬a.2.caseless → SameSlice text text' a.1 b.1

section
variable {d : Dialect} {text text' : String} {ts : List Token} {g : Token → Token}

open Parse

theorem text_eq_of_sameSlice {before before' after after' : List Token} {t t' u u' : Token}
    (h : tokenize text = .ok (before ++ t :: u :: after))
    (h' : tokenize text' = .ok (before' ++ t' :: u' :: after')) (ht : t'.position = t.position)
    (hu : u'.position = u.position) (hs : SameSlice text text' t u) : t'.text = t.text := by
  obtain ⟨cs, hcs, htile⟩ := tile_of_tokenize h
  obtain ⟨cs', hcs', htile'⟩ := tile_of_tokenize h'
  obtain ⟨ds, hds, hds'⟩ := hs
  rw [ht, hu] at hcs'
  obtain rfl := Option.some.inj (hcs.symm.trans hds)
  obtain rfl := Option.some.inj (hcs'.symm.trans hds')
  have htokens := Except.ok.inj (htile.symm.trans htile')
  exact (congrArg Token.text (List.cons.inj htokens).1).symm

theorem Recased.edit (H : Recased d ts text text') (h : tokenize text = .ok ts)
    (h' : tokenize text' = .ok (ts.map g)) (hg : ∀ t ∈ ts, t.Alike (g t)) :
    ∀ a ∈ Zone.selector.roles d ts.dropLast, Edit fold id a.2 a.1 [g a.1] := by
  obtain ⟨-, us, e, rfl, -⟩ := tokenize_eq_ok h
  rw [List.dropLast_concat]
  intro a ha
  obtain ⟨xs, ys, rfl, hrole⟩ := Zone.exists_split_of_mem_roles ha
  obtain ⟨hkind, hfold, hpos⟩ := hg a.1 (by simp)
  have hedit (hk : a.2.Keeps fold a.1.text (g a.1).text) : Edit fold id a.2 a.1 [g a.1] := by
    have hmk := @Edit.mk fold id _ _ [] [] _ .nil .nil (absurd rfl) (absurd rfl) hk
    rwa [← hkind, id, ← hpos] at hmk
  by_cases hcaseless : a.2.caseless
  · refine hedit ?_
    generalize a.2 = ρ at hcaseless
    cases ρ <;> first | exact hfold | contradiction
  · obtain ⟨u, zs, hzs⟩ := List.exists_cons_of_ne_nil (List.append_ne_nil_of_right_ne_nil ys
      (List.cons_ne_nil e []))
    rw [List.append_assoc, List.cons_append, hzs] at h h' H hg
    rw [List.map_append, List.map_cons, List.map_cons] at h'
    have hchain := H.elsewhere
    rw [Zone.roles_append, Zone.roles, Zone.roles, hrole, List.isChain_append_cons_cons] at hchain
    have hsame := text_eq_of_sameSlice h h' hpos (hg u (by simp)).2.2 (hchain.2.1 hcaseless)
    refine hedit ?_
    rw [hsame]
    exact a.2.keeps_refl fold a.1.text

theorem Recased.sameSlice_of_loose (H : Recased d ts text text') {us : List (Token × Role)}
    (hi : us <:+: Zone.selector.roles d ts.dropLast) (hloose : ∀ a ∈ us, a.2 = .loose) :
    (us.map Prod.fst).Pairwise (SameSlice text text') := by
  have hchain : us.IsChain fun a b => SameSlice text text' a.1 b.1 := by
    obtain ⟨zs, hzs⟩ := List.dropLast_prefix ts
    have hroles := H.elsewhere
    obtain ⟨as, bs, hsplit⟩ := hi
    rw [← hzs, Zone.roles_append, ← hsplit] at hroles
    refine hroles.left_of_append.left_of_append.right_of_append.imp_of_mem_imp
      fun a b ha _ h => h ?_
    rw [hloose a ha]
    decide
  -- pieces that are kept between neighbours are kept between any two of the tokens
  exact List.isChain_iff_pairwise.1 ((List.isChain_map Prod.fst).2 hchain)

theorem Recased.keptLoose (H : Recased d ts text text') (h : tokenize text = .ok ts)
    (h' : tokenize text' = .ok (ts.map g)) (hg : ∀ t ∈ ts, t.Alike (g t)) :
    KeptLoose ⟨d, text.toList⟩ ⟨d, text'.toList⟩ id .selector ts.dropLast := by
  intro o us hi _ hloose
  have hmem : ∀ t ∈ (o :: us).map Prod.fst, t ∈ ts := by
    intro t ht
    obtain ⟨a, ha, rfl⟩ := List.mem_map.1 ht
    exact List.mem_of_mem_dropLast (Zone.fst_mem_of_mem_roles (hi.subset ha))
  have hsame := H.sameSlice_of_loose hi hloose
  have hplaced : ∀ t ∈ ts, t.Before text'.toList t := by
    intro t ht
    have hb := (tokenize_eq_ok h').1.placed (g t) (List.mem_map_of_mem ht)
    rwa [Token.Before, (hg t ht).2.2] at hb
  have hincreasing : ((o :: us).map Prod.fst).Pairwise fun t u => t.position < u.position := by
    have hsub := (hi.map Prod.fst).sublist
    rw [Zone.map_fst_roles] at hsub
    exact (tokenize_increasing h).sublist (hsub.trans (List.dropLast_sublist ts))
  refine List.Pairwise.forall_of_forall_of_flip (fun t ht cs hcs => ?_) (hsame.imp ?_)
    (hincreasing.imp ?_)
  · obtain ⟨ds, hds⟩ := Option.isSome_iff_exists.1 (hplaced t (hmem t ht))
    obtain rfl := eq_nil_of_slice? hcs
    obtain rfl := eq_nil_of_slice? hds
    exact hds
  · rintro t u ⟨cs, hcs, hcs'⟩ ds hds
    obtain rfl := Option.some.inj (hcs.symm.trans hds)
    exact hcs'
  · intro t u hlt cs hcs
    exact absurd (le_of_slice? hcs) (Nat.not_le_of_lt hlt)

/-- The names of pseudo-classes and pseudo-elements that are written in a text with these tokens, each
with its offset. -/
def Dialect.writtenNames (d : Dialect) (ts : List Token) : List (String × Nat) :=
  Zone.names (Zone.selector.roles d ts.dropLast)

/-- The same warning, which is about no name, or two warnings about names at one place that differ in
letter case only: each quotes the name that is written there in its own text. -/
inductive Warning.SameButName (names names' : List (String × Nat)) : Warning → Warning → Prop
  | same {f : Feature} {n : Nat} : f.name? = none →
    SameButName names names' ⟨f.message, n⟩ ⟨f.message, n⟩
  | name {category : Category} {name name' : String} {n : Nat} : (name, n) ∈ names →
    (name', n) ∈ names' → fold name' = fold name →
    SameButName names names' ⟨(Feature.pseudo category name).message, n⟩
      ⟨(Feature.pseudo category name').message, n⟩

/-- What is read is the same, but for the letter case of names, which come out as they are written. -/
structure Reading.SameButNames (names names' : List (String × Nat)) (r r' : Reading) : Prop where
  tree : r'.selector.mapNames fold = r.selector.mapNames fold
  written : r.selector.names = names.map Prod.fst ∧ r'.selector.names = names'.map Prod.fst
  warnings : List.Forall₂ (Warning.SameButName names names') r.warnings r'.warnings

namespace Dialect

theorem names_of_reads {c : Context} {xs : List Token} {s : Selector} {ms : List Mention}
    (h : Reads c xs (.selector s) ms) : s.names = (ms.filterMap Mention.name?).map Prod.fst := by
  have hfeatures : ms.map Mention.feature = s.features := h.features
  rw [Selector.names, ← hfeatures, List.filterMap_map, List.map_filterMap]
  refine List.filterMap_congr fun m _ => ?_
  rw [Mention.name?, Option.map_map]
  exact (Option.map_id' (x := m.feature.name?)).symm

theorem sameButName_warning {names names' : List (String × Nat)} {m n : Mention}
    (h : m.mapName fold = n.mapName fold) (hm : ∀ p ∈ m.name?, p ∈ names)
    (hn : ∀ p ∈ n.name?, p ∈ names') : Warning.SameButName names names' m.warning n.warning := by
  obtain ⟨f, i⟩ := m
  obtain ⟨f', j⟩ := n
  obtain ⟨hfeature, rfl⟩ := Mention.mk.inj h
  cases f with
  | pseudo category name =>
    cases f' with
    | pseudo category' name' =>
      obtain ⟨rfl, hname⟩ := Feature.pseudo.inj hfeature
      exact .name (hm _ rfl) (hn _ rfl) hname.symm
    | _ => cases hfeature
  | operator | modifier | combinator =>
    cases f' with
    | pseudo => cases hfeature
    | _ => cases hfeature <;> exact .same rfl

theorem warnings_sameButName {d : Dialect} {names names' : List (String × Nat)} {ms ns : List Mention}
    (h : List.Forall₂ (fun m n => m.mapName fold = n.mapName fold) ms ns)
    (hm : ∀ m ∈ ms, ∀ p ∈ m.name?, p ∈ names) (hn : ∀ n ∈ ns, ∀ p ∈ n.name?, p ∈ names') :
    List.Forall₂ (Warning.SameButName names names') (d.warnings ms) (d.warnings ns) := by
  induction h with
  | nil => exact .nil
  | @cons m n ms ns hmn _ ih =>
    obtain ⟨hm, hms⟩ := List.forall_mem_cons.1 hm
    obtain ⟨hn, hns⟩ := List.forall_mem_cons.1 hn
    have hflags : d.flags m.feature = d.flags n.feature :=
      (folds_fold.admits_eq (congrArg Mention.feature hmn)).2
    rw [warnings, warnings, List.filter_cons, List.filter_cons, hflags]
    split
    · exact .cons (sameButName_warning hmn hm hn) (ih hms hns)
    · exact ih hms hns

/-- Letters of names, formulas and keywords may have any case. -/
theorem parse_recased {r : Reading} (h : tokenize text = .ok ts) (hr : d.parse text = .ok r)
    (H : Recased d ts text text') :
    ∃ us r', tokenize text' = .ok us ∧ d.parse text' = .ok r' ∧
      r.SameButNames (d.writtenNames ts) (d.writtenNames us) r' := by
  obtain ⟨ts, ht, ms, hread, hpass⟩ := parse_eq_ok.1 hr
  cases h.symm.trans ht
  obtain ⟨us, hus, halike⟩ := exists_tokenize_of_fold h H.letters
  have hnodup : ts.Nodup := (tokenize_increasing h).imp fun hlt heq => by
    rw [heq] at hlt
    exact lt_irrefl _ hlt
  obtain ⟨g, rfl, hg⟩ := exists_map_of_forall₂ halike hnodup
  have E : Edits ⟨d, text.toList⟩ ⟨d, text'.toList⟩ fold id (fun t => [g t]) .selector ts.dropLast :=
    ⟨H.edit h hus hg, H.keptLoose h hus hg⟩
  have hstarts {s : Selector} : (Phrase.selector s).Starts .selector := Zone.open_selector
  obtain ⟨s', ns, hread', htree, hn⟩ := hread.recast folds_fold (by exact fun _ _ => rfl) hstarts E
  rw [← List.map_eq_flatMap, List.map_dropLast] at hread'
  rw [Relabelled, Mention.move_id, List.map_id] at hn
  refine ⟨_, ⟨s', d.warnings ns⟩, hus, parse_eq_ok.2 ⟨_, hus, ns, hread', hpass.rename folds_fold hn⟩,
    htree, ?_, ?_⟩
  · rw [names_of_reads hread, names_of_reads hread', hread.names hstarts, hread'.names hstarts]
    exact ⟨rfl, rfl⟩
  · have hnames := hread.names hstarts
    have hnames' := hread'.names hstarts
    have hpairs : List.Forall₂ (fun m n => m.mapName fold = n.mapName fold) ms ns := by
      have hmap := hn.symm
      rwa [← List.forall₂_eq_eq_eq, List.forall₂_map_left_iff, List.forall₂_map_right_iff] at hmap
    have hmem {ls : List Mention} {names : List (String × Nat)}
        (h : ls.filterMap Mention.name? = names) : ∀ m ∈ ls, ∀ p ∈ m.name?, p ∈ names :=
      fun m hm p hp => h ▸ List.mem_filterMap.2 ⟨m, hm, hp⟩
    rw [hpass.2]
    exact warnings_sameButName hpairs (hmem hnames) (hmem hnames')

/-- Letters that are digits of an escape may have any case, too. The warning about the combinator
stays, and the one about the last name has the name as it is written. -/
theorem parse_recased_escape :
    let d : Dialect := ⟨.insert .empty "no" (.required .formulaOfSelector), .empty, .warn, .reject,
      {}, ⟨[], .warn⟩⟩
    let ts : List Token := [⟨.colon, ":", 0⟩, ⟨.ident, "no", 1⟩, ⟨.leftParen, "(", 5⟩,
      ⟨.ident, "n", 6⟩, ⟨.whitespace, " ", 7⟩, ⟨.ident, "of", 8⟩, ⟨.whitespace, " ", 10⟩,
      ⟨.ident, "a", 11⟩, ⟨.rightParen, ")", 12⟩, ⟨.combinator, ">", 13⟩, ⟨.colon, ":", 14⟩,
      ⟨.ident, "b", 15⟩, ⟨.endOfInput, "", 16⟩]
    let us : List Token := [⟨.colon, ":", 0⟩, ⟨.ident, "No", 1⟩, ⟨.leftParen, "(", 5⟩,
      ⟨.ident, "N", 6⟩, ⟨.whitespace, " ", 7⟩, ⟨.ident, "OF", 8⟩, ⟨.whitespace, " ", 10⟩,
      ⟨.ident, "a", 11⟩, ⟨.rightParen, ")", 12⟩, ⟨.combinator, ">", 13⟩, ⟨.colon, ":", 14⟩,
      ⟨.ident, "B", 15⟩, ⟨.endOfInput, "", 16⟩]
    ∃ r r', tokenize ":n\\6f(n of a)>:b" = .ok ts ∧ d.parse ":n\\6f(n of a)>:b" = .ok r ∧
      Recased d ts ":n\\6f(n of a)>:b" ":N\\6F(N OF a)>:B" ∧
      tokenize ":N\\6F(N OF a)>:B" = .ok us ∧ d.parse ":N\\6F(N OF a)>:B" = .ok r' ∧
      r.SameButNames [("no", 1), ("b", 15)] [("No", 1), ("B", 15)] r' ∧
      r.warnings = [⟨"Unknown combinator: \">\".", 13⟩, ⟨"Unknown pseudo-class: \"b\".", 15⟩] ∧
      r'.warnings = [⟨"Unknown combinator: \">\".", 13⟩, ⟨"Unknown pseudo-class: \"B\".", 15⟩] := by
  intro d ts us
  have htokens : tokenize ":n\\6f(n of a)>:b" = .ok ts := by cbv
  have htokens' : tokenize ":N\\6F(N OF a)>:B" = .ok us := by cbv
  have hwarnings : (d.parse ":n\\6f(n of a)>:b").toOption.map Reading.warnings =
      some [⟨"Unknown combinator: \">\".", 13⟩, ⟨"Unknown pseudo-class: \"b\".", 15⟩] := by
    decide +kernel
  have hwarnings' : (d.parse ":N\\6F(N OF a)>:B").toOption.map Reading.warnings =
      some [⟨"Unknown combinator: \">\".", 13⟩, ⟨"Unknown pseudo-class: \"B\".", 15⟩] := by
    decide +kernel
  obtain ⟨r, hr, hws⟩ := exists_reading_of_warnings hwarnings
  obtain ⟨r', hr', hws'⟩ := exists_reading_of_warnings hwarnings'
  have hroles : Zone.selector.roles d ts = ts.zip [.plain, .name, .opening, .formula, .formula,
      .keyword, .plain, .plain, .closing, .separator, .plain, .name, .plain] := by cbv
  have H : Recased d ts ":n\\6f(n of a)>:b" ":N\\6F(N OF a)>:B" := by
    refine ⟨by cbv, ?_⟩
    rw [hroles]
    -- what is left is one piece of the two texts for each token that is kept
    simp only [ts, Role.caseless, SameSlice, Bool.not_eq_true, Bool.true_eq_false, forall_const,
      IsEmpty.forall_iff, String.reduceToList, List.zip_cons_cons, List.zip_nil_right,
      List.isChain_cons_cons, List.IsChain.singleton, and_self, and_true, true_and]
    exact ⟨⟨[':'], rfl, rfl⟩, ⟨['('], rfl, rfl⟩, ⟨[' '], rfl, rfl⟩, ⟨['a'], rfl, rfl⟩,
      ⟨[')'], rfl, rfl⟩, ⟨['>'], rfl, rfl⟩, [':'], rfl, rfl⟩
  obtain ⟨us', t, hus, ht, hsame⟩ := parse_recased htokens hr H
  obtain rfl := Except.ok.inj (htokens'.symm.trans hus)
  obtain rfl := Except.ok.inj (hr'.symm.trans ht)
  have hnames : d.writtenNames ts = [("no", 1), ("b", 15)] := by cbv
  have hnames' : d.writtenNames us = [("No", 1), ("B", 15)] := by cbv
  rw [hnames, hnames'] at hsame
  exact ⟨r, r', htokens, hr, H, htokens', hr', hsame, hws, hws'⟩

end Dialect
end
end CssSelector
